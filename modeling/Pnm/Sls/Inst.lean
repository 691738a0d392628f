import Pnm.Lib.BitField

/-!
# `Sls.Inst` — instruction words and the address map of the simulators

The model of `core/device/sls/utils/inst_generator.h` with the layout constants of
`hw/pnm_hw_instr_constants.h` and the simulator's address map (`hw/pnm_sim_addr_constants.h`). An address is
split over the row, bank group, bank and column fields of an instruction; the ranked generator (AXDIMM)
stores bank bits exclusive-ored with row bits, the channel generator (CXL) stores them as they are.

Main results: `Channel.address_roundTrip` and `Ranked.address_roundTrip` (splitting an aligned address and
rebuilding it), and `decode_encode` (an instruction whose fields are in range survives its 64-bit word).
-/

namespace Pnm.Sls

open Pnm.Lib

/-! ## The instruction word -/

/-- `RankedInstGenerator::DecodedInst`. -/
@[ext] structure DecodedInst where
  opcode : Nat := 0
  localBit : Nat := 0
  outputIdx : Nat := 0
  traceEnd : Nat := 0
  row : Nat := 0
  bankgroup : Nat := 0
  bank : Nat := 0
  column : Nat := 0
deriving DecidableEq, Repr

/-- `make_empty_instruction`. -/
def makeEmptyInstruction (opcode outputIdx : Nat) : DecodedInst := { opcode, outputIdx }

/-- `encode_instruction`: the fields are added, not or-ed, so a field out of range spills over. -/
def encodeInstruction (inst : DecodedInst) : Nat :=
  ((inst.opcode <<< 62) + (inst.localBit <<< 61) + (inst.outputIdx <<< 49) + (inst.traceEnd <<< 48) +
    (inst.row <<< 14) + (inst.bankgroup <<< 12) + (inst.bank <<< 10) + (inst.column <<< 0)) % 2 ^ 64

/-- `decode_instruction`. -/
def decodeInstruction (w : Nat) : DecodedInst where
  opcode    := bitField w 62 0x03
  localBit  := bitField w 61 0x01
  outputIdx := bitField w 49 0x0FFF
  traceEnd  := bitField w 48 0x01
  row       := bitField w 14 0x01FFFF
  bankgroup := bitField w 12 0x03
  bank      := bitField w 10 0x03
  column    := bitField w 0 0x03FF

/-- Every field fits its place in the word. -/
structure DecodedInst.InRange (inst : DecodedInst) : Prop where
  opcode : inst.opcode < 2 ^ 2
  localBit : inst.localBit < 2
  outputIdx : inst.outputIdx < 2 ^ 12
  traceEnd : inst.traceEnd < 2
  row : inst.row < 2 ^ 17
  bankgroup : inst.bankgroup < 2 ^ 2
  bank : inst.bank < 2 ^ 2
  column : inst.column < 2 ^ 10

/-- The word of an instruction in range, as a sum; bits 31 to 47 are unused. -/
theorem encodeInstruction_eq {inst : DecodedInst} (h : inst.InRange) :
    encodeInstruction inst
      = inst.opcode * 2 ^ 62 + inst.localBit * 2 ^ 61 + inst.outputIdx * 2 ^ 49 + inst.traceEnd * 2 ^ 48 +
        inst.row * 2 ^ 14 + inst.bankgroup * 2 ^ 12 + inst.bank * 2 ^ 10 + inst.column := by
  obtain ⟨h1, h2, h3, h4, h5, h6, h7, h8⟩ := h
  simp only [encodeInstruction, Nat.shiftLeft_eq]
  omega

theorem decodeInstruction_eq (w : Nat) :
    decodeInstruction w
      = { opcode := w / 2 ^ 62 % 2 ^ 2, localBit := w / 2 ^ 61 % 2 ^ 1, outputIdx := w / 2 ^ 49 % 2 ^ 12
          traceEnd := w / 2 ^ 48 % 2 ^ 1, row := w / 2 ^ 14 % 2 ^ 17, bankgroup := w / 2 ^ 12 % 2 ^ 2
          bank := w / 2 ^ 10 % 2 ^ 2, column := w / 2 ^ 0 % 2 ^ 10 } := by
  ext <;> exact bitField_eq _ _ rfl

/-- **An instruction in range survives its word.** -/
theorem decode_encode {inst : DecodedInst} (h : inst.InRange) :
    decodeInstruction (encodeInstruction inst) = inst := by
  have heq := encodeInstruction_eq h
  obtain ⟨h1, h2, h3, h4, h5, h6, h7, h8⟩ := h
  rw [decodeInstruction_eq, heq]
  ext <;> simp only <;> omega

/-- Setting the end mark of a word that has none. -/
theorem decode_setTraceEnd {inst : DecodedInst} (h : inst.InRange) (hend : inst.traceEnd = 0) :
    decodeInstruction (encodeInstruction inst ||| (1 <<< 48)) = { inst with traceEnd := 1 } := by
  have heq := encodeInstruction_eq h
  have hin : ({ inst with traceEnd := 1 } : DecodedInst).InRange :=
    ⟨h.opcode, h.localBit, h.outputIdx, Nat.one_lt_two, h.row, h.bankgroup, h.bank, h.column⟩
  have hclear : encodeInstruction inst / 2 ^ 48 % 2 = 0 := by
    obtain ⟨h1, h2, h3, h4, h5, h6, h7, h8⟩ := h
    omega
  have hword : encodeInstruction inst ||| (1 <<< 48) = encodeInstruction { inst with traceEnd := 1 } := by
    have heq' := encodeInstruction_eq hin
    simp only at heq'
    calc encodeInstruction inst ||| (1 <<< 48) = encodeInstruction inst + 2 ^ 48 := or_bit_of_clear hclear
      _ = encodeInstruction { inst with traceEnd := 1 } := by omega
  rw [hword, decode_encode hin]

/-! ## The address map -/

/-- `hw::BitRegionEntry`. -/
structure BitRegionEntry where
  raOffset : Nat
  mask : Nat
  startBit : Nat

/-- `hw::BitXorEntry`. -/
structure BitXorEntry where
  raOffset0 : Nat
  raOffset1 : Nat
  startBit : Nat

/-- `hw_sim_addr_map::COL`. -/
def colMap : List BitRegionEntry := [⟨3, 0x1F, 0⟩, ⟨14, 0x1F, 5⟩]

/-- `hw_sim_addr_map::ROW`. -/
def rowMap : List BitRegionEntry := [⟨8, 0x0F, 0⟩, ⟨28, 0x01, 4⟩, ⟨21, 0x07F, 5⟩, ⟨29, 0x01F, 12⟩]

/-- `hw_sim_addr_map::BG`. -/
def bgMap : List BitXorEntry := [⟨21, 12, 0⟩, ⟨22, 13, 1⟩]

/-- `hw_sim_addr_map::BANK`. -/
def bankMap : List BitXorEntry := [⟨23, 19, 0⟩, ⟨24, 20, 1⟩]

/-- Spread a field over the address. -/
def spread (entries : List BitRegionEntry) (field addr : Nat) : Nat :=
  entries.foldl (fun addr e => addr + (bitField field e.startBit e.mask) <<< e.raOffset) addr

/-- Collect a field from the address. -/
def collect (entries : List BitRegionEntry) (addr : Nat) : Nat :=
  entries.foldl (fun field e => field + (bitField addr e.raOffset e.mask) <<< e.startBit) 0

namespace Ranked

/-- Put bank bits into the address, each exclusive-ored with a row bit already there. -/
def spreadXor (entries : List BitXorEntry) (field addr : Nat) : Nat :=
  entries.foldl
    (fun addr e => addr + (bitField field e.startBit 1 ^^^ bitField addr e.raOffset0 1) <<< e.raOffset1) addr

/-- `RankedInstGenerator::encode_address_from_instruction`. -/
def encodeAddressFromInstruction (inst : DecodedInst) : Nat :=
  spreadXor bankMap inst.bank
    (spreadXor bgMap inst.bankgroup (spread rowMap inst.row (spread colMap inst.column 0)))

/-- The bank bits of an address, each exclusive-ored with a row bit. -/
def collectXor (entries : List BitXorEntry) (addr : Nat) : Nat :=
  entries.foldl
    (fun field e => field + (bitField addr e.raOffset0 1 ^^^ bitField addr e.raOffset1 1) <<< e.startBit) 0

/-- `RankedInstGenerator::decode_address_to_instruction`. -/
def decodeAddressToInstruction (addr : Nat) (inst : DecodedInst) : DecodedInst :=
  { inst with
      bankgroup := collectXor bgMap addr
      bank := collectXor bankMap addr
      row := collect rowMap addr
      column := collect colMap addr }

end Ranked

namespace Channel

/-- Overwrite the bank bits of the address. -/
def overwrite (entries : List BitXorEntry) (field addr : Nat) : Nat :=
  entries.foldl (fun addr e => rewriteBit 64 addr e.raOffset1 (bitField field e.startBit 1)) addr

/-- `ChannelInstGenerator::encode_address_from_instruction`: the ranked address, with the bank and bank
    group bits rewritten. -/
def encodeAddressFromInstruction (inst : DecodedInst) : Nat :=
  overwrite bgMap inst.bankgroup (overwrite bankMap inst.bank (Ranked.encodeAddressFromInstruction inst))

/-- The bank bits of an address, as they are. -/
def collectRaw (entries : List BitXorEntry) (addr : Nat) : Nat :=
  entries.foldl (fun field e => field ||| (bitField addr e.raOffset1 1) <<< e.startBit) 0

/-- `ChannelInstGenerator::decode_address_to_instruction`. -/
def decodeAddressToInstruction (addr : Nat) (inst : DecodedInst) : DecodedInst :=
  { Ranked.decodeAddressToInstruction addr inst with
      bankgroup := collectRaw bgMap addr
      bank := collectRaw bankMap addr }

end Channel

/-! ## Splitting and rebuilding an address -/

theorem spread_colMap (c addr : Nat) :
    spread colMap c addr = addr + c % 2 ^ 5 * 2 ^ 3 + c / 2 ^ 5 % 2 ^ 5 * 2 ^ 14 := by
  have h0 : bitField c 0 0x1F = c % 2 ^ 5 := bitField_zero c rfl
  have h1 : bitField c 5 0x1F = c / 2 ^ 5 % 2 ^ 5 := bitField_eq c 5 rfl
  unfold spread colMap
  simp only [List.foldl_cons, List.foldl_nil]
  rw [h0, h1, Nat.shiftLeft_eq, Nat.shiftLeft_eq]

theorem spread_rowMap (r addr : Nat) :
    spread rowMap r addr = addr + r % 2 ^ 4 * 2 ^ 8 + r / 2 ^ 4 % 2 * 2 ^ 28 + r / 2 ^ 5 % 2 ^ 7 * 2 ^ 21 +
      r / 2 ^ 12 % 2 ^ 5 * 2 ^ 29 := by
  have h0 : bitField r 0 0x0F = r % 2 ^ 4 := bitField_zero r rfl
  have h1 : bitField r 4 0x01 = r / 2 ^ 4 % 2 := bitField_one r 4
  have h2 : bitField r 5 0x07F = r / 2 ^ 5 % 2 ^ 7 := bitField_eq r 5 rfl
  have h3 : bitField r 12 0x01F = r / 2 ^ 12 % 2 ^ 5 := bitField_eq r 12 rfl
  unfold spread rowMap
  simp only [List.foldl_cons, List.foldl_nil]
  rw [h0, h1, h2, h3, Nat.shiftLeft_eq, Nat.shiftLeft_eq, Nat.shiftLeft_eq, Nat.shiftLeft_eq]

theorem collect_colMap (a : Nat) : collect colMap a = a / 2 ^ 3 % 2 ^ 5 + a / 2 ^ 14 % 2 ^ 5 * 2 ^ 5 := by
  have h0 : bitField a 3 0x1F = a / 2 ^ 3 % 2 ^ 5 := bitField_eq a 3 rfl
  have h1 : bitField a 14 0x1F = a / 2 ^ 14 % 2 ^ 5 := bitField_eq a 14 rfl
  unfold collect colMap
  simp only [List.foldl_cons, List.foldl_nil]
  rw [h0, h1, Nat.shiftLeft_zero, Nat.shiftLeft_eq, Nat.zero_add]

theorem collect_rowMap (a : Nat) :
    collect rowMap a = a / 2 ^ 8 % 2 ^ 4 + a / 2 ^ 28 % 2 * 2 ^ 4 + a / 2 ^ 21 % 2 ^ 7 * 2 ^ 5 +
      a / 2 ^ 29 % 2 ^ 5 * 2 ^ 12 := by
  have h0 : bitField a 8 0x0F = a / 2 ^ 8 % 2 ^ 4 := bitField_eq a 8 rfl
  have h1 : bitField a 28 0x01 = a / 2 ^ 28 % 2 := bitField_one a 28
  have h2 : bitField a 21 0x07F = a / 2 ^ 21 % 2 ^ 7 := bitField_eq a 21 rfl
  have h3 : bitField a 29 0x01F = a / 2 ^ 29 % 2 ^ 5 := bitField_eq a 29 rfl
  unfold collect rowMap
  simp only [List.foldl_cons, List.foldl_nil]
  rw [h0, h1, h2, h3, Nat.shiftLeft_zero, Nat.shiftLeft_eq, Nat.shiftLeft_eq, Nat.shiftLeft_eq, Nat.zero_add]

/-- Digits of a column field. -/
theorem column_digits {c0 c1 : Nat} (h0 : c0 < 2 ^ 5) (h1 : c1 < 2 ^ 5) :
    (c0 + c1 * 2 ^ 5) % 2 ^ 5 = c0 ∧ (c0 + c1 * 2 ^ 5) / 2 ^ 5 % 2 ^ 5 = c1 := by
  omega

/-- Digits of a row field. -/
theorem row_digits {r0 r1 r2 r3 : Nat} (h0 : r0 < 2 ^ 4) (h1 : r1 < 2) (h2 : r2 < 2 ^ 7) (h3 : r3 < 2 ^ 5) :
    (r0 + r1 * 2 ^ 4 + r2 * 2 ^ 5 + r3 * 2 ^ 12) % 2 ^ 4 = r0 ∧
      (r0 + r1 * 2 ^ 4 + r2 * 2 ^ 5 + r3 * 2 ^ 12) / 2 ^ 4 % 2 = r1 ∧
      (r0 + r1 * 2 ^ 4 + r2 * 2 ^ 5 + r3 * 2 ^ 12) / 2 ^ 5 % 2 ^ 7 = r2 ∧
      (r0 + r1 * 2 ^ 4 + r2 * 2 ^ 5 + r3 * 2 ^ 12) / 2 ^ 12 % 2 ^ 5 = r3 := by
  omega

/-- An address laid out around its bank bits: `lo` below the bank group, `mid` between the two bank fields
    and `hi` above them. -/
def place (lo g0 g1 mid b0 b1 hi : Nat) : Nat :=
  lo + g0 * 2 ^ 12 + g1 * 2 ^ 13 + mid * 2 ^ 14 + b0 * 2 ^ 19 + b1 * 2 ^ 20 + hi * 2 ^ 21

/-- `place` with the parts of an address `a`, but other bank bits. -/
def placeOf (a g0 g1 b0 b1 : Nat) : Nat :=
  place (a / 2 ^ 3 % 2 ^ 9 * 2 ^ 3) g0 g1 (a / 2 ^ 14 % 2 ^ 5) b0 b1 (a / 2 ^ 21 % 2 ^ 13)

theorem placeOf_self {a : Nat} (ha : a < 2 ^ 34) (h8 : a % 8 = 0) :
    placeOf a (a / 2 ^ 12 % 2) (a / 2 ^ 13 % 2) (a / 2 ^ 19 % 2) (a / 2 ^ 20 % 2) = a := by
  unfold placeOf place
  omega

/-- Rows and columns carry all bits from 3 up except the four bank bits. -/
theorem spread_collect (a : Nat) :
    spread rowMap (collect rowMap a) (spread colMap (collect colMap a) 0) = placeOf a 0 0 0 0 := by
  have lt (n m : Nat) (h : 0 < m) : n % m < m := Nat.mod_lt n h
  obtain ⟨hr0, hr1, hr2, hr3⟩ := row_digits (lt (a / 2 ^ 8) _ (by decide)) (lt (a / 2 ^ 28) 2 (by decide))
    (lt (a / 2 ^ 21) _ (by decide)) (lt (a / 2 ^ 29) _ (by decide))
  obtain ⟨hc0, hc1⟩ := column_digits (lt (a / 2 ^ 3) _ (by decide)) (lt (a / 2 ^ 14) _ (by decide))
  have h1 : a / 2 ^ 3 % 2 ^ 9 = a / 2 ^ 3 % 2 ^ 5 + 2 ^ 5 * (a / 2 ^ 8 % 2 ^ 4) := field_split a 3 5 4
  have h2 : a / 2 ^ 21 % 2 ^ 13 = a / 2 ^ 21 % 2 ^ 7 + 2 ^ 7 * (a / 2 ^ 28 % 2 ^ 6) := field_split a 21 7 6
  have h3 : a / 2 ^ 28 % 2 ^ 6 = a / 2 ^ 28 % 2 + 2 * (a / 2 ^ 29 % 2 ^ 5) := field_split a 28 1 5
  rw [spread_rowMap, spread_colMap, collect_rowMap, collect_colMap, hr0, hr1, hr2, hr3, hc0, hc1]
  unfold placeOf place
  rw [h1, h2, h3]
  ring

section Bank

variable {a g0 g1 b0 b1 : Nat} (hg0 : g0 ≤ 1) (hg1 : g1 ≤ 1) (hb0 : b0 ≤ 1) (hb1 : b1 ≤ 1)
include hg0 hg1 hb0 hb1

theorem placeOf_lt : placeOf a g0 g1 b0 b1 < 2 ^ 64 := by
  unfold placeOf place
  omega

/-- The row bits next to the bank bits are those of the address. -/
theorem bitField_placeOf {k : Nat} (hk : 21 ≤ k) (hk' : k ≤ 24) :
    bitField (placeOf a g0 g1 b0 b1) k 1 = bitField a k 1 := by
  obtain ⟨j, rfl⟩ : ∃ j, k = 21 + j := ⟨k - 21, by omega⟩
  have hdiv : placeOf a g0 g1 b0 b1 / 2 ^ 21 = a / 2 ^ 21 % 2 ^ 13 := by
    unfold placeOf place
    omega
  rw [bitField_one, bitField_one, Nat.pow_add, ← Nat.div_div_eq_div_mul, ← Nat.div_div_eq_div_mul, hdiv]
  have hj : j = 0 ∨ j = 1 ∨ j = 2 ∨ j = 3 := by omega
  rcases hj with rfl | rfl | rfl | rfl <;> omega

/-! Each bank bit is the digit between what is below it and what is above it. -/

theorem rewriteBit_12 {b : Nat} (hb : b ≤ 1) :
    rewriteBit 64 (placeOf a g0 g1 b0 b1) 12 b = placeOf a b g1 b0 b1 := by
  have hsplit (d : Nat) : placeOf a d g1 b0 b1
      = a / 2 ^ 3 % 2 ^ 9 * 2 ^ 3 + d * 2 ^ 12
        + (g1 + a / 2 ^ 14 % 2 ^ 5 * 2 + b0 * 2 ^ 6 + b1 * 2 ^ 7 + a / 2 ^ 21 % 2 ^ 13 * 2 ^ 8) * 2 ^ (12 + 1) := by
    unfold placeOf place
    ring
  rw [hsplit, hsplit]
  exact rewriteBit_digit (by omega) hg0 hb (hsplit _ ▸ placeOf_lt hg0 hg1 hb0 hb1)

theorem rewriteBit_13 {b : Nat} (hb : b ≤ 1) :
    rewriteBit 64 (placeOf a g0 g1 b0 b1) 13 b = placeOf a g0 b b0 b1 := by
  have hsplit (d : Nat) : placeOf a g0 d b0 b1
      = (a / 2 ^ 3 % 2 ^ 9 * 2 ^ 3 + g0 * 2 ^ 12) + d * 2 ^ 13
        + (a / 2 ^ 14 % 2 ^ 5 + b0 * 2 ^ 5 + b1 * 2 ^ 6 + a / 2 ^ 21 % 2 ^ 13 * 2 ^ 7) * 2 ^ (13 + 1) := by
    unfold placeOf place
    ring
  rw [hsplit, hsplit]
  exact rewriteBit_digit (by omega) hg1 hb (hsplit _ ▸ placeOf_lt hg0 hg1 hb0 hb1)

theorem rewriteBit_19 {b : Nat} (hb : b ≤ 1) :
    rewriteBit 64 (placeOf a g0 g1 b0 b1) 19 b = placeOf a g0 g1 b b1 := by
  have hsplit (d : Nat) : placeOf a g0 g1 d b1
      = (a / 2 ^ 3 % 2 ^ 9 * 2 ^ 3 + g0 * 2 ^ 12 + g1 * 2 ^ 13 + a / 2 ^ 14 % 2 ^ 5 * 2 ^ 14) + d * 2 ^ 19
        + (b1 + a / 2 ^ 21 % 2 ^ 13 * 2) * 2 ^ (19 + 1) := by
    unfold placeOf place
    ring
  rw [hsplit, hsplit]
  exact rewriteBit_digit (by omega) hb0 hb (hsplit _ ▸ placeOf_lt hg0 hg1 hb0 hb1)

theorem rewriteBit_20 {b : Nat} (hb : b ≤ 1) :
    rewriteBit 64 (placeOf a g0 g1 b0 b1) 20 b = placeOf a g0 g1 b0 b := by
  have hsplit (d : Nat) : placeOf a g0 g1 b0 d
      = (a / 2 ^ 3 % 2 ^ 9 * 2 ^ 3 + g0 * 2 ^ 12 + g1 * 2 ^ 13 + a / 2 ^ 14 % 2 ^ 5 * 2 ^ 14 + b0 * 2 ^ 19)
        + d * 2 ^ 20 + a / 2 ^ 21 % 2 ^ 13 * 2 ^ (20 + 1) := by
    unfold placeOf place
    ring
  rw [hsplit, hsplit]
  exact rewriteBit_digit (by omega) hb1 hb (hsplit _ ▸ placeOf_lt hg0 hg1 hb0 hb1)

end Bank

theorem bit_le_one (x k : Nat) : bitField x k 1 ≤ 1 := bitField_le x k 1

/-- The address the ranked generator rebuilds from the rows and columns of `a` and any bank fields. -/
theorem Ranked.encodeAddress_placeOf {a : Nat} {inst : DecodedInst} (hrow : inst.row = collect rowMap a)
    (hcol : inst.column = collect colMap a) :
    Ranked.encodeAddressFromInstruction inst
      = placeOf a (bitField inst.bankgroup 0 1 ^^^ bitField a 21 1) (bitField inst.bankgroup 1 1 ^^^ bitField a 22 1)
          (bitField inst.bank 0 1 ^^^ bitField a 23 1) (bitField inst.bank 1 1 ^^^ bitField a 24 1) := by
  have hx (f k j : Nat) : bitField f k 1 ^^^ bitField a j 1 ≤ 1 := xor_le_one (bit_le_one f k) (bit_le_one a j)
  have h12 (g b0 b1 g1 : Nat) : placeOf a 0 g1 b0 b1 + g <<< 12 = placeOf a g g1 b0 b1 := by
    rw [Nat.shiftLeft_eq]
    unfold placeOf place
    omega
  have h13 (g b0 b1 g0 : Nat) : placeOf a g0 0 b0 b1 + g <<< 13 = placeOf a g0 g b0 b1 := by
    rw [Nat.shiftLeft_eq]
    unfold placeOf place
    omega
  have h19 (b g0 g1 b1 : Nat) : placeOf a g0 g1 0 b1 + b <<< 19 = placeOf a g0 g1 b b1 := by
    rw [Nat.shiftLeft_eq]
    unfold placeOf place
    omega
  have h20 (b g0 g1 b0 : Nat) : placeOf a g0 g1 b0 0 + b <<< 20 = placeOf a g0 g1 b0 b := by
    rw [Nat.shiftLeft_eq]
    unfold placeOf place
    omega
  have h0 : (0 : Nat) ≤ 1 := Nat.zero_le 1
  -- each bank bit goes to a place that is still zero
  unfold Ranked.encodeAddressFromInstruction
  rw [hrow, hcol, spread_collect]
  unfold Ranked.spreadXor bankMap bgMap
  simp only [List.foldl_cons, List.foldl_nil]
  rw [bitField_placeOf h0 h0 h0 h0 (by decide) (by decide), h12,
    bitField_placeOf (hx _ _ _) h0 h0 h0 (by decide) (by decide), h13,
    bitField_placeOf (hx _ _ _) (hx _ _ _) h0 h0 (by decide) (by decide), h19,
    bitField_placeOf (hx _ _ _) (hx _ _ _) (hx _ _ _) h0 (by decide) (by decide), h20]

theorem Ranked.collectXor_bgMap (a : Nat) :
    Ranked.collectXor bgMap a
      = (bitField a 21 1 ^^^ bitField a 12 1) + (bitField a 22 1 ^^^ bitField a 13 1) * 2 := by
  unfold Ranked.collectXor bgMap
  simp only [List.foldl_cons, List.foldl_nil]
  rw [Nat.shiftLeft_zero, Nat.shiftLeft_eq, Nat.zero_add]

theorem Ranked.collectXor_bankMap (a : Nat) :
    Ranked.collectXor bankMap a
      = (bitField a 23 1 ^^^ bitField a 19 1) + (bitField a 24 1 ^^^ bitField a 20 1) * 2 := by
  unfold Ranked.collectXor bankMap
  simp only [List.foldl_cons, List.foldl_nil]
  rw [Nat.shiftLeft_zero, Nat.shiftLeft_eq, Nat.zero_add]

/-- **Splitting an aligned address below 2^34 and rebuilding it** gives it back (ranked generator). -/
theorem Ranked.address_roundTrip {a : Nat} (ha : a < 2 ^ 34) (h8 : a % 8 = 0) (inst : DecodedInst) :
    Ranked.encodeAddressFromInstruction (Ranked.decodeAddressToInstruction a inst) = a := by
  have hx (j k : Nat) : bitField a j 1 ^^^ bitField a k 1 ≤ 1 := xor_le_one (bit_le_one a j) (bit_le_one a k)
  have hbits (j k : Nat) : (bitField a j 1 ^^^ bitField a k 1) ^^^ bitField a j 1 = a / 2 ^ k % 2 := by
    rw [Nat.xor_comm, ← Nat.xor_assoc, Nat.xor_self, Nat.zero_xor, bitField_one]
  obtain ⟨hg0, hg1⟩ := bitField_two_bits (hx 21 12) (hx 22 13)
  obtain ⟨hb0, hb1⟩ := bitField_two_bits (hx 23 19) (hx 24 20)
  have hrow : (Ranked.decodeAddressToInstruction a inst).row = collect rowMap a := rfl
  have hcol : (Ranked.decodeAddressToInstruction a inst).column = collect colMap a := rfl
  rw [Ranked.encodeAddress_placeOf hrow hcol]
  simp only [Ranked.decodeAddressToInstruction, Ranked.collectXor_bgMap, Ranked.collectXor_bankMap]
  rw [hg0, hg1, hb0, hb1, hbits, hbits, hbits, hbits, placeOf_self ha h8]

theorem Channel.overwrite_bgMap (f addr : Nat) :
    Channel.overwrite bgMap f addr
      = rewriteBit 64 (rewriteBit 64 addr 12 (bitField f 0 1)) 13 (bitField f 1 1) := rfl

theorem Channel.overwrite_bankMap (f addr : Nat) :
    Channel.overwrite bankMap f addr
      = rewriteBit 64 (rewriteBit 64 addr 19 (bitField f 0 1)) 20 (bitField f 1 1) := rfl

theorem Channel.collectRaw_bgMap (a : Nat) :
    Channel.collectRaw bgMap a = bitField a 12 1 + bitField a 13 1 * 2 := by
  unfold Channel.collectRaw bgMap
  simp only [List.foldl_cons, List.foldl_nil]
  rw [Nat.shiftLeft_zero, Nat.zero_or, or_two_bits (bit_le_one a 12)]

theorem Channel.collectRaw_bankMap (a : Nat) :
    Channel.collectRaw bankMap a = bitField a 19 1 + bitField a 20 1 * 2 := by
  unfold Channel.collectRaw bankMap
  simp only [List.foldl_cons, List.foldl_nil]
  rw [Nat.shiftLeft_zero, Nat.zero_or, or_two_bits (bit_le_one a 19)]

/-- **Splitting an aligned address below 2^34 and rebuilding it** gives it back (channel generator). -/
theorem Channel.address_roundTrip {a : Nat} (ha : a < 2 ^ 34) (h8 : a % 8 = 0) (inst : DecodedInst) :
    Channel.encodeAddressFromInstruction (Channel.decodeAddressToInstruction a inst) = a := by
  have hbit (k : Nat) : bitField a k 1 ≤ 1 := bit_le_one a k
  have hx (f k j : Nat) : bitField f k 1 ^^^ bitField a j 1 ≤ 1 := xor_le_one (bit_le_one f k) (bit_le_one a j)
  obtain ⟨hg0, hg1⟩ := bitField_two_bits (hbit 12) (hbit 13)
  obtain ⟨hb0, hb1⟩ := bitField_two_bits (hbit 19) (hbit 20)
  have hbg : (Channel.decodeAddressToInstruction a inst).bankgroup = _ := Channel.collectRaw_bgMap a
  have hbank : (Channel.decodeAddressToInstruction a inst).bank = _ := Channel.collectRaw_bankMap a
  have hrow : (Channel.decodeAddressToInstruction a inst).row = collect rowMap a := rfl
  have hcol : (Channel.decodeAddressToInstruction a inst).column = collect colMap a := rfl
  unfold Channel.encodeAddressFromInstruction
  rw [Ranked.encodeAddress_placeOf hrow hcol, hbg, hbank, Channel.overwrite_bgMap, Channel.overwrite_bankMap]
  -- whatever bank bits the ranked address has, all four are overwritten
  rw [hb0, hb1, hg0, hg1, rewriteBit_19 (hx _ _ _) (hx _ _ _) (hx _ _ _) (hx _ _ _) (hbit 19),
    rewriteBit_20 (hx _ _ _) (hx _ _ _) (hbit 19) (hx _ _ _) (hbit 20),
    rewriteBit_12 (hx _ _ _) (hx _ _ _) (hbit 19) (hbit 20) (hbit 12),
    rewriteBit_13 (hbit 12) (hx _ _ _) (hbit 19) (hbit 20) (hbit 13)]
  rw [bitField_one, bitField_one, bitField_one, bitField_one, placeOf_self ha h8]

theorem collect_rowMap_lt (a : Nat) : collect rowMap a < 2 ^ 17 := by
  rw [collect_rowMap]
  omega

theorem collect_colMap_lt (a : Nat) : collect colMap a < 2 ^ 10 := by
  rw [collect_colMap]
  omega

/-- Whatever the address, the fields the channel generator splits it into fit the instruction word. -/
theorem Channel.inRange {opcode outputIdx : Nat} (hop : opcode < 2 ^ 2) (hout : outputIdx < 2 ^ 12) (a : Nat) :
    (Channel.decodeAddressToInstruction a (makeEmptyInstruction opcode outputIdx)).InRange := by
  have h12 := bit_le_one a 12
  have h13 := bit_le_one a 13
  have h19 := bit_le_one a 19
  have h20 := bit_le_one a 20
  refine ⟨hop, Nat.two_pos, hout, Nat.two_pos, collect_rowMap_lt a, ?_, ?_, collect_colMap_lt a⟩
  · show Channel.collectRaw bgMap a < 2 ^ 2
    rw [Channel.collectRaw_bgMap]
    omega
  · show Channel.collectRaw bankMap a < 2 ^ 2
    rw [Channel.collectRaw_bankMap]
    omega

end Pnm.Sls
