import Pnm.Sls.Trace

/-!
# `Sls.InstCodec` — instruction words lose nothing

`Inst` rebuilds an address from its split; here the other direction is added: splitting the address that was
rebuilt from an instruction gives back its row, bank group, bank and column (`Ranked.split_rebuild`,
`Channel.split_rebuild`). Together with the round trip of the word this makes both generators lossless
(`instruction_lossless`): aligned addresses below 2^34 and instruction words determine each other.
-/

namespace Pnm.Sls

open Pnm.Lib

/-- `encode_address_from_instruction` of either generator. -/
def InstructionGenerator.encodeAddressFromInstruction : InstructionGenerator → DecodedInst → Nat
  | ranked  => Ranked.encodeAddressFromInstruction
  | channel => Channel.encodeAddressFromInstruction

/-! ## Fields of a rebuilt address -/

section Fields

variable {lo g0 g1 mid b0 b1 hi : Nat} (hlo : lo < 2 ^ 12) (hg0 : g0 ≤ 1) (hg1 : g1 ≤ 1) (hmid : mid < 2 ^ 5)
  (hb0 : b0 ≤ 1) (hb1 : b1 ≤ 1)
include hlo hg0 hg1 hmid

/-- The parts of an address below the upper row bits are read where they were put. -/
theorem place_low :
    place lo g0 g1 mid b0 b1 hi % 2 ^ 12 = lo ∧ place lo g0 g1 mid b0 b1 hi / 2 ^ 14 % 2 ^ 5 = mid := by
  unfold place
  constructor
  · omega
  · omega

include hb0 hb1

theorem place_high : place lo g0 g1 mid b0 b1 hi / 2 ^ 21 = hi := by
  unfold place
  omega

/-- The four bank bits. -/
theorem place_bankBits :
    bitField (place lo g0 g1 mid b0 b1 hi) 12 1 = g0 ∧ bitField (place lo g0 g1 mid b0 b1 hi) 13 1 = g1 ∧
      bitField (place lo g0 g1 mid b0 b1 hi) 19 1 = b0 ∧ bitField (place lo g0 g1 mid b0 b1 hi) 20 1 = b1 := by
  rw [bitField_one, bitField_one, bitField_one, bitField_one]
  unfold place
  refine ⟨?_, ?_, ?_, ?_⟩
  · omega
  · omega
  · omega
  · omega

theorem collect_rowMap_place :
    collect rowMap (place lo g0 g1 mid b0 b1 hi)
      = lo / 2 ^ 8 + hi / 2 ^ 7 % 2 * 2 ^ 4 + hi % 2 ^ 7 * 2 ^ 5 + hi / 2 ^ 8 % 2 ^ 5 * 2 ^ 12 := by
  have hlow : place lo g0 g1 mid b0 b1 hi % 2 ^ 12 = lo := (place_low hlo hg0 hg1 hmid).1
  have hhigh : place lo g0 g1 mid b0 b1 hi / 2 ^ 21 = hi := place_high hlo hg0 hg1 hmid hb0 hb1
  set p := place lo g0 g1 mid b0 b1 hi
  have h8 : p / 2 ^ 8 % 2 ^ 4 = p % 2 ^ 12 / 2 ^ 8 := by omega
  have h28 : p / 2 ^ 28 = p / 2 ^ 21 / 2 ^ 7 := by omega
  have h29 : p / 2 ^ 29 = p / 2 ^ 21 / 2 ^ 8 := by omega
  rw [collect_rowMap, h8, h28, h29, hlow, hhigh]

omit hb0 hb1 in
theorem collect_colMap_place :
    collect colMap (place lo g0 g1 mid b0 b1 hi) = lo / 2 ^ 3 % 2 ^ 5 + mid * 2 ^ 5 := by
  have hlow : place lo g0 g1 mid b0 b1 hi % 2 ^ 12 = lo := (place_low hlo hg0 hg1 hmid).1
  have hmiddle : place lo g0 g1 mid b0 b1 hi / 2 ^ 14 % 2 ^ 5 = mid := (place_low hlo hg0 hg1 hmid).2
  set p := place lo g0 g1 mid b0 b1 hi
  have h3 : p / 2 ^ 3 % 2 ^ 5 = p % 2 ^ 12 / 2 ^ 3 % 2 ^ 5 := by omega
  rw [collect_colMap, h3, hlow, hmiddle]

end Fields

/-- A row number, digit by digit. -/
theorem exists_row_digits {row : Nat} (hrow : row < 2 ^ 17) :
    ∃ r0 r1 r2 r3, r0 < 2 ^ 4 ∧ r1 < 2 ∧ r2 < 2 ^ 7 ∧ r3 < 2 ^ 5 ∧
      row = r0 + r1 * 2 ^ 4 + r2 * 2 ^ 5 + r3 * 2 ^ 12 :=
  ⟨row % 2 ^ 4, row / 2 ^ 4 % 2, row / 2 ^ 5 % 2 ^ 7, row / 2 ^ 12, by omega, by omega, by omega, by omega,
    by omega⟩

/-- The row digits above the bank bits, in the order of the address. -/
theorem high_digits {r1 r2 r3 : Nat} (h1 : r1 < 2) (h2 : r2 < 2 ^ 7) (h3 : r3 < 2 ^ 5) :
    (r2 + r1 * 2 ^ 7 + r3 * 2 ^ 8) / 2 ^ 7 % 2 = r1 ∧ (r2 + r1 * 2 ^ 7 + r3 * 2 ^ 8) % 2 ^ 7 = r2 ∧
      (r2 + r1 * 2 ^ 7 + r3 * 2 ^ 8) / 2 ^ 8 % 2 ^ 5 = r3 := by
  omega

/-- An address with the given row and column and clear bank bits. -/
theorem collect_spread {row column : Nat} (hrow : row < 2 ^ 17) (hcol : column < 2 ^ 10) :
    collect rowMap (spread rowMap row (spread colMap column 0)) = row ∧
      collect colMap (spread rowMap row (spread colMap column 0)) = column := by
  obtain ⟨r0, r1, r2, r3, hr0, hr1, hr2, hr3, rfl⟩ := exists_row_digits hrow
  obtain ⟨hd0, hd1, hd2, hd3⟩ := row_digits hr0 hr1 hr2 hr3
  have hplace : spread rowMap (r0 + r1 * 2 ^ 4 + r2 * 2 ^ 5 + r3 * 2 ^ 12) (spread colMap column 0)
      = place (column % 2 ^ 5 * 2 ^ 3 + r0 * 2 ^ 8) 0 0 (column / 2 ^ 5) 0 0 (r2 + r1 * 2 ^ 7 + r3 * 2 ^ 8) := by
    rw [spread_rowMap, spread_colMap, hd0, hd1, hd2, hd3]
    unfold place
    omega
  have hlo : column % 2 ^ 5 * 2 ^ 3 + r0 * 2 ^ 8 < 2 ^ 12 := by omega
  have hmid : column / 2 ^ 5 < 2 ^ 5 := by omega
  have h0 : (0 : Nat) ≤ 1 := Nat.zero_le 1
  obtain ⟨hh1, hh2, hh3⟩ := high_digits hr1 hr2 hr3
  have hl : (column % 2 ^ 5 * 2 ^ 3 + r0 * 2 ^ 8) / 2 ^ 8 = r0 := by omega
  rw [hplace, collect_rowMap_place hlo h0 h0 hmid h0 h0, collect_colMap_place hlo h0 h0 hmid, hh1, hh2, hh3, hl]
  refine ⟨rfl, ?_⟩
  omega

/-- Two bits make up a two-bit field. -/
theorem two_bits {x : Nat} (hx : x < 2 ^ 2) : bitField x 0 1 + bitField x 1 1 * 2 = x := by
  rw [bitField_one, bitField_one]
  omega

/-! ## Splitting a rebuilt address -/

section Rebuilt

variable {inst : DecodedInst} (h : inst.InRange) {g0 g1 b0 b1 : Nat} (hg0 : g0 ≤ 1) (hg1 : g1 ≤ 1) (hb0 : b0 ≤ 1)
  (hb1 : b1 ≤ 1)
include h hg0 hg1 hb0 hb1

/-- The address of an instruction without its bank bits. -/
def rowColumn (inst : DecodedInst) : Nat := spread rowMap inst.row (spread colMap inst.column 0)

/-- Whatever the bank bits, the row and the column are read back. -/
theorem collect_placeOf_rowColumn :
    collect rowMap (placeOf (rowColumn inst) g0 g1 b0 b1) = inst.row ∧
      collect colMap (placeOf (rowColumn inst) g0 g1 b0 b1) = inst.column := by
  obtain ⟨hrow, hcol⟩ := collect_spread h.row h.column
  have h0 : (0 : Nat) ≤ 1 := Nat.zero_le 1
  have hlo : rowColumn inst / 2 ^ 3 % 2 ^ 9 * 2 ^ 3 < 2 ^ 12 := by omega
  have hmid : rowColumn inst / 2 ^ 14 % 2 ^ 5 < 2 ^ 5 := Nat.mod_lt _ (by decide)
  -- the bank bits do not matter, and without them the address is the one that was spread
  have hself : placeOf (rowColumn inst) 0 0 0 0 = rowColumn inst := by
    rw [← spread_collect, show collect rowMap (rowColumn inst) = inst.row from hrow,
      show collect colMap (rowColumn inst) = inst.column from hcol]
    rfl
  have hrow' : collect rowMap (placeOf (rowColumn inst) g0 g1 b0 b1)
      = collect rowMap (placeOf (rowColumn inst) 0 0 0 0) := by
    unfold placeOf
    rw [collect_rowMap_place hlo hg0 hg1 hmid hb0 hb1, collect_rowMap_place hlo h0 h0 hmid h0 h0]
  have hcol' : collect colMap (placeOf (rowColumn inst) g0 g1 b0 b1)
      = collect colMap (placeOf (rowColumn inst) 0 0 0 0) := by
    unfold placeOf
    rw [collect_colMap_place hlo hg0 hg1 hmid, collect_colMap_place hlo h0 h0 hmid]
  rw [hrow', hcol', hself]
  exact ⟨hrow, hcol⟩

omit h in
theorem bankBits_placeOf (a : Nat) :
    bitField (placeOf a g0 g1 b0 b1) 12 1 = g0 ∧ bitField (placeOf a g0 g1 b0 b1) 13 1 = g1 ∧
      bitField (placeOf a g0 g1 b0 b1) 19 1 = b0 ∧ bitField (placeOf a g0 g1 b0 b1) 20 1 = b1 :=
  place_bankBits (by omega) hg0 hg1 (Nat.mod_lt _ (by decide)) hb0 hb1

end Rebuilt

/-- The ranked address of an instruction in range. -/
theorem Ranked.encodeAddress_rowColumn {inst : DecodedInst} (h : inst.InRange) :
    Ranked.encodeAddressFromInstruction inst
      = placeOf (rowColumn inst)
          (bitField inst.bankgroup 0 1 ^^^ bitField (rowColumn inst) 21 1)
          (bitField inst.bankgroup 1 1 ^^^ bitField (rowColumn inst) 22 1)
          (bitField inst.bank 0 1 ^^^ bitField (rowColumn inst) 23 1)
          (bitField inst.bank 1 1 ^^^ bitField (rowColumn inst) 24 1) := by
  obtain ⟨hrow, hcol⟩ := collect_spread h.row h.column
  exact Ranked.encodeAddress_placeOf hrow.symm hcol.symm

/-- **Splitting a rebuilt address** gives the instruction back (ranked generator). -/
theorem Ranked.split_rebuild {inst : DecodedInst} (h : inst.InRange) :
    Ranked.decodeAddressToInstruction (Ranked.encodeAddressFromInstruction inst) inst = inst := by
  have hx (f k j : Nat) : bitField f k 1 ^^^ bitField (rowColumn inst) j 1 ≤ 1 :=
    xor_le_one (bit_le_one f k) (bit_le_one _ j)
  -- a bank bit is exclusive-ored with the same row bit twice
  have hcancel (f k j : Nat) : bitField (rowColumn inst) j 1 ^^^ (bitField f k 1 ^^^ bitField (rowColumn inst) j 1)
      = bitField f k 1 := by
    rw [Nat.xor_comm (bitField f k 1), ← Nat.xor_assoc, Nat.xor_self, Nat.zero_xor]
  have hg0 := hx inst.bankgroup 0 21
  have hg1 := hx inst.bankgroup 1 22
  have hb0 := hx inst.bank 0 23
  have hb1 := hx inst.bank 1 24
  obtain ⟨hrow, hcol⟩ := collect_placeOf_rowColumn h hg0 hg1 hb0 hb1
  obtain ⟨h12, h13, h19, h20⟩ := bankBits_placeOf hg0 hg1 hb0 hb1 (rowColumn inst)
  unfold Ranked.decodeAddressToInstruction
  rw [Ranked.encodeAddress_rowColumn h, hrow, hcol, Ranked.collectXor_bgMap, Ranked.collectXor_bankMap, h12, h13,
    h19, h20, bitField_placeOf hg0 hg1 hb0 hb1 (by decide) (by decide),
    bitField_placeOf hg0 hg1 hb0 hb1 (by decide) (by decide),
    bitField_placeOf hg0 hg1 hb0 hb1 (by decide) (by decide),
    bitField_placeOf hg0 hg1 hb0 hb1 (by decide) (by decide), hcancel, hcancel, hcancel, hcancel,
    two_bits h.bankgroup, two_bits h.bank]

/-- The channel address of an instruction in range: all four bank bits are those of the instruction. -/
theorem Channel.encodeAddress_rowColumn {inst : DecodedInst} (h : inst.InRange) :
    Channel.encodeAddressFromInstruction inst
      = placeOf (rowColumn inst) (bitField inst.bankgroup 0 1) (bitField inst.bankgroup 1 1)
          (bitField inst.bank 0 1) (bitField inst.bank 1 1) := by
  have hbit (f k : Nat) : bitField f k 1 ≤ 1 := bit_le_one f k
  have hx (f k j : Nat) : bitField f k 1 ^^^ bitField (rowColumn inst) j 1 ≤ 1 :=
    xor_le_one (bit_le_one f k) (bit_le_one _ j)
  unfold Channel.encodeAddressFromInstruction
  rw [Ranked.encodeAddress_rowColumn h, Channel.overwrite_bgMap, Channel.overwrite_bankMap,
    rewriteBit_19 (hx _ _ _) (hx _ _ _) (hx _ _ _) (hx _ _ _) (hbit _ _),
    rewriteBit_20 (hx _ _ _) (hx _ _ _) (hbit _ _) (hx _ _ _) (hbit _ _),
    rewriteBit_12 (hx _ _ _) (hx _ _ _) (hbit _ _) (hbit _ _) (hbit _ _),
    rewriteBit_13 (hbit _ _) (hx _ _ _) (hbit _ _) (hbit _ _) (hbit _ _)]

/-- **Splitting a rebuilt address** gives the instruction back (channel generator). -/
theorem Channel.split_rebuild {inst : DecodedInst} (h : inst.InRange) :
    Channel.decodeAddressToInstruction (Channel.encodeAddressFromInstruction inst) inst = inst := by
  have hbit (f k : Nat) : bitField f k 1 ≤ 1 := bit_le_one f k
  obtain ⟨hrow, hcol⟩ := collect_placeOf_rowColumn h (hbit inst.bankgroup 0) (hbit inst.bankgroup 1)
    (hbit inst.bank 0) (hbit inst.bank 1)
  obtain ⟨h12, h13, h19, h20⟩ := bankBits_placeOf (hbit inst.bankgroup 0) (hbit inst.bankgroup 1)
    (hbit inst.bank 0) (hbit inst.bank 1) (rowColumn inst)
  unfold Channel.decodeAddressToInstruction Ranked.decodeAddressToInstruction
  rw [Channel.encodeAddress_rowColumn h, hrow, hcol, Channel.collectRaw_bgMap, Channel.collectRaw_bankMap, h12, h13,
    h19, h20, two_bits h.bankgroup, two_bits h.bank]

/-! ## Both generators -/

/-- The fields that do not come from the address fit the word. -/
structure DecodedInst.FlagsInRange (inst : DecodedInst) : Prop where
  opcode : inst.opcode < 2 ^ 2
  localBit : inst.localBit < 2
  outputIdx : inst.outputIdx < 4096
  traceEnd : inst.traceEnd < 2

/-- Address fields within their widths may be written to such an instruction. -/
theorem DecodedInst.FlagsInRange.inRange {inst : DecodedInst} (h : inst.FlagsInRange) {row bankgroup bank column : Nat}
    (hrow : row < 2 ^ 17) (hbg : bankgroup < 2 ^ 2) (hbank : bank < 2 ^ 2) (hcol : column < 2 ^ 10) :
    ({ inst with row := row, bankgroup := bankgroup, bank := bank, column := column } : DecodedInst).InRange :=
  ⟨h.opcode, h.localBit, h.outputIdx, h.traceEnd, hrow, hbg, hbank, hcol⟩

theorem decodeInstruction_inRange (w : Nat) : (decodeInstruction w).InRange := by
  rw [decodeInstruction_eq]
  constructor <;> exact Nat.mod_lt _ (by decide)

namespace InstructionGenerator

variable (gen : InstructionGenerator) {inst : DecodedInst}

/-- Whatever the address, its fields fit the word. -/
theorem split_inRange (h : inst.FlagsInRange) (a : Nat) : (gen.decodeAddressToInstruction a inst).InRange := by
  have hbit (j k : Nat) : bitField a j 1 ^^^ bitField a k 1 ≤ 1 := xor_le_one (bit_le_one a j) (bit_le_one a k)
  have hrow := collect_rowMap_lt a
  have hcol := collect_colMap_lt a
  cases gen with
  | ranked =>
      have hbg : Ranked.collectXor bgMap a < 2 ^ 2 := by
        have h0 := hbit 21 12
        have h1 := hbit 22 13
        rw [Ranked.collectXor_bgMap]
        omega
      have hbank : Ranked.collectXor bankMap a < 2 ^ 2 := by
        have h0 := hbit 23 19
        have h1 := hbit 24 20
        rw [Ranked.collectXor_bankMap]
        omega
      show (Ranked.decodeAddressToInstruction a inst).InRange
      unfold Ranked.decodeAddressToInstruction
      exact h.inRange hrow hbg hbank hcol
  | channel =>
      have hempty := Channel.inRange h.opcode h.outputIdx a
      show (Channel.decodeAddressToInstruction a inst).InRange
      unfold Channel.decodeAddressToInstruction Ranked.decodeAddressToInstruction
      exact h.inRange hrow hempty.bankgroup hempty.bank hcol

theorem rebuild_split {a : Nat} (ha : a < 2 ^ 34) (h8 : a % 8 = 0) (inst : DecodedInst) :
    gen.encodeAddressFromInstruction (gen.decodeAddressToInstruction a inst) = a := by
  cases gen with
  | ranked => exact Ranked.address_roundTrip ha h8 inst
  | channel => exact Channel.address_roundTrip ha h8 inst

theorem split_rebuild (h : inst.InRange) :
    gen.decodeAddressToInstruction (gen.encodeAddressFromInstruction inst) inst = inst := by
  cases gen with
  | ranked => exact Ranked.split_rebuild h
  | channel => exact Channel.split_rebuild h

/-- The address fields of a split do not depend on the instruction they are written to. -/
theorem split_fields (a : Nat) (inst inst' : DecodedInst) :
    let s := gen.decodeAddressToInstruction a inst
    let s' := gen.decodeAddressToInstruction a inst'
    s.row = s'.row ∧ s.bankgroup = s'.bankgroup ∧ s.bank = s'.bank ∧ s.column = s'.column := by
  cases gen with
  | ranked => exact ⟨rfl, rfl, rfl, rfl⟩
  | channel => exact ⟨rfl, rfl, rfl, rfl⟩

/-- The other fields are left alone. -/
theorem split_flags (a : Nat) (inst : DecodedInst) :
    let s := gen.decodeAddressToInstruction a inst
    s.opcode = inst.opcode ∧ s.localBit = inst.localBit ∧ s.outputIdx = inst.outputIdx ∧
      s.traceEnd = inst.traceEnd := by
  cases gen with
  | ranked =>
      simp only [decodeAddressToInstruction, Ranked.decodeAddressToInstruction, and_self]
  | channel =>
      simp only [decodeAddressToInstruction, Channel.decodeAddressToInstruction, Ranked.decodeAddressToInstruction,
        and_self]

end InstructionGenerator

/-- **Instruction and address encoding are lossless**, for either generator. An aligned address below 2^34 and
    any flags survive splitting, encoding, decoding and rebuilding; the address fields of every word survive
    decoding, rebuilding, splitting and encoding again; and words of different addresses are different. -/
theorem instruction_lossless (gen : InstructionGenerator) :
    (∀ (a : Nat) (inst : DecodedInst), a < 2 ^ 34 → a % 8 = 0 → inst.FlagsInRange →
      let back := decodeInstruction (encodeInstruction (gen.decodeAddressToInstruction a inst))
      gen.encodeAddressFromInstruction back = a ∧ back.opcode = inst.opcode ∧ back.localBit = inst.localBit ∧
        back.outputIdx = inst.outputIdx ∧ back.traceEnd = inst.traceEnd) ∧
    (∀ (w : Nat) (inst : DecodedInst), inst.FlagsInRange →
      let word := decodeInstruction w
      let again := decodeInstruction (encodeInstruction
        (gen.decodeAddressToInstruction (gen.encodeAddressFromInstruction word) inst))
      again.row = word.row ∧ again.bankgroup = word.bankgroup ∧ again.bank = word.bank ∧
        again.column = word.column) ∧
    (∀ (a a' : Nat) (inst inst' : DecodedInst), a < 2 ^ 34 → a % 8 = 0 → a' < 2 ^ 34 → a' % 8 = 0 →
      inst.FlagsInRange → inst'.FlagsInRange → a ≠ a' →
      encodeInstruction (gen.decodeAddressToInstruction a inst)
        ≠ encodeInstruction (gen.decodeAddressToInstruction a' inst')) := by
  refine ⟨?_, ?_, ?_⟩
  · intro a inst ha h8 hflags
    dsimp only
    rw [decode_encode (gen.split_inRange hflags a)]
    exact ⟨gen.rebuild_split ha h8 inst, gen.split_flags a inst⟩
  · intro w inst hflags
    dsimp only
    rw [decode_encode (gen.split_inRange hflags _)]
    have hfields := gen.split_fields (gen.encodeAddressFromInstruction (decodeInstruction w)) inst
      (decodeInstruction w)
    rw [gen.split_rebuild (decodeInstruction_inRange w)] at hfields
    exact hfields
  · intro a a' inst inst' ha h8 ha' h8' hflags hflags' hne heq
    -- equal words decode to equal instructions, from which the addresses are rebuilt
    have hdec := congrArg decodeInstruction heq
    rw [decode_encode (gen.split_inRange hflags a), decode_encode (gen.split_inRange hflags' a')] at hdec
    apply hne
    rw [← gen.rebuild_split ha h8 inst, hdec, gen.rebuild_split ha' h8' inst']

end Pnm.Sls
