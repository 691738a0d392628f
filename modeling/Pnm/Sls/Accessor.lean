import Mathlib.Tactic.LinearCombination
import Mathlib.Tactic.Ring
import Pnm.Sls.InterleavedCopy

/-!
# `Sls.Accessor` — what the SLS accessor maps

The model of `SlsAccessorCore::init_virtual_region` (`core/memory/sls/accessor.cpp`) and of the mapping it asks for
(`common/mapped_file.h`). A sub-region is a range of rank addresses of one compute unit. The system address of its
start is rounded down to a page, the distance between the system addresses of its two ends is rounded up to pages.

With the start on a page, byte `k` lies `stripeOffset k` bytes behind the start of the mapping: in half `slotOf` of
stripe `k / 256` (`Initialised.distance`). The mapping is as long as the offset of the end minus that of the start
(`Initialised.len_toNat`), so it is half a stripe short when the region starts in the upper half of a stripe and ends
in the lower half of one. Rounding up hides this unless the last, partial block begins a page (`stripeOffset_lt_iff`).
-/

namespace Pnm.Sls

open Pnm.Lib

/-! ## The model -/

/-- `MMAP_ALIGN`. -/
def mmapAlign : BitVec 64 := 4096

/-- `ALIGN_MASK`. -/
def alignMask : BitVec 64 := mmapAlign - 1

/-- `aligned_floor`. -/
def alignedFloor (offset : BitVec 64) : BitVec 64 := offset &&& ~~~alignMask

/-- `aligned_ceil`. -/
def alignedCeil (offset : BitVec 64) : BitVec 64 := alignedFloor (offset + alignMask)

/-- `SequentialRegion`; the default is a sub-region that is not located. -/
structure SequentialRegion where
  start : BitVec 64 := 0
  size : BitVec 64 := 0
  location : Option (BitVec 8) := none
deriving DecidableEq

/-- What accessors throw, and the access to an address that is not mapped. -/
inductive AccessorError where
  | mmap (dataKind : String) (len offset : BitVec 64)
  | invalidArguments (what : String)
  | fault (addr : BitVec 64)
deriving DecidableEq

/-- `mmap` of the device file for sub-region `i`, with a length and an offset: an address, or `none` for
    `MAP_FAILED`. Nothing is assumed about the address. A length of 0 fails. -/
structure Mmap where
  map : Nat → BitVec 64 → BitVec 64 → Option (BitVec 64)
  map_zero : ∀ i offset, map i 0 offset = none

/-- `MappedData`, with the offset in the device file that its first byte shows. -/
structure MappedData where
  data : BitVec 64 := 0
  len : BitVec 64 := 0
  offset : BitVec 64 := 0

/-- `pnm::views::common<uint8_t>`. -/
structure View where
  first : BitVec 64 := 0
  last : BitVec 64 := 0

namespace MappedData

/-- The constructor of `MappedData` that maps. -/
def create (mmap : Mmap) (i : Nat) (dataLen : BitVec 64) (dataKind : String) (offset : BitVec 64) :
    Except AccessorError MappedData :=
  match mmap.map i dataLen offset with
  | none      => .error (.mmap dataKind dataLen offset)
  | some data => .ok ⟨data, dataLen, offset⟩

/-- The address is one of the mapped bytes. -/
def Maps (m : MappedData) (addr : BitVec 64) : Prop := (addr - m.data).toNat < m.len.toNat

instance (m : MappedData) (addr : BitVec 64) : Decidable (m.Maps addr) := inferInstanceAs (Decidable (_ < _))

end MappedData

/-- One turn of the loop of `init_virtual_region`; `mapOffset` is the `map_offset` of each unit's base block. -/
def initSubRegion (mmap : Mmap) (mapOffset : BitVec 8 → BitVec 64) (i : Nat) (sreg : SequentialRegion) :
    Except AccessorError (MappedData × View) :=
  match sreg.location with
  | none          => .ok ({}, {})
  | some location => do
    let offset := interleavedAddress sreg.start (cunitToHa location)
    let size := interleavedAddress (sreg.start + sreg.size) (cunitToHa location) - offset
    let offset := offset + mapOffset location
    let data ← MappedData.create mmap i (alignedCeil size) "address from phys. to virt." (alignedFloor offset)
    let addr := data.data + (offset &&& alignMask)
    return (data, ⟨addr, addr + size⟩)

/-! ## Pages -/

/-- A page-rounded offset and the rest of it make up the offset. -/
theorem alignedFloor_add_mask (x : BitVec 64) : alignedFloor x + (x &&& alignMask) = x := by
  have hdisj : (x &&& ~~~alignMask) &&& (x &&& alignMask) = 0#64 := by
    apply BitVec.eq_of_getLsbD_eq
    intro j hj
    rw [BitVec.getLsbD_and, BitVec.getLsbD_and, BitVec.getLsbD_and, BitVec.getLsbD_not, BitVec.getLsbD_zero]
    cases alignMask.getLsbD j
    · rw [Bool.and_false, Bool.and_false]
    · rw [Bool.not_true, Bool.and_false, Bool.and_false, Bool.false_and]
  unfold alignedFloor
  rw [BitVec.add_eq_or_of_and_eq_zero _ _ hdisj, ← BitVec.and_or_distrib_left, BitVec.or_comm,
    BitVec.or_not_self, BitVec.and_allOnes]

theorem and_alignMask_toNat (x : BitVec 64) : (x &&& alignMask).toNat = x.toNat % 4096 :=
  Nat.and_two_pow_sub_one_eq_mod x.toNat 12

theorem alignedFloor_toNat (x : BitVec 64) : (alignedFloor x).toNat = x.toNat / 4096 * 4096 := by
  have hx := x.isLt
  have hsum := congrArg BitVec.toNat (alignedFloor_add_mask x)
  have hle : (alignedFloor x).toNat ≤ x.toNat := Nat.and_le_left
  rw [BitVec.toNat_add, and_alignMask_toNat] at hsum
  omega

theorem alignedCeil_toNat (x : BitVec 64) :
    (alignedCeil x).toNat = (x.toNat + 4095) % 2 ^ 64 / 4096 * 4096 := by
  unfold alignedCeil
  rw [alignedFloor_toNat, BitVec.toNat_add]
  rfl

/-! ## Where a byte lies -/

/-- The half of its stripe in which a rank address of a unit lies. -/
def slotOf (cunit : BitVec 8) (r : Nat) : Nat := (r / 2 ^ 19 % 2) ^^^ (cunit.toNat % 2)

/-- The distance of byte `k` of a region from the first stripe of the region. -/
def stripeOffset (cunit : BitVec 8) (start k : Nat) : Nat :=
  512 * (k / 256) + 256 * slotOf cunit (start + k) + k % 256

theorem cunitToHa_toNat (cunit : BitVec 8) : (cunitToHa cunit).toNat = cunit.toNat % 2 := Nat.and_one_is_mod _

theorem cunitToHa_lt (cunit : BitVec 8) : (cunitToHa cunit).toNat < 2 := by
  rw [cunitToHa_toNat]
  exact Nat.mod_lt _ (by decide)

theorem slotOf_le_one (cunit : BitVec 8) (r : Nat) : slotOf cunit r ≤ 1 :=
  xor_le_one (Nat.le_of_lt_succ (Nat.mod_lt _ (by decide))) (Nat.le_of_lt_succ (Nat.mod_lt _ (by decide)))

/-- The half does not change inside a block. -/
theorem slotOf_block {cunit : BitVec 8} {r r' : Nat} (h : r / 256 = r' / 256) : slotOf cunit r = slotOf cunit r' := by
  have hpage : r / 2 ^ 19 = r' / 2 ^ 19 := by omega
  unfold slotOf
  rw [hpage]

/-- The system address of byte `k` of a region that starts with a block. -/
theorem interleavedAddress_stripeOffset (cunit : BitVec 8) {start : BitVec 64} (hstart : start.toNat % 256 = 0)
    (k : Nat) :
    (interleavedAddress (start + BitVec.ofNat 64 k) (cunitToHa cunit)).toNat
      = (2 * start.toNat + stripeOffset cunit start.toNat k) % 2 ^ 64 := by
  have hslot : slotOf cunit (start.toNat + k) ≤ 1 := slotOf_le_one _ _
  have hrank : (start + BitVec.ofNat 64 k).toNat % 2 ^ 63 = (start.toNat + k) % 2 ^ 63 := by
    rw [BitVec.toNat_add, BitVec.toNat_ofNat]
    omega
  have hbit : (start.toNat + k) % 2 ^ 63 / 2 ^ 19 % 2 = (start.toNat + k) / 2 ^ 19 % 2 := by omega
  rw [interleavedAddress_toNat _ (cunitToHa_lt cunit), hrank, homeAgents_address, hbit]
  dsimp only
  rw [cunitToHa_toNat, ← slotOf]
  unfold stripeOffset
  omega

theorem stripeOffset_zero (cunit : BitVec 8) (start : Nat) :
    stripeOffset cunit start 0 = 256 * slotOf cunit start := by
  show 512 * (0 / 256) + 256 * slotOf cunit start + 0 % 256 = _
  omega

theorem interleavedAddress_start (cunit : BitVec 8) {start : BitVec 64} (hstart : start.toNat % 256 = 0) :
    (interleavedAddress start (cunitToHa cunit)).toNat
      = (2 * start.toNat + 256 * slotOf cunit start.toNat) % 2 ^ 64 := by
  have h := interleavedAddress_stripeOffset cunit hstart 0
  rw [stripeOffset_zero] at h
  rw [← h, show BitVec.ofNat 64 0 = 0#64 from rfl, BitVec.add_zero]

section Region

variable {cunit : BitVec 8} {start size : Nat}

/-- The end of a region does not lie before its start. -/
theorem stripeOffset_zero_le (cunit : BitVec 8) (size : Nat) (hstart : start % 256 = 0) :
    stripeOffset cunit start 0 ≤ stripeOffset cunit start size := by
  have hzero : slotOf cunit start ≤ 1 := slotOf_le_one _ _
  have hshort (h : size < 256) : slotOf cunit (start + size) = slotOf cunit start := slotOf_block (by omega)
  rw [stripeOffset_zero]
  unfold stripeOffset
  omega

theorem stripeOffset_lt_word {k : Nat} (hk : k < 2 ^ 63) : stripeOffset cunit start k < 2 ^ 64 := by
  have hslot : slotOf cunit (start + k) ≤ 1 := slotOf_le_one _ _
  unfold stripeOffset
  omega

/-- A length that does not round up to 0 rounds up to the next page. -/
theorem roundedUp {d len : Nat} (hd : d < 2 ^ 64) (hlen : len = (d + 4095) % 2 ^ 64 / 4096 * 4096) (hpos : len ≠ 0) :
    ∃ pages, len = 4096 * pages ∧ d ≤ len ∧ len < d + 4096 := by
  have hlt : d + 4095 < 2 ^ 64 := by
    by_contra hge
    have hwrap : (d + 4095) % 2 ^ 64 < 4096 := by
      rw [Nat.mod_eq_sub_mod (by omega), Nat.mod_eq_of_lt (by omega)]
      omega
    rw [Nat.div_eq_of_lt hwrap, Nat.zero_mul] at hlen
    exact hpos hlen
  rw [Nat.mod_eq_of_lt hlt] at hlen
  exact ⟨(d + 4095) / 4096, by omega, by omega, by omega⟩

/-- The region starts in the upper half of its stripe and ends in the lower half of one, with a partial block that
    begins a page of the mapping. -/
def FallsShort (cunit : BitVec 8) (start size : Nat) : Prop :=
  size % 256 ≠ 0 ∧ size / 256 % 8 = 0 ∧ slotOf cunit start = 1 ∧ slotOf cunit (start + size) = 0

instance (cunit : BitVec 8) (start size : Nat) : Decidable (FallsShort cunit start size) :=
  inferInstanceAs (Decidable (_ ∧ _ ∧ _ ∧ _))

/-- A region of at most one block ends in the half in which it starts, or with the block. -/
theorem not_fallsShort_of_le (hstart : start % 256 = 0) (hsize : size ≤ 256) : ¬ FallsShort cunit start size := by
  rintro ⟨hpart, -, hup, hdown⟩
  have hsame : slotOf cunit (start + size) = slotOf cunit start := slotOf_block (by omega)
  omega

section Rounded

variable {len pages : Nat} (hstart : start % 256 = 0) (hsize : size < 2 ^ 63) (hpages : len = 4096 * pages)
  (hge : stripeOffset cunit start size - stripeOffset cunit start 0 ≤ len)

include hstart hsize hpages hge

/-- Whole blocks end before their stripe does, and a page holds whole stripes; the partial block ends with the
    region. -/
theorem stripeOffset_lt_of_not_fallsShort (hgood : ¬ FallsShort cunit start size) {k : Nat} (hk : k < size) :
    stripeOffset cunit start k % 2 ^ 64 < len := by
  have hzero : slotOf cunit start ≤ 1 := slotOf_le_one _ _
  have hend : slotOf cunit (start + size) ≤ 1 := slotOf_le_one _ _
  have hslot : slotOf cunit (start + k) ≤ 1 := slotOf_le_one _ _
  have hshort (h : size < 256) : slotOf cunit (start + size) = slotOf cunit start := slotOf_block (by omega)
  rw [Nat.mod_eq_of_lt (stripeOffset_lt_word (by omega))]
  rw [stripeOffset_zero] at hge
  unfold FallsShort at hgood
  unfold stripeOffset at hge ⊢
  by_cases hblock : k / 256 < size / 256
  · omega
  · have hsame : slotOf cunit (start + k) = slotOf cunit (start + size) := slotOf_block (by omega)
    rw [hsame]
    omega

/-- The last byte of a region that falls short lies behind the rounded length. -/
theorem le_stripeOffset_of_fallsShort (hlt : len < stripeOffset cunit start size - stripeOffset cunit start 0 + 4096)
    (hbad : FallsShort cunit start size) : len ≤ stripeOffset cunit start (size - 1) % 2 ^ 64 := by
  have hlong : 256 < size := Nat.lt_of_not_le fun hshort => not_fallsShort_of_le hstart hshort hbad
  obtain ⟨hpart, hblock, hup, hdown⟩ := hbad
  have hsame : slotOf cunit (start + (size - 1)) = slotOf cunit (start + size) := slotOf_block (by omega)
  rw [Nat.mod_eq_of_lt (stripeOffset_lt_word (by omega))]
  rw [stripeOffset_zero] at hge hlt
  unfold stripeOffset at hge hlt ⊢
  rw [hsame, hdown]
  rw [hup, hdown] at hge hlt
  omega

end Rounded

/-- **When all bytes of a region lie below the rounded length.** -/
theorem stripeOffset_lt_iff (hstart : start % 256 = 0) {len : Nat}
    (hlen : len = ((stripeOffset cunit start size - stripeOffset cunit start 0) % 2 ^ 64 + 4095) % 2 ^ 64
      / 4096 * 4096)
    (hpos : len ≠ 0) :
    (∀ k < size, stripeOffset cunit start k % 2 ^ 64 < len) ↔ size < 2 ^ 63 ∧ ¬ FallsShort cunit start size := by
  by_cases hsize : size < 2 ^ 63
  · have hword : stripeOffset cunit start size - stripeOffset cunit start 0 < 2 ^ 64 :=
      (Nat.sub_le _ _).trans_lt (stripeOffset_lt_word hsize)
    rw [Nat.mod_eq_of_lt hword] at hlen
    obtain ⟨pages, hpages, hge, hlt⟩ := roundedUp hword hlen hpos
    constructor
    · intro hall
      refine ⟨hsize, fun hbad => ?_⟩
      have hlast := hall (size - 1) (Nat.sub_one_lt fun hzero => hbad.1 (by rw [hzero]))
      exact absurd (le_stripeOffset_of_fallsShort hstart hsize hpages hge hlt hbad) (Nat.not_le.mpr hlast)
    · rintro ⟨-, hgood⟩ k hk
      exact stripeOffset_lt_of_not_fallsShort hstart hsize hpages hge hgood hk
  · -- the last block below 2^63 reaches into the last page of the address space
    refine iff_of_false (fun hall => ?_) (fun h => hsize h.1)
    have hlast := hall (2 ^ 63 - 1) (by omega)
    have hslot : slotOf cunit (start + (2 ^ 63 - 1)) ≤ 1 := slotOf_le_one _ _
    have hpage : len ≤ (2 ^ 64 - 1) / 4096 * 4096 := by
      rw [hlen]
      exact Nat.mul_le_mul_right _ (Nat.div_le_div_right (Nat.le_sub_one_of_lt (Nat.mod_lt _ (by decide))))
    rw [Nat.mod_eq_of_lt (stripeOffset_lt_word (by decide))] at hlast
    unfold stripeOffset at hlast
    omega

end Region

/-! ## The mapping of a sub-region -/

section Mapping

variable {mmap : Mmap} {mapOffset : BitVec 8 → BitVec 64} {i : Nat} {sreg : SequentialRegion} {cunit : BitVec 8}
  {m : MappedData} {v : View}

/-- What a successful turn of the loop leaves behind. -/
structure Initialised (mapOffset : BitVec 8 → BitVec 64) (sreg : SequentialRegion) (cunit : BitVec 8) (m : MappedData)
    (v : View) : Prop where
  len : m.len = alignedCeil (interleavedAddress (sreg.start + sreg.size) (cunitToHa cunit)
    - interleavedAddress sreg.start (cunitToHa cunit))
  len_ne : m.len ≠ 0
  offset : m.offset = alignedFloor (interleavedAddress sreg.start (cunitToHa cunit) + mapOffset cunit)
  first : v.first = m.data + ((interleavedAddress sreg.start (cunitToHa cunit) + mapOffset cunit) &&& alignMask)

theorem initSubRegion_some (hloc : sreg.location = some cunit)
    (h : initSubRegion mmap mapOffset i sreg = .ok (m, v)) : Initialised mapOffset sreg cunit m v := by
  unfold initSubRegion MappedData.create at h
  rw [hloc] at h
  dsimp only at h
  split at h
  · cases h
  · rename_i data hdata
    cases h
    refine ⟨rfl, ?_, rfl, rfl⟩
    rintro hzero
    dsimp only at hzero
    rw [hzero, mmap.map_zero] at hdata
    cases hdata

/-- The pointer `access_impl` and `store_impl` make for byte `k` of a sub-region. -/
theorem pointer_get (cunit : BitVec 8) (start first : BitVec 64) (k : Nat) :
    ((makeInterleavedPointer cunit start first).add (BitVec.ofNat 64 k)).get
      = first - interleavedAddress start (cunitToHa cunit)
        + interleavedAddress (start + BitVec.ofNat 64 k) (cunitToHa cunit) := by
  unfold makeInterleavedPointer InterleavedPointer.add InterleavedPointer.get
  dsimp only
  rw [show (0 : BitVec 64) + start = start from BitVec.zero_add _]

namespace Initialised

variable (hinit : Initialised mapOffset sreg cunit m v)

include hinit

/-- **The mapping shows byte `k` of the sub-region** at the address of the pointer. -/
theorem shows (k : Nat) :
    m.offset + (((makeInterleavedPointer cunit sreg.start v.first).add (BitVec.ofNat 64 k)).get - m.data)
      = mapOffset cunit + interleavedAddress (sreg.start + BitVec.ofNat 64 k) (cunitToHa cunit) := by
  have hpage := alignedFloor_add_mask (interleavedAddress sreg.start (cunitToHa cunit) + mapOffset cunit)
  rw [← hinit.offset] at hpage
  rw [pointer_get, hinit.first]
  linear_combination hpage

variable (hstart : sreg.start.toNat % 4096 = 0)

include hstart

theorem len_toNat :
    m.len.toNat = ((stripeOffset cunit sreg.start.toNat sreg.size.toNat - stripeOffset cunit sreg.start.toNat 0)
      % 2 ^ 64 + 4095) % 2 ^ 64 / 4096 * 4096 := by
  have hblock : sreg.start.toNat % 256 = 0 := by omega
  have hend := interleavedAddress_stripeOffset cunit hblock sreg.size.toNat
  have hzero := interleavedAddress_start cunit hblock
  have hle := stripeOffset_zero_le cunit sreg.size.toNat hblock
  rw [BitVec.ofNat_toNat, BitVec.setWidth_eq] at hend
  rw [← stripeOffset_zero] at hzero
  rw [hinit.len, alignedCeil_toNat, BitVec.toNat_sub, hend, hzero]
  generalize stripeOffset cunit sreg.start.toNat sreg.size.toNat = d at hle ⊢
  generalize stripeOffset cunit sreg.start.toNat 0 = d₀ at hle ⊢
  have hdiff : (2 ^ 64 - (2 * sreg.start.toNat + d₀) % 2 ^ 64 + (2 * sreg.start.toNat + d) % 2 ^ 64) % 2 ^ 64
      = (d - d₀) % 2 ^ 64 := by omega
  rw [hdiff]

/-- Byte `k` of the sub-region, counted from the start of the mapping. -/
theorem distance (hoffset : (mapOffset cunit).toNat % 4096 = 0) (k : Nat) :
    (((makeInterleavedPointer cunit sreg.start v.first).add (BitVec.ofNat 64 k)).get - m.data).toNat
      = stripeOffset cunit sreg.start.toNat k % 2 ^ 64 := by
  have hk := interleavedAddress_stripeOffset cunit (show sreg.start.toNat % 256 = 0 by omega) k
  have hzero := interleavedAddress_start cunit (show sreg.start.toNat % 256 = 0 by omega)
  have hslot : slotOf cunit sreg.start.toNat ≤ 1 := slotOf_le_one _ _
  have hrest : ((interleavedAddress sreg.start (cunitToHa cunit) + mapOffset cunit) &&& alignMask).toNat
      = 256 * slotOf cunit sreg.start.toNat := by
    rw [and_alignMask_toNat, BitVec.toNat_add, hzero]
    omega
  rw [pointer_get, hinit.first]
  have hsub : m.data + ((interleavedAddress sreg.start (cunitToHa cunit) + mapOffset cunit) &&& alignMask)
      - interleavedAddress sreg.start (cunitToHa cunit)
      + interleavedAddress (sreg.start + BitVec.ofNat 64 k) (cunitToHa cunit) - m.data
      = ((interleavedAddress sreg.start (cunitToHa cunit) + mapOffset cunit) &&& alignMask)
        + interleavedAddress (sreg.start + BitVec.ofNat 64 k) (cunitToHa cunit)
        - interleavedAddress sreg.start (cunitToHa cunit) := by ring
  rw [hsub, BitVec.toNat_sub, BitVec.toNat_add, hrest, hk, hzero]
  generalize stripeOffset cunit sreg.start.toNat k = d
  omega

/-- **When the mapping has all bytes of the sub-region.** -/
theorem maps_iff (hoffset : (mapOffset cunit).toNat % 4096 = 0) :
    (∀ k < sreg.size.toNat,
        m.Maps ((makeInterleavedPointer cunit sreg.start v.first).add (BitVec.ofNat 64 k)).get) ↔
      sreg.size.toNat < 2 ^ 63 ∧ ¬ FallsShort cunit sreg.start.toNat sreg.size.toNat := by
  have hpos : m.len.toNat ≠ 0 := fun h => hinit.len_ne (BitVec.eq_of_toNat_eq h)
  rw [← stripeOffset_lt_iff (by omega) (hinit.len_toNat hstart) hpos]
  unfold MappedData.Maps
  constructor
  · intro hall k hk
    rw [← hinit.distance hstart hoffset]
    exact hall k hk
  · intro hall k hk
    rw [hinit.distance hstart hoffset]
    exact hall k hk

end Initialised

/-- **The accessor maps everything it can touch, with one exception.** For a sub-region on a page, of any size, on any
    unit with any page-aligned map offset: every byte lies inside the mapping exactly if it is not the case that the
    size is no multiple of 256 while its whole blocks fill a multiple of 4096 bytes of the mapping, the start of the
    sub-region is in the upper half of its stripe and the end in the lower half. -/
theorem accessor_maps_iff (mmap : Mmap) (mapOffset : BitVec 8 → BitVec 64) (i : Nat) (sreg : SequentialRegion)
    (cunit : BitVec 8) (m : MappedData) (v : View) (hloc : sreg.location = some cunit)
    (hstart : sreg.start.toNat % 4096 = 0) (hoffset : (mapOffset cunit).toNat % 4096 = 0)
    (hinit : initSubRegion mmap mapOffset i sreg = .ok (m, v)) :
    (∀ k < sreg.size.toNat,
        m.Maps ((makeInterleavedPointer cunit sreg.start v.first).add (BitVec.ofNat 64 k)).get) ↔
      sreg.size.toNat < 2 ^ 63 ∧
        ¬ (sreg.size.toNat % 256 ≠ 0 ∧ sreg.size.toNat / 256 % 8 = 0 ∧
          slotOf cunit sreg.start.toNat = 1 ∧ slotOf cunit (sreg.start.toNat + sreg.size.toNat) = 0) :=
  (initSubRegion_some hloc hinit).maps_iff hstart hoffset

/-- Every mapping at one address. -/
def mmapAt (addr : BitVec 64) : Mmap where
  map _ len _ := if len = 0 then none else some addr
  map_zero _ _ := rfl

/-- On unit 0 the 4160 bytes from `0x7f000` on start in the lower half of a stripe: they are all mapped. -/
theorem accessor_maps_iff_unit0 :
    ∃ m v, initSubRegion (mmapAt 0x10000000) (fun _ => 0x200000000) 0 ⟨0x7f000, 4160, some 0⟩ = .ok (m, v) ∧
      ∀ k < 4160, m.Maps ((makeInterleavedPointer 0 0x7f000 v.first).add (BitVec.ofNat 64 k)).get := by
  refine ⟨_, _, rfl, ?_⟩
  exact (accessor_maps_iff (mmapAt 0x10000000) (fun _ => 0x200000000) 0 ⟨0x7f000, 4160, some 0⟩ 0 _ _ rfl
    (by decide) (by decide) rfl).mpr (by decide)

/-- **The end of a region is not mapped.** On unit 1 the 4160 bytes from `0x7f000` on start in the upper half of a
    stripe and end, behind the multiple of 512 KiB, in the lower half: 8192 bytes are mapped, and the last byte of
    the region is byte 8255. -/
theorem accessor_maps_too_little :
    ∃ m v, initSubRegion (mmapAt 0x10000000) (fun _ => 0) 1 ⟨0x7f000, 4160, some 1⟩ = .ok (m, v) ∧
      m.len = 8192 ∧
      ((makeInterleavedPointer 1 0x7f000 v.first).add (BitVec.ofNat 64 4159)).get = m.data + 8255 ∧
      ¬ m.Maps ((makeInterleavedPointer 1 0x7f000 v.first).add (BitVec.ofNat 64 4159)).get := by
  refine ⟨_, _, rfl, ?_, ?_, ?_⟩
  · decide
  · decide
  · decide

end Mapping

end Pnm.Sls
