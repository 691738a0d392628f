import Mathlib.Data.BitVec
import Mathlib.Data.List.Basic

/-!
# `Core.SharedRegion` — device regions and their serialised form

The model of `core/memory/api/shared_region.cpp`, with the regions of `include/pnmlib/core/memory.h` and the exceptions
of `include/pnmlib/common/error.h` that this library's memory classes throw. Another process receives a region as one
64-bit word for each sub-region: the address, and the compute unit in the highest byte. Two things are not in the
words but guessed from how many there are:

- whether the region is ranked: it is, if there is more than one word;
- what a unit of 255 means: it marks a sub-region without allocation, unless there are 256 words.

`deserialize_serialize` says what comes back of any region; `round_trip_iff` says of which regions it is the same.
-/

namespace Pnm.Core

/-- The exceptions of the memory classes: those of `pnm::error`, and those of `std::get` and of `optional::value`. -/
inductive Error where
  | outOfMemory (message : String)
  | invalidArguments (message : String)
  | io (message : String)
  | notSupported (message : String)
  | failure (message : String)
  | badVariantAccess
  | badOptionalAccess
deriving DecidableEq

/-- `SequentialRegion`. -/
structure SequentialRegion where
  start : BitVec 64 := 0
  size : BitVec 64 := 0
  location : Option (BitVec 8) := none
  isGlobal : BitVec 8 := 0
deriving DecidableEq

/-- `DeviceRegion`: a `SequentialRegion`, or a `RankedRegion` with its sub-regions. -/
inductive DeviceRegion where
  | sequential (region : SequentialRegion)
  | ranked (regions : List SequentialRegion)
deriving DecidableEq

/-- `SharedRegion`. -/
structure SharedRegion where
  region : DeviceRegion
  serializedRegion : List (BitVec 64)

namespace SharedRegion

def cunitPosInSerialized : Nat := 56

def maxAmountOfRegions : Nat := 256

def maxIndexOfRegion : BitVec 8 := 255

/-- `serialize_sequential`. -/
def serializeSequential (region : SequentialRegion) : BitVec 64 :=
  region.start ||| ((region.location.getD maxIndexOfRegion).setWidth 64 <<< cunitPosInSerialized)

/-- `deserialize_sequential`. -/
def deserializeSequential (serializedRegion : BitVec 64) (amountOfRegions : Nat) : SequentialRegion :=
  let tmpLocation := serializedRegion >>> cunitPosInSerialized
  { start := serializedRegion &&& ~~~(tmpLocation <<< cunitPosInSerialized)
    location :=
      if tmpLocation < maxIndexOfRegion.setWidth 64 ∨
          tmpLocation = maxIndexOfRegion.setWidth 64 ∧ amountOfRegions = maxAmountOfRegions then
        some (tmpLocation.setWidth 8)
      else none }

/-- `serialize`. -/
def serialize : DeviceRegion → List (BitVec 64)
  | .sequential sequential => [serializeSequential sequential]
  | .ranked regions        => regions.map serializeSequential

/-- `deserialize`, of at least one word. -/
def deserialize (first : BitVec 64) (rest : List (BitVec 64)) : DeviceRegion :=
  let words := first :: rest
  if words.length > 1 then .ranked (words.map fun buf => deserializeSequential buf words.length)
  else .sequential (deserializeSequential first words.length)

/-- The constructor from a region. -/
def ofRegion (region : DeviceRegion) : SharedRegion := { region := region, serializedRegion := serialize region }

/-- The constructor from words. -/
def ofSerialized : List (BitVec 64) → Except Error SharedRegion
  | [] => .error (.invalidArguments "Invalid size of serialized region. Must have at least one element")
  | first :: rest => .ok { region := deserialize first rest, serializedRegion := first :: rest }

/-! ## One sub-region -/

theorem getLsbD_eq_false {x : BitVec 64} (hx : x.toNat < 2 ^ 56) {i : Nat} (hi : 56 ≤ i) : x.getLsbD i = false :=
  Nat.testBit_lt_two_pow (hx.trans_le (Nat.pow_le_pow_right (by decide) hi))

theorem getLsbD_serializeSequential (region : SequentialRegion) (i : Nat) :
    (serializeSequential region).getLsbD i = (region.start.getLsbD i ||
      (decide (i < 64) && !decide (i < 56) && (region.location.getD 255).getLsbD (i - 56))) := by
  rw [serializeSequential, BitVec.getLsbD_or, BitVec.getLsbD_shiftLeft, BitVec.getLsbD_setWidth,
    cunitPosInSerialized, maxIndexOfRegion]
  by_cases hi : i < 64
  · rw [decide_eq_true (show i - 56 < 64 by omega), Bool.true_and]
  · simp [hi]

/-- The highest byte is the unit. -/
theorem serializeSequential_ushiftRight {region : SequentialRegion} (h : region.start.toNat < 2 ^ 56) :
    serializeSequential region >>> cunitPosInSerialized = (region.location.getD 255).setWidth 64 := by
  apply BitVec.eq_of_getLsbD_eq
  intro i _
  rw [BitVec.getLsbD_ushiftRight, getLsbD_serializeSequential, cunitPosInSerialized,
    getLsbD_eq_false h (Nat.le_add_right 56 i), BitVec.getLsbD_setWidth, Nat.add_sub_cancel_left]
  by_cases hi : i < 8
  · have hnot : ¬ 56 + i < 56 := Nat.not_lt.mpr (Nat.le_add_right 56 i)
    rw [decide_eq_true (show 56 + i < 64 by omega), decide_eq_false hnot, decide_eq_true (show i < 64 by omega)]
    simp
  · simp [BitVec.getLsbD_of_ge _ i (Nat.le_of_not_lt hi)]

/-- Without the highest byte it is the address. -/
theorem serializeSequential_and_not {region : SequentialRegion} (h : region.start.toNat < 2 ^ 56) :
    serializeSequential region &&& ~~~((region.location.getD 255).setWidth 64 <<< cunitPosInSerialized)
      = region.start := by
  apply BitVec.eq_of_getLsbD_eq
  intro i hi
  rw [BitVec.getLsbD_and, getLsbD_serializeSequential, BitVec.getLsbD_not, BitVec.getLsbD_shiftLeft,
    BitVec.getLsbD_setWidth, cunitPosInSerialized, decide_eq_true hi, decide_eq_true (show i - 56 < 64 by omega)]
  by_cases hlow : i < 56
  · simp [hlow]
  · rw [getLsbD_eq_false h (Nat.le_of_not_lt hlow)]
    simp [hlow]

/-- The location that comes back, of `amount` sub-regions. -/
def locationBack (location : Option (BitVec 8)) (amount : Nat) : Option (BitVec 8) :=
  if location.getD 255 ≠ 255 ∨ amount = 256 then some (location.getD 255) else none

/-- The highest byte is taken for a unit unless it is the mark, and the mark too if there are 256 sub-regions. -/
theorem isUnit_iff (unit : BitVec 8) (amount : Nat) :
    (unit.setWidth 64 < maxIndexOfRegion.setWidth 64 ∨
      unit.setWidth 64 = maxIndexOfRegion.setWidth 64 ∧ amount = maxAmountOfRegions) ↔
    (unit ≠ 255 ∨ amount = 256) := by
  have hword : (unit.setWidth 64).toNat = unit.toNat := BitVec.toNat_setWidth_of_le (by decide)
  have hmark : (maxIndexOfRegion.setWidth 64).toNat = 255 := by decide
  have hlt : unit.toNat < 256 := unit.isLt
  rw [BitVec.lt_def, ← BitVec.toNat_inj, ne_eq, ← BitVec.toNat_inj, hword, hmark, maxAmountOfRegions]
  show _ ↔ ¬ unit.toNat = 255 ∨ _
  omega

/-- **What comes back of a sub-region**: its address and its location, without its size and its flag. -/
theorem deserializeSequential_serializeSequential {region : SequentialRegion} (h : region.start.toNat < 2 ^ 56)
    (amount : Nat) :
    deserializeSequential (serializeSequential region) amount
      = { start := region.start, location := locationBack region.location amount } := by
  have hback : ∀ unit : BitVec 8, (unit.setWidth 64).setWidth 8 = unit := fun unit => by simp
  simp only [deserializeSequential, serializeSequential_ushiftRight h, serializeSequential_and_not h, isUnit_iff,
    locationBack, hback]

/-- The location comes back, unless it is taken for the mark or the mark for it. -/
theorem locationBack_eq_iff (location : Option (BitVec 8)) (amount : Nat) :
    locationBack location amount = location ↔ if amount = 256 then location ≠ none else location ≠ some 255 := by
  rw [locationBack]
  by_cases hamount : amount = 256
  · cases location with
    | none => simp [hamount]
    | some unit => simp [hamount]
  · cases location with
    | none => simp [hamount]
    | some unit => simp [hamount]

/-! ## Regions -/

/-- What identifies an allocation to the kernel: its address and its unit. -/
def place (region : SequentialRegion) : BitVec 64 × Option (BitVec 8) := (region.start, region.location)

/-- Regions of one kind with as many sub-regions, each with the address and the location of the other. -/
def SamePlaces : DeviceRegion → DeviceRegion → Prop
  | .sequential a, .sequential b => place a = place b
  | .ranked as, .ranked bs       => as.map place = bs.map place
  | _, _                         => False

/-- The regions of the allocators: addresses leave the highest byte free, a sequential region has no location that is
    the mark, and sub-region `i` of a ranked region is on unit `i` or has no allocation. -/
def Shareable : DeviceRegion → Prop
  | .sequential region => region.start.toNat < 2 ^ 56 ∧ region.location ≠ some 255
  | .ranked regions    =>
      1 ≤ regions.length ∧ regions.length ≤ 256 ∧
        ∀ i region, regions[i]? = some region →
          region.start.toNat < 2 ^ 56 ∧ (region.location = some (BitVec.ofNat 8 i) ∨ region.location = none)

/-- The number of words tells the kind and what the mark means. -/
def Told : DeviceRegion → Prop
  | .sequential _   => True
  | .ranked regions => 2 ≤ regions.length ∧ (regions.length = 256 → ∀ region ∈ regions, region.location ≠ none)

/-- The region that is rebuilt from the words. -/
def rebuilt : DeviceRegion → DeviceRegion
  | .sequential region => .sequential { start := region.start, location := locationBack region.location 1 }
  | .ranked [region]   => .sequential { start := region.start, location := locationBack region.location 1 }
  | .ranked regions    =>
      .ranked (regions.map fun region =>
        { start := region.start, location := locationBack region.location regions.length })

/-- Addresses leave the highest byte free. -/
def StartsFit : DeviceRegion → Prop
  | .sequential region => region.start.toNat < 2 ^ 56
  | .ranked regions    => ∀ region ∈ regions, region.start.toNat < 2 ^ 56

/-- **What comes back of a region** with at least one sub-region. -/
theorem ofSerialized_serialize {region : DeviceRegion} (h : StartsFit region) (hne : region ≠ .ranked []) :
    ofSerialized (serialize region) = .ok { region := rebuilt region, serializedRegion := serialize region } := by
  cases region with
  | sequential region =>
      have hback := deserializeSequential_serializeSequential h 1
      simp only [serialize, ofSerialized, deserialize, rebuilt, ← hback]
      rfl
  | ranked regions =>
      match regions with
      | [] => exact absurd rfl hne
      | [region] =>
          have hback := deserializeSequential_serializeSequential (h region List.mem_cons_self) 1
          simp only [serialize, ofSerialized, List.map_cons, List.map_nil, deserialize, rebuilt, ← hback]
          rfl
      | a :: b :: rest =>
          have hmany : (serializeSequential a :: (b :: rest).map serializeSequential).length > 1 := by simp
          have hback : ∀ region ∈ a :: b :: rest,
              deserializeSequential (serializeSequential region) (a :: b :: rest).length
                = { start := region.start, location := locationBack region.location (a :: b :: rest).length } :=
            fun region hregion => deserializeSequential_serializeSequential (h region hregion) _
          rw [serialize, List.map_cons, ofSerialized, deserialize, if_pos hmany, rebuilt, ← List.map_cons,
            List.map_map, List.length_map]
          · exact congrArg (fun back => Except.ok (SharedRegion.mk (.ranked back) _)) (List.map_congr_left hback)
          · simp

theorem Shareable.startsFit {region : DeviceRegion} (h : Shareable region) : StartsFit region := by
  cases region with
  | sequential region => exact h.1
  | ranked regions =>
      intro region hregion
      obtain ⟨i, hi⟩ := List.getElem?_of_mem hregion
      exact (h.2.2 i region hi).1

theorem Shareable.ne_nil {region : DeviceRegion} (h : Shareable region) : region ≠ .ranked [] := by
  rintro rfl
  exact Nat.not_succ_le_zero 0 h.1

/-- A region of two sub-regions or more comes back as one. -/
theorem rebuilt_ranked {regions : List SequentialRegion} (hmany : 2 ≤ regions.length) :
    rebuilt (.ranked regions) = .ranked (regions.map fun region =>
      { start := region.start, location := locationBack region.location regions.length }) := by
  rw [rebuilt]
  rintro region rfl
  exact Nat.not_succ_le_self 1 hmany

theorem place_back_iff (region : SequentialRegion) (amount : Nat) :
    place region = place { start := region.start, location := locationBack region.location amount } ↔
      if amount = 256 then region.location ≠ none else region.location ≠ some 255 := by
  rw [← locationBack_eq_iff, place, place, Prod.mk.injEq]
  exact ⟨fun h => h.2.symm, fun h => ⟨rfl, h.symm⟩⟩

/-- With two sub-regions or more it is the mark that decides. -/
theorem samePlaces_ranked_iff {regions : List SequentialRegion} (h : Shareable (.ranked regions))
    (hmany : 2 ≤ regions.length) :
    SamePlaces (.ranked regions) (rebuilt (.ranked regions)) ↔ Told (.ranked regions) := by
  rw [rebuilt_ranked hmany, SamePlaces, List.map_map, List.map_inj_left, Told, and_iff_right hmany]
  simp only [Function.comp_def, place_back_iff]
  by_cases hall : regions.length = 256
  · simp only [hall, true_implies, if_true]
  · -- fewer than 256: no sub-region is on unit 255
    refine iff_of_true (fun region hregion => ?_) fun heq => absurd heq hall
    rw [if_neg hall]
    obtain ⟨i, hi⟩ := List.getElem?_of_mem hregion
    have hlt : i < regions.length := (List.getElem?_eq_some_iff.mp hi).1
    rcases (h.2.2 i region hi).2 with hunit | hnone
    · rw [hunit, ne_eq, Option.some_inj, ← BitVec.toNat_inj, BitVec.toNat_ofNat]
      have hle := h.2.1
      show ¬ i % 2 ^ 8 = 255
      omega
    · rw [hnone]
      exact Option.some_ne_none _ ∘ Eq.symm

theorem samePlaces_rebuilt_iff {region : DeviceRegion} (h : Shareable region) :
    SamePlaces region (rebuilt region) ↔ Told region := by
  cases region with
  | sequential region => exact iff_of_true ((place_back_iff region 1).mpr h.2) trivial
  | ranked regions =>
      match regions with
      | [] => exact absurd h.1 (by decide)
      | [region] => exact iff_of_false id fun htold => Nat.not_succ_le_self 1 htold.1
      | a :: b :: rest => exact samePlaces_ranked_iff h (by simp)

theorem comes_back_iff {region : DeviceRegion} (h : Shareable region) :
    (∃ shared, ofSerialized (ofRegion region).serializedRegion = .ok shared ∧ SamePlaces region shared.region) ↔
      SamePlaces region (rebuilt region) := by
  rw [ofRegion, ofSerialized_serialize h.startsFit h.ne_nil]
  constructor
  · rintro ⟨shared, heq, hsame⟩
    obtain rfl := Except.ok.inj heq
    exact hsame
  · exact fun hsame => ⟨_, rfl, hsame⟩

/-- **Round trips.** A region comes back as one of the same kind, with the same addresses and locations, exactly if it
    is sequential, or has at least two sub-regions and, if it has 256, an allocation on each of them. -/
theorem round_trip_iff {region : DeviceRegion} (h : Shareable region) :
    (∃ shared, ofSerialized (ofRegion region).serializedRegion = .ok shared ∧ SamePlaces region shared.region) ↔
      Told region :=
  (comes_back_iff h).trans (samePlaces_rebuilt_iff h)

/-- An allocation on the first of `n + 1` units, and none on the others. -/
def onFirstUnit (n : Nat) : DeviceRegion :=
  .ranked ({ start := 0x1000, size := 64, location := some 0 } :: List.replicate n {})

theorem shareable_onFirstUnit {n : Nat} (hn : n < 256) : Shareable (onFirstUnit n) := by
  refine ⟨by simp, by simp only [List.length_cons, List.length_replicate]; omega, ?_⟩
  intro i region hi
  cases i with
  | zero =>
      obtain rfl := Option.some.inj hi
      exact ⟨by decide, .inl rfl⟩
  | succ i =>
      rw [List.getElem?_cons_succ] at hi
      obtain rfl := List.eq_of_mem_replicate (List.mem_of_getElem? hi)
      exact ⟨by decide, .inr rfl⟩

theorem round_trip_two_units :
    ∃ shared, ofSerialized (ofRegion (onFirstUnit 1)).serializedRegion = .ok shared ∧
      SamePlaces (onFirstUnit 1) shared.region :=
  (round_trip_iff (shareable_onFirstUnit (by decide))).mpr ⟨by decide, by decide⟩

/-- With one unit the region comes back as a sequential one. With 256 the empty sub-regions come back on unit 255. -/
theorem round_trip_fails :
    (Shareable (onFirstUnit 0) ∧
      ¬ ∃ shared, ofSerialized (ofRegion (onFirstUnit 0)).serializedRegion = .ok shared ∧
        SamePlaces (onFirstUnit 0) shared.region) ∧
    Shareable (onFirstUnit 255) ∧
      ¬ ∃ shared, ofSerialized (ofRegion (onFirstUnit 255)).serializedRegion = .ok shared ∧
        SamePlaces (onFirstUnit 255) shared.region := by
  have hone : Shareable (onFirstUnit 0) := shareable_onFirstUnit (by decide)
  have hall : Shareable (onFirstUnit 255) := shareable_onFirstUnit (by decide)
  refine ⟨⟨hone, ?_⟩, hall, ?_⟩
  · rw [comes_back_iff hone, samePlaces_rebuilt_iff hone]
    exact fun htold => Nat.not_succ_le_self 1 htold.1
  · rw [comes_back_iff hall, samePlaces_rebuilt_iff hall]
    intro htold
    have hempty : ({} : SequentialRegion) ∈ List.replicate 255 {} := List.mem_replicate.mpr ⟨by decide, rfl⟩
    exact htold.2 (by rw [List.length_cons, List.length_replicate]) {} (List.mem_cons_of_mem _ hempty) rfl

end SharedRegion

end Pnm.Core
