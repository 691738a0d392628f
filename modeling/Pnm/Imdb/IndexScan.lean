import Pnm.Imdb.Scan

/-!
# `Imdb.IndexScan` — scans with an index vector as result

Each block compacts the indices of its accepted lanes and stores eight entries, of which the first
`popcount mask` count. After `b` blocks the counted entries are the accepted lanes below `8 * b` in order, taken
modulo `2 ^ 32` (`Reported`). The lanes behind the last row read the filler of the storage and are tested like rows.

`scanIndices_spec` gives the run of a scan with room for its stores, `scanIndices_eq_none` the run of one without.
-/

namespace Pnm.Imdb

open Pnm.Lib

/-! ## Compaction -/

/-- `_pdep_u64`: put the low bits of `src` at the places set in `mask`. -/
def pdep (src mask : BitVec 64) : BitVec 64 :=
  ((List.range 64).foldl
    (fun (st : BitVec 64 × Nat) m =>
      if mask.getLsbD m then (if src.getLsbD st.2 then st.1 ||| 1#64 <<< m else st.1, st.2 + 1) else st)
    (0, 0)).1

/-- `_pext_u64`: gather the bits of `src` at the places set in `mask`. -/
def pext (src mask : BitVec 64) : BitVec 64 :=
  ((List.range 64).foldl
    (fun (st : BitVec 64 × Nat) m =>
      if mask.getLsbD m then (if src.getLsbD m then st.1 ||| 1#64 <<< st.2 else st.1, st.2 + 1) else st)
    (0, 0)).1

/-- `_popcnt32` of a mask. -/
def popcount (mask : BitVec 8) : Nat := (List.range 8).countP mask.getLsbD

/-- `permute_vec`: the lane that entry `k` is taken from, as `_mm256_permutevar8x32_ps` reads it. -/
def permuteLane (mask : BitVec 8) (k : Nat) : Nat :=
  let extendedMask := pdep (mask.setWidth 64) 0x0101010101010101 * 0xFF
  let permuteMask := pext 0x0706050403020100 extendedMask
  (permuteMask >>> (8 * k)).toNat % 256 % 8

/-- A view of the index vector: entries and their number. -/
structure IndexView where
  size : Nat
  data : Nat → BitVec 32

/-- Eight entries from `out` on are replaced by the lanes. -/
def IndexView.write (v : IndexView) (out : Nat) (lanes : Lanes) : IndexView :=
  { v with data := fun k => if out ≤ k ∧ k < out + 8 then lanes (k - out) else v.data k }

/-- `_mm256_storeu_si256` at entry `out`. -/
def IndexView.store256 (v : IndexView) (out : Nat) (lanes : Lanes) : Option IndexView :=
  if out + 8 ≤ v.size then some (v.write out lanes) else none

/-- `store` into an index vector. -/
def storeIndices (base : Nat) (mask : BitVec 8) (result : IndexView) (outIndex : Nat) : Option (Nat × IndexView) := do
  let indices : Lanes := fun j => BitVec.ofNat 32 base + BitVec.ofNat 32 j
  let permuted : Lanes := fun k => indices (permuteLane mask k)
  let result ← result.store256 outIndex permuted
  some (popcount mask, result)

/-- `scan` with an index vector as result. -/
def scanIndices (column : BitCompressed 32) (predicate : ScanPredicate) (result : IndexView) :
    Option (Nat × IndexView) :=
  scanAvx2Impl column predicate storeIndices result

/-- **The compaction is right for all masks**: the first entries are the places set in the mask, in order. -/
theorem permuteLane_eq (mask : BitVec 8) :
    (List.range (popcount mask)).map (permuteLane mask) = (List.range 8).filter mask.getLsbD := by
  have hall : ∀ m < 256, (List.range (popcount (BitVec.ofNat 8 m))).map (permuteLane (BitVec.ofNat 8 m))
      = (List.range 8).filter (BitVec.ofNat 8 m).getLsbD := by
    decide +kernel
  have hmask := hall mask.toNat mask.isLt
  rwa [BitVec.ofNat_toNat, BitVec.setWidth_eq] at hmask

/-- **What one store does**: the entries from `outIndex` on are the indices of the accepted lanes, and nothing outside
    the eight entries changes. -/
theorem storeIndices_spec (base : Nat) (mask : BitVec 8) {result : IndexView} {outIndex : Nat}
    (hroom : outIndex + 8 ≤ result.size) :
    ∃ out, storeIndices base mask result outIndex = some (popcount mask, out) ∧ out.size = result.size ∧
      (∀ k, k < outIndex ∨ outIndex + 8 ≤ k → out.data k = result.data k) ∧
      (List.range (popcount mask)).map (fun k => out.data (outIndex + k))
        = ((List.range 8).filter mask.getLsbD).map (fun j => BitVec.ofNat 32 (base + j)) := by
  have hcount : popcount mask ≤ 8 := List.countP_le_length
  refine ⟨result.write outIndex fun k => BitVec.ofNat 32 base + BitVec.ofNat 32 (permuteLane mask k), ?_, rfl,
    fun k hk => ?_, ?_⟩
  · rw [storeIndices, IndexView.store256, if_pos hroom]
    rfl
  · exact if_neg (by omega)
  · rw [← permuteLane_eq, List.map_map]
    refine List.map_congr_left fun k hk => ?_
    have hk' := List.mem_range.mp hk
    show (if outIndex ≤ outIndex + k ∧ outIndex + k < outIndex + 8 then _ else _) = _
    rw [if_pos ⟨by omega, by omega⟩, Nat.add_sub_cancel_left, Function.comp_apply, BitVec.ofNat_add]

/-! ## The run of a scan -/

section Run

variable {column : BitCompressed 32} {predicate : ScanPredicate}

/-- The lanes below `n` that are accepted. -/
def acceptedLanes (column : BitCompressed 32) (predicate : ScanPredicate) (n : Nat) : List Nat :=
  (List.range n).filter fun i => predicate.accepts (column.getValue i)

variable (column predicate) in
theorem length_acceptedLanes_mono {n m : Nat} (h : n ≤ m) :
    (acceptedLanes column predicate n).length ≤ (acceptedLanes column predicate m).length :=
  ((List.range_sublist.mpr h).filter _).length_le

/-- A block adds its accepted lanes. -/
theorem acceptedLanes_block {b : Nat} {mask : BitVec 8}
    (hmask : ∀ j < 8, mask.getLsbD j = predicate.accepts (column.getValue (8 * b + j))) :
    acceptedLanes column predicate (8 * (b + 1))
      = acceptedLanes column predicate (8 * b) ++ ((List.range 8).filter mask.getLsbD).map (8 * b + ·) := by
  rw [acceptedLanes, Nat.mul_succ, List.range_add, List.filter_append, List.filter_map, acceptedLanes]
  congr 2
  exact List.filter_congr fun j hj => (hmask j (List.mem_range.mp hj)).symm

/-- What the result holds after the lanes below `n`: the accepted ones are counted and are the first entries; the
    entries behind the limit are as before. -/
structure Reported (column : BitCompressed 32) (predicate : ScanPredicate) (before : IndexView) (n count : Nat)
    (result : IndexView) : Prop where
  count_eq : count = (acceptedLanes column predicate n).length
  size_eq : result.size = before.size
  entries : (List.range count).map result.data = (acceptedLanes column predicate n).map (BitVec.ofNat 32)
  behind : ∀ k ≥ before.size, result.data k = before.data k

/-- The eight entries stored for block `b` fit into the result. -/
def RoomForBlock (column : BitCompressed 32) (predicate : ScanPredicate) (limit b : Nat) : Prop :=
  (acceptedLanes column predicate (8 * b)).length + 8 ≤ limit

theorem Reported.step (hw : column.valueBits ≤ 18) {before result : IndexView} {b count : Nat}
    (hb : 8 * b < column.size) (hfits : RoomForBlock column predicate before.size b)
    (h : Reported column predicate before (8 * b) count result) :
    ∃ mask stored out, blockMask column predicate (b * column.valueBits) = some mask ∧
      storeIndices (8 * b) mask result count = some (stored, out) ∧
      Reported column predicate before (8 * (b + 1)) (count + stored) out := by
  obtain ⟨mask, hblock, hmask⟩ := blockMask_eq predicate hw hb
  have hlanes := acceptedLanes_block hmask
  unfold RoomForBlock at hfits
  rw [← h.count_eq] at hfits
  rw [← h.size_eq] at hfits
  obtain ⟨out, hstore, hsize, hframe, hnew⟩ := storeIndices_spec (8 * b) mask hfits
  refine ⟨mask, _, out, hblock, hstore, ?_, hsize.trans h.size_eq, ?_, fun k hk => ?_⟩
  · rw [hlanes, List.length_append, ← h.count_eq, List.length_map, ← List.countP_eq_length_filter]
    rfl
  · rw [hlanes, List.range_add, List.map_append, List.map_append, List.map_map, List.map_map, ← h.entries]
    congr 1
    refine List.map_congr_left fun k hk => hframe k (.inl (List.mem_range.mp hk))
  · rw [hframe k (.inr (by rw [← h.size_eq] at hk; omega)), h.behind k hk]

/-- **A scan whose stores fit** returns the accepted lanes of all its blocks. -/
theorem scanIndices_spec (hw : column.valueBits ≤ 18) {result : IndexView}
    (hfits : ∀ b, 8 * b < column.size → RoomForBlock column predicate result.size b) :
    ∃ count out, scanIndices column predicate result = some (count, out) ∧
      Reported column predicate result (8 * ((column.size + 7) / 8)) count out :=
  scanAvx2Impl_total column predicate storeIndices (fun b count r => Reported column predicate result (8 * b) count r)
    result
    ⟨rfl, rfl, rfl, fun _ _ => rfl⟩ fun b hb _ _ h => h.step hw hb (hfits b hb)

/-- **A scan with a store that does not fit** writes outside the result. -/
theorem scanIndices_eq_none (hw : column.valueBits ≤ 18) {result : IndexView} {b : Nat} (hb : 8 * b < column.size)
    (hfits : ¬ RoomForBlock column predicate result.size b) : scanIndices column predicate result = none := by
  induction b using Nat.strong_induction_on with
  | _ b ih =>
      by_cases hall : ∀ b' < b, RoomForBlock column predicate result.size b'
      · -- block `b` is the first whose store does not fit
        obtain ⟨count, r, hinv, hrun⟩ := scanLoop_reaches column predicate storeIndices
          (fun b count r => Reported column predicate result (8 * b) count r) result ⟨rfl, rfl, rfl, fun _ _ => rfl⟩ b
          (fun b' hb' => by omega)
          (fun b' hb' _ _ h => h.step hw (by omega) (hall b' hb'))
        obtain ⟨mask, hblock, -⟩ := blockMask_eq predicate hw hb
        have hstore : storeIndices (8 * b) mask r count = none := by
          rw [storeIndices, IndexView.store256, if_neg]
          · rfl
          · rw [hinv.count_eq, hinv.size_eq]
            exact hfits
        rw [scanIndices, hrun, scanLoop_block hb hblock, hstore]
        rfl
      · obtain ⟨b', hb'⟩ := not_forall.mp hall
        obtain ⟨hlt, hnot⟩ := Classical.not_imp.mp hb'
        exact ih b' hlt (by omega) hnot

end Run

/-! ## The scalar scans -/

/-- The rows that satisfy the predicate. -/
def matchingRows (column : BitCompressed 32) (predicate : ScanPredicate) : List Nat :=
  (List.range column.size).filter fun i => predicate.holds (column.getValue i)

/-- The body of the scalar scans into an index vector. -/
def ivBody (column : BitCompressed 32) (predicate : ScanPredicate) (i : BitVec 32) (result : List (BitVec 32)) :
    List (BitVec 32) :=
  if predicate.holds (column.getValue i.toNat) then result ++ [i] else result

/-- The scalar scans into an index vector. -/
def cpuToIv (column : BitCompressed 32) (predicate : ScanPredicate) (fuel : Nat) : Option (List (BitVec 32)) :=
  cpuLoop column.size (ivBody column predicate) fuel 0 []

/-- `in_range_to_iv`. -/
def inRangeToIv (column : BitCompressed 32) (start last : BitVec 32) (fuel : Nat) : Option (List (BitVec 32)) :=
  cpuToIv column (.inRange start last) fuel

/-- `in_list_to_iv`. -/
def inListToIv (column : BitCompressed 32) (predictor : BitVectorView 32) (fuel : Nat) : Option (List (BitVec 32)) :=
  cpuToIv column (.inList predictor) fuel

/-- **The scalar scan lists the matching rows**, for columns whose rows its index type can count. -/
theorem cpuToIv_eq {column : BitCompressed 32} (hsize : column.size < 2 ^ 32) (predicate : ScanPredicate)
    {fuel : Nat} (hfuel : column.size < fuel) :
    cpuToIv column predicate fuel = some ((matchingRows column predicate).map (BitVec.ofNat 32)) := by
  have hrows : ∀ n < 2 ^ 32, (List.range n).foldl (fun r i => ivBody column predicate (BitVec.ofNat 32 i) r) []
      = ((List.range n).filter fun i => predicate.holds (column.getValue i)).map (BitVec.ofNat 32) := by
    intro n hn
    induction n with
    | zero => rfl
    | succ n ih =>
        rw [List.range_succ, List.foldl_append, ih (by omega), List.filter_append, List.map_append, List.foldl_cons,
          List.foldl_nil, ivBody, BitVec.toNat_ofNat, Nat.mod_eq_of_lt (by omega)]
        cases hrow : predicate.holds (column.getValue n) <;> simp [hrow]
  rw [cpuToIv, cpuLoop_eq hsize _ hfuel, hrows _ hsize, matchingRows]

/-! ## Right results -/

/-- The scan returns, counts the matching rows and lists them in increasing order, and no mask it stores from has the
    bit of a lane behind the last row. -/
def IndexScanCorrect (column : BitCompressed 32) (predicate : ScanPredicate) (result : IndexView) : Prop :=
  (∃ count out, scanIndices column predicate result = some (count, out) ∧
    (List.range count).map (fun k => (out.data k).toNat) = matchingRows column predicate) ∧
  ∀ b j mask, 8 * b < column.size → j < 8 → column.size ≤ 8 * b + j →
    blockMask column predicate (b * column.valueBits) = some mask → mask.getLsbD j = false

section Correct

variable {column : BitCompressed 32} {predicate : ScanPredicate}

/-- No mask has a bit behind the last row exactly if no such lane of the last block is accepted. -/
theorem padding_iff (hw : column.valueBits ≤ 18) :
    (∀ b j mask, 8 * b < column.size → j < 8 → column.size ≤ 8 * b + j →
      blockMask column predicate (b * column.valueBits) = some mask → mask.getLsbD j = false) ↔
    ∀ i < 8 * ((column.size + 7) / 8), column.size ≤ i → predicate.accepts (column.getValue i) = false := by
  constructor
  · intro h i hi hge
    obtain ⟨mask, hblock, hmask⟩ := blockMask_eq predicate hw (b := i / 8) (by omega)
    rw [← Nat.div_add_mod i 8, ← hmask _ (Nat.mod_lt _ (by decide))]
    exact h (i / 8) (i % 8) mask (by omega) (Nat.mod_lt _ (by decide)) (by omega) hblock
  · intro h b j mask hb hj hge hblock
    obtain ⟨mask', hblock', hmask⟩ := blockMask_eq predicate hw hb
    obtain rfl := Option.some.inj (hblock'.symm.trans hblock)
    rw [hmask j hj]
    exact h _ (by omega) hge

/-- Without accepted lanes behind the last row, the accepted lanes are accepted rows. -/
theorem acceptedLanes_eq_of_padding
    (h : ∀ i < 8 * ((column.size + 7) / 8), column.size ≤ i → predicate.accepts (column.getValue i) = false) :
    acceptedLanes column predicate (8 * ((column.size + 7) / 8)) = acceptedLanes column predicate column.size := by
  obtain ⟨rest, hrest⟩ : ∃ rest, 8 * ((column.size + 7) / 8) = column.size + rest :=
    ⟨8 * ((column.size + 7) / 8) - column.size, by omega⟩
  have hnone : ((List.range rest).map (column.size + ·)).filter
      (fun i => predicate.accepts (column.getValue i)) = [] := by
    refine List.filter_eq_nil_iff.mpr fun i hi => ?_
    obtain ⟨j, hj, rfl⟩ := List.mem_map.mp hi
    have hlt := List.mem_range.mp hj
    rw [h (column.size + j) (by omega) (by omega)]
    decide
  rw [hrest, acceptedLanes, List.range_add, List.filter_append, hnone, List.append_nil, acceptedLanes]

/-- The accepted rows are the matching rows whose lookup is made. -/
theorem acceptedLanes_rows (hw : column.valueBits ≤ 18) (hp : predicate.Valid) :
    acceptedLanes column predicate column.size
      = (matchingRows column predicate).filter fun i => decide (predicate.Reaches (column.getValue i)) := by
  rw [acceptedLanes, matchingRows, List.filter_filter]
  refine List.filter_congr fun i _ => ?_
  have hlt := BitCompressed.getValue_lt hw i
  rw [ScanPredicate.accepts_eq hp (by omega), Bool.and_comm]

/-- **When a scan is right**, in terms of its lanes. -/
theorem indexScanCorrect_iff (hw : column.valueBits ≤ 18) (hp : predicate.Valid) {result : IndexView}
    (hfits : ∀ b, 8 * b < column.size → RoomForBlock column predicate result.size b) :
    IndexScanCorrect column predicate result ↔
      (∀ i < column.size, predicate.holds (column.getValue i) → predicate.Reaches (column.getValue i)) ∧
      (∀ i < 8 * ((column.size + 7) / 8), column.size ≤ i → predicate.accepts (column.getValue i) = false) ∧
      (∀ i < column.size, predicate.holds (column.getValue i) → i < 2 ^ 32) := by
  obtain ⟨count, out, hscan, hreported⟩ := scanIndices_spec hw hfits
  have hentries : (List.range count).map (fun k => (out.data k).toNat)
      = (acceptedLanes column predicate (8 * ((column.size + 7) / 8))).map (· % 2 ^ 32) := by
    have hmap := congrArg (List.map BitVec.toNat) hreported.entries
    rw [List.map_map, List.map_map] at hmap
    refine hmap.trans (List.map_congr_left fun i _ => BitVec.toNat_ofNat i 32)
  have hmem : ∀ i, i ∈ matchingRows column predicate ↔ i < column.size ∧ predicate.holds (column.getValue i) := by
    intro i
    rw [matchingRows, List.mem_filter, List.mem_range]
  rw [IndexScanCorrect, padding_iff hw]
  constructor
  · rintro ⟨⟨count', out', hscan', hlist⟩, hpad⟩
    obtain ⟨rfl, rfl⟩ := Prod.mk.inj (Option.some.inj (hscan.symm.trans hscan'))
    rw [hentries, acceptedLanes_eq_of_padding hpad, acceptedLanes_rows hw hp] at hlist
    -- as many rows are listed as match, so none is cut off
    have hlength := congrArg List.length hlist
    rw [List.length_map, List.length_filter_eq_length_iff] at hlength
    rw [List.filter_eq_self.mpr hlength] at hlist
    refine ⟨fun i hi hrow => of_decide_eq_true (hlength i ((hmem i).mpr ⟨hi, hrow⟩)), hpad, fun i hi hrow => ?_⟩
    have hin : i ∈ (matchingRows column predicate).map (· % 2 ^ 32) := by
      rw [hlist]
      exact (hmem i).mpr ⟨hi, hrow⟩
    obtain ⟨j, -, rfl⟩ := List.mem_map.mp hin
    exact Nat.mod_lt _ (by decide)
  · rintro ⟨hreach, hpad, hindex⟩
    refine ⟨⟨count, out, hscan, ?_⟩, hpad⟩
    rw [hentries, acceptedLanes_eq_of_padding hpad, acceptedLanes_rows hw hp]
    have hkeep : ∀ i ∈ matchingRows column predicate, decide (predicate.Reaches (column.getValue i)) = true := by
      intro i hi
      exact decide_eq_true (hreach i ((hmem i).mp hi).1 ((hmem i).mp hi).2)
    rw [List.filter_eq_self.mpr hkeep]
    refine (List.map_congr_left fun i hi => ?_).trans (List.map_id _)
    exact Nat.mod_eq_of_lt (hindex i ((hmem i).mp hi).1 ((hmem i).mp hi).2)

/-- A result with eight entries for every block has room for all stores. -/
theorem roomForBlock_of_room {limit b : Nat} (hb : 8 * b < column.size) (hroom : 8 * ((column.size + 7) / 8) ≤ limit) :
    RoomForBlock column predicate limit b := by
  have hlength : (acceptedLanes column predicate (8 * b)).length ≤ 8 * b :=
    (List.length_filter_le _ _).trans_eq List.length_range
  unfold RoomForBlock
  omega

end Correct

/-- The lanes behind the last row of a built column read as zero. -/
theorem getValue_padding {w : Nat} (hw : w ≤ 18) (values : List (BitVec 32)) {i : Nat} (hi : values.length ≤ i) :
    (BitCompressed.ofValues w values).getValue i = 0 := by
  apply BitVec.eq_of_toNat_eq
  rw [BitCompressed.getValue_ofValues (by omega), List.getD_eq_default _ _ hi]
  exact Nat.zero_mod _

/-- **Index scans of built columns**, with room for the stores of all blocks: the scan is right exactly if the lookup of
    every matching value is made, the column fills its last block or the filler is not accepted, and the matching
    rows have 32-bit indices. The scalar scan lists the matching rows. -/
theorem index_scan_correct_iff {w : Nat} (hw : 1 ≤ w ∧ w ≤ 18) (values : List (BitVec 32))
    {predicate : ScanPredicate} (hp : predicate.Valid) {result : IndexView}
    (hfits : ∀ b, 8 * b < values.length → RoomForBlock (BitCompressed.ofValues w values) predicate result.size b) :
    (IndexScanCorrect (BitCompressed.ofValues w values) predicate result ↔
      (∀ i < values.length, predicate.holds ((BitCompressed.ofValues w values).getValue i) →
        predicate.Reaches ((BitCompressed.ofValues w values).getValue i)) ∧
      (8 ∣ values.length ∨ ¬ (predicate.holds 0 ∧ predicate.Reaches 0)) ∧
      (∀ i < values.length, predicate.holds ((BitCompressed.ofValues w values).getValue i) → i < 2 ^ 32)) ∧
    (values.length < 2 ^ 32 → ∀ fuel > values.length,
      cpuToIv (BitCompressed.ofValues w values) predicate fuel
        = some ((matchingRows (BitCompressed.ofValues w values) predicate).map (BitVec.ofNat 32))) := by
  have hbits := BitCompressed.valueBits_ofValues w values
  have hsize := BitCompressed.size_ofValues w values
  constructor
  · rw [indexScanCorrect_iff (by rw [hbits]; exact hw.2) hp (by rw [hsize]; exact hfits), hsize]
    refine and_congr_right fun _ => and_congr_left fun _ => ?_
    have hzero : predicate.accepts 0 = false ↔ ¬ (predicate.holds 0 ∧ predicate.Reaches 0) := by
      rw [ScanPredicate.accepts_eq hp (by decide), Bool.eq_false_iff, ne_eq, Bool.and_eq_true, decide_eq_true_iff]
    rw [← hzero]
    constructor
    · intro hpad
      by_cases hfull : 8 ∣ values.length
      · exact .inl hfull
      · have hlane := hpad values.length (by omega) le_rfl
        rw [getValue_padding hw.2 values le_rfl] at hlane
        exact .inr hlane
    · rintro (hfull | hfill) i hi hge
      · omega
      · rw [getValue_padding hw.2 values hge]
        exact hfill
  · intro hcount fuel hfuel
    exact cpuToIv_eq (by rw [hsize]; exact hcount) predicate (by rw [hsize]; exact hfuel)

theorem index_scan_correct_iff_sample :
    IndexScanCorrect (BitCompressed.ofValues 3 [5, 1, 7, 5, 0, 2, 5, 3, 6]) (.inRange 2 6) ⟨16, fun _ => 0⟩ :=
  (index_scan_correct_iff (by decide) [5, 1, 7, 5, 0, 2, 5, 3, 6]
    (show (ScanPredicate.inRange 2 6).Valid from ⟨by decide, by decide⟩)
    (fun _ hb => roomForBlock_of_room (by rwa [BitCompressed.size_ofValues])
      (by rw [BitCompressed.size_ofValues]; decide))).1.mpr
    ⟨fun _ _ _ => trivial, .inr (by decide), fun i hi _ => lt_trans hi (by decide)⟩

/-- A column of one row with value `1`, scanned for `0`: the seven lanes behind the row are reported. -/
theorem index_scan_reports_padding :
    ¬ IndexScanCorrect (BitCompressed.ofValues 1 [1]) (.inRange 0 0) ⟨8, fun _ => 0⟩ := by
  rw [indexScanCorrect_iff (by decide) (show (ScanPredicate.inRange 0 0).Valid from ⟨by decide, by decide⟩)
    (fun b hb => roomForBlock_of_room hb (by decide))]
  rintro ⟨-, hpad, -⟩
  have hlane := hpad 1 (by decide) (by decide)
  revert hlane
  decide +kernel

end Pnm.Imdb
