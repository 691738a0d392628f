import Mathlib.Tactic.Common
import Mathlib.Tactic.Ring
import Pnm.Lib.Grid
import Pnm.Sls.Operation

/-!
# `Sls.Reduction` — the reference SLS on the host

The model of `common/cpu_sls.h`: `Reduction<T>::common` and `Reduction<T>::compute`, for any element type with a
zero and an addition. Arrays are functions from element positions; the loop state holds the pointers the
source advances. `compute_eq` gives the closed form: the output of batch `i` of table `t` is the sum, in index
order, of the rows it looks up.
-/

namespace Pnm.Sls

open Pnm.Lib

namespace Reduction

variable {T : Type} [Zero T] [Add T]

/-- `Reduction::common`: clear one psum row and add the looked-up table rows to it. -/
def common (table : Nat → T) (tableBegin sparseFeatureSize : Nat) (indices : List Nat) (psum : Nat → T)
    (psumBegin : Nat) : Nat → T :=
  indices.foldl
    (fun psum index x =>
      if psumBegin ≤ x ∧ x < psumBegin + sparseFeatureSize then
        psum x + table (tableBegin + index * sparseFeatureSize + (x - psumBegin))
      else psum x)
    (fun x => if psumBegin ≤ x ∧ x < psumBegin + sparseFeatureSize then 0 else psum x)

/-- The pointers `compute` advances: `*cpsum_it`, `indices_begin` and `length`. -/
structure State (T : Type) where
  psum : Nat → T
  cpsum : Nat
  indicesBegin : List Nat
  length : List Nat

/-- The batch loop of `compute` for one table. -/
def computeBatches (table : Nat → T) (tableBegin sparseFeatureSize : Nat) : Nat → State T → State T
  | 0, s => s
  | n + 1, s =>
    let len := s.length.headD 0
    computeBatches table tableBegin sparseFeatureSize n
      { psum := common table tableBegin sparseFeatureSize (s.indicesBegin.take len) s.psum s.cpsum
        cpsum := s.cpsum + sparseFeatureSize
        indicesBegin := s.indicesBegin.drop len
        length := s.length.tail }

/-- The table loop of `compute`. -/
def computeTables (table : Nat → T) (sparseFeatureSize minibatchSize : Nat) :
    List Nat → Nat → State T → State T
  | [], _, s => s
  | rowsCount :: rows, tableBegin, s =>
    computeTables table sparseFeatureSize minibatchSize rows (tableBegin + rowsCount * sparseFeatureSize)
      (computeBatches table tableBegin sparseFeatureSize minibatchSize s)

/-- `Reduction::compute`. -/
def compute (table : Nat → T) (rows indices lengths : List Nat) (sparseFeatureSize minibatchSize : Nat)
    (psum : Nat → T) : Nat → T :=
  (computeTables table sparseFeatureSize minibatchSize rows 0 ⟨psum, 0, indices, lengths⟩).psum

/-! ## Closed form -/

/-- The sum of the rows `rows` of the table at `tableBegin`, at column `e`. -/
def rowsSum (table : Nat → T) (tableBegin sparseFeatureSize : Nat) (rows : List Nat) (e : Nat) : T :=
  rows.foldl (fun acc r => acc + table (tableBegin + r * sparseFeatureSize + e)) 0

theorem rowsSum_eq_sum {M : Type} [AddMonoid M] (table : Nat → M) (tableBegin sf : Nat) (rows : List Nat) (e : Nat) :
    rowsSum table tableBegin sf rows e = (rows.map fun r => table (tableBegin + r * sf + e)).sum := by
  rw [rowsSum, List.sum_eq_foldl, List.foldl_map]

/-- The indices of the `q`-th batch, counted over all tables. -/
def batchIndices (indices lengths : List Nat) (q : Nat) : List Nat :=
  (indices.drop (lengths.take q).sum).take (lengths.getD q 0)

variable {table : Nat → T} {tableBegin sf : Nat} {psum : Nat → T} {indices lengths : List Nat}

theorem row_range {p q e sf : Nat} (he : e < sf) :
    (p * sf ≤ q * sf + e ∧ q * sf + e < p * sf + sf) ↔ q = p := by
  constructor
  · rintro ⟨h1, h2⟩
    by_contra hne
    rcases Nat.lt_or_gt_of_ne hne with hlt | hgt
    · have := Nat.mul_le_mul_right sf hlt
      rw [Nat.succ_mul] at this
      omega
    · have := Nat.mul_le_mul_right sf hgt
      rw [Nat.succ_mul] at this
      omega
  · rintro rfl
    omega

theorem common_apply {p q e : Nat} (he : e < sf) (is : List Nat) :
    common table tableBegin sf is psum (p * sf) (q * sf + e)
      = if q = p then rowsSum table tableBegin sf is e else psum (q * sf + e) := by
  have key : ∀ (is : List Nat) (psum : Nat → T), is.foldl
      (fun psum index x =>
        if p * sf ≤ x ∧ x < p * sf + sf then psum x + table (tableBegin + index * sf + (x - p * sf)) else psum x)
        psum (q * sf + e)
      = if q = p then is.foldl (fun acc r => acc + table (tableBegin + r * sf + e)) (psum (q * sf + e))
        else psum (q * sf + e) := by
    intro is
    induction is with
    | nil => simp
    | cons i is ih =>
        intro psum
        rw [List.foldl_cons, List.foldl_cons, ih]
        by_cases hq : q = p
        · subst hq
          simp only [row_range he, if_true, Nat.add_sub_cancel_left]
        · simp only [row_range he, hq, if_false]
  rw [common, key]
  by_cases hq : q = p
  · simp only [hq, if_true, rowsSum, row_range he]
  · simp only [hq, if_false, row_range he]

/-- The state when batch number `q` is the next one. -/
def stateAt (indices lengths : List Nat) (sf q : Nat) (psum : Nat → T) : State T :=
  ⟨psum, q * sf, indices.drop (lengths.take q).sum, lengths.drop q⟩

theorem headD_drop (l : List Nat) (q : Nat) : (l.drop q).headD 0 = l.getD q 0 := by
  rw [List.headD_eq_head?_getD, List.head?_drop, List.getD_eq_getElem?_getD]

/-- **The batch step.** -/
theorem computeBatches_succ (n q : Nat) (psum : Nat → T) :
    computeBatches table tableBegin sf (n + 1) (stateAt indices lengths sf q psum)
      = computeBatches table tableBegin sf n (stateAt indices lengths sf (q + 1)
          (common table tableBegin sf (batchIndices indices lengths q) psum (q * sf))) := by
  simp only [computeBatches, stateAt, headD_drop, List.drop_drop, List.tail_drop, sum_take_succ, Nat.succ_mul,
    batchIndices]

variable (table tableBegin sf indices lengths)

/-- **The batch run.** -/
theorem computeBatches_spec (n : Nat) : ∀ (q : Nat) (psum : Nat → T), ∃ psum',
    computeBatches table tableBegin sf n (stateAt indices lengths sf q psum)
        = stateAt indices lengths sf (q + n) psum' ∧
      ∀ p e, e < sf → psum' (p * sf + e)
        = if q ≤ p ∧ p < q + n then rowsSum table tableBegin sf (batchIndices indices lengths p) e
          else psum (p * sf + e) := by
  induction n with
  | zero =>
      intro q psum
      exact ⟨psum, rfl, fun p e _ => by rw [if_neg (by omega)]⟩
  | succ n ih =>
      intro q psum
      obtain ⟨psum', hrun, hval⟩ := ih (q + 1)
        (common table tableBegin sf (batchIndices indices lengths q) psum (q * sf))
      refine ⟨psum', ?_, fun p e he => ?_⟩
      · rw [computeBatches_succ, hrun, show q + 1 + n = q + (n + 1) by omega]
      · rw [hval p e he]
        by_cases hp : q + 1 ≤ p ∧ p < q + 1 + n
        · rw [if_pos hp, if_pos (by omega)]
        · rw [if_neg hp, common_apply he]
          by_cases hpq : p = q
          · rw [if_pos hpq, if_pos (by omega), hpq]
          · rw [if_neg hpq, if_neg (by omega)]

variable {sf}

/-- Later tables leave earlier batches alone. -/
theorem computeTables_before (mb : Nat) {p q e : Nat} (hp : p < q) (he : e < sf) (rows : List Nat)
    (tableBegin : Nat) (psum : Nat → T) :
    (computeTables table sf mb rows tableBegin (stateAt indices lengths sf q psum)).psum (p * sf + e)
      = psum (p * sf + e) := by
  induction rows generalizing q tableBegin psum with
  | nil => rfl
  | cons r rows ih =>
      obtain ⟨psum', hrun, hval⟩ := computeBatches_spec table tableBegin sf indices lengths mb q psum
      rw [computeTables, hrun, ih (by omega), hval p e he, if_neg (by omega)]

/-- **The table run**, by induction on the tables that are left. -/
theorem computeTables_spec (mb : Nat) {i e : Nat} (hi : i < mb) (he : e < sf) (rows : List Nat) :
    ∀ (q tableBegin : Nat) (psum : Nat → T) (k : Nat), k < rows.length →
      (computeTables table sf mb rows tableBegin (stateAt indices lengths sf q psum)).psum
          ((q + k * mb + i) * sf + e)
        = rowsSum table (tableBegin + (rows.take k).sum * sf) sf (batchIndices indices lengths (q + k * mb + i))
            e := by
  induction rows with
  | nil => intro q tableBegin psum k hk; simp at hk
  | cons r rows ih =>
      intro q tableBegin psum k hk
      obtain ⟨psum', hrun, hval⟩ := computeBatches_spec table tableBegin sf indices lengths mb q psum
      rw [computeTables, hrun]
      cases k with
      | zero =>
          -- the table just processed: its batches are done
          rw [computeTables_before table indices lengths mb (by omega) he, hval _ e he, if_pos (by omega)]
          simp
      | succ k =>
          have := ih (q + mb) (tableBegin + r * sf) psum' k (by simpa using hk)
          rw [show q + (k + 1) * mb + i = q + mb + k * mb + i by ring, this, List.take_succ_cons, List.sum_cons,
            show tableBegin + r * sf + (rows.take k).sum * sf = tableBegin + (r + (rows.take k).sum) * sf by ring]

/-- **The closed form of `compute`.** -/
theorem compute_eq {rows : List Nat} {mb : Nat} (psum : Nat → T) {k i e : Nat} (hk : k < rows.length) (hi : i < mb)
    (he : e < sf) :
    compute table rows indices lengths sf mb psum ((k * mb + i) * sf + e)
      = rowsSum table ((rows.take k).sum * sf) sf (batchIndices indices lengths (k * mb + i)) e := by
  have h := computeTables_spec table indices lengths mb hi he rows 0 0 psum k hk
  have h0 : stateAt indices lengths sf 0 psum = ⟨psum, 0, indices, lengths⟩ := by simp [stateAt]
  rw [h0, Nat.zero_add, Nat.zero_add] at h
  exact h

end Reduction

end Pnm.Sls
