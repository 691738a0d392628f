import Mathlib.Algebra.GroupWithZero.Nat
import Mathlib.Data.List.Nodup
import Mathlib.Tactic.Common

/-!
# `Lib.Jagged` — reading rows of different lengths column by column

A jagged array is given by the list `lens` of its row lengths. `columnMajor lens` lists its cells
`(row, position)` first by position, then by row (`mem_columnMajor_iff`, `pairwise_columnMajor`). Restricted to
one row it is that row from left to right (`filter_columnMajor`), and it has as many cells as the rows together
(`length_columnMajor`).
-/

namespace Pnm.Lib

/-- The rows long enough to have a cell in column `k`. -/
def column (lens : List Nat) (k : Nat) : List Nat :=
  (List.range lens.length).filter fun b => k < lens.getD b 0

/-- The length of the longest row. -/
def longest (lens : List Nat) : Nat := lens.foldr max 0

/-- The cells from column `k` on. -/
def columnsFrom (lens : List Nat) (k : Nat) : List (Nat × Nat) :=
  (List.range' k (longest lens - k)).flatMap fun k => (column lens k).map (·, k)

/-- All cells, column by column. -/
def columnMajor (lens : List Nat) : List (Nat × Nat) := columnsFrom lens 0

theorem le_longest {lens : List Nat} {l : Nat} (h : l ∈ lens) : l ≤ longest lens := by
  induction lens with
  | nil => simp at h
  | cons x lens ih =>
      rw [longest, List.foldr_cons]
      rcases List.mem_cons.mp h with rfl | h
      · exact Nat.le_max_left _ _
      · exact Nat.le_trans (ih h) (Nat.le_max_right _ _)

theorem longest_le {lens : List Nat} {n : Nat} (h : ∀ l ∈ lens, l ≤ n) : longest lens ≤ n := by
  induction lens with
  | nil => exact Nat.zero_le n
  | cons l lens ih =>
      rw [longest, List.foldr_cons]
      exact Nat.max_le.mpr ⟨h l (by simp), ih fun x hx => h x (by simp [hx])⟩

theorem getD_le_longest (lens : List Nat) (b : Nat) : lens.getD b 0 ≤ longest lens := by
  rw [List.getD_eq_getElem?_getD]
  cases h : lens[b]? with
  | none   => exact Nat.zero_le _
  | some l => exact le_longest (List.mem_of_getElem? h)

/-- The first row of a longer array, then the others shifted by one. -/
theorem column_cons (l : Nat) (lens : List Nat) (k : Nat) :
    column (l :: lens) k = (if k < l then [0] else []) ++ (column lens k).map (· + 1) := by
  rw [column, List.length_cons, List.range_succ_eq_map, List.filter_cons, List.filter_map]
  simp only [List.getD_cons_zero, decide_eq_true_eq]
  split
  · simp [column, Function.comp_def]
  · simp [column, Function.comp_def]

theorem column_eq_nil {lens : List Nat} {k : Nat} (h : longest lens ≤ k) : column lens k = [] := by
  rw [column, List.filter_eq_nil_iff]
  intro b _
  have := getD_le_longest lens b
  simp only [decide_eq_true_eq]
  omega

theorem column_eq_nil_iff {lens : List Nat} {k : Nat} : column lens k = [] ↔ longest lens ≤ k := by
  refine ⟨fun h => ?_, column_eq_nil⟩
  induction lens with
  | nil => exact Nat.zero_le k
  | cons l lens ih =>
      rw [column_cons, List.append_eq_nil_iff, List.map_eq_nil_iff] at h
      have hl : ¬ k < l := fun hk => by simp [hk] at h
      have := ih h.2
      rw [longest, List.foldr_cons]
      rw [longest] at this
      omega

theorem columnsFrom_eq_nil {lens : List Nat} {k : Nat} (h : longest lens ≤ k) : columnsFrom lens k = [] := by
  rw [columnsFrom, Nat.sub_eq_zero_of_le h]
  rfl

/-- One column, then the rest. -/
theorem columnsFrom_succ (lens : List Nat) (k : Nat) :
    columnsFrom lens k = (column lens k).map (·, k) ++ columnsFrom lens (k + 1) := by
  by_cases h : k < longest lens
  · rw [columnsFrom, show longest lens - k = longest lens - (k + 1) + 1 by omega, List.range'_succ,
      List.flatMap_cons]
    rfl
  · rw [columnsFrom_eq_nil (by omega), columnsFrom_eq_nil (by omega), column_eq_nil (by omega)]
    rfl

/-- The cells of the rows that lie at column `k` or further. -/
def remaining (lens : List Nat) (k : Nat) : Nat := (lens.map (· - k)).sum

theorem length_column_add (lens : List Nat) (k : Nat) :
    (column lens k).length + remaining lens (k + 1) = remaining lens k := by
  induction lens with
  | nil => rfl
  | cons l lens ih =>
      rw [column_cons, List.length_append, List.length_map]
      simp only [remaining, List.map_cons, List.sum_cons] at ih ⊢
      split
      · simp only [List.length_singleton]
        omega
      · simp only [List.length_nil]
        omega

theorem remaining_eq_zero {lens : List Nat} {k : Nat} (h : longest lens ≤ k) : remaining lens k = 0 := by
  have hzero : lens.map (· - k) = lens.map fun _ => 0 :=
    List.map_congr_left fun l hl => Nat.sub_eq_zero_of_le (Nat.le_trans (le_longest hl) h)
  rw [remaining, hzero]
  simp

/-- Column by column, no cell is lost: induction on the columns that are left. -/
theorem length_columnsFrom (lens : List Nat) (k : Nat) : (columnsFrom lens k).length = remaining lens k := by
  by_cases h : longest lens ≤ k
  · rw [columnsFrom_eq_nil h, remaining_eq_zero h]
    rfl
  · rw [columnsFrom_succ, List.length_append, List.length_map, length_columnsFrom lens (k + 1),
      length_column_add]
termination_by longest lens - k

theorem length_columnMajor (lens : List Nat) : (columnMajor lens).length = lens.sum := by
  rw [columnMajor, length_columnsFrom]
  simp [remaining]

theorem filter_column (lens : List Nat) (k b : Nat) :
    (column lens k).filter (· == b) = if k < lens.getD b 0 then [b] else [] := by
  have hnd : (column lens k).Nodup := List.nodup_range.filter _
  by_cases h : k < lens.getD b 0
  · have hb : b < lens.length := by
      by_contra hb
      rw [List.getD_eq_getElem?_getD, List.getElem?_eq_none (by omega)] at h
      exact Nat.not_lt_zero k h
    have hmem : b ∈ column lens k := List.mem_filter.mpr ⟨List.mem_range.mpr hb, by simpa using h⟩
    rw [if_pos h, List.filter_beq, List.count_eq_one_of_mem hnd hmem]
    rfl
  · have hmem : b ∉ column lens k := fun hm => h (by simpa using (List.mem_filter.mp hm).2)
    rw [if_neg h, List.filter_beq, List.count_eq_zero_of_not_mem hmem]
    rfl

theorem filter_columnsFrom (lens : List Nat) (k b : Nat) :
    (columnsFrom lens k).filter (·.1 == b) = (List.range' k (lens.getD b 0 - k)).map (b, ·) := by
  have hle := getD_le_longest lens b
  by_cases h : longest lens ≤ k
  · rw [columnsFrom_eq_nil h, Nat.sub_eq_zero_of_le (by omega)]
    rfl
  · rw [columnsFrom_succ, List.filter_append, filter_columnsFrom lens (k + 1) b, List.filter_map]
    have hcol : ((column lens k).filter ((fun c : Nat × Nat => c.1 == b) ∘ fun x => (x, k)))
        = if k < lens.getD b 0 then [b] else [] := filter_column lens k b
    rw [hcol]
    split
    · rw [show lens.getD b 0 - k = lens.getD b 0 - (k + 1) + 1 by omega, List.range'_succ]
      rfl
    · rw [show lens.getD b 0 - k = 0 by omega, show lens.getD b 0 - (k + 1) = 0 by omega]
      rfl
termination_by longest lens - k

/-- **One row of the column-major order** is that row from left to right. -/
theorem filter_columnMajor (lens : List Nat) (b : Nat) :
    (columnMajor lens).filter (·.1 == b) = (List.range (lens.getD b 0)).map (b, ·) := by
  rw [columnMajor, filter_columnsFrom, List.range_eq_range', Nat.sub_zero]

theorem mem_column {lens : List Nat} {k b : Nat} : b ∈ column lens k ↔ b < lens.length ∧ k < lens.getD b 0 := by
  rw [column, List.mem_filter, List.mem_range, decide_eq_true_iff]

/-- The cells are exactly the positions of the rows. -/
theorem mem_columnMajor_iff {lens : List Nat} {c : Nat × Nat} :
    c ∈ columnMajor lens ↔ c.1 < lens.length ∧ c.2 < lens.getD c.1 0 := by
  rw [columnMajor, columnsFrom, List.mem_flatMap]
  constructor
  · rintro ⟨k, -, hc⟩
    obtain ⟨b, hb, rfl⟩ := List.mem_map.mp hc
    exact mem_column.mp hb
  · intro hc
    refine ⟨c.2, ?_, List.mem_map.mpr ⟨c.1, mem_column.mpr hc, rfl⟩⟩
    have := getD_le_longest lens c.1
    rw [List.mem_range'_1]
    omega

theorem mem_columnMajor {lens : List Nat} {c : Nat × Nat} (h : c ∈ columnMajor lens) :
    c.1 < lens.length ∧ c.2 < lens.getD c.1 0 :=
  mem_columnMajor_iff.mp h

/-- Cell `c` comes before cell `d` column by column: first by position, then by row. -/
def Before (c d : Nat × Nat) : Prop := c.2 < d.2 ∨ (c.2 = d.2 ∧ c.1 < d.1)

theorem le_snd_of_mem_columnsFrom {lens : List Nat} {k : Nat} {c : Nat × Nat} (h : c ∈ columnsFrom lens k) :
    k ≤ c.2 := by
  obtain ⟨j, hj, hc⟩ := List.mem_flatMap.mp h
  obtain ⟨b, -, rfl⟩ := List.mem_map.mp hc
  exact (List.mem_range'_1.mp hj).1

theorem pairwise_columnsFrom (lens : List Nat) (k : Nat) : (columnsFrom lens k).Pairwise Before := by
  by_cases h : longest lens ≤ k
  · rw [columnsFrom_eq_nil h]
    exact List.Pairwise.nil
  · have hcol : (column lens k).Pairwise (· < ·) := List.pairwise_lt_range.filter _
    rw [columnsFrom_succ, List.pairwise_append]
    refine ⟨?_, pairwise_columnsFrom lens (k + 1), ?_⟩
    · rw [List.pairwise_map]
      exact hcol.imp fun hlt => Or.inr ⟨rfl, hlt⟩
    · -- every later column is further right
      intro c hc d hd
      obtain ⟨b, -, rfl⟩ := List.mem_map.mp hc
      exact Or.inl (le_snd_of_mem_columnsFrom hd)
termination_by longest lens - k

/-- **The order**: first by position, then by row, no cell twice. -/
theorem pairwise_columnMajor (lens : List Nat) : (columnMajor lens).Pairwise Before := pairwise_columnsFrom lens 0

end Pnm.Lib
