import Mathlib.Data.List.Flatten
import Mathlib.Data.List.GetD
import Mathlib.Data.List.Induction
import Mathlib.Data.List.Nodup
import Mathlib.Data.List.Perm.Subperm
import Mathlib.Algebra.BigOperators.Group.List.Basic
import Mathlib.Tactic.Ring

/-!
# `Lib.Grid` — numbering the cells of a grid, and of a ragged one

A grid of `n` rows of `m` cells stored row after row: cell `(i, j)` has number `i * m + j`. A ragged grid has rows
of given lengths: cell `k` of row `s` has the sum of the lengths before the row plus `k`. Either way the cells,
taken row after row, have the numbers `0, 1, 2, …` in order. If the rows of a ragged grid are placed at their own
numbers instead, they cover the same numbers only where both places agree (`sum_take_eq_of_covered`).
-/

namespace Pnm.Lib

variable {α : Type}

/-- Going through a grid row after row is going through the numbers of its cells. -/
theorem flatMap_range_mul (f : Nat → List α) (n m : Nat) :
    ((List.range n).flatMap fun i => (List.range m).flatMap fun j => f (i * m + j))
      = (List.range (n * m)).flatMap f := by
  induction n with
  | zero => simp
  | succ n ih =>
      have hrow : (List.range m).flatMap (fun j => f (n * m + j)) = (List.range' (n * m) m).flatMap f := by
        rw [List.range'_eq_map_range, List.flatMap_map]
      rw [List.range_succ, List.flatMap_append, ih, List.flatMap_singleton, hrow, ← List.flatMap_append,
        Nat.succ_mul, List.range_add]
      congr 2
      rw [List.range'_eq_map_range]

/-- The numbers of the cells of a grid. -/
theorem map_range_mul (n m : Nat) :
    ((List.range n).flatMap fun i => (List.range m).map (i * m + ·)) = List.range (n * m) := by
  have h := flatMap_range_mul (fun s => [s]) n m
  simpa [List.flatMap_singleton', List.map_eq_flatMap] using h

theorem sum_take_succ (l : List Nat) (s : Nat) : (l.take (s + 1)).sum = (l.take s).sum + l.getD s 0 := by
  rw [List.take_add_one, List.sum_append, List.getD_eq_getElem?_getD]
  cases l[s]? <;> simp

/-- A row of a ragged grid ends within the grid. -/
theorem sum_take_add_getD_le (l : List Nat) (s : Nat) : (l.take s).sum + l.getD s 0 ≤ l.sum := by
  rw [← sum_take_succ]
  have hsplit := List.sum_take_add_sum_drop l (s + 1)
  omega

/-- A slice, summed element by element. -/
theorem sum_take_drop (l : List Nat) (s n : Nat) :
    ((l.drop s).take n).sum = ((List.range' s n).map (l.getD · 0)).sum := by
  induction n with
  | zero => rfl
  | succ n ih =>
      rw [sum_take_succ, ih, List.range'_1_concat, List.map_append, List.sum_append, List.map_singleton,
        List.sum_singleton, List.getD_eq_getElem?_getD, List.getElem?_drop, ← List.getD_eq_getElem?_getD]

/-- The numbers of the cells of a ragged grid. -/
theorem flatMap_range_sum (l : List Nat) :
    ((List.range l.length).flatMap fun s => (List.range (l.getD s 0)).map ((l.take s).sum + ·))
      = List.range l.sum := by
  induction l using List.reverseRecOn with
  | nil => rfl
  | append_singleton l x ih =>
      have hsame : ∀ s ∈ List.range l.length,
          (List.range ((l ++ [x]).getD s 0)).map (((l ++ [x]).take s).sum + ·)
            = (List.range (l.getD s 0)).map ((l.take s).sum + ·) := by
        intro s hs
        have hlt := List.mem_range.mp hs
        rw [List.getD_append _ _ _ _ hlt, List.take_append_of_le_length hlt.le]
      have hlast : (List.range ((l ++ [x]).getD l.length 0)).map (((l ++ [x]).take l.length).sum + ·)
          = (List.range x).map (l.sum + ·) := by
        rw [List.take_left, List.getD_append_right _ _ _ _ (Nat.le_refl _), Nat.sub_self]
        rfl
      rw [List.length_append, List.length_singleton, List.range_succ, List.flatMap_append, List.flatMap_singleton,
        hlast, List.flatMap_congr hsame, ih, List.sum_append, List.sum_singleton, List.range_add]

/-- Where an element of a concatenation comes from. -/
theorem exists_split_of_getElem?_flatMap {β : Type} {f : α → List β} {l : List α} {j : Nat} {b : β}
    (h : (l.flatMap f)[j]? = some b) :
    ∃ pre a post k, l = pre ++ a :: post ∧ (f a)[k]? = some b ∧ (pre.map fun x => (f x).length).sum + k = j := by
  induction l generalizing j with
  | nil => simp at h
  | cons x l ih =>
      rw [List.flatMap_cons] at h
      rcases Nat.lt_or_ge j (f x).length with hlt | hge
      · rw [List.getElem?_append_left hlt] at h
        exact ⟨[], x, l, j, rfl, h, Nat.zero_add j⟩
      · rw [List.getElem?_append_right hge] at h
        obtain ⟨pre, a, post, k, rfl, hk, hj⟩ := ih h
        refine ⟨x :: pre, a, post, k, rfl, hk, ?_⟩
        rw [List.map_cons, List.sum_cons]
        omega

/-! ## Rows placed at their own numbers -/

/-- Row `s` of a ragged grid, placed at `s` instead of behind the rows before it. -/
def placedRow (l : List Nat) (s : Nat) : List Nat := (List.range (l.getD s 0)).map (s + ·)

theorem mem_placedRow {l : List Nat} {s x : Nat} : x ∈ placedRow l s ↔ s ≤ x ∧ x < s + l.getD s 0 := by
  simp only [placedRow, List.mem_map, List.mem_range]
  constructor
  · rintro ⟨k, hk, rfl⟩
    omega
  · rintro ⟨hle, hlt⟩
    exact ⟨x - s, by omega, by omega⟩

theorem length_flatMap_placedRow (l : List Nat) (b : Nat) :
    ((List.range b).flatMap (placedRow l)).length = (l.take b).sum := by
  have hsum := sum_take_drop l 0 b
  rw [List.drop_zero, ← List.range_eq_range'] at hsum
  simp only [placedRow, List.length_flatMap, List.length_map, List.length_range, hsum]

/-- Rows that cover all numbers below the number of cells take them in order: there are no cells for covering a number
    twice, so a row ends before the next one that is not empty. -/
theorem flatMap_placedRow_of_covered {l : List Nat} (h : ∀ p < l.sum, ∃ s < l.length, p ∈ placedRow l s) :
    List.range l.sum = (List.range l.length).flatMap (placedRow l) := by
  have hperm : (List.range l.sum).Perm ((List.range l.length).flatMap (placedRow l)) := by
    refine (List.subperm_of_subset List.nodup_range fun p hp => ?_).perm_of_length_le ?_
    · obtain ⟨s, hs, hmem⟩ := h p (List.mem_range.mp hp)
      exact List.mem_flatMap.mpr ⟨s, List.mem_range.mpr hs, hmem⟩
    · rw [length_flatMap_placedRow, List.take_length, List.length_range]
  refine hperm.eq_of_pairwise (fun _ _ _ _ hab hba => absurd hab (Nat.lt_asymm hba)) List.pairwise_lt_range ?_
  obtain ⟨-, hdisjoint⟩ := List.nodup_flatMap.mp (hperm.nodup_iff.mp List.nodup_range)
  rw [List.pairwise_flatMap]
  refine ⟨fun s _ => List.pairwise_lt_range.map _ fun _ _ hij => Nat.add_lt_add_left hij s, ?_⟩
  refine (hdisjoint.and List.pairwise_lt_range).imp ?_
  rintro s t ⟨hst, hlt⟩ x hx y hy
  rw [mem_placedRow] at hx hy
  by_contra hle
  exact hst (mem_placedRow.mpr (show s ≤ t ∧ t < s + l.getD s 0 by omega)) (mem_placedRow.mpr (by omega))

/-- **Then every row is where it belongs**: a row that is not empty has as many cells before it as rows. -/
theorem sum_take_eq_of_covered {l : List Nat} (h : ∀ p < l.sum, ∃ s < l.length, p ∈ placedRow l s) {b : Nat}
    (hb : b < l.length) (hpos : 0 < l.getD b 0) : (l.take b).sum = b := by
  have hsplit : (List.range l.length).flatMap (placedRow l) = (List.range b).flatMap (placedRow l) ++
      (placedRow l b ++ ((List.range (l.length - (b + 1))).map (b + 1 + ·)).flatMap (placedRow l)) := by
    conv_lhs => rw [show l.length = b + 1 + (l.length - (b + 1)) by omega]
    rw [List.range_add, List.flatMap_append, List.range_succ, List.flatMap_append, List.flatMap_singleton,
      List.append_assoc]
  have hlt : (l.take b).sum < l.sum := by
    have hle := sum_take_add_getD_le l b
    omega
  -- compare the first cell of row `b` in the two orders
  have hfirst := congrArg (·[(l.take b).sum]?) ((flatMap_placedRow_of_covered h).trans hsplit)
  rw [List.getElem?_range hlt, List.getElem?_append_right (length_flatMap_placedRow l b).le, length_flatMap_placedRow,
    Nat.sub_self, List.getElem?_append_left (by simpa [placedRow] using hpos)] at hfirst
  rw [placedRow, List.getElem?_map, List.getElem?_range hpos] at hfirst
  exact Option.some.inj hfirst

end Pnm.Lib
