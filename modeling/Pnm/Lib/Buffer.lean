import Mathlib.Algebra.BigOperators.Group.List.Basic
import Mathlib.Algebra.GroupWithZero.Nat
import Mathlib.Data.List.SplitLengths
import Mathlib.Tactic.Common

/-!
# `Lib.Buffer` — buffers of cells, written range by range

A buffer is a function from positions to cells. `splice` writes a range; rows of a fixed stride do not overlap. The last
section reads lists that are concatenations of pieces of one length.
-/

namespace Pnm.Lib

section Splice

variable {α : Type} {m v : Nat → α} {base n x : Nat}

/-- Write `n` cells from `base` on. -/
def splice (m : Nat → α) (base n : Nat) (v : Nat → α) : Nat → α :=
  fun x => if base ≤ x ∧ x < base + n then v (x - base) else m x

theorem splice_add {j : Nat} (h : j < n) : splice m base n v (base + j) = v j := by
  rw [splice, if_pos ⟨by omega, by omega⟩, Nat.add_sub_cancel_left]

theorem splice_out (h : x < base ∨ base + n ≤ x) : splice m base n v x = m x := if_neg (by omega)

/-- A write depends on the cells it writes only. -/
theorem splice_congr {w : Nat → α} (h : ∀ e < n, v e = w e) : splice m base n v = splice m base n w := by
  funext x
  unfold splice
  split
  · exact h _ (by omega)
  · rfl

/-- Two writes, one behind the other, are one. -/
theorem splice_splice (m : Nat → α) (base n k : Nat) (v w : Nat → α) :
    splice (splice m base n v) (base + n) k w = splice m base (n + k) fun e => if e < n then v e else w (e - n) := by
  funext x
  show (if _ then _ else if _ then _ else _) = if _ then (if x - base < n then _ else _) else _
  by_cases hlow : x < base
  · rw [if_neg (by omega), if_neg (by omega), if_neg (by omega)]
  · by_cases hfirst : x < base + n
    · rw [if_neg (by omega), if_pos (by omega), if_pos (by omega), if_pos (by omega)]
    · by_cases hsecond : x < base + n + k
      · rw [if_pos (by omega), if_pos (by omega), if_neg (by omega), Nat.sub_sub]
      · rw [if_neg (by omega), if_neg (by omega), if_neg (by omega)]

end Splice

/-! ## Rows -/

section Rows

variable {r r' s e w : Nat}

/-- A cell of a row is before the rows that follow. -/
theorem row_add_lt (h : r < r') (he : e < s) : r * s + e < r' * s := by
  have := Nat.mul_le_mul_right s (show r + 1 ≤ r' from h)
  rw [Nat.succ_mul] at this
  omega

/-- The first `w` cells of a row are apart from the cells of another row. -/
theorem row_disjoint (h : r ≠ r') (he : e < s) (hw : w ≤ s) : r * s + e < r' * s ∨ r' * s + w ≤ r * s + e := by
  rcases Nat.lt_or_gt_of_ne h with hlt | hgt
  · exact .inl (row_add_lt hlt he)
  · have := Nat.mul_le_mul_right s (show r' + 1 ≤ r from hgt)
    rw [Nat.succ_mul] at this
    exact .inr (by omega)

end Rows

/-! ## Lists in pieces -/

/-- Piece `k` of a concatenation of pieces of `c` elements. -/
theorem getD_flatMap_range {α β : Type} (f : α → Nat → β) (c : Nat) (xs : List α) {k q : Nat} (hk : k < xs.length)
    (hq : q < c) (a : α) (d : β) :
    (xs.flatMap fun x => (List.range c).map (f x)).getD (k * c + q) d = f (xs.getD k a) q := by
  induction xs generalizing k with
  | nil => exact absurd hk (by simp)
  | cons x xs ih =>
      rw [List.flatMap_cons, List.getD_eq_getElem?_getD]
      cases k with
      | zero =>
          rw [List.getElem?_append_left (by simp; omega)]
          simp [hq]
      | succ k =>
          rw [List.getElem?_append_right (by simp [Nat.succ_mul]; omega), ← List.getD_eq_getElem?_getD,
            show (k + 1) * c + q - ((List.range c).map (f x)).length = k * c + q by simp [Nat.succ_mul]; omega,
            ih (by simpa using hk), List.getD_cons_succ]

theorem length_flatMap_range {α β : Type} (f : α → Nat → β) (c : Nat) (xs : List α) :
    (xs.flatMap fun x => (List.range c).map (f x)).length = xs.length * c := by
  simp [List.length_flatMap]

/-- Numbered elements, by their numbers. -/
theorem map_zipIdx_eq {α β : Type} (f : α → Nat → β) (xs : List α) (a : α) :
    xs.zipIdx.map (fun x => f x.1 x.2) = (List.range xs.length).map fun k => f (xs.getD k a) k := by
  refine List.ext_getElem (by simp) fun k h _ => ?_
  have hk : k < xs.length := by simpa using h
  simp [List.getD_eq_getElem?_getD, hk]

/-- Splitting by two lists of sizes, one after the other. -/
theorem splitLengths_append {α : Type} (sizes sizes' : List Nat) (xs : List α) :
    (sizes ++ sizes').splitLengths xs = sizes.splitLengths xs ++ sizes'.splitLengths (xs.drop sizes.sum) := by
  induction sizes generalizing xs with
  | nil => simp
  | cons size sizes ih => simp [ih, List.drop_drop]

/-- Only the elements that the sizes reach matter. -/
theorem splitLengths_take {α : Type} (sizes : List Nat) (xs : List α) {n : Nat} (h : sizes.sum ≤ n) :
    sizes.splitLengths (xs.take n) = sizes.splitLengths xs := by
  induction sizes generalizing xs n with
  | nil => simp
  | cons size sizes ih =>
      rw [List.sum_cons] at h
      rw [List.splitLengths_cons, List.splitLengths_cons, List.take_take, Nat.min_eq_left (by omega), List.drop_take,
        ih _ (by omega)]

/-- Piece `r`: it starts behind the pieces before it. -/
theorem getElem?_splitLengths {α : Type} (sizes : List Nat) (xs : List α) (r : Nat) :
    (sizes.splitLengths xs)[r]? = sizes[r]?.map fun size => (xs.drop (sizes.take r).sum).take size := by
  induction sizes generalizing xs r with
  | nil => simp
  | cons size sizes ih =>
      rw [List.splitLengths_cons]
      cases r with
      | zero => simp
      | succ r => simp [ih, List.drop_drop]

/-- A list, by its positions. -/
theorem map_range_getD {α β : Type} (g : α → β) (xs : List α) (a : α) :
    (List.range xs.length).map (fun k => g (xs.getD k a)) = xs.map g := by
  refine List.ext_getElem (by simp) fun k h _ => ?_
  have hk : k < xs.length := by simpa using h
  simp [List.getD_eq_getElem?_getD, hk]

/-- A sum over the positions of a list is the sum over its elements. -/
theorem sum_map_range_getD {α M : Type} [AddMonoid M] (g : α → M) (xs : List α) (a : α) :
    ((List.range xs.length).map fun k => g (xs.getD k a)).sum = (xs.map g).sum := by
  rw [map_range_getD]

/-- A left fold of additions, from any start. -/
theorem foldl_add_eq {α M : Type} [AddMonoid M] (g : α → M) (xs : List α) (m : M) :
    xs.foldl (fun s x => s + g x) m = m + (xs.map g).sum := by
  induction xs generalizing m with
  | nil => simp
  | cons x xs ih => rw [List.foldl_cons, ih, List.map_cons, List.sum_cons, add_assoc]

end Pnm.Lib
