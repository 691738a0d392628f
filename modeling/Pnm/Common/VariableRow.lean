import Mathlib.Algebra.Order.BigOperators.Group.List
import Mathlib.Algebra.Order.Group.Nat
import Pnm.Lib.Buffer
import Pnm.Lib.Walk

/-!
# `Common.VariableRow` — rows of different sizes

The model of `views::variable_row` in `variable_row_view.h`: a range cut into rows by a list of sizes. An iterator has
two positions, in the range and in the sizes, and both move together. The test for the end looks at the position in
the range only, so a walk stops at the first row that starts at the end of the range: rows of size zero are visited
unless all rows after them are of size zero too (`yields_visited`).
-/

namespace Pnm.Common

open Pnm.Lib

/-- `views::variable_row`. -/
structure VariableRow (α : Type) where
  range : List α
  rowSizes : List Nat

/-- `views_iterator`: `base_` and `row_size_`. -/
structure RowCursor where
  base : Nat
  row : Nat

namespace VariableRow

variable {α : Type} (v : VariableRow α)

/-- `update`: the row at a position. -/
def current (p : RowCursor) : List α :=
  match v.rowSizes[p.row]? with
  | some rowSize => (v.range.drop p.base).take rowSize
  | none         => []

/-- `operator++`; there is no size to read behind the last row. -/
def advance (p : RowCursor) : Option RowCursor := do
  let rowSize ← v.rowSizes[p.row]?
  some { base := p.base + rowSize, row := p.row + 1 }

/-- `begin`. -/
def first : RowCursor := { base := 0, row := 0 }

/-- The iterators; `operator==` compares `base_` with the end of the range. -/
def walk : Walk RowCursor (List α) where
  stop p := p.base == v.range.length
  value p := some (v.current p)
  next p := v.advance p

/-- `size`. -/
def size : Nat := v.rowSizes.length

/-- A walk from begin to end yields all rows, each with its own part of the range. -/
def VisitsEveryRow : Prop :=
  ∃ rows, v.walk.Yields first rows ∧ rows.length = v.size ∧
    ∀ r < v.size, rows[r]? = some ((v.range.drop (v.rowSizes.take r).sum).take (v.rowSizes.getD r 0))

end VariableRow

/-- The sizes up to the last one that is not zero. -/
def visited : List Nat → List Nat
  | []            => []
  | size :: sizes => if (size :: sizes).sum = 0 then [] else size :: visited sizes

theorem visited_init (sizes : List Nat) : visited sizes <+: sizes := by
  induction sizes with
  | nil => exact List.prefix_refl _
  | cons size sizes ih =>
      rw [visited]
      split
      · exact List.nil_prefix
      · exact (List.prefix_cons_inj size).mpr ih

/-- **No row is left out exactly if the last size is not zero.** -/
theorem visited_eq_self_iff (sizes : List Nat) : visited sizes = sizes ↔ sizes.getLast? ≠ some 0 := by
  induction sizes with
  | nil => simp [visited]
  | cons size sizes ih =>
      rw [visited]
      split
      · -- only zeros: nothing is visited
        rename_i hzero
        have hlast : (size :: sizes).getLast? = some 0 := by
          rw [List.getLast?_eq_some_getLast (List.cons_ne_nil _ _)]
          exact congrArg some (List.sum_eq_zero_iff.mp hzero _ (List.getLast_mem _))
        simp [hlast]
      · rename_i hsum
        rw [List.cons_inj_right, ih]
        cases sizes with
        | nil =>
            have hne : size ≠ 0 := by simpa using hsum
            simp [hne]
        | cons next sizes => rw [List.getLast?_cons_cons]

namespace VariableRow

variable {α : Type} {v : VariableRow α}

/-- The walk from the row behind some sizes. -/
theorem yields_from (before : List Nat) {after : List Nat} (hsizes : v.rowSizes = before ++ after)
    (hsum : before.sum + after.sum = v.range.length) :
    v.walk.Yields { base := before.sum, row := before.length }
      ((visited after).splitLengths (v.range.drop before.sum)) := by
  induction after generalizing before with
  | nil =>
      apply Walk.Yields.done
      rw [List.sum_nil, Nat.add_zero] at hsum
      exact beq_iff_eq.mpr hsum
  | cons rowSize after ih =>
      rw [visited]
      split
      · rename_i hzero
        rw [hzero, Nat.add_zero] at hsum
        exact .done (beq_iff_eq.mpr hsum)
      · rename_i hmore
        have hread : v.rowSizes[before.length]? = some rowSize := by simp [hsizes]
        have hrest := ih (before ++ [rowSize]) (by simp [hsizes])
          (by rw [List.sum_append, List.sum_singleton, Nat.add_assoc, ← List.sum_cons, hsum])
        rw [List.sum_append, List.sum_singleton, List.length_append, List.length_singleton, ← List.drop_drop] at hrest
        rw [List.splitLengths_cons]
        refine .more ?_ ?_ ?_ hrest
        · exact beq_eq_false_iff_ne.mpr fun heq => hmore (Nat.left_eq_add.mp (heq.trans hsum.symm))
        · show some (v.current _) = _
          rw [current, hread]
        · show v.advance _ = _
          rw [advance, hread]
          rfl

/-- **What a walk yields**: the rows up to the last one that is not empty. -/
theorem yields_visited (hsum : v.rowSizes.sum = v.range.length) :
    v.walk.Yields first ((visited v.rowSizes).splitLengths v.range) :=
  yields_from [] rfl (by rw [List.sum_nil, Nat.zero_add, hsum])

/-- The walk stops before the row that is empty. -/
example : (VariableRow.mk [7, 8] [1, 0, 1, 0]).walk.Yields first [[7], [], [8]] :=
  yields_visited (v := VariableRow.mk [7, 8] [1, 0, 1, 0]) (by decide)

/-- **Every row is visited exactly if the last one is not empty.** -/
theorem visitsEveryRow_iff (hsum : v.rowSizes.sum = v.range.length) :
    v.VisitsEveryRow ↔ v.rowSizes.getLast? ≠ some 0 := by
  rw [← visited_eq_self_iff]
  have hyields := yields_visited hsum
  constructor
  · rintro ⟨rows, hrows, hlength, -⟩
    obtain rfl := hrows.unique hyields
    rw [List.length_splitLengths] at hlength
    exact (visited_init _).eq_of_length hlength
  · intro hall
    rw [hall] at hyields
    refine ⟨_, hyields, List.length_splitLengths .., fun r hr => ?_⟩
    rw [getElem?_splitLengths, List.getD_eq_getElem?_getD, List.getElem?_eq_getElem hr]
    rfl

end VariableRow

end Pnm.Common
