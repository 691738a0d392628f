import Pnm.Common.VariableRow
import Pnm.Secure.Executor

/-!
# `Secure.PadCoverage` — which pad sums a run recomputes

The pad tasks iterate over variable-row views of the lookups (`Common.VariableRow`). A run fills the rows of the pad
buffer that these views visit; the buffer is kept from run to run, so any other row keeps the sums of an earlier run.
For each table these are the batches behind the last one with lookups (`mem_padRows`).
-/

namespace Pnm.Secure

open Pnm.Lib Pnm.Common

/-- **The loops of the tasks walk the view**: they go through the rows up to the last one that is not empty. -/
theorem variableRows_visited {indices sizes : List Nat} (hsum : indices.length = sizes.sum) :
    variableRows indices sizes = .ok ((visited sizes).splitLengths indices) := by
  induction sizes generalizing indices with
  | nil =>
      rw [List.sum_nil, List.length_eq_zero_iff] at hsum
      rw [variableRows, if_pos hsum, visited, List.splitLengths_nil]
  | cons size sizes ih =>
      rw [variableRows, visited]
      by_cases hnil : indices = []
      · rw [if_pos hnil, if_pos (by rw [← hsum, hnil, List.length_nil]), List.splitLengths_nil]
      · have hpos : (size :: sizes).sum ≠ 0 := fun h => hnil (List.eq_nil_of_length_eq_zero (hsum.trans h))
        rw [List.sum_cons] at hsum
        rw [if_neg hnil, if_neg hpos, ih (by rw [List.length_drop]; omega), List.splitLengths_cons]
        rfl

/-- The lengths of the batches of table `t`. -/
def tableLengths (minibatchSize : Nat) (lengths : List Nat) (t : Nat) : List Nat :=
  (lengths.drop (t * minibatchSize)).take minibatchSize

theorem tableLengths_zero (m : Nat) (lengths : List Nat) : tableLengths m lengths 0 = lengths.take m := by
  rw [tableLengths, Nat.zero_mul, List.drop_zero]

theorem tableLengths_succ (m : Nat) (lengths : List Nat) (t : Nat) :
    tableLengths m lengths (t + 1) = tableLengths m (lengths.drop m) t := by
  rw [tableLengths, tableLengths, List.drop_drop, Nat.succ_mul, Nat.add_comm]

/-- A row that is visited is the row of its number. -/
theorem getD_visited {sizes : List Nat} (xs : List Nat) {k : Nat} (hk : k < (visited sizes).length) :
    ((visited sizes).splitLengths xs).getD k [] = (sizes.splitLengths xs).getD k [] := by
  have htake : visited sizes = sizes.take (visited sizes).length := List.prefix_iff_eq_take.mp (visited_init sizes)
  conv_lhs => rw [htake, ← List.take_splitLength]
  rw [List.getD_eq_getElem?_getD, List.getD_eq_getElem?_getD, List.getElem?_take_of_lt hk]

/-- The steps of the task of one table. -/
def taskRows (rowBase table : Nat) (lengths indices : List Nat) : List PadRow :=
  ((visited lengths).splitLengths indices).zipIdx.map fun l =>
    { row := rowBase + l.2, table := table, lookups := l.1 }

theorem mem_taskRows {rowBase table : Nat} {lengths indices : List Nat} {x : PadRow} :
    x ∈ taskRows rowBase table lengths indices ↔ ∃ k < (visited lengths).length,
      x = { row := rowBase + k, table := table, lookups := (lengths.splitLengths indices).getD k [] } := by
  rw [taskRows, map_zipIdx_eq (fun l k => PadRow.mk (rowBase + k) table l) _ [], List.length_splitLengths, List.mem_map]
  constructor
  · rintro ⟨k, hk, rfl⟩
    have hlt := List.mem_range.mp hk
    exact ⟨k, hlt, by rw [getD_visited indices hlt]⟩
  · rintro ⟨k, hlt, rfl⟩
    exact ⟨k, List.mem_range.mpr hlt, by rw [getD_visited indices hlt]⟩

section FirstTable

variable {m : Nat} {lengths : List Nat} (indices : List Nat)

/-- The rows of the first table and those of the others. -/
theorem splitLengths_tables :
    lengths.splitLengths indices = (lengths.take m).splitLengths indices ++
      (lengths.drop m).splitLengths (indices.drop (lengths.take m).sum) := by
  rw [← splitLengths_append, List.take_append_drop]

theorem getD_first_table {k : Nat} (hk : k < (lengths.take m).length) :
    (lengths.splitLengths indices).getD k [] = ((lengths.take m).splitLengths indices).getD k [] := by
  rw [splitLengths_tables (m := m)]
  exact List.getD_append _ _ _ _ (by rwa [List.length_splitLengths])

theorem getD_other_tables (hm : (lengths.take m).length = m) (k : Nat) :
    (lengths.splitLengths indices).getD (m + k) []
      = ((lengths.drop m).splitLengths (indices.drop (lengths.take m).sum)).getD k [] := by
  rw [splitLengths_tables (m := m), List.getD_append_right _ _ _ _ (by rw [List.length_splitLengths, hm]; omega),
    List.length_splitLengths, hm, Nat.add_sub_cancel_left]

end FirstTable

/-- **The steps of all tasks**: for each table, those of the batches up to the last one with lookups. -/
theorem mem_padRows {m tables : Nat} (tid rowBase : Nat) (lengths indices : List Nat)
    (hlength : lengths.length = tables * m) (hsum : indices.length = lengths.sum) :
    ∃ steps, padRows rowBase (reorderLoop m tables tid lengths indices) = .ok steps ∧
      ∀ x, x ∈ steps ↔ ∃ t < tables, ∃ k < (visited (tableLengths m lengths t)).length,
        x = { row := rowBase + (t * m + k), table := tid + t
              lookups := (lengths.splitLengths indices).getD (t * m + k) [] } := by
  induction tables generalizing tid rowBase lengths indices with
  | zero => exact ⟨[], rfl, fun x => by simp⟩
  | succ tables ih =>
      have hrow : (lengths.take m).length = m := by
        rw [List.length_take, hlength, Nat.succ_mul]
        omega
      have hsplit : lengths.sum = (lengths.take m).sum + (lengths.drop m).sum := by
        rw [← List.sum_append, List.take_append_drop]
      have hfirst : variableRows (indices.take (lengths.take m).sum) (lengths.take m) = _ :=
        variableRows_visited (by rw [List.length_take]; omega)
      obtain ⟨rest, hrest, hmem⟩ := ih (tid + 1) (rowBase + m) (lengths.drop m) (indices.drop (lengths.take m).sum)
        (by rw [List.length_drop, hlength, Nat.succ_mul]; omega) (by rw [List.length_drop]; omega)
      refine ⟨taskRows rowBase tid (lengths.take m) (indices.take (lengths.take m).sum) ++ rest, ?_, fun x => ?_⟩
      · rw [reorderLoop, padRows, hfirst, hrow, hrest]
        rfl
      · rw [List.mem_append, mem_taskRows, hmem, Nat.exists_lt_succ_left, tableLengths_zero,
          splitLengths_take _ _ le_rfl]
        -- the first table, then the others, which are counted from the second one on
        apply or_congr
        · apply exists_congr
          intro k
          apply and_congr_right
          intro hk
          rw [Nat.zero_mul, Nat.zero_add, Nat.add_zero,
            getD_first_table indices (Nat.lt_of_lt_of_le hk (visited_init _).length_le)]
        · apply exists_congr
          intro t
          apply and_congr_right
          intro _
          rw [tableLengths_succ]
          apply exists_congr
          intro k
          apply and_congr_right
          intro _
          have hindex : (t + 1) * m + k = m + (t * m + k) := by rw [Nat.succ_mul]; omega
          rw [hindex, getD_other_tables indices hrow, Nat.add_assoc, Nat.add_assoc, Nat.add_comm 1 t]

/-- **A run recomputes the pad sum of every row.** -/
def RecomputesEveryRow (numTables : Nat) (q : Request) : Prop :=
  ∃ requests steps, reorderIndices numTables q = .ok requests ∧ padRows 0 requests = .ok steps ∧
    ∀ r < numTables * q.minibatchSize, q.padRow r ∈ steps

theorem length_tableLengths {m tables : Nat} {lengths : List Nat} (hlength : lengths.length = tables * m) {t : Nat}
    (ht : t < tables) : (tableLengths m lengths t).length = m := by
  have hle : (t + 1) * m ≤ lengths.length := by
    rw [hlength]
    exact Nat.mul_le_mul_right m ht
  rw [Nat.succ_mul] at hle
  rw [tableLengths, List.length_take, List.length_drop]
  omega

/-- The last batch of a table. -/
theorem getLast?_tableLengths {m tables : Nat} (hm : 0 < m) {lengths : List Nat} (hlength : lengths.length = tables * m)
    {t : Nat} (ht : t < tables) : (tableLengths m lengths t).getLast? = some (lengths.getD (t * m + (m - 1)) 0) := by
  have hlt : t * m + (m - 1) < lengths.length := by
    rw [hlength]
    exact row_add_lt ht (by omega)
  rw [List.getLast?_eq_getElem?, length_tableLengths hlength ht, tableLengths, List.getElem?_take_of_lt (by omega),
    List.getElem?_drop, List.getD_eq_getElem?_getD, List.getElem?_eq_getElem hlt, Option.getD_some]

/-- All batches of a table are visited exactly if the last one is not empty. -/
theorem le_visited_iff {m tables : Nat} (hm : 0 < m) {lengths : List Nat} (hlength : lengths.length = tables * m)
    {t : Nat} (ht : t < tables) :
    m ≤ (visited (tableLengths m lengths t)).length ↔ lengths.getD (t * m + (m - 1)) 0 ≠ 0 := by
  have hcount := length_tableLengths hlength ht
  have hpre := visited_init (tableLengths m lengths t)
  have hself := visited_eq_self_iff (tableLengths m lengths t)
  rw [getLast?_tableLengths hm hlength ht, ne_eq, Option.some_inj] at hself
  rw [ne_eq, ← hself]
  constructor
  · intro hle
    apply hpre.eq_of_length
    exact Nat.le_antisymm hpre.length_le (hcount.trans_le hle)
  · intro heq
    rw [heq, hcount]

/-- **A run recomputes all pad sums exactly if the last batch of no table is empty.** -/
theorem recomputesEveryRow_iff {numTables : Nat} {q : Request} (hm : 0 < q.minibatchSize)
    (hlength : q.lengths.length = numTables * q.minibatchSize) (hsum : q.indices.length = q.lengths.sum) :
    RecomputesEveryRow numTables q ↔
      ∀ t < numTables, q.lengths.getD (t * q.minibatchSize + (q.minibatchSize - 1)) 0 ≠ 0 := by
  obtain ⟨steps, hsteps, hmem⟩ := mem_padRows 0 0 q.lengths q.indices hlength hsum
  have hreorder : reorderIndices numTables q = .ok (reorderLoop q.minibatchSize numTables 0 q.lengths q.indices) :=
    if_neg (Nat.ne_of_gt hm)
  constructor
  · rintro ⟨requests, steps', hrequests, hsteps', hall⟩ t ht
    obtain rfl := Except.ok.inj (hreorder.symm.trans hrequests)
    obtain rfl := Except.ok.inj (hsteps.symm.trans hsteps')
    -- the step of the last batch of the table is there, so the walk has come that far
    have hlast := hall _ (row_add_lt ht (show q.minibatchSize - 1 < q.minibatchSize by omega))
    obtain ⟨t', _, k, hk, hstep⟩ := (hmem _).mp hlast
    have htable : (t * q.minibatchSize + (q.minibatchSize - 1)) / q.minibatchSize = 0 + t' :=
      congrArg PadRow.table hstep
    have hrow : t * q.minibatchSize + (q.minibatchSize - 1) = 0 + (t' * q.minibatchSize + k) :=
      congrArg PadRow.row hstep
    rw [Nat.mul_comm t, Nat.mul_add_div hm, Nat.div_eq_of_lt (by omega), Nat.add_zero, Nat.zero_add] at htable
    subst htable
    rw [← le_visited_iff hm hlength ht]
    omega
  · intro hlast
    refine ⟨_, steps, hreorder, hsteps, fun r hr => (hmem _).mpr ?_⟩
    have ht : r / q.minibatchSize < numTables := (Nat.div_lt_iff_lt_mul hm).mpr hr
    refine ⟨r / q.minibatchSize, ht, r % q.minibatchSize, ?_, ?_⟩
    · exact Nat.lt_of_lt_of_le (Nat.mod_lt r hm) ((le_visited_iff hm hlength ht).mpr (hlast _ ht))
    · rw [Nat.div_add_mod', Nat.zero_add, Nat.zero_add]
      rfl

/-- **A row without a step keeps the sums it had**, from whatever run they are. -/
theorem stale_of_no_step {ex : Executor} {steps : List PadRow} {epsum out : Words}
    (h : steps.foldlM ex.padStep epsum = .ok out) {r : Nat} (hr : ∀ x ∈ steps, x.row ≠ r) {e : Nat}
    (he : e < ex.augmentedRowSize) : out (r * ex.augmentedRowSize + e) = epsum (r * ex.augmentedRowSize + e) := by
  induction steps generalizing epsum with
  | nil => rw [Except.ok.inj h]
  | cons x steps ih =>
      rw [List.foldlM_cons] at h
      obtain ⟨next, hstep, hrest⟩ := bind_eq_ok.mp h
      obtain ⟨sums, etag, hpads⟩ := Executor.pads_of_padStep hstep
      obtain ⟨out', hout', -, hframe⟩ := Executor.padStep_of_pads hpads epsum
      obtain rfl := Except.ok.inj (hstep.symm.trans hout')
      rw [ih hrest fun y hy => hr y (by simp [hy]), hframe r e (Ne.symm (hr x (by simp))) he]

/-- **Variable-row views and the pad sums.** A view visits all its rows exactly if the last one is not empty, and a run
    recomputes all pad sums exactly if the last batch of no table is empty. -/
theorem rows_visited_iff {α : Type} (v : VariableRow α) (hv : v.rowSizes.sum = v.range.length) (numTables : Nat)
    (q : Request) (hm : 0 < q.minibatchSize) (hlength : q.lengths.length = numTables * q.minibatchSize)
    (hsum : q.indices.length = q.lengths.sum) :
    (v.VisitsEveryRow ↔ v.rowSizes.getLast? ≠ some 0) ∧
    (RecomputesEveryRow numTables q ↔
      ∀ t < numTables, q.lengths.getD (t * q.minibatchSize + (q.minibatchSize - 1)) 0 ≠ 0) :=
  ⟨VariableRow.visitsEveryRow_iff hv, recomputesEveryRow_iff hm hlength hsum⟩

/-- An empty row in front of one with an element is visited. Two tables with two batches each: all pad sums are
    recomputed if only the first batch of the second table is empty, and not if its last one is. -/
theorem rows_visited_iff_two :
    (VariableRow.mk ['a'] [0, 1]).VisitsEveryRow ∧
    RecomputesEveryRow 2 { minibatchSize := 2, lengths := [1, 1, 0, 2], indices := [7, 8, 3, 4] } ∧
    ¬ RecomputesEveryRow 2 { minibatchSize := 2, lengths := [1, 1, 2, 0], indices := [7, 8, 3, 4] } := by
  have hfirst := rows_visited_iff (VariableRow.mk ['a'] [0, 1]) rfl 2
    { minibatchSize := 2, lengths := [1, 1, 0, 2], indices := [7, 8, 3, 4] } (by decide) rfl rfl
  have hlast := rows_visited_iff (VariableRow.mk ['a'] [0, 1]) rfl 2
    { minibatchSize := 2, lengths := [1, 1, 2, 0], indices := [7, 8, 3, 4] } (by decide) rfl rfl
  exact ⟨hfirst.1.mpr (by decide), hfirst.2.mpr (by decide), fun h => absurd (hlast.2.mp h) (by decide)⟩

/-- **A view with an empty last row** yields one row of two. A run whose last batch is empty takes the step of the first
    batch only, and leaves in the row of the second whatever an earlier run left there. -/
theorem last_row_skipped :
    (VariableRow.mk [7] [1, 0]).walk.Yields VariableRow.first [[7]] ∧ (VariableRow.mk [7] [1, 0]).size = 2 ∧
    reorderIndices 1 { minibatchSize := 2, lengths := [1, 0], indices := [7] }
      = .ok [{ table := 0, indices := [7], lengths := [1, 0] }] ∧
    padRows 0 [{ table := 0, indices := [7], lengths := [1, 0] }] = .ok [{ row := 0, table := 0, lookups := [7] }] ∧
    ∀ (ex : Executor) (epsum out : Words) (e : Nat), e < ex.augmentedRowSize →
      [{ row := 0, table := 0, lookups := [7] }].foldlM ex.padStep epsum = .ok out →
      out (1 * ex.augmentedRowSize + e) = epsum (1 * ex.augmentedRowSize + e) := by
  refine ⟨VariableRow.yields_visited rfl, rfl, rfl, rfl, fun ex epsum out e he hrun => ?_⟩
  exact stale_of_no_step hrun (by simp) he

end Pnm.Secure
