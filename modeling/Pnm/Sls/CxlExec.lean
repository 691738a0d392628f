import Mathlib.Algebra.Order.BigOperators.Group.List
import Mathlib.Data.BitVec
import Pnm.Sls.CxlSim
import Pnm.Sls.ExecFacts
import Pnm.Sls.Reduction

/-!
# `Sls.CxlExec` — one execution on a CXL compute unit

An operation on `uint32` tables that are loaded on the device is given by a `CxlSetup`; `Valid` collects what
the callers promise. For one execution of a plan, `exec_spec` follows the trace through encoding, decoding
and accumulation: once the trace is in the instruction block and the psum block is cleared, `exec_trace`
leaves in position `j` of the psum block the reference result of the `j`-th batch of the execution.
-/

namespace Pnm.Sls

open Pnm.Lib

/-- An operation together with its environment: where the tables are, the buffer divider asked for (if any), the
    host copy of the tables and the floating-point addition of the simulator. -/
structure CxlSetup where
  op : SlsOperation
  layout : PacksToObjects
  env : Option BufDivider
  table : Nat → BitVec 32
  addF32 : BitVec 32 → BitVec 32 → BitVec 32

namespace CxlSetup

variable (S : CxlSetup)

/-- Rows of a table. -/
def rows (id : Nat) : Nat := S.op.tablesSizes.getD id 0

/-- Where a table starts in the host copy. -/
def tableBegin (id : Nat) : Nat := (S.op.tablesSizes.take id).sum * S.op.sparseFeatureSize

/-- The executions of a pack. -/
def execs (p : Nat) : List Execution := (S.op.execGen .cxl S.layout S.env).getPackExecs p

/-- The reference result: element `k` of the sum of the rows a (table, batch) pair looks up. -/
def expected (key : Nat × Nat) (k : Nat) : BitVec 32 :=
  Reduction.rowsSum S.table (S.tableBegin key.1) S.op.sparseFeatureSize (S.op.lookups key) k

/-- Unit `c` may process pack `p`. -/
def InPack (c p : Nat) : Prop := c < Topology.cxl.numOfCUnits ∧ p.testBit c = true

/-- **What the callers promise.** -/
structure Valid : Prop where
  opType : S.op.opType = .uint32
  feature : S.op.sparseFeatureSize = 16 ∨ S.op.sparseFeatureSize = 32 ∨ S.op.sparseFeatureSize = 64
  /-- Checked by `check_run_params`, which rejects empty arrays. -/
  minibatch : 0 < S.op.minibatchSize
  tables : S.op.tablesSizes ≠ []
  placed : Placed .cxl S.layout S.op.tablesSizes.length
  consistent : S.op.Consistent
  lengths : ∀ l ∈ S.op.lengths, 1 ≤ l ∧ l ≤ Topology.cxl.instPerSingleBufNoHeader
  sums : S.op.SumsFit
  indices : ∀ id < S.op.tablesSizes.length, ∀ i < S.op.minibatchSize, ∀ r ∈ S.op.lookups (id, i), r < S.rows id
  /-- Each table is smaller than 4 GiB. -/
  small : ∀ id < S.op.tablesSizes.length, S.rows id * (S.op.sparseFeatureSize * 4) < 2 ^ 32
  /-- Offsets are aligned, and the whole table lies below 2^34. -/
  aligned : ∀ p ∈ Topology.cxl.packIdentifiers, ∀ o ∈ S.layout p, ∀ c, InPack c p →
    o.offset c % 8 = 0 ∧ o.offset c + S.rows o.id * (S.op.sparseFeatureSize * 4) ≤ 2 ^ 34

/-- The tables of pack `p` are loaded in a unit's memory. -/
def Loaded (p c : Nat) (base : Mem) : Prop :=
  ∀ o ∈ S.layout p, ∀ r < S.rows o.id, ∀ k < S.op.sparseFeatureSize,
    base.word (o.offset c + (r * S.op.sparseFeatureSize + k) * 4)
      = S.table (S.tableBegin o.id + r * S.op.sparseFeatureSize + k)

/-- The trace of an execution of pack `p` on unit `c`. -/
def trace (p c : Nat) (e : Execution) : List Nat :=
  S.op.generateInstructions .cxl .channel (S.layout p) c e

variable {S}

theorem sparseFtDataNb_eq : S.op.sparseFtDataNb .cxl = S.op.sparseFeatureSize * 4 := rfl

theorem Valid.bytes (h : S.Valid) :
    S.op.sparseFtDataNb .cxl = 64 ∨ S.op.sparseFtDataNb .cxl = 128 ∨ S.op.sparseFtDataNb .cxl = 256 := by
  rw [sparseFtDataNb_eq]
  rcases h.feature with h | h | h <;> rw [h] <;> decide

theorem Valid.maxFeatures (h : S.Valid) :
    0 < Topology.cxl.psumSingleBufSize / S.op.sparseFtDataNb .cxl ∧
      Topology.cxl.psumSingleBufSize / S.op.sparseFtDataNb .cxl < 2 ^ 12 := by
  rcases h.bytes with h | h | h <;> rw [h] <;> decide

theorem Valid.plannable (h : S.Valid) : S.op.Plannable .cxl S.layout :=
  ⟨h.placed, h.consistent, fun l hl => (h.lengths l hl).1, h.maxFeatures.1⟩

theorem Valid.maxInst (h : S.Valid) : (S.op.limits .cxl S.env).maxInst + 1 ≤ Topology.cxl.instPerSingleBuf := by
  have h1 : (S.op.limits .cxl S.env).maxInst ≤ Topology.cxl.instPerSingleBufNoHeader :=
    setInstrBufferSize_le S.env fun l hl => (h.lengths l hl).2
  have h2 : Topology.cxl.instPerSingleBufNoHeader + 1 ≤ Topology.cxl.instPerSingleBuf := by decide
  omega

theorem Valid.bytesPerRowFull (h : S.Valid) : S.op.bytesPerRowFull .cxl = S.op.sparseFtDataNb .cxl := by
  have htag : S.op.isTagged = false := by rw [SlsOperation.isTagged, h.opType]; rfl
  rw [SlsOperation.bytesPerRowFull, htag]
  rcases h.bytes with h | h | h <;> rw [h] <;> rfl

section Exec

variable {p c : Nat} {e : Execution}

theorem Valid.execOk (h : S.Valid) (hp : p ∈ Topology.cxl.packIdentifiers) (he : e ∈ S.execs p) :
    ExecOk S.op .cxl S.layout S.env p e :=
  h.plannable.execOk hp he

theorem Valid.length_keys_lt (h : S.Valid) (hp : p ∈ Topology.cxl.packIdentifiers) (he : e ∈ S.execs p) :
    e.keys.length < 2 ^ 12 :=
  Nat.lt_of_le_of_lt (h.execOk hp he).batches h.maxFeatures.2

/-- The object a lookup finds in the pack's layout, with its row address below 2^34. -/
theorem Valid.lookupIr (h : S.Valid) (hp : p ∈ Topology.cxl.packIdentifiers) (hc : InPack c p) {key : Nat × Nat}
    (htable : ∃ o ∈ S.layout p, o.id = key.1) (hi : key.2 < S.op.minibatchSize) {r : Nat}
    (hr : r ∈ S.op.lookups key) {j : Nat} (hj : j < 2 ^ 32) :
    ∃ o ∈ S.layout p, o.id = key.1 ∧ r < S.rows o.id ∧
      o.offset c + (r + 1) * (S.op.sparseFeatureSize * 4) ≤ 2 ^ 34 ∧ o.offset c % 8 = 0 ∧
      S.op.lookupIr .cxl (S.layout p) c key j r
        = { opcode := 2, outputIndex := j, address := o.offset c + r * (S.op.sparseFeatureSize * 4) } := by
  obtain ⟨o, ho, hid, hfind⟩ := exists_find_object htable
  have hlt : o.id < S.op.tablesSizes.length := h.placed.id_lt hp ho
  have hrow : r < S.rows o.id := by
    rw [hid] at hlt ⊢
    exact h.indices key.1 hlt key.2 hi r hr
  obtain ⟨halign, hend⟩ := h.aligned p hp o ho c hc
  have hrows : (r + 1) * (S.op.sparseFeatureSize * 4) ≤ S.rows o.id * (S.op.sparseFeatureSize * 4) :=
    Nat.mul_le_mul_right _ hrow
  have hsmall := h.small o.id hlt
  refine ⟨o, ho, hid, hrow, by omega, halign, ?_⟩
  rw [Nat.add_mul, Nat.one_mul] at hrows
  rw [SlsOperation.lookupIr, TraceGeneratorCore.writeIr, TraceGeneratorCore.getPhysAddress, h.bytesPerRowFull,
    sparseFtDataNb_eq, hfind, h.opType, Option.map_some, Option.getD_some,
    Nat.mod_eq_of_lt (show r * (S.op.sparseFeatureSize * 4) < 2 ^ 32 by omega), Nat.mod_eq_of_lt hj,
    Nat.mod_eq_of_lt (by omega)]
  rfl

/-- The instructions with output index `j` are the lookups of batch `j`. -/
theorem Valid.filter_execIr (h : S.Valid) (hp : p ∈ Topology.cxl.packIdentifiers) (he : e ∈ S.execs p) (j : Nat) :
    (S.op.execIr .cxl (S.layout p) c e).filter (·.outputIndex == j)
      = match e.keys[j]? with
        | some key => (S.op.lookups key).map (S.op.lookupIr .cxl (S.layout p) c key j)
        | none     => [] := by
  have hlt := h.length_keys_lt hp he
  exact h.plannable.filter_execIr h.sums hp he (by omega) c j

/-- Every instruction of an execution can be encoded. -/
theorem Valid.irOk (h : S.Valid) (hp : p ∈ Topology.cxl.packIdentifiers) (hc : InPack c p) (he : e ∈ S.execs p) :
    ∀ ir ∈ S.op.execIr .cxl (S.layout p) c e, CxlSim.IrOk ir := by
  intro ir hir
  have hmem : ir ∈ (S.op.execIr .cxl (S.layout p) c e).filter (·.outputIndex == ir.outputIndex) := by
    simpa using hir
  rw [h.filter_execIr hp he] at hmem
  cases hkey : e.keys[ir.outputIndex]? with
  | none => simp [hkey] at hmem
  | some key =>
      rw [hkey] at hmem
      obtain ⟨r, hr, hir⟩ := List.mem_map.mp hmem
      obtain ⟨htable, hi⟩ := (h.execOk hp he).tables key (List.mem_of_getElem? hkey)
      have hj : ir.outputIndex < 2 ^ 12 := by
        have := (List.getElem?_eq_some_iff.mp hkey).1
        have := h.length_keys_lt hp he
        omega
      obtain ⟨o, -, -, -, hend, halign, heq⟩ := h.lookupIr hp hc htable hi hr (show ir.outputIndex < 2 ^ 32 by omega)
      rw [heq] at hir
      have haddr : ir.address = o.offset c + r * (S.op.sparseFeatureSize * 4) := by rw [← hir]
      have hpos : 0 < S.op.sparseFeatureSize := by rcases h.feature with h | h | h <;> omega
      refine ⟨by rw [← hir], hj, ?_, ?_⟩
      · rw [haddr]
        rw [Nat.add_mul, Nat.one_mul] at hend
        omega
      · have h8 : S.op.sparseFeatureSize * 4 % 8 = 0 := by rcases h.feature with h | h | h <;> rw [h]
        rw [haddr, Nat.add_mod, halign, Nat.mul_mod, h8, Nat.mul_zero]

/-- No execution has an empty trace: its batches all look something up. -/
theorem Valid.execIr_ne_nil (h : S.Valid) (hp : p ∈ Topology.cxl.packIdentifiers) (he : e ∈ S.execs p) :
    S.op.execIr .cxl (S.layout p) c e ≠ [] := by
  obtain ⟨key, hkey⟩ := List.exists_mem_of_ne_nil _ (h.execOk hp he).nonempty
  have hpos := h.plannable.lengthOf_pos hp he hkey
  have hle : S.op.lengthOf key ≤ (e.keys.map S.op.lengthOf).sum :=
    List.single_le_sum (by simp) _ (List.mem_map_of_mem hkey)
  intro hnil
  rw [← SlsOperation.length_execIr, hnil, List.length_nil] at hle
  omega

/-- **One batch, element by element.** Accumulating the lookups of a batch from the device memory gives its
    reference result. -/
theorem Valid.foldl_lookups (h : S.Valid) (hp : p ∈ Topology.cxl.packIdentifiers) (hc : InPack c p) {base : Mem}
    (hload : S.Loaded p c base) {key : Nat × Nat} (htable : ∃ o ∈ S.layout p, o.id = key.1)
    (hi : key.2 < S.op.minibatchSize) {j k : Nat} (hj : j < 2 ^ 32) (hk : k < S.op.sparseFeatureSize) :
    ((S.op.lookups key).map (S.op.lookupIr .cxl (S.layout p) c key j)).foldl
        (fun acc ir => base.word (ir.address + 4 * k) + acc) 0 = S.expected key k := by
  rw [List.foldl_map, expected, Reduction.rowsSum]
  refine List.foldl_ext _ _ _ fun acc r hr => ?_
  obtain ⟨o, ho, hid, hrow, -, -, heq⟩ := h.lookupIr hp hc htable hi hr hj
  rw [heq, BitVec.add_comm]
  congr 1
  have := hload o ho r hrow k hk
  rw [hid] at this
  rw [← this]
  congr 1
  rw [Nat.add_mul, Nat.mul_assoc, Nat.add_assoc, Nat.mul_comm 4 k]

/-- **One execution.** With its trace in the instruction block and a cleared psum block, `exec_trace` succeeds
    and leaves in position `j` of the psum block the reference result of the execution's `j`-th batch. -/
theorem Valid.exec_spec (h : S.Valid) (hp : p ∈ Topology.cxl.packIdentifiers) (hc : InPack c p)
    (he : e ∈ S.execs p) {u : CxlUnit} (hload : S.Loaded p c u.base) {m m' : Mem}
    (hinst : u.inst = Mem.writeWords 8 m 0 (S.trace p c e)) (hpsum : u.psum = m'.fill 0 e.psumSize 0) :
    ∃ u', CxlSim.execTrace S.addF32 .cxl u = .ok u' ∧ u'.base = u.base ∧
      ∀ j key, e.keys[j]? = some key → ∀ k < S.op.sparseFeatureSize,
        u'.psum.word (j * (S.op.sparseFeatureSize * 4) + 4 * k) = S.expected key k := by
  have htag : S.op.isTagged = false := by rw [SlsOperation.isTagged, h.opType]; rfl
  have hfit : (S.op.execIr .cxl (S.layout p) c e).length + 1 ≤ Topology.cxl.instPerSingleBuf := by
    have h1 := (h.execOk hp he).lookups
    have h2 := h.maxInst
    rw [SlsOperation.length_execIr]
    omega
  rw [trace, SlsOperation.generateInstructions, htag] at hinst
  refine ⟨_, CxlSim.execTrace_trace S.addF32 .cxl h.bytes (h.execIr_ne_nil hp he) (h.irOk hp hc he) hfit hinst,
    rfl, ?_⟩
  intro j key hkey k hk
  obtain ⟨htable, hi⟩ := (h.execOk hp he).tables key (List.mem_of_getElem? hkey)
  have hj := (List.getElem?_eq_some_iff.mp hkey).1
  have hlt := h.length_keys_lt hp he
  -- the word was cleared
  have hzero : u.psum.word (j * (S.op.sparseFeatureSize * 4) + 4 * k) = 0 := by
    have hle : (j + 1) * (S.op.sparseFeatureSize * 4) ≤ e.keys.length * (S.op.sparseFeatureSize * 4) :=
      Nat.mul_le_mul_right _ hj
    rw [Nat.add_mul, Nat.one_mul] at hle
    rw [hpsum, (h.execOk hp he).psumSize, sparseFtDataNb_eq]
    exact Mem.word_fill_zero (by omega) (by omega)
  have hb : S.op.sparseFtDataNb .cxl % 4 = 0 ∧ k < S.op.sparseFtDataNb .cxl / 4 := by
    rw [sparseFtDataNb_eq]
    omega
  refine (CxlSim.word_foldl_sparseFtSum hb.1 hb.2 _).trans ?_
  rw [h.filter_execIr hp he, hkey, sparseFtDataNb_eq, hzero]
  exact h.foldl_lookups hp hc hload htable hi (by omega) hk

end Exec

end CxlSetup

end Pnm.Sls
