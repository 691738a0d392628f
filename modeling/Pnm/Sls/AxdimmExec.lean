import Mathlib.Algebra.Order.BigOperators.Group.List
import Mathlib.Data.BitVec
import Pnm.Sls.AxdimmSums
import Pnm.Sls.ExecFacts
import Pnm.Sls.InstCodec
import Pnm.Sls.Reduction
import Pnm.Sls.TraceFits

/-!
# `Sls.AxdimmExec` — the traces of a pack on an AXDIMM unit, word by word

An untagged operation (`float` or `uint32`) on tables that are loaded on the device is given by an `AxdimmSetup`;
`Valid` collects what the callers promise. A pack with `n` executions runs the traces `0` to `n - 1` of its
executions and then the dummy trace `n`. `exec_word` is the effect of one word of such a trace: it adds its row to the
write buffer and leaves everything else alone, and the end mark is on the last word. Once all words of an execution are
summed up, the buffer holds the reference results of its batches (`expected_of_sums`).
-/

namespace Pnm.Sls

open Pnm.Lib AxdimmSim

/-- An operation together with its environment: where the tables are, the buffer divider asked for (if any), the
    host copy of the tables and the floating-point addition of the simulator. -/
structure AxdimmSetup where
  op : SlsOperation
  layout : PacksToObjects
  env : Option BufDivider
  table : Nat → BitVec 32
  addF32 : BitVec 32 → BitVec 32 → BitVec 32

namespace AxdimmSetup

variable (S : AxdimmSetup)

/-- Rows of a table. -/
def rows (id : Nat) : Nat := S.op.tablesSizes.getD id 0

/-- Where a table starts in the host copy. -/
def tableBegin (id : Nat) : Nat := (S.op.tablesSizes.take id).sum * S.op.sparseFeatureSize

/-- The executions of a pack. -/
def execs (p : Nat) : List Execution := (S.op.execGen .axdimm S.layout S.env).getPackExecs p

/-- The addition of the element type. -/
def add : BitVec 32 → BitVec 32 → BitVec 32 :=
  match S.op.opType with
  | .float => S.addF32
  | _      => (· + ·)

/-- The bytes of a feature. -/
def bytes : Nat := S.op.sparseFtDataNb .axdimm

/-- The reference result: element `k` of the sum of the rows a (table, batch) pair looks up, in their order. -/
def expected (key : Nat × Nat) (k : Nat) : BitVec 32 :=
  (S.op.lookups key).foldl
    (fun acc r => S.add acc (S.table (S.tableBegin key.1 + r * S.op.sparseFeatureSize + k))) 0

/-- `Reduction<T>::compute` on the host, with the addition of the element type. -/
def compute (psum : Nat → BitVec 32) : Nat → BitVec 32 :=
  letI : Zero (BitVec 32) := ⟨0⟩
  letI : Add (BitVec 32) := ⟨S.add⟩
  Reduction.compute S.table S.op.tablesSizes S.op.indices S.op.lengths S.op.sparseFeatureSize S.op.minibatchSize psum

/-- Unit `c` may process pack `p`. -/
def InPack (c p : Nat) : Prop := c < Topology.axdimm.numOfCUnits ∧ p.testBit c = true

/-- **What the callers promise.** -/
structure Valid : Prop where
  untagged : S.op.opType ≠ .uint32Tagged
  feature : S.op.sparseFeatureSize = 16 ∨ S.op.sparseFeatureSize = 32 ∨ S.op.sparseFeatureSize = 64
  /-- Checked by `check_run_params`, which rejects empty arrays. -/
  minibatch : 0 < S.op.minibatchSize
  tables : S.op.tablesSizes ≠ []
  placed : Placed .axdimm S.layout S.op.tablesSizes.length
  consistent : S.op.Consistent
  lengths : ∀ l ∈ S.op.lengths, 1 ≤ l ∧ l ≤ Topology.axdimm.instPerSingleBufNoHeader
  sums : S.op.SumsFit
  indices : ∀ id < S.op.tablesSizes.length, ∀ i < S.op.minibatchSize, ∀ r ∈ S.op.lookups (id, i), r < S.rows id
  /-- Each table is smaller than 4 GiB. -/
  small : ∀ id < S.op.tablesSizes.length, S.rows id * (S.op.sparseFeatureSize * 4) < 2 ^ 32
  /-- Offsets are aligned, and the whole table lies below 2^34. -/
  aligned : ∀ p ∈ Topology.axdimm.packIdentifiers, ∀ o ∈ S.layout p, ∀ c, InPack c p →
    o.offset c % 8 = 0 ∧ o.offset c + S.rows o.id * (S.op.sparseFeatureSize * 4) ≤ 2 ^ 34
  /-- No execution needs the row that the dummy trace spoils. -/
  room : ∀ p ∈ Topology.axdimm.packIdentifiers, ∀ e ∈ S.execs p, e.psumSize ≤ dummyOffset

/-- The tables of pack `p` are loaded in a unit's memory. -/
def Loaded (p c : Nat) (base : Mem) : Prop :=
  ∀ o ∈ S.layout p, ∀ r < S.rows o.id, ∀ k < S.op.sparseFeatureSize,
    base.word (o.offset c + (r * S.op.sparseFeatureSize + k) * 4)
      = S.table (S.tableBegin o.id + r * S.op.sparseFeatureSize + k)

/-! ## The traces of a pack -/

/-- The words of trace `t`: those of execution `t`, and behind the last execution the dummy. -/
def traceWords (p c t : Nat) : List Nat :=
  match (S.execs p)[t]? with
  | some e => S.op.generateInstructions .axdimm .ranked (S.layout p) c e
  | none   => dummyInst

/-- The rows trace `t` adds up below `dummyOffset`. -/
def traceIrs (p c t : Nat) : List InstructionIR :=
  match (S.execs p)[t]? with
  | some e => S.op.execIr .axdimm (S.layout p) c e
  | none   => []

/-- The feature size in the header of trace `t`. -/
def traceBytes (p t : Nat) : Nat :=
  match (S.execs p)[t]? with
  | some _ => S.bytes
  | none   => 64

/-- The instructions executed for trace `t`. -/
def traceCount (p c t : Nat) : Nat :=
  match (S.execs p)[t]? with
  | some e => (S.op.execIr .axdimm (S.layout p) c e).length
  | none   => 1

/-- Trace `t` is in the instruction block. -/
def InBlock (p c t : Nat) (inst : Mem) : Prop := ∃ m, inst = Mem.writeWords 8 m 0 (S.traceWords p c t)

/-- Buffer `b` holds the sums of `irs`. -/
def BufferSums (base : Mem) (o : OutputBuffers) (b : Nat) (irs : List InstructionIR) : Prop :=
  Sums S.add base S.bytes o b irs

variable {S}

theorem bytes_eq : S.bytes = S.op.sparseFeatureSize * 4 := rfl

theorem compute_eq_expected (psum : Nat → BitVec 32) {t i k : Nat} (ht : t < S.op.tablesSizes.length)
    (hi : i < S.op.minibatchSize) (hk : k < S.op.sparseFeatureSize) :
    S.compute psum ((t * S.op.minibatchSize + i) * S.op.sparseFeatureSize + k) = S.expected (t, i) k :=
  letI : Zero (BitVec 32) := ⟨0⟩
  letI : Add (BitVec 32) := ⟨S.add⟩
  Reduction.compute_eq S.table S.op.indices S.op.lengths psum ht hi hk

theorem Valid.bytes_cases (h : S.Valid) : S.bytes = 64 ∨ S.bytes = 128 ∨ S.bytes = 256 := by
  rw [bytes_eq]
  rcases h.feature with h | h | h <;> rw [h] <;> decide

theorem Valid.bytes_pos (h : S.Valid) : 0 < S.bytes := by
  rcases h.bytes_cases with h | h | h <;> omega

theorem Valid.isTagged (h : S.Valid) : S.op.isTagged = false := by
  simpa [SlsOperation.isTagged] using h.untagged

/-- The opcode of an untagged operation selects the addition of its element type. -/
theorem Valid.opcode (h : S.Valid) :
    S.op.opType.code = 0 ∧ S.add = S.addF32 ∨ S.op.opType.code = 2 ∧ S.add = fun a b => a + b := by
  unfold add
  cases hop : S.op.opType with
  | float => exact .inl ⟨rfl, rfl⟩
  | uint32 => exact .inr ⟨rfl, rfl⟩
  | uint32Tagged => exact absurd hop h.untagged

theorem Valid.plannable (h : S.Valid) : S.op.Plannable .axdimm S.layout := by
  refine ⟨h.placed, h.consistent, fun l hl => (h.lengths l hl).1, ?_⟩
  show 0 < Topology.axdimm.psumSingleBufSize / S.bytes
  rcases h.bytes_cases with h | h | h <;> rw [h] <;> decide

theorem Valid.bytesPerRowFull (h : S.Valid) : S.op.bytesPerRowFull .axdimm = S.bytes := by
  rw [SlsOperation.bytesPerRowFull, h.isTagged]
  show (S.bytes + 0) % 2 ^ 32 = S.bytes
  rcases h.bytes_cases with h | h | h <;> rw [h] <;> rfl

section Exec

variable {p c : Nat} {e : Execution}

theorem Valid.execOk (h : S.Valid) (hp : p ∈ Topology.axdimm.packIdentifiers) (he : e ∈ S.execs p) :
    ExecOk S.op .axdimm S.layout S.env p e :=
  h.plannable.execOk hp he

/-- The features of an execution end before the dummy's row. -/
theorem Valid.feature_fits (h : S.Valid) (hp : p ∈ Topology.axdimm.packIdentifiers) (he : e ∈ S.execs p) {j : Nat}
    (hj : j < e.keys.length) : j * S.bytes + S.bytes ≤ dummyOffset := by
  have hle : (j + 1) * S.bytes ≤ e.keys.length * S.bytes := Nat.mul_le_mul_right _ hj
  have hroom := h.room p hp e he
  rw [(h.execOk hp he).psumSize] at hroom
  rw [Nat.add_mul, Nat.one_mul] at hle
  exact Nat.le_trans hle hroom

theorem Valid.length_keys_lt (h : S.Valid) (hp : p ∈ Topology.axdimm.packIdentifiers) (he : e ∈ S.execs p) :
    e.keys.length < 2 ^ 12 := by
  have hroom := h.room p hp e he
  rw [(h.execOk hp he).psumSize] at hroom
  have h64 : e.keys.length * 64 ≤ e.keys.length * S.bytes := by
    refine Nat.mul_le_mul_left _ ?_
    rcases h.bytes_cases with h | h | h <;> omega
  have hoff : dummyOffset = 130944 := rfl
  have hbytes : e.keys.length * S.op.sparseFtDataNb .axdimm = e.keys.length * S.bytes := rfl
  omega

/-- The object a lookup finds in the pack's layout, with its row address below 2^34. -/
theorem Valid.lookupIr (h : S.Valid) (hp : p ∈ Topology.axdimm.packIdentifiers) (hc : InPack c p) {key : Nat × Nat}
    (htable : ∃ o ∈ S.layout p, o.id = key.1) (hi : key.2 < S.op.minibatchSize) {r : Nat}
    (hr : r ∈ S.op.lookups key) {j : Nat} (hj : j < 2 ^ 32) :
    ∃ o ∈ S.layout p, o.id = key.1 ∧ r < S.rows o.id ∧ o.offset c + (r + 1) * S.bytes ≤ 2 ^ 34 ∧ o.offset c % 8 = 0 ∧
      S.op.lookupIr .axdimm (S.layout p) c key j r
        = { opcode := S.op.opType.code, outputIndex := j, address := o.offset c + r * S.bytes } := by
  obtain ⟨o, ho, hid, hfind⟩ := exists_find_object htable
  have hlt : o.id < S.op.tablesSizes.length := h.placed.id_lt hp ho
  have hrow : r < S.rows o.id := by
    rw [hid] at hlt ⊢
    exact h.indices key.1 hlt key.2 hi r hr
  obtain ⟨halign, hend⟩ := h.aligned p hp o ho c hc
  have hsmall := h.small o.id hlt
  rw [← bytes_eq] at hend hsmall
  have hrows : (r + 1) * S.bytes ≤ S.rows o.id * S.bytes := Nat.mul_le_mul_right _ hrow
  refine ⟨o, ho, hid, hrow, by omega, halign, ?_⟩
  rw [Nat.add_mul, Nat.one_mul] at hrows
  rw [SlsOperation.lookupIr, TraceGeneratorCore.writeIr, TraceGeneratorCore.getPhysAddress, h.bytesPerRowFull, hfind,
    Option.map_some, Option.getD_some, Nat.mod_eq_of_lt (show r * S.bytes < 2 ^ 32 by omega), Nat.mod_eq_of_lt hj,
    Nat.mod_eq_of_lt (by omega)]

/-- The instructions with output index `j` are the lookups of batch `j`. -/
theorem Valid.filter_execIr (h : S.Valid) (hp : p ∈ Topology.axdimm.packIdentifiers) (he : e ∈ S.execs p) (j : Nat) :
    (S.op.execIr .axdimm (S.layout p) c e).filter (·.outputIndex == j)
      = match e.keys[j]? with
        | some key => (S.op.lookups key).map (S.op.lookupIr .axdimm (S.layout p) c key j)
        | none     => [] := by
  have hlt := h.length_keys_lt hp he
  exact h.plannable.filter_execIr h.sums hp he (by omega) c j

/-- An instruction that the ranked generator encodes without loss, with its feature before the dummy's row. -/
structure IrOk (S : AxdimmSetup) (ir : InstructionIR) : Prop where
  opcode : ir.opcode = S.op.opType.code
  feature : ir.outputIndex * S.bytes + S.bytes ≤ dummyOffset
  outputIndex : ir.outputIndex < 2 ^ 12
  address : ir.address < 2 ^ 34
  aligned : ir.address % 8 = 0

theorem Valid.irOk (h : S.Valid) (hp : p ∈ Topology.axdimm.packIdentifiers) (hc : InPack c p) (he : e ∈ S.execs p) :
    ∀ ir ∈ S.op.execIr .axdimm (S.layout p) c e, IrOk S ir := by
  intro ir hir
  have hmem : ir ∈ (S.op.execIr .axdimm (S.layout p) c e).filter (·.outputIndex == ir.outputIndex) := by
    simpa using hir
  rw [h.filter_execIr hp he] at hmem
  cases hkey : e.keys[ir.outputIndex]? with
  | none => simp [hkey] at hmem
  | some key =>
      rw [hkey] at hmem
      obtain ⟨r, hr, hir⟩ := List.mem_map.mp hmem
      obtain ⟨htable, hi⟩ := (h.execOk hp he).tables key (List.mem_of_getElem? hkey)
      have hj := (List.getElem?_eq_some_iff.mp hkey).1
      have hlt := h.length_keys_lt hp he
      obtain ⟨o, -, -, -, hend, halign, heq⟩ := h.lookupIr hp hc htable hi hr (show ir.outputIndex < 2 ^ 32 by omega)
      rw [heq] at hir
      have haddr : ir.address = o.offset c + r * S.bytes := by rw [← hir]
      have hpos := h.bytes_pos
      refine ⟨by rw [← hir], h.feature_fits hp he hj, by omega, ?_, ?_⟩
      · rw [haddr]
        rw [Nat.add_mul, Nat.one_mul] at hend
        omega
      · have h8 : S.bytes % 8 = 0 := by rcases h.bytes_cases with h | h | h <;> rw [h]
        rw [haddr, Nat.add_mod, halign, Nat.mul_mod, h8, Nat.mul_zero]

/-- A batch of the plan looks something up. -/
theorem Valid.lookups_ne_nil (h : S.Valid) (hp : p ∈ Topology.axdimm.packIdentifiers) (he : e ∈ S.execs p)
    {key : Nat × Nat} (hkey : key ∈ e.keys) : S.op.lookups key ≠ [] := by
  have hpos := h.plannable.lengthOf_pos hp he hkey
  have hle := SlsOperation.startOf_add_lengthOf_le h.consistent key
  rw [SlsOperation.lookups, ← List.length_pos_iff, List.length_take, List.length_drop]
  omega

/-- Every execution has an instruction for its first feature. -/
theorem Valid.exists_first (h : S.Valid) (hp : p ∈ Topology.axdimm.packIdentifiers) (he : e ∈ S.execs p) :
    ∃ ir ∈ S.op.execIr .axdimm (S.layout p) c e, ir.outputIndex = 0 := by
  obtain ⟨key, keys, hkeys⟩ := List.exists_cons_of_ne_nil (h.execOk hp he).nonempty
  have hmem : key ∈ e.keys := by rw [hkeys]; exact List.mem_cons_self
  obtain ⟨r, rs, hrs⟩ := List.exists_cons_of_ne_nil (h.lookups_ne_nil hp he hmem)
  have hin : S.op.lookupIr .axdimm (S.layout p) c key 0 r ∈
      (S.op.execIr .axdimm (S.layout p) c e).filter (·.outputIndex == 0) := by
    rw [h.filter_execIr hp he, hkeys]
    show _ ∈ (S.op.lookups key).map _
    rw [hrs]
    exact List.mem_cons_self
  obtain ⟨hin, h0⟩ := List.mem_filter.mp hin
  exact ⟨_, hin, by simpa using h0⟩

theorem Valid.execIr_ne_nil (h : S.Valid) (hp : p ∈ Topology.axdimm.packIdentifiers) (he : e ∈ S.execs p) :
    S.op.execIr .axdimm (S.layout p) c e ≠ [] := by
  obtain ⟨ir, hir, -⟩ := h.exists_first (c := c) hp he
  exact List.ne_nil_of_mem hir

theorem Valid.length_execIr (h : S.Valid) (hp : p ∈ Topology.axdimm.packIdentifiers) (he : e ∈ S.execs p) :
    (S.op.execIr .axdimm (S.layout p) c e).length < Topology.axdimm.instPerSingleBuf := by
  have h1 := (h.execOk hp he).lookups
  have h2 : (S.op.limits .axdimm S.env).maxInst ≤ Topology.axdimm.instPerSingleBufNoHeader :=
    setInstrBufferSize_le S.env fun l hl => (h.lengths l hl).2
  have h3 : Topology.axdimm.instPerSingleBufNoHeader < Topology.axdimm.instPerSingleBuf := by decide
  rw [SlsOperation.length_execIr]
  omega

/-! ## The reference results -/

/-- **One batch, element by element.** Accumulating the lookups of a batch from the device memory gives its
    reference result. -/
theorem Valid.foldl_lookups (h : S.Valid) (hp : p ∈ Topology.axdimm.packIdentifiers) (hc : InPack c p) {base : Mem}
    (hload : S.Loaded p c base) {key : Nat × Nat} (htable : ∃ o ∈ S.layout p, o.id = key.1)
    (hi : key.2 < S.op.minibatchSize) {j k : Nat} (hj : j < 2 ^ 32) (hk : k < S.op.sparseFeatureSize) :
    ((S.op.lookups key).map (S.op.lookupIr .axdimm (S.layout p) c key j)).foldl
        (fun acc ir => S.add acc (base.word (ir.address + 4 * k))) 0 = S.expected key k := by
  rw [List.foldl_map, expected]
  refine List.foldl_ext _ _ _ fun acc r hr => ?_
  obtain ⟨o, ho, hid, hrow, -, -, heq⟩ := h.lookupIr hp hc htable hi hr hj
  rw [heq]
  congr 1
  have := hload o ho r hrow k hk
  rw [hid] at this
  rw [← this]
  congr 1
  rw [Nat.add_mul, Nat.mul_assoc, Nat.add_assoc, Nat.mul_comm 4 k, bytes_eq]

/-- **A buffer that holds an execution holds its results**: feature `j` is the reference result of batch `j`. -/
theorem Valid.expected_of_sums (h : S.Valid) (hp : p ∈ Topology.axdimm.packIdentifiers) (hc : InPack c p)
    (he : e ∈ S.execs p) {base : Mem} (hload : S.Loaded p c base) {o : OutputBuffers} {b : Nat}
    (hsums : S.BufferSums base o b (S.op.execIr .axdimm (S.layout p) c e)) {j : Nat} {key : Nat × Nat}
    (hkey : e.keys[j]? = some key) {k : Nat} (hk : k < S.op.sparseFeatureSize) :
    o.mem.word (psumDims.size * b + (j * S.bytes + 4 * k)) = S.expected key k := by
  obtain ⟨htable, hi⟩ := (h.execOk hp he).tables key (List.mem_of_getElem? hkey)
  have hj := (List.getElem?_eq_some_iff.mp hkey).1
  have hlt := h.length_keys_lt hp he
  have hk4 : k < S.bytes / 4 := by
    rw [bytes_eq]
    omega
  rw [hsums.words j k (h.feature_fits hp he hj) hk4, h.filter_execIr hp he, hkey]
  exact h.foldl_lookups hp hc hload htable hi (by omega) hk

end Exec

/-! ## The words of a trace -/

section Words

variable {p c t : Nat} {inst : Mem}

theorem traceWords_some {e : Execution} (he : (S.execs p)[t]? = some e) :
    S.traceWords p c t = S.op.generateInstructions .axdimm .ranked (S.layout p) c e ∧
      S.traceIrs p c t = S.op.execIr .axdimm (S.layout p) c e ∧ S.traceBytes p t = S.bytes ∧
      S.traceCount p c t = (S.op.execIr .axdimm (S.layout p) c e).length := by
  unfold traceWords traceIrs traceBytes traceCount
  rw [he]
  exact ⟨rfl, rfl, rfl, rfl⟩

theorem traceWords_none (he : (S.execs p)[t]? = none) :
    S.traceWords p c t = dummyInst ∧ S.traceIrs p c t = [] ∧ S.traceBytes p t = 64 ∧ S.traceCount p c t = 1 := by
  unfold traceWords traceIrs traceBytes traceCount
  rw [he]
  exact ⟨rfl, rfl, rfl, rfl⟩

/-- A word of a trace is read back from the block. -/
theorem InBlock.readLE (h : S.InBlock p c t inst) {i w : Nat} (hw : (S.traceWords p c t)[i]? = some w)
    (hlt : w < 2 ^ 64) :
    inst.readLE (8 * i) 8 = w := by
  obtain ⟨m, hm⟩ := h
  obtain ⟨hi, hget⟩ := List.getElem?_eq_some_iff.mp hw
  have hread := Mem.readLE_writeWords (n := 8) (m := m) (a := 0) hi
  rw [Nat.zero_add, ← hm, hget] at hread
  rw [hread]
  exact Nat.mod_eq_of_lt hlt

/-- **The header** of every trace asks for its feature size, untagged. -/
theorem Valid.header (h : S.Valid) (hp : p ∈ Topology.axdimm.packIdentifiers) (hin : S.InBlock p c t inst) :
    headerBytes (inst.readLE 0 8) = S.traceBytes p t ∧ headerTagged (inst.readLE 0 8) = false := by
  cases he : (S.execs p)[t]? with
  | none =>
      obtain ⟨hwords, -, hbytes, -⟩ := traceWords_none (c := c) he
      have hread : inst.readLE (8 * 0) 8 = 0 := hin.readLE (by rw [hwords]; rfl) (by decide)
      rw [Nat.mul_zero] at hread
      rw [hread, hbytes]
      decide
  | some e =>
      obtain ⟨hwords, -, hbytes, -⟩ := traceWords_some (c := c) he
      obtain ⟨irs, ir, hirs⟩ := (List.eq_nil_or_concat' _).resolve_left
        (h.execIr_ne_nil (c := c) hp (List.mem_of_getElem? he))
      have hhead : (S.traceWords p c t)[0]? = some (TraceGenerator.writeHeader S.bytes false) := by
        rw [hwords, SlsOperation.generateInstructions, hirs, h.isTagged, TraceGenerator.trace_concat]
        rfl
      have hmode : TraceGenerator.writeHeader S.bytes false < 2 ^ 64 ∧
          headerBytes (TraceGenerator.writeHeader S.bytes false) = S.bytes ∧
          headerTagged (TraceGenerator.writeHeader S.bytes false) = false := by
        rcases h.bytes_cases with h | h | h <;> rw [h] <;> decide
      have hread := hin.readLE hhead hmode.1
      rw [Nat.mul_zero] at hread
      rw [hread, hbytes]
      exact hmode.2

/-- What an instruction word decodes to. -/
structure Decodes (S : AxdimmSetup) (ir : InstructionIR) (last : Bool) (instr : DecodedInst) : Prop where
  opcode : instr.opcode = S.op.opType.code
  outputIdx : instr.outputIdx = ir.outputIndex
  address : Ranked.encodeAddressFromInstruction instr = ir.address
  traceEnd : instr.traceEnd = last.toNat

/-- The instruction the ranked generator encodes. -/
def instOf (ir : InstructionIR) : DecodedInst :=
  Ranked.decodeAddressToInstruction ir.address (makeEmptyInstruction ir.opcode ir.outputIndex)

theorem Valid.inRange (h : S.Valid) {ir : InstructionIR} (hir : IrOk S ir) : (instOf ir).InRange := by
  refine InstructionGenerator.split_inRange .ranked ⟨?_, Nat.two_pos, hir.outputIndex, Nat.two_pos⟩ ir.address
  show ir.opcode < 2 ^ 2
  rw [hir.opcode]
  rcases h.opcode with ⟨h0, -⟩ | ⟨h0, -⟩ <;> rw [h0] <;> decide

theorem Valid.decode_compileIr (h : S.Valid) {ir : InstructionIR} (hir : IrOk S ir) :
    Decodes S ir false (decodeInstruction (TraceGenerator.compileIr .ranked ir)) := by
  have hdec : decodeInstruction (TraceGenerator.compileIr .ranked ir) = instOf ir := decode_encode (h.inRange hir)
  rw [hdec]
  exact ⟨hir.opcode, rfl, Ranked.address_roundTrip hir.address hir.aligned _, rfl⟩

theorem Valid.decode_setTraceEnd (h : S.Valid) {ir : InstructionIR} (hir : IrOk S ir) :
    Decodes S ir true (decodeInstruction (TraceGenerator.compileIr .ranked ir ||| (1 <<< 48))) := by
  have hdec : decodeInstruction (TraceGenerator.compileIr .ranked ir ||| (1 <<< 48))
      = { instOf ir with traceEnd := 1 } := Pnm.Sls.decode_setTraceEnd (h.inRange hir) rfl
  rw [hdec]
  exact ⟨hir.opcode, rfl, Ranked.address_roundTrip hir.address hir.aligned
    (makeEmptyInstruction ir.opcode ir.outputIndex), rfl⟩

/-- **Word `k + 1` of an execution's trace** is its instruction `k`; the last one carries the end mark. -/
theorem Valid.decode_word (h : S.Valid) (hp : p ∈ Topology.axdimm.packIdentifiers) (hc : InPack c p) {e : Execution}
    (he : (S.execs p)[t]? = some e) (hin : S.InBlock p c t inst) {k : Nat} {ir : InstructionIR}
    (hk : (S.op.execIr .axdimm (S.layout p) c e)[k]? = some ir) :
    Decodes S ir (k + 1 == (S.op.execIr .axdimm (S.layout p) c e).length)
      (decodeInstruction (inst.readLE (8 * (k + 1)) 8)) := by
  have hok := h.irOk hp hc (List.mem_of_getElem? he)
  have hir := hok ir (List.mem_of_getElem? hk)
  have hwords := (traceWords_some (c := c) he).1
  obtain ⟨irs, x, hirs⟩ := (List.eq_nil_or_concat' _).resolve_left (List.ne_nil_of_mem (List.mem_of_getElem? hk))
  have hlt := (List.getElem?_eq_some_iff.mp hk).1
  rw [hirs, List.length_append, List.length_singleton] at hlt
  rw [SlsOperation.generateInstructions, hirs, h.isTagged, TraceGenerator.trace_concat] at hwords
  rw [hirs] at hk
  rw [hirs, List.length_append, List.length_singleton]
  by_cases hlast : k = irs.length
  · subst hlast
    rw [List.getElem?_concat_length] at hk
    obtain rfl := Option.some.inj hk
    have hread : inst.readLE (8 * (irs.length + 1)) 8 = TraceGenerator.compileIr .ranked x ||| (1 <<< 48) := by
      refine hin.readLE ?_ (Nat.or_lt_two_pow (CxlSim.compileIr_lt _ x) (by decide))
      rw [hwords, List.getElem?_cons_succ, List.getElem?_append_right (by simp), List.length_map, Nat.sub_self]
      rfl
    rw [hread, beq_self_eq_true]
    exact h.decode_setTraceEnd hir
  · have hk' : k < irs.length := by omega
    rw [List.getElem?_append_left hk'] at hk
    have hread : inst.readLE (8 * (k + 1)) 8 = TraceGenerator.compileIr .ranked ir := by
      refine hin.readLE ?_ (CxlSim.compileIr_lt _ ir)
      rw [hwords, List.getElem?_cons_succ, List.getElem?_append_left (by simpa using hk'), List.getElem?_map, hk]
      rfl
    rw [hread, beq_false_of_ne (by omega)]
    exact h.decode_compileIr hir

/-- An instruction of the operation adds its row. -/
theorem Decodes.execInstr (hv : S.Valid) {ir : InstructionIR} {last : Bool} {instr : DecodedInst}
    (h : Decodes S ir last instr) (u : AxdimmUnit) :
    execInstr S.addF32 S.bytes false instr u
      = .ok { u with psum := addRow S.add u.base ir.address ir.outputIndex S.bytes u.psum } := by
  rcases hv.opcode with ⟨hop, hadd⟩ | ⟨hop, hadd⟩
  · have hcode : instr.opcode = 0 := h.opcode.trans hop
    simp only [AxdimmSim.execInstr, sumInstr, hcode, h.outputIdx, h.address, hadd]
    rfl
  · have hcode : instr.opcode = 2 := h.opcode.trans hop
    simp only [AxdimmSim.execInstr, sumInstr, hcode, h.outputIdx, h.address, hadd]
    rfl

/-- The dummy instruction adds a row at `dummyOffset`. -/
theorem execInstr_dummy (addF32 : BitVec 32 → BitVec 32 → BitVec 32) (u : AxdimmUnit) :
    ∃ addr, execInstr addF32 64 false (decodeInstruction 0xffd000000000000) u
      = .ok { u with psum := addRow addF32 u.base addr 2046 64 u.psum } := by
  have hdec : decodeInstruction 0xffd000000000000 = { outputIdx := 2046, traceEnd := 1 } := by decide
  rw [hdec]
  exact ⟨_, rfl⟩

/-- **One word of a trace.** It is executed without an error; it adds the next row of the trace to the sums of the
    write buffer and leaves the other buffer alone; and only the last word carries the end mark. -/
theorem Valid.exec_word (h : S.Valid) (hp : p ∈ Topology.axdimm.packIdentifiers) (hc : InPack c p) {u : AxdimmUnit}
    (hin : S.InBlock p c t u.inst) (hu : u.psum.Bounded psumDims) {k : Nat} (hk : k < S.traceCount p c t) :
    ∃ o, execInstr S.addF32 (S.traceBytes p t) false (decodeInstruction (u.inst.readLE (8 * (k + 1)) 8)) u
        = .ok { u with psum := o } ∧
      o.readIdx = u.psum.readIdx ∧ o.writeIdx = u.psum.writeIdx ∧ o.Bounded psumDims ∧
      (∀ b irs, b ≠ u.psum.writeIdx → S.BufferSums u.base u.psum b irs → S.BufferSums u.base o b irs) ∧
      (∀ irs, S.BufferSums u.base u.psum u.psum.writeIdx irs →
        S.BufferSums u.base o u.psum.writeIdx (irs ++ (S.traceIrs p c t)[k]?.toList)) ∧
      ((decodeInstruction (u.inst.readLE (8 * (k + 1)) 8)).traceEnd ≠ 0 ↔ k + 1 = S.traceCount p c t) := by
  have hsize := dummyOffset_lt
  cases he : (S.execs p)[t]? with
  | none =>
      obtain ⟨hwords, hirs, hbytes, hcount⟩ := traceWords_none (c := c) he
      obtain rfl : k = 0 := by omega
      have hread : u.inst.readLE (8 * (0 + 1)) 8 = 0xffd000000000000 := hin.readLE (by rw [hwords]; rfl) (by decide)
      obtain ⟨addr, hexec⟩ := execInstr_dummy S.addF32 u
      have hfit : 2046 * 64 + 64 ≤ psumDims.size := hsize
      rw [hread, hbytes, hirs, hcount]
      refine ⟨_, hexec, rfl, rfl, addRow_bounded hu hfit, ?_, ?_, ?_⟩
      · intro b irs hb hsums
        exact Sums.addRow_other hsums hb hfit
      · intro irs hsums
        rw [List.getElem?_nil, Option.toList_none, List.append_nil]
        exact Sums.addRow_far hsums (Nat.le_refl _)
      · decide
  | some e =>
      obtain ⟨-, hirs, hbytes, hcount⟩ := traceWords_some (c := c) he
      rw [hcount] at hk
      obtain ⟨ir, hir⟩ : ∃ ir, (S.op.execIr .axdimm (S.layout p) c e)[k]? = some ir := ⟨_, List.getElem?_eq_getElem hk⟩
      have hdec := h.decode_word hp hc he hin hir
      have hok := h.irOk hp hc (List.mem_of_getElem? he) ir (List.mem_of_getElem? hir)
      have hfit : ir.outputIndex * S.bytes + S.bytes ≤ psumDims.size := by
        have := hok.feature
        omega
      rw [hbytes, hirs, hcount, hir, Option.toList_some]
      refine ⟨_, hdec.execInstr h u, rfl, rfl, addRow_bounded hu hfit, ?_, ?_, ?_⟩
      · intro b irs hb hsums
        exact Sums.addRow_other hsums hb hfit
      · intro irs hsums
        exact Sums.exec hsums ir
      · rw [hdec.traceEnd]
        simp

/-- A buffer that holds whole traces can be cleared. -/
theorem Valid.clearable (h : S.Valid) (hp : p ∈ Topology.axdimm.packIdentifiers) {base : Mem} {o : OutputBuffers}
    {b : Nat} {ts : List Nat} (hsums : S.BufferSums base o b (ts.flatMap (S.traceIrs p c))) : Clearable o b := by
  refine Sums.clearable hsums h.bytes_pos ?_
  by_cases hnil : ts.flatMap (S.traceIrs p c) = []
  · exact .inl hnil
  · right
    obtain ⟨ir, hir⟩ := List.exists_mem_of_ne_nil _ hnil
    obtain ⟨t, ht, hir⟩ := List.mem_flatMap.mp hir
    cases he : (S.execs p)[t]? with
    | none =>
        rw [(traceWords_none (c := c) he).2.1] at hir
        cases hir
    | some e =>
        obtain ⟨first, hfirst, h0⟩ := h.exists_first (c := c) hp (List.mem_of_getElem? he)
        refine ⟨first, List.mem_flatMap.mpr ⟨t, ht, ?_⟩, h0⟩
        rw [(traceWords_some (c := c) he).2.1]
        exact hfirst

end Words

end AxdimmSetup

end Pnm.Sls
