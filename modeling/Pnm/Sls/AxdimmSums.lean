import Pnm.Sls.AxdimmSim

/-!
# `Sls.AxdimmSums` — what a psum buffer of an AXDIMM unit stands for

Between two clears a psum buffer collects the rows of the instructions that are executed into it. `Sums` says so:
feature by feature, the buffer holds the rows added up in the order of the instructions, and its dirty range knows
about all of them. An instruction extends the list (`Sums.exec`), a clear empties it (`Sums.clear`), and whatever
happens to one buffer leaves the sums of the others alone.

The dummy trace at the end of a pack writes a row at `dummyOffset` that no clear removes, so `Sums` speaks about the
buffer below that offset only.
-/

namespace Pnm.Sls

open Pnm.Lib

namespace AxdimmSim

/-- Where the dummy trace writes its row. -/
def dummyOffset : Nat := 2046 * 64

theorem dummyOffset_lt : dummyOffset + 64 ≤ psumDims.size := by decide

/-- **A psum buffer as a sum of instructions.** -/
structure Sums (add : BitVec 32 → BitVec 32 → BitVec 32) (base : Mem) (bytes : Nat) (o : OutputBuffers) (b : Nat)
    (irs : List InstructionIR) : Prop where
  words : ∀ j k, j * bytes + bytes ≤ dummyOffset → k < bytes / 4 →
    o.mem.word (psumDims.size * b + (j * bytes + 4 * k))
      = (irs.filter (·.outputIndex == j)).foldl (fun acc ir => add acc (base.word (ir.address + 4 * k))) 0
  zero : ∀ x < dummyOffset, ¬ (o.minOffset b ≤ x ∧ x < o.maxOffset b) → o.mem (psumDims.size * b + x) = 0
  dirty : ∀ ir ∈ irs, o.minOffset b ≤ ir.outputIndex * bytes ∧ ir.outputIndex * bytes + bytes ≤ o.maxOffset b
  far : irs = [] → dummyOffset ≤ o.minOffset b

/-- What a clear needs to find: the dirty range starts at the front, or is out of the way. -/
structure Clearable (o : OutputBuffers) (b : Nat) : Prop where
  zero : ∀ x < dummyOffset, ¬ (o.minOffset b ≤ x ∧ x < o.maxOffset b) → o.mem (psumDims.size * b + x) = 0
  front : o.minOffset b = 0 ∧ 0 < o.maxOffset b ∨ dummyOffset ≤ o.minOffset b

section

variable {add : BitVec 32 → BitVec 32 → BitVec 32} {base : Mem} {bytes b : Nat} {o o' : OutputBuffers}
  {irs : List InstructionIR}

/-! ## Locality -/

/-- Only the buffer itself and its dirty range matter. -/
theorem Sums.congr (h : Sums add base bytes o b irs)
    (hmem : ∀ x < dummyOffset, o'.mem (psumDims.size * b + x) = o.mem (psumDims.size * b + x))
    (hmin : o'.minOffset b = o.minOffset b) (hmax : o'.maxOffset b = o.maxOffset b) :
    Sums add base bytes o' b irs := by
  refine ⟨?_, ?_, ?_, ?_⟩
  · intro j k hj hk
    rw [← h.words j k hj hk, Mem.word, Mem.word]
    congr 1
    refine Mem.readLE_congr fun i hi => ?_
    rw [Nat.add_assoc]
    exact hmem _ (by omega)
  · intro x hx hout
    rw [hmem x hx]
    rw [hmin, hmax] at hout
    exact h.zero x hx hout
  · rw [hmin, hmax]
    exact h.dirty
  · rw [hmin]
    exact h.far

theorem Clearable.congr (h : Clearable o b)
    (hmem : ∀ x < dummyOffset, o'.mem (psumDims.size * b + x) = o.mem (psumDims.size * b + x))
    (hmin : o'.minOffset b = o.minOffset b) (hmax : o'.maxOffset b = o.maxOffset b) : Clearable o' b := by
  refine ⟨?_, ?_⟩
  · intro x hx hout
    rw [hmem x hx]
    rw [hmin, hmax] at hout
    exact h.zero x hx hout
  · rw [hmin, hmax]
    exact h.front

/-- Rotating the buffers changes which one is read and written, not what they hold. -/
theorem Sums.shiftBuffers (h : Sums add base bytes o b irs) : Sums add base bytes (o.shiftBuffers psumDims) b irs :=
  h.congr (fun _ _ => rfl) rfl rfl

/-! ## Executing an instruction -/

/-- The psum buffers after one instruction. -/
def addRow (f : BitVec 32 → BitVec 32 → BitVec 32) (base : Mem) (addr idx bytes : Nat) (o : OutputBuffers) :
    OutputBuffers :=
  OutputBuffers.markDirty (idx * bytes) (idx * bytes + bytes) { o with mem := sparseFtSum f base addr idx bytes o }

variable {f : BitVec 32 → BitVec 32 → BitVec 32} {addr idx len : Nat}

@[simp] theorem addRow_readIdx : (addRow f base addr idx len o).readIdx = o.readIdx := rfl

@[simp] theorem addRow_writeIdx : (addRow f base addr idx len o).writeIdx = o.writeIdx := rfl

theorem addRow_bounded (h : o.Bounded psumDims) (hfit : idx * len + len ≤ psumDims.size) :
    (addRow f base addr idx len o).Bounded psumDims := by
  refine ⟨h.readIdx, h.writeIdx, fun i hi => ?_⟩
  have hmax := h.maxOffset i hi
  show Function.update o.maxOffset o.writeIdx (max (o.maxOffset o.writeIdx) (idx * len + len)) i ≤ psumDims.size
  rw [Function.update_apply]
  split
  · rename_i heq
    subst heq
    exact Nat.max_le.mpr ⟨hmax, hfit⟩
  · exact hmax

theorem addRow_minOffset : (addRow f base addr idx len o).minOffset o.writeIdx
    = min (o.minOffset o.writeIdx) (idx * len) := Function.update_self ..

theorem addRow_maxOffset : (addRow f base addr idx len o).maxOffset o.writeIdx
    = max (o.maxOffset o.writeIdx) (idx * len + len) := Function.update_self ..

/-- A byte of the write buffer that the row does not reach. -/
theorem addRow_mem_other {x : Nat} (hx : x < idx * len ∨ idx * len + len ≤ x) :
    (addRow f base addr idx len o).mem (psumDims.size * o.writeIdx + x) = o.mem (psumDims.size * o.writeIdx + x) :=
  sparseFtSum_other f (by omega)

/-- The other buffers are left alone. -/
theorem Sums.addRow_other (h : Sums add base bytes o b irs) (hb : b ≠ o.writeIdx)
    (hfit : idx * len + len ≤ psumDims.size) : Sums add base bytes (addRow f base addr idx len o) b irs := by
  refine h.congr ?_ (Function.update_of_ne hb _ _) (Function.update_of_ne hb _ _)
  intro x hx
  have hsize := dummyOffset_lt
  have hdisj := OutputBuffers.buffer_disjoint (d := psumDims) hb (show x < psumDims.size by omega) hfit
  exact sparseFtSum_other f (by omega)

/-- A row at or behind `dummyOffset` is not seen. -/
theorem Sums.addRow_far (h : Sums add base bytes o o.writeIdx irs) (hfar : dummyOffset ≤ idx * len) :
    Sums add base bytes (addRow f base addr idx len o) o.writeIdx irs := by
  have hmem : ∀ x < dummyOffset, (addRow f base addr idx len o).mem (psumDims.size * o.writeIdx + x)
      = o.mem (psumDims.size * o.writeIdx + x) := fun x hx => addRow_mem_other (by omega)
  refine ⟨?_, ?_, ?_, ?_⟩
  · intro j k hj hk
    rw [← h.words j k hj hk, Mem.word, Mem.word]
    congr 1
    refine Mem.readLE_congr fun i hi => ?_
    rw [Nat.add_assoc]
    exact hmem _ (by omega)
  · intro x hx hout
    rw [addRow_minOffset, addRow_maxOffset] at hout
    rw [hmem x hx]
    exact h.zero x hx (by omega)
  · intro ir hir
    have hd := h.dirty ir hir
    rw [addRow_minOffset, addRow_maxOffset]
    omega
  · intro hnil
    have hd := h.far hnil
    rw [addRow_minOffset]
    omega

/-- **One more instruction.** -/
theorem Sums.exec (h : Sums add base bytes o o.writeIdx irs) (ir : InstructionIR) :
    Sums add base bytes (addRow add base ir.address ir.outputIndex bytes o) o.writeIdx (irs ++ [ir]) := by
  refine ⟨?_, ?_, ?_, ?_⟩
  · intro j k hj hk
    have hold := h.words j k hj hk
    rw [List.filter_append, List.foldl_append, ← hold]
    by_cases hij : ir.outputIndex = j
    · subst hij
      have hpick : [ir].filter (·.outputIndex == ir.outputIndex) = [ir] := by simp
      rw [hpick, List.foldl_cons, List.foldl_nil, ← Nat.add_assoc]
      exact Mem.word_transform hk
    · have hdrop : [ir].filter (·.outputIndex == j) = [] := by simp [hij]
      rw [hdrop, List.foldl_nil]
      refine Mem.word_transform_disjoint ?_
      rcases Nat.lt_or_gt_of_ne hij with hlt | hgt
      · have := Nat.mul_le_mul_right bytes hlt
        rw [Nat.succ_mul] at this
        omega
      · have := Nat.mul_le_mul_right bytes hgt
        rw [Nat.succ_mul] at this
        omega
  · intro x hx hout
    rw [addRow_minOffset, addRow_maxOffset] at hout
    rw [addRow_mem_other (by omega)]
    exact h.zero x hx (by omega)
  · intro x hx
    rw [addRow_minOffset, addRow_maxOffset]
    rcases List.mem_append.mp hx with hx | hx
    · have hd := h.dirty x hx
      omega
    · rw [List.mem_singleton.mp hx]
      omega
  · intro hnil
    simp at hnil

/-! ## Clearing -/

/-- A buffer that holds nothing, or a feature at its front, can be cleared. -/
theorem Sums.clearable (h : Sums add base bytes o b irs) (hpos : 0 < bytes)
    (hfirst : irs = [] ∨ ∃ ir ∈ irs, ir.outputIndex = 0) : Clearable o b := by
  refine ⟨h.zero, ?_⟩
  rcases hfirst with hnil | ⟨ir, hir, h0⟩
  · exact .inr (h.far hnil)
  · have hd := h.dirty ir hir
    rw [h0, Nat.zero_mul] at hd
    exact .inl ⟨by omega, by omega⟩

/-- A buffer whose bytes are zero below `dummyOffset`, with its dirty range behind. -/
theorem sums_nil (hzero : ∀ x < dummyOffset, o.mem (psumDims.size * b + x) = 0) (hfar : dummyOffset ≤ o.minOffset b) :
    Sums add base bytes o b [] := by
  refine ⟨?_, fun x hx _ => hzero x hx, by simp, fun _ => hfar⟩
  intro j k hj hk
  have hread : o.mem.readLE (psumDims.size * b + (j * bytes + 4 * k)) 4 = Mem.readLE (fun _ => 0) 0 4 := by
    refine Mem.readLE_congr fun i hi => ?_
    rw [Nat.add_assoc]
    exact hzero _ (by omega)
  rw [Mem.word, hread]
  rfl

/-- **A clear empties its buffer.** -/
theorem Clearable.clear (h : Clearable o b) (hb : b < psumDims.num) (ho : o.Bounded psumDims) :
    Sums add base bytes (o.clearBufCommon psumDims b 0) b [] := by
  have hsize := dummyOffset_lt
  have hmax := ho.maxOffset b hb
  have hlt := psumDims.size_lt
  by_cases hdirty : o.minOffset b < o.maxOffset b
  · refine sums_nil ?_ ?_
    · intro x hx
      rw [OutputBuffers.clear_mem hdirty]
      split
      · rfl
      · rename_i hout
        refine h.zero x hx ?_
        rintro ⟨hmin, hx'⟩
        rcases h.front with ⟨h0, -⟩ | hfar
        · -- the whole range is in reach
          have hup := OutputBuffers.le_alignUp (o.maxOffset b)
          rw [OutputBuffers.clearSize, h0, Nat.mod_eq_of_lt (show o.maxOffset b < 2 ^ 32 by omega)] at hout
          simp only [alignDown, Nat.zero_mod, Nat.sub_self, Nat.sub_zero] at hout
          omega
        · omega
    · have hmin : (o.clearBufCommon psumDims b 0).minOffset b = psumDims.size := by
        rw [OutputBuffers.clearBufCommon, if_neg (Nat.not_le.mpr hdirty)]
        exact Function.update_self ..
      rw [hmin]
      omega
  · rw [OutputBuffers.clearBufCommon, if_pos (Nat.not_lt.mp hdirty)]
    have hfar := h.front.resolve_left (by omega)
    exact sums_nil (fun x hx => h.zero x hx (by omega)) hfar

/-- A clear leaves the other buffers alone. -/
theorem Sums.clear_other (h : Sums add base bytes o b irs) (ho : o.Bounded psumDims) {i : Nat} (hi : i < psumDims.num)
    (hne : b ≠ i) : Sums add base bytes (o.clearBufCommon psumDims i 0) b irs := by
  have hsize := dummyOffset_lt
  obtain ⟨hmin, hmax, hmem⟩ := OutputBuffers.clear_other ho hi hne
  exact h.congr (fun x hx => hmem x (by omega)) hmin hmax

/-- The first `n` iterations of `clear_buffers` have emptied `n` buffers. -/
theorem sums_clearUpTo (ho : o.Bounded psumDims) (hall : ∀ i < psumDims.num, Clearable o i) {n : Nat}
    (hn : n ≤ psumDims.num) : ∀ i < n, Sums add base bytes (o.clearUpTo psumDims n) i [] := by
  induction n with
  | zero => exact fun i hi => absurd hi (Nat.not_lt_zero i)
  | succ n ih =>
      intro i hi
      have hbounded := ho.clearUpTo n
      rw [OutputBuffers.clearUpTo_succ]
      by_cases hin : i = n
      · subst hin
        have hsize := dummyOffset_lt
        obtain ⟨hmin, hmax, hmem⟩ := OutputBuffers.clearUpTo_later ho (show i ≤ psumDims.num by omega) (Nat.le_refl i)
        exact ((hall i hn).congr (fun x hx => hmem x (by omega)) hmin hmax).clear hn hbounded
      · exact (ih (by omega) i (by omega)).clear_other hbounded hn hin

theorem sums_clearAll (ho : o.Bounded psumDims) (hall : ∀ i < psumDims.num, Clearable o i) :
    ∀ i < psumDims.num, Sums add base bytes (o.clearAll psumDims) i [] :=
  sums_clearUpTo ho hall (Nat.le_refl _)

/-- Buffers as the constructor leaves them can be cleared. -/
theorem clearable_init (mem : Mem) (i : Nat) : Clearable (OutputBuffers.init psumDims mem) i := by
  have hsize := dummyOffset_lt
  refine ⟨?_, .inl ⟨rfl, ?_⟩⟩
  · intro x hx hout
    exact absurd ⟨Nat.zero_le x, show x < psumDims.size by omega⟩ hout
  · show 0 < psumDims.size
    omega

end

end AxdimmSim

end Pnm.Sls
