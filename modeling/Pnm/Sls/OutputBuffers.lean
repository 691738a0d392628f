import Pnm.Lib.ByteMem
import Pnm.Sls.Topology

/-!
# `Sls.OutputBuffers` — the rotating psum and tag buffers of an AXDIMM unit

The model of `NBufferedMemory` (`core/device/sls/utils/nbuffer_memory.cpp`) for one compute unit, together with
the dirty ranges `AxdimmSimulatorCore` keeps for its buffers and with `clear_buf_common`. Addresses are rank
offsets: the interleaving with the other rank of the DIMM moves whole chunks of `RankInterleavingSize` bytes
and every clear works on whole chunks.

`Clean` says that a buffer is zero outside its dirty range. Writes that are recorded keep it
(`Clean.write`). A clear always starts at the front of the buffer, whatever the dirty range, so it leaves the
buffer zero exactly when the part of the range it misses is zero (`allZero_clear_iff`).
-/

namespace Pnm.Sls

open Pnm.Lib

/-- `align_up`. -/
def alignUp (value alignment : Nat) : Nat :=
  if value % alignment = 0 then value else value + alignment - value % alignment

/-- `align_down`. -/
def alignDown (value alignment : Nat) : Nat := value - value % alignment

/-- `clear_memory`: one `memset` for each chunk of `RankInterleavingSize` bytes. -/
def clearMemory (m : Mem) (ptr size : Nat) : Mem :=
  (List.range (alignUp size 256 / 256)).foldl (fun m i => m.fill (ptr + 256 * i) 256 0) m

/-- `single_buffer_size_` and `buffers_num_`. A buffer is a whole number of chunks. -/
structure BufferDims where
  size : Nat
  num : Nat
  size_mod : size % 256 = 0
  size_lt : size < 2 ^ 32
  num_pos : 0 < num

/-- The buffers of one kind: their memory, the rotating indices and the dirty range of each. -/
structure OutputBuffers where
  mem : Mem
  readIdx : Nat
  writeIdx : Nat
  minOffset : Nat → Nat
  maxOffset : Nat → Nat

namespace OutputBuffers

/-- The state the constructors leave: everything may be garbage, so everything counts as dirty. -/
def init (d : BufferDims) (mem : Mem) : OutputBuffers where
  mem := mem
  readIdx := d.num - 1
  writeIdx := 0
  minOffset := fun _ => 0
  maxOffset := fun _ => d.size

/-- `NBufferedMemory::shift_index`. -/
def shiftIndex (num idx : Nat) : Nat := (idx + 1) % num

/-- `NBufferedMemory::shift_buffers`. -/
def shiftBuffers (d : BufferDims) (b : OutputBuffers) : OutputBuffers :=
  { b with readIdx := shiftIndex d.num b.readIdx, writeIdx := shiftIndex d.num b.writeIdx }

/-- Widen the dirty range of the write buffer to include `[start, stop)`. -/
def markDirty (start stop : Nat) (b : OutputBuffers) : OutputBuffers :=
  { b with
      minOffset := Function.update b.minOffset b.writeIdx (min (b.minOffset b.writeIdx) start)
      maxOffset := Function.update b.maxOffset b.writeIdx (max (b.maxOffset b.writeIdx) stop) }

/-- The number of bytes `clear_buf_common` clears. -/
def clearSize (b : OutputBuffers) (bufIdx : Nat) : Nat :=
  alignUp (b.maxOffset bufIdx % 2 ^ 32) 256 - alignDown (b.minOffset bufIdx % 2 ^ 32) 256

/-- `AxdimmSimulatorCore::clear_buf_common`. The clear starts at `offset`, not at the start of the dirty
    range. -/
def clearBufCommon (d : BufferDims) (bufIdx offset : Nat) (b : OutputBuffers) : OutputBuffers :=
  if b.minOffset bufIdx ≥ b.maxOffset bufIdx then b
  else
    { b with
        mem := clearMemory b.mem (d.size * bufIdx + offset) (b.clearSize bufIdx)
        maxOffset := Function.update b.maxOffset bufIdx 0
        minOffset := Function.update b.minOffset bufIdx d.size }

/-- One of the two loops of `clear_buffers`. -/
def clearAll (d : BufferDims) (b : OutputBuffers) : OutputBuffers :=
  (List.range d.num).foldl (fun b bufIdx => b.clearBufCommon d bufIdx 0) b

/-! ## Clean buffers -/

/-- Indices and dirty ranges stay inside. -/
structure Bounded (d : BufferDims) (b : OutputBuffers) : Prop where
  readIdx : b.readIdx < d.num
  writeIdx : b.writeIdx < d.num
  maxOffset : ∀ i < d.num, b.maxOffset i ≤ d.size

/-- **Every byte outside the dirty range of its buffer is zero.** -/
structure Clean (d : BufferDims) (b : OutputBuffers) : Prop extends Bounded d b where
  zero : ∀ i < d.num, ∀ x < d.size, ¬ (b.minOffset i ≤ x ∧ x < b.maxOffset i) → b.mem (d.size * i + x) = 0

/-- All bytes of a buffer are zero. -/
def AllZero (d : BufferDims) (b : OutputBuffers) (i : Nat) : Prop := ∀ x < d.size, b.mem (d.size * i + x) = 0

/-- The dirty bytes that a clear from the front of the buffer misses are zero. -/
def NoResidue (d : BufferDims) (b : OutputBuffers) (i : Nat) : Prop :=
  ∀ x, b.minOffset i ≤ x → x < b.maxOffset i → b.clearSize i ≤ x → b.mem (d.size * i + x) = 0

/-- Nothing is dirty, or the dirty range starts in the first chunk. -/
def StartsInFront (b : OutputBuffers) (i : Nat) : Prop :=
  b.maxOffset i ≤ b.minOffset i ∨ alignDown (b.minOffset i) 256 = 0

variable {d : BufferDims} {b : OutputBuffers}

theorem clean_init (d : BufferDims) (mem : Mem) : (init d mem).Clean d := by
  refine ⟨⟨Nat.sub_lt d.num_pos Nat.one_pos, d.num_pos, fun _ _ => Nat.le_refl _⟩, ?_⟩
  intro i _ x hx hout
  exact absurd ⟨Nat.zero_le x, hx⟩ hout

theorem Clean.shiftBuffers (h : b.Clean d) : (b.shiftBuffers d).Clean d :=
  ⟨⟨Nat.mod_lt _ d.num_pos, Nat.mod_lt _ d.num_pos, h.maxOffset⟩, h.zero⟩

/-- Buffers do not overlap. -/
theorem buffer_disjoint {i j : Nat} (hne : j ≠ i) {x n : Nat} (hx : x < d.size) (hn : n ≤ d.size) :
    d.size * j + x < d.size * i ∨ d.size * i + n ≤ d.size * j + x := by
  rcases Nat.lt_or_gt_of_ne hne with h | h
  · have := Nat.mul_le_mul_left d.size h
    rw [Nat.mul_succ] at this
    omega
  · have := Nat.mul_le_mul_left d.size h
    rw [Nat.mul_succ] at this
    omega

/-- **A recorded write.** Memory changes inside `[start, start + len)` of the write buffer only, and the range
    is marked. -/
theorem Clean.write (h : b.Clean d) {mem : Mem} {start len : Nat} (hfit : start + len ≤ d.size)
    (hmem : ∀ x, x < d.size * b.writeIdx + start ∨ d.size * b.writeIdx + (start + len) ≤ x → mem x = b.mem x) :
    (markDirty start (start + len) { b with mem := mem }).Clean d := by
  refine ⟨⟨h.readIdx, h.writeIdx, ?_⟩, ?_⟩
  · intro i hi
    have := h.maxOffset i hi
    simp only [markDirty, Function.update_apply]
    split
    · rename_i heq
      subst heq
      omega
    · exact this
  · intro i hi x hx hout
    simp only [markDirty, Function.update_apply] at hout ⊢
    by_cases heq : i = b.writeIdx
    · subst heq
      simp only [if_true] at hout
      rw [hmem _ (by omega)]
      exact h.zero _ hi x hx (by omega)
    · simp only [if_neg heq] at hout
      have hdisj := buffer_disjoint heq hx hfit
      rw [hmem _ (by omega)]
      exact h.zero i hi x hx hout

/-! ## Clearing -/

theorem alignUp_mod (n : Nat) : alignUp n 256 % 256 = 0 := by
  unfold alignUp
  split <;> omega

theorem le_alignUp (n : Nat) : n ≤ alignUp n 256 := by
  unfold alignUp
  split <;> omega

theorem alignUp_le {n m : Nat} (h : n ≤ m) (hm : m % 256 = 0) : alignUp n 256 ≤ m := by
  unfold alignUp
  split <;> omega

theorem clearMemory_apply {m : Mem} {ptr size : Nat} (h : size % 256 = 0) (x : Nat) :
    clearMemory m ptr size x = if ptr ≤ x ∧ x < ptr + size then 0 else m x := by
  have hchunks : ∀ n, (List.range n).foldl (fun m i => Mem.fill m (ptr + 256 * i) 256 0) m x
      = if ptr ≤ x ∧ x < ptr + 256 * n then 0 else m x := by
    intro n
    induction n with
    | zero => rw [if_neg (by omega)]; rfl
    | succ n ih =>
        rw [List.range_succ, List.foldl_append, List.foldl_cons, List.foldl_nil, Mem.fill, ih]
        by_cases hlast : ptr + 256 * n ≤ x ∧ x < ptr + 256 * n + 256
        · rw [if_pos hlast, if_pos (by omega)]
        · rw [if_neg hlast]
          by_cases hin : ptr ≤ x ∧ x < ptr + 256 * n
          · rw [if_pos hin, if_pos (by omega)]
          · rw [if_neg hin, if_neg (by omega)]
  have hup : alignUp size 256 = size := by rw [alignUp, if_pos h]
  rw [clearMemory, hup, hchunks, show 256 * (size / 256) = size by omega]

section Clear

variable {i : Nat}

theorem clearSize_mod (b : OutputBuffers) (i : Nat) : b.clearSize i % 256 = 0 := by
  have h1 := alignUp_mod (b.maxOffset i % 2 ^ 32)
  have h2 : alignDown (b.minOffset i % 2 ^ 32) 256 % 256 = 0 := by
    unfold alignDown
    omega
  unfold clearSize
  omega

theorem Bounded.clearSize_le (h : b.Bounded d) (hi : i < d.num) : b.clearSize i ≤ d.size := by
  have hmax := h.maxOffset i hi
  have hlt := d.size_lt
  have hup : alignUp (b.maxOffset i % 2 ^ 32) 256 ≤ d.size :=
    alignUp_le (Nat.le_trans (Nat.mod_le _ _) hmax) d.size_mod
  unfold clearSize
  omega

theorem Bounded.clear (h : b.Bounded d) (i : Nat) : (b.clearBufCommon d i 0).Bounded d := by
  unfold clearBufCommon
  split
  · exact h
  · refine ⟨h.readIdx, h.writeIdx, ?_⟩
    intro j hj
    have := h.maxOffset j hj
    simp only [Function.update_apply]
    split
    · exact Nat.zero_le _
    · exact this

@[simp] theorem clear_readIdx (b : OutputBuffers) (i : Nat) : (b.clearBufCommon d i 0).readIdx = b.readIdx := by
  unfold clearBufCommon
  split <;> rfl

/-- The memory after a clear. -/
theorem clear_mem (hlt : b.minOffset i < b.maxOffset i) (x : Nat) :
    (b.clearBufCommon d i 0).mem x
      = if d.size * i ≤ x ∧ x < d.size * i + b.clearSize i then 0 else b.mem x := by
  rw [clearBufCommon, if_neg (Nat.not_le.mpr hlt)]
  exact clearMemory_apply (clearSize_mod b i) x

/-- What a clear misses is still there afterwards. -/
theorem Bounded.noResidue_of_allZero (h : b.Bounded d) (hi : i < d.num)
    (hzero : (b.clearBufCommon d i 0).AllZero d i) : b.NoResidue d i := by
  intro x hmin hx hmiss
  have hmax := h.maxOffset i hi
  have := hzero x (by omega)
  rwa [clear_mem (by omega), if_neg (by omega)] at this

/-- **What a clear leaves.** -/
theorem allZero_clear_iff (h : b.Clean d) (hi : i < d.num) :
    (b.clearBufCommon d i 0).AllZero d i ↔ b.NoResidue d i := by
  refine ⟨h.toBounded.noResidue_of_allZero hi, ?_⟩
  intro hres x hx
  by_cases hlt : b.minOffset i < b.maxOffset i
  · rw [clear_mem hlt]
    split
    · rfl
    · rename_i hout
      by_cases hin : b.minOffset i ≤ x ∧ x < b.maxOffset i
      · exact hres x hin.1 hin.2 (by omega)
      · exact h.zero i hi x hx hin
  · -- nothing is dirty, nothing is cleared
    rw [clearBufCommon, if_pos (Nat.not_lt.mp hlt)]
    exact h.zero i hi x hx (by omega)

/-- A clear leaves the other buffers alone. -/
theorem clear_other (h : b.Bounded d) (hi : i < d.num) {j : Nat} (hne : j ≠ i) :
    (b.clearBufCommon d i 0).minOffset j = b.minOffset j ∧ (b.clearBufCommon d i 0).maxOffset j = b.maxOffset j ∧
      ∀ x < d.size, (b.clearBufCommon d i 0).mem (d.size * j + x) = b.mem (d.size * j + x) := by
  by_cases hlt : b.minOffset i < b.maxOffset i
  · refine ⟨?_, ?_, ?_⟩
    · rw [clearBufCommon, if_neg (Nat.not_le.mpr hlt)]
      exact Function.update_of_ne hne _ _
    · rw [clearBufCommon, if_neg (Nat.not_le.mpr hlt)]
      exact Function.update_of_ne hne _ _
    · intro x hx
      have hdisj := buffer_disjoint hne hx (h.clearSize_le hi)
      rw [clear_mem hlt, if_neg (by omega)]
  · rw [clearBufCommon, if_pos (Nat.not_lt.mp hlt)]
    exact ⟨rfl, rfl, fun _ _ => rfl⟩

theorem Clean.clear (h : b.Clean d) (hi : i < d.num) (hres : b.NoResidue d i) :
    (b.clearBufCommon d i 0).Clean d := by
  refine ⟨h.toBounded.clear i, ?_⟩
  intro j hj x hx hout
  by_cases hji : j = i
  · subst hji
    exact (allZero_clear_iff h hj).mpr hres x hx
  · obtain ⟨hmin, hmax, hmem⟩ := clear_other h.toBounded hi hji
    rw [hmin, hmax] at hout
    rw [hmem x hx]
    exact h.zero j hj x hx hout

/-- A dirty range that starts in the first chunk is cleared completely. -/
theorem Bounded.noResidue_of_startsInFront (h : b.Bounded d) (hi : i < d.num) (hfront : b.StartsInFront i) :
    b.NoResidue d i := by
  intro x hmin hx hmiss
  have hmax := h.maxOffset i hi
  have hfirst := hfront.resolve_left (by omega)
  have hlt := d.size_lt
  have hup := le_alignUp (b.maxOffset i)
  rw [clearSize, Nat.mod_eq_of_lt (show b.maxOffset i < 2 ^ 32 by omega),
    Nat.mod_eq_of_lt (show b.minOffset i < 2 ^ 32 by omega), hfirst] at hmiss
  omega

end Clear

/-! ## Clearing all buffers -/

/-- The first `n` iterations of the loop. -/
def clearUpTo (d : BufferDims) (n : Nat) (b : OutputBuffers) : OutputBuffers :=
  (List.range n).foldl (fun b bufIdx => b.clearBufCommon d bufIdx 0) b

theorem clearUpTo_succ (d : BufferDims) (n : Nat) (b : OutputBuffers) :
    b.clearUpTo d (n + 1) = (b.clearUpTo d n).clearBufCommon d n 0 := by
  rw [clearUpTo, List.range_succ, List.foldl_append]
  rfl

theorem Bounded.clearUpTo (h : b.Bounded d) (n : Nat) : (b.clearUpTo d n).Bounded d := by
  induction n with
  | zero => exact h
  | succ n ih =>
      rw [clearUpTo_succ]
      exact ih.clear n

/-- A buffer the loop has not reached yet is as before. -/
theorem clearUpTo_later (h : b.Bounded d) {n : Nat} (hn : n ≤ d.num) {j : Nat} (hj : n ≤ j) :
    (b.clearUpTo d n).minOffset j = b.minOffset j ∧ (b.clearUpTo d n).maxOffset j = b.maxOffset j ∧
      ∀ x < d.size, (b.clearUpTo d n).mem (d.size * j + x) = b.mem (d.size * j + x) := by
  induction n with
  | zero => exact ⟨rfl, rfl, fun _ _ => rfl⟩
  | succ n ih =>
      obtain ⟨h1, h2, h3⟩ := ih (by omega) (by omega)
      obtain ⟨h1', h2', h3'⟩ := clear_other (h.clearUpTo n) (show n < d.num by omega) (show j ≠ n by omega)
      rw [clearUpTo_succ]
      exact ⟨h1'.trans h1, h2'.trans h2, fun x hx => (h3' x hx).trans (h3 x hx)⟩

/-- Buffers that agree have the same residue. -/
theorem noResidue_congr {b b' : OutputBuffers} {i : Nat} (h1 : b'.minOffset i = b.minOffset i)
    (h2 : b'.maxOffset i = b.maxOffset i) (h3 : ∀ x < d.size, b'.mem (d.size * i + x) = b.mem (d.size * i + x))
    (hb : b.maxOffset i ≤ d.size) : b'.NoResidue d i ↔ b.NoResidue d i := by
  have hsize : b'.clearSize i = b.clearSize i := by rw [clearSize, clearSize, h1, h2]
  constructor
  · intro h x hmin hmax hmiss
    rw [← h3 x (by omega)]
    exact h x (by omega) (by omega) (by omega)
  · intro h x hmin hmax hmiss
    rw [h3 x (by omega)]
    exact h x (by omega) (by omega) (by omega)

/-- Buffers the loop has passed are not touched again. -/
theorem clearUpTo_earlier (h : b.Bounded d) {i n : Nat} (hin : i < n) (hn : n ≤ d.num) :
    ∀ x < d.size, (b.clearUpTo d n).mem (d.size * i + x) = (b.clearUpTo d (i + 1)).mem (d.size * i + x) := by
  induction n, hin using Nat.le_induction with
  | base => exact fun _ _ => rfl
  | succ n hle ih =>
      intro x hx
      have hother := clear_other (h.clearUpTo n) (show n < d.num by omega) (show i ≠ n by omega)
      rw [clearUpTo_succ, hother.2.2 x hx]
      exact ih (by omega) x hx

theorem Clean.clearUpTo (h : b.Clean d) (hres : ∀ i < d.num, b.NoResidue d i) {n : Nat} (hn : n ≤ d.num) :
    (b.clearUpTo d n).Clean d ∧ ∀ i < n, (b.clearUpTo d n).AllZero d i := by
  induction n with
  | zero => exact ⟨h, fun i hi => absurd hi (Nat.not_lt_zero i)⟩
  | succ n ih =>
      obtain ⟨hclean, hzero⟩ := ih (by omega)
      obtain ⟨h1, h2, h3⟩ := clearUpTo_later h.toBounded (show n ≤ d.num by omega) (Nat.le_refl n)
      have hres' : (b.clearUpTo d n).NoResidue d n :=
        (noResidue_congr h1 h2 h3 (h.maxOffset n (by omega))).mpr (hres n (by omega))
      rw [clearUpTo_succ]
      refine ⟨hclean.clear (by omega) hres', ?_⟩
      intro i hi
      by_cases hin : i = n
      · subst hin
        exact (allZero_clear_iff hclean (by omega)).mpr hres'
      · intro x hx
        rw [(clear_other hclean.toBounded (show n < d.num by omega) hin).2.2 x hx]
        exact hzero i (by omega) x hx

/-- **`clear_buffers` leaves everything zero** exactly when no buffer has a residue. -/
theorem clearAll_iff (h : b.Clean d) :
    ((b.clearAll d).Clean d ∧ ∀ i < d.num, (b.clearAll d).AllZero d i) ↔ ∀ i < d.num, b.NoResidue d i := by
  refine ⟨?_, fun hres => h.clearUpTo hres (Nat.le_refl _)⟩
  rintro ⟨-, hzero⟩ i hi
  -- buffer `i` has its final contents once iteration `i` is over
  have hat : ((b.clearUpTo d i).clearBufCommon d i 0).AllZero d i := by
    intro x hx
    rw [← clearUpTo_succ, ← clearUpTo_earlier h.toBounded hi (Nat.le_refl _) x hx]
    exact hzero i hi x hx
  obtain ⟨h1, h2, h3⟩ := clearUpTo_later h.toBounded (Nat.le_of_lt hi) (Nat.le_refl i)
  exact (noResidue_congr h1 h2 h3 (h.maxOffset i hi)).mp ((h.toBounded.clearUpTo i).noResidue_of_allZero hi hat)

end OutputBuffers

end Pnm.Sls
