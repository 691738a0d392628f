import Pnm.Core.Device
import Pnm.Kernel.Sharing

/-!
# `Core.DeviceMemory` — where the memory of a file lies

`Lawful` says which allocations a file holds, not where they are. Here is what a file can rely on for that: its private
memory lies inside the base block of the unit, begins with a granule, and no two allocations share a byte
(`Separated`). The kernel keeps this for the pools of the SLS driver, next to being lawful (`FileInv.separated`,
`ofKernel_lawful_separated`), with whatever other files have.
-/

namespace Pnm.Core

open Pnm.Kernel

/-- No byte of a unit belongs to both. -/
def PnmAllocation.Apart (a b : PnmAllocation) : Prop :=
  a.memoryPool = b.memoryPool →
    a.addr.toNat + a.size.toNat ≤ b.addr.toNat ∨ b.addr.toNat + b.size.toNat ≤ a.addr.toNat

/-- Memory of units with `capacity` bytes each, in granules of `gran` bytes. -/
structure Separated (gran capacity : Nat) (live : Set PnmAllocation) : Prop where
  pos : ∀ a ∈ live, 0 < a.size.toNat
  onGranule : ∀ a ∈ live, a.addr.toNat % gran = 0
  inside : ∀ a ∈ live, a.addr.toNat + a.size.toNat ≤ capacity
  apart : ∀ a ∈ live, ∀ b ∈ live, a ≠ b → a.Apart b

/-- The pools of `init_sls_allocator`: one for each unit, with a range that begins at 0, and so with a chunk that begins
    at the first granule (`init_pool`). `pnm_alloc_init` leaves sizes as they are. -/
def slsPools (order nrCunits capacity : Nat) : AllocParams where
  order := order
  nrPools := nrCunits
  start := fun _ => 0
  aligned := false
  hasAddr := fun _ addr size => decide (2 ^ order ≤ addr ∧ addr + size ≤ 2 ^ order + capacity)

namespace Device

variable {order nrCunits capacity f : Nat} {s : Allocator}

/-- What the kernel keeps for file `f`, besides `KernelInv`: the records are sound, what the file has for itself is not
    shared, and it begins with a granule. -/
structure FileInv (p : AllocParams) (f : Nat) (s : Allocator × Nat) : Prop extends KernelInv p f s where
  sound : s.1.Sound p
  hidden : ∀ a, (f, a) ∈ s.1.descs → a.isGlobal = 0 → s.1.entries a.key = none
  onGranule : ∀ a, (f, a) ∈ s.1.descs → a.isGlobal = 0 → a.addr % p.gran = 0 ∧ a.addr + p.gran < 2 ^ 64

theorem fileInv_init (p : AllocParams) (f : Nat) : FileInv p f (.init, 0) where
  toKernelInv := kernelInv_init p f
  sound := Allocator.sound_init
  hidden _ ha := nomatch ha
  onGranule _ ha := nomatch ha

/-! ## Granules -/

section Granules

variable {a b : Allocation}

theorem slsPools_gran : (slsPools order nrCunits capacity).gran = 2 ^ order := rfl

theorem slsPools_start (idx : Nat) : (slsPools order nrCunits capacity).start idx = 0 := rfl

theorem slsPools_chunkStart (idx : Nat) : (slsPools order nrCunits capacity).chunkStart idx = 2 ^ order :=
  if_pos (slsPools_start idx)

theorem slsPools_poolAddr (idx : Nat) {addr : Nat} (hlt : addr + 2 ^ order < 2 ^ 64) :
    (slsPools order nrCunits capacity).poolAddr idx addr = addr + 2 ^ order := by
  rw [AllocParams.poolAddr, if_pos (slsPools_start idx), slsPools_gran, Nat.mod_eq_of_lt hlt]

theorem slsPools_poolSize (size : Nat) : (slsPools order nrCunits capacity).poolSize size = size :=
  if_neg Bool.false_ne_true

/-- Memory that `pnm_alloc_pool_malloc` gives begins with a granule. -/
theorem poolMalloc_onGranule {found : Option Nat} (hfinds : s.Finds (slsPools order nrCunits capacity) a found)
    (hret : (s.poolMalloc (slsPools order nrCunits capacity) a found).ret = 0) :
    (s.poolMalloc (slsPools order nrCunits capacity) a found).kreq.addr % 2 ^ order = 0 ∧
      (s.poolMalloc (slsPools order nrCunits capacity) a found).kreq.addr + 2 ^ order < 2 ^ 64 := by
  unfold Allocator.poolMalloc at hret ⊢
  split at hret
  · cases hret
  split at hret
  · cases hret
  rename_i hpool hsize
  rw [if_neg hpool, if_neg hsize]
  cases found with
  | none => cases hret
  | some i =>
      obtain ⟨-, hlt, -⟩ := hfinds i rfl
      simp only [slsPools_chunkStart, slsPools_gran, slsPools_start, if_true, Nat.add_sub_cancel_left] at hlt ⊢
      exact ⟨Nat.mul_mod_left i _, by omega⟩

/-- The first granule of memory that begins with one. -/
theorem firstGranule_eq (hgran : a.addr % 2 ^ order = 0) (hlt : a.addr + 2 ^ order < 2 ^ 64) :
    (slsPools order nrCunits capacity).firstGranule a.memoryPool a.addr * 2 ^ order = a.addr := by
  rw [AllocParams.firstGranule, slsPools_poolAddr _ hlt, slsPools_chunkStart, Nat.add_sub_cancel, slsPools_gran]
  exact Nat.div_mul_cancel (Nat.dvd_of_mod_eq_zero hgran)

/-- The granules of an allocation cover its bytes. -/
theorem size_le_granules (order nrCunits capacity size : Nat) :
    size ≤ (slsPools order nrCunits capacity).nrGranules size * 2 ^ order := by
  have hpos : 0 < 2 ^ order := Nat.two_pow_pos order
  rw [AllocParams.nrGranules, slsPools_poolSize, slsPools_gran]
  have hdiv := Nat.div_add_mod (size + 2 ^ order - 1) (2 ^ order)
  have hmod := Nat.mod_lt (size + 2 ^ order - 1) hpos
  rw [Nat.mul_comm] at hdiv
  omega

/-- Memory of a pool without a common granule has no common byte. -/
theorem apart_of_not_covers (ha : a.addr % 2 ^ order = 0 ∧ a.addr + 2 ^ order < 2 ^ 64)
    (hb : b.addr % 2 ^ order = 0 ∧ b.addr + 2 ^ order < 2 ^ 64) (hpool : a.memoryPool = b.memoryPool)
    (hposA : 0 < (slsPools order nrCunits capacity).nrGranules a.size)
    (hposB : 0 < (slsPools order nrCunits capacity).nrGranules b.size)
    (hnot : ∀ idx i, (slsPools order nrCunits capacity).Covers a idx i →
      ¬ (slsPools order nrCunits capacity).Covers b idx i) :
    a.addr + a.size ≤ b.addr ∨ b.addr + b.size ≤ a.addr := by
  have haddrA : (slsPools order nrCunits capacity).firstGranule a.memoryPool a.addr * 2 ^ order = a.addr :=
    firstGranule_eq ha.1 ha.2
  have haddrB : (slsPools order nrCunits capacity).firstGranule b.memoryPool b.addr * 2 ^ order = b.addr :=
    firstGranule_eq hb.1 hb.2
  have hsizeA := size_le_granules order nrCunits capacity a.size
  have hsizeB := size_le_granules order nrCunits capacity b.size
  have hfirstA := hnot _ _ ((slsPools order nrCunits capacity).covers_first hposA)
  have hfirstB : ¬ (slsPools order nrCunits capacity).Covers a b.memoryPool
      ((slsPools order nrCunits capacity).firstGranule b.memoryPool b.addr) :=
    fun h => hnot _ _ h ((slsPools order nrCunits capacity).covers_first hposB)
  rw [AllocParams.Covers, not_and, not_and] at hfirstA hfirstB
  generalize (slsPools order nrCunits capacity).firstGranule a.memoryPool a.addr = i at *
  generalize (slsPools order nrCunits capacity).firstGranule b.memoryPool b.addr = j at *
  generalize (slsPools order nrCunits capacity).nrGranules a.size = m at *
  generalize (slsPools order nrCunits capacity).nrGranules b.size = n at *
  rcases Nat.lt_or_ge i j with hlt | hge
  · have hend : i + m ≤ j := Nat.le_of_not_lt (hfirstB hpool.symm (Nat.le_of_lt hlt))
    left
    calc a.addr + a.size ≤ i * 2 ^ order + m * 2 ^ order := by omega
      _ = (i + m) * 2 ^ order := (Nat.add_mul ..).symm
      _ ≤ j * 2 ^ order := Nat.mul_le_mul_right _ hend
      _ = b.addr := haddrB
  · have hend : j + n ≤ i := Nat.le_of_not_lt (hfirstA hpool hge)
    right
    calc b.addr + b.size ≤ j * 2 ^ order + n * 2 ^ order := by omega
      _ = (j + n) * 2 ^ order := (Nat.add_mul ..).symm
      _ ≤ i * 2 ^ order := Nat.mul_le_mul_right _ hend
      _ = a.addr := haddrA

end Granules

/-- **The memory of the file** is separated. -/
theorem FileInv.separated {n : Nat} (h : FileInv (slsPools order nrCunits capacity) f (s, n)) :
    Separated (2 ^ order) capacity (heldBy f (s, n)) where
  pos := by
    rintro a ⟨-, hmem⟩
    have hpos := h.sound.regions.nonempty _ (.inl ⟨f, hmem⟩)
    refine Nat.pos_of_ne_zero fun hzero => ?_
    rw [show (copyFromUser a).size = 0 from hzero, AllocParams.nrGranules,
      slsPools_poolSize, Nat.zero_add,
      Nat.div_eq_of_lt (Nat.sub_lt (AllocParams.gran_pos _) Nat.one_pos)] at hpos
    exact absurd hpos (Nat.lt_irrefl 0)
  onGranule := by
    rintro a ⟨hprivate, hmem⟩
    exact (h.onGranule _ hmem (congrArg BitVec.toNat hprivate)).1
  inside := by
    rintro a ⟨hprivate, hmem⟩
    have hprivate := congrArg BitVec.toNat hprivate
    obtain ⟨-, hlt⟩ := h.onGranule _ hmem hprivate
    obtain ⟨-, hhas⟩ := h.inPool _ hmem hprivate
    have hlt : (copyFromUser a).addr + 2 ^ order < 2 ^ 64 := hlt
    rw [slsPools_poolAddr _ hlt, slsPools_poolSize] at hhas
    obtain ⟨-, hend⟩ := of_decide_eq_true hhas
    change a.addr.toNat + 2 ^ order + a.size.toNat ≤ 2 ^ order + capacity at hend
    omega
  apart := by
    rintro a ⟨hprivateA, hmemA⟩ b ⟨hprivateB, hmemB⟩ hne hpool
    have hpool : (copyFromUser a).memoryPool = (copyFromUser b).memoryPool := congrArg BitVec.toNat hpool
    have hkey : (copyFromUser a).key ≠ (copyFromUser b).key :=
      fun hkey => hne (copyFromUser_inj (eq_of_key_eq h.nodup hmemA hmemB hkey))
    exact apart_of_not_covers (h.onGranule _ hmemA (congrArg BitVec.toNat hprivateA))
      (h.onGranule _ hmemB (congrArg BitVec.toNat hprivateB)) hpool (h.sound.regions.nonempty _ (.inl ⟨f, hmemA⟩))
      (h.sound.regions.nonempty _ (.inl ⟨f, hmemB⟩))
      (h.sound.regions.apart _ _ (.inl ⟨f, hmemA⟩) (.inl ⟨f, hmemB⟩) hkey)

/-! ## The two ioctls -/

section Ioctls

variable {n m : Nat}

theorem allocateMemory_entries {p : AllocParams} (kreq : Allocation) (mostFree : Nat) (found : Option Nat)
    (kzalloc : Bool) : (s.allocateMemory p f kreq mostFree found kzalloc).alloc.entries = s.entries := by
  by_cases hret : (s.poolMalloc p (Allocator.choosePool kreq mostFree) found).ret = 0
  · exact (Allocator.allocateMemory_of_granted (f := f) kzalloc hret).2.2.1
  · rw [Allocator.allocateMemory_of_refused kzalloc hret]
    exact Allocator.poolMalloc_entries

/-- `ALLOCATE_MEMORY`, however it ends. -/
theorem FileInv.allocate (h : FileInv (slsPools order nrCunits capacity) f (s, n)) (c : Choices) (kreq : Allocation)
    (hkernel : KernelInv (slsPools order nrCunits capacity) f
      ((processIoctl (slsPools order nrCunits capacity) f c .allocateMemory kreq s).alloc, m)) :
    FileInv (slsPools order nrCunits capacity) f
      ((processIoctl (slsPools order nrCunits capacity) f c .allocateMemory kreq s).alloc, m) := by
  revert hkernel
  unfold processIoctl Allocator.memProcessIoctl
  dsimp only
  have hfinds : s.Finds (slsPools order nrCunits capacity) (Allocator.choosePool kreq c.mostFree)
      (if s.Finds (slsPools order nrCunits capacity) (Allocator.choosePool kreq c.mostFree) c.found then c.found
        else none) := by
    split
    · rename_i hfinds
      exact hfinds
    · intro i hi
      cases hi
  generalize (if s.Finds (slsPools order nrCunits capacity) (Allocator.choosePool kreq c.mostFree) c.found then
    c.found else none) = found at hfinds ⊢
  obtain ⟨hsound, hnew⟩ := h.sound.allocateMemory (f := f) c.kzalloc hfinds
  have hentries := allocateMemory_entries (p := slsPools order nrCunits capacity) (s := s) (f := f) kreq c.mostFree
    found c.kzalloc
  intro hkernel
  rcases allocateMemory_granted (f := f) c.kzalloc hfinds with ⟨-, hdescs⟩ | ⟨hret, -, -, hdescs⟩
  · exact ⟨hkernel, hsound, fun a ha => hentries ▸ h.hidden a (hdescs ▸ ha), fun a ha => h.onGranule a (hdescs ▸ ha)⟩
  · -- the pool has granted what is registered
    have hpool : (s.poolMalloc (slsPools order nrCunits capacity) (Allocator.choosePool kreq c.mostFree) found).ret
        = 0 := by
      by_contra hrefused
      rw [Allocator.allocateMemory_of_refused c.kzalloc hrefused] at hret
      exact hrefused hret
    obtain ⟨hkreq, -⟩ := Allocator.allocateMemory_of_granted (f := f) c.kzalloc hpool
    have hgran := poolMalloc_onGranule hfinds hpool
    rw [← hkreq] at hgran
    refine ⟨hkernel, hsound, fun a ha hprivate => ?_, fun a ha hprivate => ?_⟩
    · rw [hentries]
      rcases List.mem_cons.mp (hdescs ▸ ha) with heq | hold
      · rw [(Prod.mk.inj heq).2]
        exact hnew hret
      · exact h.hidden a hold hprivate
    · rcases List.mem_cons.mp (hdescs ▸ ha) with heq | hold
      · rw [(Prod.mk.inj heq).2]
        exact hgran
      · exact h.onGranule a hold hprivate

/-- `DEALLOCATE_MEMORY` of what the file has for itself. -/
theorem FileInv.deallocate {p : AllocParams} (h : FileInv p f (s, n)) {a : Allocation} (stale : Int)
    (ha : (f, a) ∈ s.descs) (hprivate : a.isGlobal = 0)
    (hkernel : KernelInv p f ((s.deallocateMemory p f a stale).alloc, m)) :
    FileInv p f ((s.deallocateMemory p f a stale).alloc, m) := by
  have hdescs := (deallocateMemory_held h.toKernelInv ha hprivate stale).2
  obtain ⟨d, hd⟩ := Option.ne_none_iff_exists'.mp
    (mt Allocator.lookup_eq_none.mp (not_not.mpr (Allocator.mem_holders.mpr ⟨a, ha, rfl⟩)))
  obtain ⟨hmem, hfile, hkey⟩ := Allocator.of_lookup hd
  obtain ⟨g, b⟩ := d
  obtain rfl : g = f := hfile
  obtain rfl := eq_of_key_eq h.nodup hmem ha hkey
  have hnone := h.hidden b ha hprivate
  have hreleased : Allocator.Released p s (s.deallocateMemory p g b stale).alloc (g, b) b := by
    rw [Allocator.deallocateMemory_some hd]
    exact {
      mem := ha
      key := rfl
      size := rfl
      flag := fun _ => hnone
      fits := fun e he => nomatch he.symm.trans hnone
      descs := Allocator.deallocateMemoryUnsafe_descs
      entries := Allocator.deallocateMemoryUnsafe_entries { s with descs := s.descs.erase (g, b) } b stale
      taken := Allocator.deallocateMemoryUnsafe_taken { s with descs := s.descs.erase (g, b) } b stale }
  refine ⟨hkernel, h.sound.release hreleased, fun c hc hlocal => ?_, fun c hc => ?_⟩
  · rw [hreleased.entries, if_neg (by rw [hprivate]; decide)]
    exact h.hidden c (List.mem_of_mem_erase (hdescs ▸ hc)) hlocal
  · exact h.onGranule c (List.mem_of_mem_erase (hdescs ▸ hc))

end Ioctls

/-- **The kernel of the SLS driver** is lawful, and keeps the memory of the file separated. -/
theorem ofKernel_lawful_separated (hpools : nrCunits ≤ 256) (choices : Nat → Choices) (strerror : Nat → String) :
    (ofKernel (slsPools order nrCunits capacity) f choices strerror).Lawful nrCunits
      (FileInv (slsPools order nrCunits capacity) f) (heldBy f) := by
  have hlaw := ofKernel_lawful (p := slsPools order nrCunits capacity) (f := f) hpools choices strerror
  refine ⟨?_, ?_, ?_⟩
  · rintro req ⟨s, n⟩ e t hinv hioctl
    obtain ⟨hkernel, hlive⟩ := hlaw.allocate_error hinv.toKernelInv hioctl
    obtain ⟨-, rfl⟩ := ofKernel_error hioctl
    exact ⟨hinv.allocate (choices n) (copyFromUser req) hkernel, hlive⟩
  · rintro req ⟨s, n⟩ reply t hinv hglobal hioctl
    obtain ⟨hsize, hprivate, hpool, hlt, hkernel, hnew, hlive⟩ := hlaw.allocate_ok hinv.toKernelInv hglobal hioctl
    obtain ⟨-, -, rfl⟩ := ofKernel_ok hioctl
    exact ⟨hsize, hprivate, hpool, hlt, hinv.allocate (choices n) (copyFromUser req) hkernel, hnew, hlive⟩
  · rintro req ⟨s, n⟩ hinv hheld
    obtain ⟨reply, t, hioctl, hkernel, hlive⟩ := hlaw.deallocate_ok hinv.toKernelInv hheld
    refine ⟨reply, t, hioctl, ?_, hlive⟩
    obtain ⟨-, -, rfl⟩ := ofKernel_ok hioctl
    exact hinv.deallocate (choices n).stale hheld.2 (congrArg BitVec.toNat hheld.1) hkernel

end Device

end Pnm.Core
