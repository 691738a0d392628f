import Mathlib.Data.BitVec
import Mathlib.Data.Set.Insert
import Pnm.Kernel.Isolation
import Pnm.Kernel.RefCounts

/-!
# `Core.Device` — the memory ioctls as the library sees them

The allocators of the library reach the kernel through `ioctl` on the resource file: a command, a `pnm_allocation`
that is copied in and out, and an error code. `Device` is that interface. What a library can rely on is `Lawful`: a
request for private memory that fails changes nothing that the file holds; one that succeeds gives a new allocation on
the unit that was asked for; and what the file holds can be given back.

`ofKernel` is the device of the kernel's model with one open file, for any choices of the page allocator and of the
pools, and `ofKernel_lawful` says that it is lawful.
-/

namespace Pnm.Core

open Pnm.Kernel

/-- `struct pnm_allocation`, in the widths of the interface. -/
structure PnmAllocation where
  addr : BitVec 64
  size : BitVec 64
  memoryPool : BitVec 8
  isGlobal : BitVec 8
deriving DecidableEq

/-- The commands of the resource file. -/
inductive MemoryCommand where
  | allocateMemory
  | deallocateMemory
  | makeSharedAlloc
  | getSharedAlloc

/-- What `ioctl` does on the resource file: an `errno`, or the request as it is copied back; and the text of an error
    code. -/
structure Device (σ : Type) where
  ioctl : MemoryCommand → PnmAllocation → σ → Except Nat PnmAllocation × σ
  strerror : Nat → String

namespace Device

variable {σ : Type}

/-- What a device with `nrPools` units keeps to, in its states `Inv`; `live` is the private memory of the file. -/
structure Lawful (d : Device σ) (nrPools : Nat) (Inv : σ → Prop) (live : σ → Set PnmAllocation) : Prop where
  allocate_error : ∀ {req s e t}, Inv s → d.ioctl .allocateMemory req s = (.error e, t) → Inv t ∧ live t = live s
  allocate_ok : ∀ {req s reply t}, Inv s → req.isGlobal = 0 → d.ioctl .allocateMemory req s = (.ok reply, t) →
    reply.size = req.size ∧ reply.isGlobal = 0 ∧ (req.memoryPool ≠ 255 → reply.memoryPool = req.memoryPool) ∧
      reply.memoryPool.toNat < nrPools ∧ Inv t ∧ reply ∉ live s ∧ live t = insert reply (live s)
  deallocate_ok : ∀ {req s}, Inv s → req ∈ live s →
    ∃ reply t, d.ioctl .deallocateMemory req s = (.ok reply, t) ∧ Inv t ∧ live t = live s \ {req}

/-! ## The kernel as a device -/

/-- The request as the kernel reads it. -/
def copyFromUser (req : PnmAllocation) : Allocation :=
  { addr := req.addr.toNat
    size := req.size.toNat
    memoryPool := req.memoryPool.toNat
    isGlobal := req.isGlobal.toNat }

/-- The request as the kernel writes it back. -/
def copyToUser (a : Allocation) : PnmAllocation :=
  { addr := .ofNat 64 a.addr
    size := .ofNat 64 a.size
    memoryPool := .ofNat 8 a.memoryPool
    isGlobal := .ofNat 8 a.isGlobal }

/-- What the rest of the kernel decides during one ioctl. -/
structure Choices where
  mostFree : Nat
  found : Option Nat
  kzalloc : Bool
  stale : Int

/-- `mem_process_ioctl` with these choices; granules that are not free are not found. -/
def processIoctl (p : AllocParams) (f : Nat) (c : Choices) (cmd : MemoryCommand) (kreq : Allocation) (s : Allocator) :
    Reply :=
  match cmd with
  | .allocateMemory =>
      let found := if s.Finds p (Allocator.choosePool kreq c.mostFree) c.found then c.found else none
      s.memProcessIoctl p f (.allocateMemory kreq c.mostFree found c.kzalloc)
  | .deallocateMemory => s.memProcessIoctl p f (.deallocateMemory kreq c.stale)
  | .makeSharedAlloc  => s.memProcessIoctl p f (.makeSharedAlloc kreq c.kzalloc)
  | .getSharedAlloc   => s.memProcessIoctl p f (.getSharedAlloc kreq c.kzalloc)

/-- The device of file `f`. The number of the ioctl goes with the kernel's records. -/
def ofKernel (p : AllocParams) (f : Nat) (choices : Nat → Choices) (strerror : Nat → String) :
    Device (Allocator × Nat) where
  ioctl cmd req s :=
    let r := processIoctl p f (choices s.2) cmd (copyFromUser req) s.1
    (if r.ret < 0 then .error (-r.ret).toNat else .ok (copyToUser r.kreq), (r.alloc, s.2 + 1))
  strerror := strerror

/-- The private memory of file `f`. -/
def heldBy (f : Nat) (s : Allocator × Nat) : Set PnmAllocation :=
  { req | req.isGlobal = 0 ∧ (f, copyFromUser req) ∈ s.1.descs }

/-- What the kernel keeps: a file has one descriptor for a key, and private memory is that of a pool. -/
structure KernelInv (p : AllocParams) (f : Nat) (s : Allocator × Nat) : Prop where
  nodup : ∀ k, (s.1.holders k).Nodup
  inPool : ∀ a, (f, a) ∈ s.1.descs → a.isGlobal = 0 → a.memoryPool < p.nrPools ∧
    p.hasAddr a.memoryPool (p.poolAddr a.memoryPool a.addr) (p.poolSize a.size) = true

variable {p : AllocParams} {f : Nat} {s : Allocator}

theorem copyToUser_copyFromUser (req : PnmAllocation) : copyToUser (copyFromUser req) = req := by
  simp [copyToUser, copyFromUser]

theorem copyFromUser_copyToUser {a : Allocation} (haddr : a.addr < 2 ^ 64) (hsize : a.size < 2 ^ 64)
    (hpool : a.memoryPool < 2 ^ 8) (hglobal : a.isGlobal < 2 ^ 8) : copyFromUser (copyToUser a) = a := by
  simp only [copyFromUser, copyToUser, BitVec.toNat_ofNat, Nat.mod_eq_of_lt, haddr, hsize, hpool, hglobal]

/-! ## What the kernel grants -/

/-- `b` is memory of a pool, as `a` asks for it. -/
structure Granted (p : AllocParams) (a b : Allocation) : Prop where
  size : b.size = a.size
  isGlobal : b.isGlobal = a.isGlobal
  memoryPool : b.memoryPool = a.memoryPool
  pool_lt : b.memoryPool < p.nrPools
  addr_lt : b.addr < 2 ^ 64
  hasAddr : p.hasAddr b.memoryPool (p.poolAddr b.memoryPool b.addr) (p.poolSize b.size) = true

theorem poolMalloc_granted {a : Allocation} {found : Option Nat} (hfinds : s.Finds p a found) :
    (s.poolMalloc p a found).ret < 0 ∨
      ((s.poolMalloc p a found).ret = 0 ∧ Granted p a (s.poolMalloc p a found).kreq) := by
  unfold Allocator.poolMalloc
  split
  · exact .inl (by simp [EINVAL])
  rename_i hpool
  split
  · exact .inl (by simp [EINVAL])
  cases found with
  | none => exact .inl (by simp [ENOMEM])
  | some i =>
      obtain ⟨-, hlt, hhas, -⟩ := hfinds i rfl
      refine .inr ⟨rfl, rfl, rfl, rfl, Nat.lt_of_not_le hpool, ?_, ?_⟩
      · dsimp only
        split
        · exact (Nat.sub_le _ _).trans_lt hlt
        · exact hlt
      · dsimp only
        rw [p.poolAddr_of_found hlt]
        exact hhas

/-- A request is granted and registered, or fails with a negative code. -/
theorem allocateMemory_granted {kreq : Allocation} {mostFree : Nat} {found : Option Nat} (kzalloc : Bool)
    (hfinds : s.Finds p (Allocator.choosePool kreq mostFree) found) :
    let r := s.allocateMemory p f kreq mostFree found kzalloc
    (r.ret < 0 ∧ r.alloc.descs = s.descs) ∨
      (r.ret = 0 ∧ Granted p (Allocator.choosePool kreq mostFree) r.kreq ∧ f ∉ s.holders r.kreq.key ∧
        r.alloc.descs = (f, r.kreq) :: s.descs) := by
  intro r
  rcases poolMalloc_granted hfinds with hneg | ⟨hzero, hgranted⟩
  · rw [show r = _ from Allocator.allocateMemory_of_refused kzalloc (ne_of_lt hneg)]
    exact .inl ⟨hneg, Allocator.poolMalloc_descs⟩
  · obtain ⟨hkreq, -, -, hregister⟩ := Allocator.allocateMemory_of_granted (f := f) kzalloc hzero
    rw [← hkreq] at hgranted hregister
    rcases hregister with ⟨⟨-, hnot⟩, hret, hdescs⟩ | ⟨-, hret, hdescs⟩
    · exact .inr ⟨hret, hgranted, hnot, hdescs⟩
    · exact .inl ⟨hret.trans_lt (by simp), hdescs⟩

/-- A file has one descriptor for a key. -/
theorem eq_of_key_eq (hnodup : ∀ k, (s.holders k).Nodup) {a b : Allocation} (ha : (f, a) ∈ s.descs)
    (hb : (f, b) ∈ s.descs) (hkey : a.key = b.key) : a = b := by
  have hmem : ∀ c : Allocation, (f, c) ∈ s.descs → c.key = b.key → (f, c) ∈ s.descs.filter fun d => d.2.key = b.key :=
    fun c hc hk => List.mem_filter.mpr ⟨hc, decide_eq_true hk⟩
  have heq := List.inj_on_of_nodup_map (hnodup b.key) (hmem a ha hkey) (hmem b hb rfl) rfl
  exact (Prod.mk.inj heq).2

theorem nodup_descs (hnodup : ∀ k, (s.holders k).Nodup) : s.descs.Nodup := by
  rw [List.nodup_iff_sublist]
  intro d hd
  -- twice the same descriptor would be twice the same file at its key
  have htwice := (hd.filter fun e => decide (e.2.key = d.2.key)).map Prod.fst
  rw [List.filter_eq_self.mpr fun e he => by simp_all] at htwice
  exact List.nodup_iff_sublist.mp (hnodup d.2.key) d.1 htwice

/-- What a file holds can be given back. -/
theorem deallocateMemory_held {a : Allocation} {n : Nat} (hinv : KernelInv p f (s, n)) (ha : (f, a) ∈ s.descs)
    (hglobal : a.isGlobal = 0) (stale : Int) :
    (s.deallocateMemory p f a stale).ret = 0 ∧
      (s.deallocateMemory p f a stale).alloc.descs = s.descs.erase (f, a) := by
  obtain ⟨d, hd⟩ := Option.ne_none_iff_exists'.mp
    (mt Allocator.lookup_eq_none.mp (not_not.mpr (Allocator.mem_holders.mpr ⟨a, ha, rfl⟩)))
  obtain ⟨hmem, hfile, hkey⟩ := Allocator.of_lookup hd
  obtain ⟨g, b⟩ := d
  obtain rfl : g = f := hfile
  obtain rfl := eq_of_key_eq hinv.nodup hmem ha hkey
  obtain ⟨hpool, hhas⟩ := hinv.inPool b ha hglobal
  have hfree : ∀ t : Allocator, t.poolFree p b = (0, t.genPoolFree p b) := fun t => by
    rw [Allocator.poolFree, if_neg (Nat.not_le.mpr hpool), if_pos hhas]
  rw [Allocator.deallocateMemory_some hd, Allocator.deallocateMemoryUnsafe, if_neg (by rw [hglobal]; decide), hfree]
  exact ⟨rfl, rfl⟩

theorem KernelInv.congr {n m : Nat} {t : Allocator} (hinv : KernelInv p f (s, n)) (hdescs : t.descs = s.descs) :
    KernelInv p f (t, m) where
  nodup k := by
    rw [show t.holders k = s.holders k by rw [Allocator.holders, Allocator.holders, hdescs]]
    exact hinv.nodup k
  inPool a ha := hinv.inPool a (hdescs ▸ ha)

theorem KernelInv.cons {n m : Nat} {t : Allocator} {a b : Allocation} (hinv : KernelInv p f (s, n))
    (hgranted : Granted p a b) (hnot : f ∉ s.holders b.key) (hdescs : t.descs = (f, b) :: s.descs) :
    KernelInv p f (t, m) where
  nodup := Allocator.nodup_holders_cons hinv.nodup hnot hdescs
  inPool c hc hglobal := by
    rw [hdescs] at hc
    rcases List.mem_cons.mp hc with hnew | hold
    · obtain rfl := (Prod.mk.inj hnew).2
      exact ⟨hgranted.pool_lt, hgranted.hasAddr⟩
    · exact hinv.inPool c hold hglobal

theorem KernelInv.erase {n m : Nat} {t : Allocator} {d : Nat × Allocation} (hinv : KernelInv p f (s, n))
    (hdescs : t.descs = s.descs.erase d) : KernelInv p f (t, m) where
  nodup := Allocator.nodup_holders_erase hinv.nodup hdescs
  inPool c hc := hinv.inPool c (List.mem_of_mem_erase (hdescs ▸ hc))

theorem kernelInv_init (p : AllocParams) (f : Nat) : KernelInv p f (.init, 0) where
  nodup _ := List.nodup_nil
  inPool _ ha := nomatch ha

theorem copyFromUser_inj {a b : PnmAllocation} (h : copyFromUser a = copyFromUser b) : a = b := by
  rw [← copyToUser_copyFromUser a, h, copyToUser_copyFromUser]

theorem mem_heldBy {req : PnmAllocation} {s : Allocator × Nat} :
    req ∈ heldBy f s ↔ req.isGlobal = 0 ∧ (f, copyFromUser req) ∈ s.1.descs := Iff.rfl

theorem heldBy_congr {n m : Nat} {t : Allocator} (hdescs : t.descs = s.descs) :
    heldBy f (t, m) = heldBy f (s, n) := by
  simp only [heldBy, hdescs]

/-- New private memory. -/
theorem heldBy_cons {n m : Nat} {t : Allocator} {a : Allocation} (hprivate : (copyToUser a).isGlobal = 0)
    (hback : copyFromUser (copyToUser a) = a) (hdescs : t.descs = (f, a) :: s.descs) :
    heldBy f (t, m) = insert (copyToUser a) (heldBy f (s, n)) := by
  ext other
  have hmem : (f, copyFromUser other) ∈ t.descs ↔ other = copyToUser a ∨ (f, copyFromUser other) ∈ s.descs := by
    rw [hdescs, List.mem_cons, Prod.mk.injEq, and_iff_right rfl]
    exact or_congr_left ⟨fun h => copyFromUser_inj (h.trans hback.symm), fun h => h ▸ hback⟩
  rw [Set.mem_insert_iff, mem_heldBy, mem_heldBy, hmem]
  constructor
  · rintro ⟨hzero, hnew | hold⟩
    · exact .inl hnew
    · exact .inr ⟨hzero, hold⟩
  · rintro (rfl | ⟨hzero, hold⟩)
    · exact ⟨hprivate, .inl rfl⟩
    · exact ⟨hzero, .inr hold⟩

theorem heldBy_erase {n m : Nat} {t : Allocator} {req : PnmAllocation} (hnodup : s.descs.Nodup)
    (hdescs : t.descs = s.descs.erase (f, copyFromUser req)) : heldBy f (t, m) = heldBy f (s, n) \ {req} := by
  ext other
  have hmem : (f, copyFromUser other) ∈ t.descs ↔ other ≠ req ∧ (f, copyFromUser other) ∈ s.descs := by
    rw [hdescs, hnodup.mem_erase_iff, ne_eq, Prod.mk.injEq, and_iff_right rfl]
    exact and_congr_left' (not_congr ⟨copyFromUser_inj, congrArg _⟩)
  rw [Set.mem_sdiff, Set.mem_singleton_iff, mem_heldBy, mem_heldBy, hmem]
  exact ⟨fun ⟨hzero, hne, hold⟩ => ⟨⟨hzero, hold⟩, hne⟩, fun ⟨⟨hzero, hold⟩, hne⟩ => ⟨hzero, hne, hold⟩⟩

theorem choosePool_size (kreq : Allocation) (mostFree : Nat) :
    (Allocator.choosePool kreq mostFree).size = kreq.size := by
  rw [Allocator.choosePool]
  split <;> rfl

theorem choosePool_isGlobal (kreq : Allocation) (mostFree : Nat) :
    (Allocator.choosePool kreq mostFree).isGlobal = kreq.isGlobal := by
  rw [Allocator.choosePool]
  split <;> rfl

section Ioctls

variable {choices : Nat → Choices} {strerror : Nat → String} {cmd : MemoryCommand} {req reply : PnmAllocation}
  {s t : Allocator × Nat} {e : Nat}

theorem ofKernel_error (h : (ofKernel p f choices strerror).ioctl cmd req s = (.error e, t)) :
    let r := processIoctl p f (choices s.2) cmd (copyFromUser req) s.1
    r.ret < 0 ∧ t = (r.alloc, s.2 + 1) := by
  obtain ⟨hret, hstate⟩ := Prod.mk.inj h
  split at hret
  · rename_i hneg
    exact ⟨hneg, hstate.symm⟩
  · cases hret

theorem ofKernel_ok (h : (ofKernel p f choices strerror).ioctl cmd req s = (.ok reply, t)) :
    let r := processIoctl p f (choices s.2) cmd (copyFromUser req) s.1
    0 ≤ r.ret ∧ reply = copyToUser r.kreq ∧ t = (r.alloc, s.2 + 1) := by
  obtain ⟨hret, hstate⟩ := Prod.mk.inj h
  split at hret
  · cases hret
  · rename_i hneg
    exact ⟨Int.not_lt.mp hneg, (Except.ok.inj hret).symm, hstate.symm⟩

/-- What `ALLOCATE_MEMORY` does. -/
theorem processIoctl_allocate (c : Choices) (kreq : Allocation) (s : Allocator) :
    let r := processIoctl p f c .allocateMemory kreq s
    (r.ret < 0 ∧ r.alloc.descs = s.descs) ∨
      (r.ret = 0 ∧ Granted p (Allocator.choosePool kreq c.mostFree) r.kreq ∧ f ∉ s.holders r.kreq.key ∧
        r.alloc.descs = (f, r.kreq) :: s.descs) := by
  refine allocateMemory_granted c.kzalloc ?_
  split
  · rename_i hfinds
    exact hfinds
  · exact fun i hi => nomatch hi

end Ioctls

/-- **The kernel is lawful**, with at most 256 pools and whatever it chooses. -/
theorem ofKernel_lawful (hpools : p.nrPools ≤ 256) (choices : Nat → Choices) (strerror : Nat → String) :
    (ofKernel p f choices strerror).Lawful p.nrPools (KernelInv p f) (heldBy f) where
  allocate_error := by
    rintro req ⟨s, n⟩ e t hinv hioctl
    obtain ⟨hneg, rfl⟩ := ofKernel_error hioctl
    rcases processIoctl_allocate (p := p) (f := f) (choices n) (copyFromUser req) s with ⟨-, hdescs⟩ | ⟨hret, -⟩
    · exact ⟨hinv.congr hdescs, heldBy_congr hdescs⟩
    · exact absurd hret (ne_of_lt hneg)
  allocate_ok := by
    rintro req ⟨s, n⟩ reply t hinv hglobal hioctl
    obtain ⟨hret, rfl, rfl⟩ := ofKernel_ok hioctl
    rcases processIoctl_allocate (p := p) (f := f) (choices n) (copyFromUser req) s with
      ⟨hneg, -⟩ | ⟨-, hgranted, hnot, hdescs⟩
    · exact absurd hneg (Int.not_lt.mpr hret)
    generalize processIoctl p f (choices n) .allocateMemory (copyFromUser req) s = r at *
    have hsize : r.kreq.size = req.size.toNat := hgranted.size.trans (choosePool_size _ _)
    have hprivate : r.kreq.isGlobal = 0 := by
      rw [hgranted.isGlobal, choosePool_isGlobal]
      exact congrArg BitVec.toNat hglobal
    have hpool : r.kreq.memoryPool < 2 ^ 8 := hgranted.pool_lt.trans_le hpools
    have hback : copyFromUser (copyToUser r.kreq) = r.kreq :=
      copyFromUser_copyToUser hgranted.addr_lt (hsize ▸ req.size.isLt) hpool (hprivate ▸ Nat.two_pow_pos 8)
    have hreply : (copyToUser r.kreq).isGlobal = 0 := congrArg (BitVec.ofNat 8) hprivate
    refine ⟨?_, hreply, fun hany => ?_, ?_, hinv.cons hgranted hnot hdescs, fun hheld => ?_,
      heldBy_cons hreply hback hdescs⟩
    · exact (congrArg (BitVec.ofNat 64) hsize).trans (congrArg PnmAllocation.size (copyToUser_copyFromUser req))
    · have hunit : (copyFromUser req).memoryPool ≠ anyCunit := fun h => hany (BitVec.eq_of_toNat_eq h)
      have hchosen : r.kreq.memoryPool = (copyFromUser req).memoryPool := by
        rw [hgranted.memoryPool, Allocator.choosePool, if_neg hunit]
      exact (congrArg (BitVec.ofNat 8) hchosen).trans (congrArg PnmAllocation.memoryPool (copyToUser_copyFromUser req))
    · exact (congrArg Allocation.memoryPool hback).trans_lt hgranted.pool_lt
    · exact hnot (Allocator.mem_holders.mpr ⟨_, hback ▸ hheld.2, rfl⟩)
  deallocate_ok := by
    rintro req ⟨s, n⟩ hinv ⟨hglobal, hmem⟩
    obtain ⟨hret, hdescs⟩ := deallocateMemory_held hinv hmem (congrArg BitVec.toNat hglobal) (choices n).stale
    exact ⟨_, _, Prod.ext (if_neg (Int.not_lt.mpr hret.ge)) rfl, hinv.erase hdescs,
      heldBy_erase (nodup_descs hinv.nodup) hdescs⟩

end Device

end Pnm.Core
