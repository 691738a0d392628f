import Mathlib.Algebra.Group.Nat.Defs
import Mathlib.Data.Finset.Card
import Mathlib.Data.List.Basic
import Mathlib.Data.List.Perm.Basic
import Mathlib.Logic.Function.Basic

/-!
# `Kernel.Alloc` — device memory, its registrations and the shared pool

The model of the memory ioctls of `drivers/pnm/sls_resource/allocator.c` with what they use: the pools of
`lib/pnm/pnm_alloc.c`, the descriptors that `process_manager.c` keeps for each open file, and the shared pool of
`lib/pnm/pnm_shared_pool.c`. Three records of one allocation are kept apart from each other:

- the granules of the pool that are taken (`taken`);
- the copies of the allocation that files have registered (`descs`), one tree for each file in the source, here one list
  of pairs; a tree is searched by memory pool and address only (`Allocation.key`);
- the entry of the shared pool with its reference count (`entries`), searched in the same way.

Every ioctl runs under the allocator's lock, except `MAKE_SHARED_ALLOC`, which has one critical section of its own;
so each is one function. What the kernel decides elsewhere is an argument: where `gen_pool_alloc` finds free
granules, whether `kzalloc` succeeds, and what is read from an entry that has been freed.
-/

namespace Pnm.Kernel

/-- `struct pnm_allocation`. -/
structure Allocation where
  addr : Nat
  size : Nat
  memoryPool : Nat
  isGlobal : Nat
deriving DecidableEq

/-- What `alloc_less` and `sls_alloc_less` compare. -/
def Allocation.key (a : Allocation) : Nat × Nat := (a.memoryPool, a.addr)

/-- `struct pnm_shared_pool_entry`. -/
structure SharedEntry where
  alloc : Allocation
  refCnt : Int

/-- The pools: granules of `2 ^ order` bytes, the first address of the range of each pool, whether sizes are
    aligned, and what `gen_pool_has_addr` answers. -/
structure AllocParams where
  order : Nat
  nrPools : Nat
  start : Nat → Nat
  aligned : Bool
  hasAddr : Nat → Nat → Nat → Bool

/-- The records of device memory. `returned` lists what has been given to `gen_pool_free`. -/
structure Allocator where
  taken : Nat → Nat → Bool
  returned : List Allocation
  descs : List (Nat × Allocation)
  entries : Nat × Nat → Option SharedEntry

/-- What an ioctl returns: the value, the request as it is copied back, and the records. -/
structure Reply where
  ret : Int
  kreq : Allocation
  alloc : Allocator

def ENOENT : Int := 2
def ENOMEM : Int := 12
def EINVAL : Int := 22

/-- `SLS_ALLOC_ANY_CUNIT`. -/
def anyCunit : Nat := 255

/-! ## Granules -/

namespace AllocParams

variable (p : AllocParams)

def gran : Nat := 2 ^ p.order

/-- Where the pool begins: a range that begins at 0 is moved by one granule (`init_pool`). -/
def chunkStart (idx : Nat) : Nat := if p.start idx = 0 then p.gran else p.start idx

/-- The address in the pool. -/
def poolAddr (idx addr : Nat) : Nat := if p.start idx = 0 then (addr + p.gran) % 2 ^ 64 else addr

/-- The size in the pool: `ALIGN`, in 64 bits. -/
def poolSize (size : Nat) : Nat := if p.aligned then (size + p.gran - 1) % 2 ^ 64 / p.gran * p.gran else size

def firstGranule (idx addr : Nat) : Nat := (p.poolAddr idx addr - p.chunkStart idx) / p.gran

def nrGranules (size : Nat) : Nat := (p.poolSize size + p.gran - 1) / p.gran

/-- Granule `i` of pool `idx` is one of those of the allocation. -/
def Covers (a : Allocation) (idx i : Nat) : Prop :=
  idx = a.memoryPool ∧ p.firstGranule a.memoryPool a.addr ≤ i ∧
    i < p.firstGranule a.memoryPool a.addr + p.nrGranules a.size

instance (a : Allocation) (idx i : Nat) : Decidable (p.Covers a idx i) := inferInstanceAs (Decidable (_ ∧ _ ∧ _))

theorem gran_pos : 0 < p.gran := Nat.two_pow_pos p.order

/-- Allocations at the same address with the same number of granules have the same granules. -/
theorem covers_congr {a b : Allocation} (hkey : a.key = b.key) (hsize : p.nrGranules a.size = p.nrGranules b.size)
    (idx i : Nat) : p.Covers a idx i ↔ p.Covers b idx i := by
  obtain ⟨hpool, haddr⟩ := Prod.mk.inj hkey
  rw [Covers, Covers, hpool, haddr, hsize]

theorem covers_first {a : Allocation} (h : 0 < p.nrGranules a.size) :
    p.Covers a a.memoryPool (p.firstGranule a.memoryPool a.addr) := by
  rw [Covers]
  exact ⟨rfl, Nat.le_refl _, Nat.lt_add_of_pos_right h⟩

theorem nrGranules_pos {size : Nat} (h : 0 < p.poolSize size) : 0 < p.nrGranules size := by
  have hgran := p.gran_pos
  exact Nat.div_pos (by omega) hgran

/-- The address that `pnm_alloc_pool_malloc` returns leads back to the address in the pool. -/
theorem poolAddr_of_found {idx i : Nat} (hlt : p.chunkStart idx + i * p.gran < 2 ^ 64) :
    p.poolAddr idx
      (if p.start idx = 0 then p.chunkStart idx + i * p.gran - p.gran else p.chunkStart idx + i * p.gran) =
        p.chunkStart idx + i * p.gran := by
  have hgran := p.gran_pos
  rw [poolAddr]
  by_cases h : p.start idx = 0
  · have hstart : p.chunkStart idx = p.gran := by rw [chunkStart, if_pos h]
    rw [if_pos h, if_pos h, Nat.sub_add_cancel (by omega), Nat.mod_eq_of_lt hlt]
  · rw [if_neg h, if_neg h]

/-- It leads back to the granule. -/
theorem firstGranule_of_found {idx i : Nat} (hlt : p.chunkStart idx + i * p.gran < 2 ^ 64) :
    p.firstGranule idx
      (if p.start idx = 0 then p.chunkStart idx + i * p.gran - p.gran else p.chunkStart idx + i * p.gran) = i := by
  rw [firstGranule, p.poolAddr_of_found hlt, Nat.add_sub_cancel_left, Nat.mul_div_cancel _ p.gran_pos]

end AllocParams

/-- One pool of 16 pages whose range begins at 0. -/
def onePool : AllocParams :=
  { order := 12
    nrPools := 1
    start := fun _ => 0
    aligned := false
    hasAddr := fun _ addr size => 4096 ≤ addr ∧ addr + size ≤ 17 * 4096 }

/-! ## The functions -/

namespace Allocator

variable (p : AllocParams) (s : Allocator)

def init : Allocator := { taken := fun _ _ => false, returned := [], descs := [], entries := fun _ => none }

/-- `gen_pool_alloc`, with the first of the granules that it finds. -/
def genPoolAlloc (a : Allocation) : Allocator :=
  { s with taken := fun idx i => s.taken idx i || decide (p.Covers a idx i) }

/-- `gen_pool_free`: the granules that cover the address and the size. -/
def genPoolFree (a : Allocation) : Allocator :=
  { s with
    taken := fun idx i => s.taken idx i && !decide (p.Covers a idx i)
    returned := a :: s.returned }

/-- `pnm_alloc_pool_malloc`; the address is that of granule `found`. -/
def poolMalloc (a : Allocation) (found : Option Nat) : Reply :=
  if p.nrPools ≤ a.memoryPool then { ret := -EINVAL, kreq := a, alloc := s }
  else if a.size = 0 then { ret := -EINVAL, kreq := a, alloc := s }
  else
    match found with
    | none => { ret := -ENOMEM, kreq := { a with addr := 0 }, alloc := s }
    | some i =>
        let inPool := p.chunkStart a.memoryPool + i * p.gran
        let addr := if p.start a.memoryPool = 0 then inPool - p.gran else inPool
        { ret := 0, kreq := { a with addr := addr }, alloc := s.genPoolAlloc p { a with addr := addr } }

/-- `pnm_alloc_pool_free`. -/
def poolFree (a : Allocation) : Int × Allocator :=
  if p.nrPools ≤ a.memoryPool then (-EINVAL, s)
  else if p.hasAddr a.memoryPool (p.poolAddr a.memoryPool a.addr) (p.poolSize a.size) then (0, s.genPoolFree p a)
  else (-EINVAL, s)

/-- The descriptor of file `f` with the key of `a`. -/
def lookup (f : Nat) (a : Allocation) : Option (Nat × Allocation) := s.descs.find? fun d => d.1 = f ∧ d.2.key = a.key

/-- `sls_proc_register_alloc`. -/
def registerAlloc (f : Nat) (a : Allocation) (kzalloc : Bool) : Int × Allocator :=
  if kzalloc ∧ (s.lookup f a).isNone then (0, { s with descs := (f, a) :: s.descs }) else (-1, s)

/-- `sls_proc_remove_alloc`. -/
def removeAlloc (f : Nat) (a : Allocation) : Int × Allocator :=
  match s.lookup f a with
  | none   => (-1, s)
  | some d => (0, { s with descs := s.descs.erase d })

/-- `pnm_shared_pool_create_entry`. -/
def createEntry (a : Allocation) (kzalloc : Bool) : Reply :=
  if kzalloc then
    let a := { a with isGlobal := 1 }
    match s.entries a.key with
    | some _ => { ret := -EINVAL, kreq := a, alloc := s }
    | none   =>
        { ret := 0, kreq := a, alloc := { s with entries := Function.update s.entries a.key (some ⟨a, 1⟩) } }
  else { ret := -ENOMEM, kreq := a, alloc := s }

/-- `get_alloc_from_shared_entry`. -/
def getAlloc (a : Allocation) : Reply :=
  match s.entries a.key with
  | none   => { ret := -ENOENT, kreq := a, alloc := s }
  | some e =>
      { ret := 0
        kreq := e.alloc
        alloc := { s with entries := Function.update s.entries a.key (some { e with refCnt := e.refCnt + 1 }) } }

/-- The conversion of the 64-bit count to the `int` that is returned. -/
def toInt (refCnt : Int) : Int := refCnt.bmod (2 ^ 32)

/-- `remove_alloc_from_shared_entry`. The count of an entry that has been deleted is read after `kfree`: `stale`. -/
def removeFromEntry (a : Allocation) (stale : Int) : Int × Allocator :=
  match s.entries a.key with
  | none   => (-ENOENT, s)
  | some e =>
      if e.refCnt - 1 = 0 then (stale, { s with entries := Function.update s.entries a.key none })
      else
        (toInt (e.refCnt - 1),
          { s with entries := Function.update s.entries a.key (some { e with refCnt := e.refCnt - 1 }) })

/-- `deallocate_memory_unsafe`. -/
def deallocateMemoryUnsafe (req : Allocation) (stale : Int) : Int × Allocator :=
  if req.isGlobal = 1 then
    let (rc, s) := s.removeFromEntry req stale
    if rc ≠ 0 then (rc, s) else s.poolFree p req
  else s.poolFree p req

/-- The request with its pool; `mostFree` is what `pnm_alloc_most_free_pool` answers. -/
def choosePool (kreq : Allocation) (mostFree : Nat) : Allocation :=
  if kreq.memoryPool = anyCunit then { kreq with memoryPool := mostFree } else kreq

/-- `allocate_memory_ioctl`. -/
def allocateMemory (f : Nat) (kreq : Allocation) (mostFree : Nat) (found : Option Nat) (kzalloc : Bool) : Reply :=
  let r := s.poolMalloc p (choosePool kreq mostFree) found
  if r.ret ≠ 0 then r
  else
    let (err, s) := r.alloc.registerAlloc f r.kreq kzalloc
    { r with ret := err, alloc := s }

/-- `deallocate_memory_ioctl`. -/
def deallocateMemory (f : Nat) (kreq : Allocation) (stale : Int) : Reply :=
  let (err, s) := s.removeAlloc f kreq
  if err ≠ 0 then { ret := err, kreq := kreq, alloc := s }
  else
    let (err, s) := s.deallocateMemoryUnsafe p kreq stale
    { ret := err, kreq := kreq, alloc := s }

/-- `get_shared_alloc_ioctl`. -/
def getSharedAlloc (f : Nat) (kreq : Allocation) (kzalloc : Bool) : Reply :=
  let r := s.getAlloc kreq
  if r.ret ≠ 0 then r
  else
    let (err, s) := r.alloc.registerAlloc f r.kreq kzalloc
    { r with ret := err, alloc := s }

/-- One turn of the loop of `release_process_resources`, for a descriptor of the file. -/
def releaseDesc (d : Nat × Allocation) (stale : Int) : Allocator :=
  let s := (s.deallocateMemoryUnsafe p d.2 stale).2
  { s with descs := s.descs.erase d }

/-- What `gen_pool_alloc` can find: granules of the pool that are free. -/
def Finds (a : Allocation) (found : Option Nat) : Prop :=
  ∀ i ∈ found,
    0 < p.poolSize a.size ∧
    p.chunkStart a.memoryPool + i * p.gran < 2 ^ 64 ∧
    p.hasAddr a.memoryPool (p.chunkStart a.memoryPool + i * p.gran) (p.poolSize a.size) = true ∧
    ∀ j < p.nrGranules a.size, s.taken a.memoryPool (i + j) = false

instance (a : Allocation) (found : Option Nat) : Decidable (s.Finds p a found) :=
  inferInstanceAs (Decidable (∀ i ∈ found, _ ∧ _ ∧ _ ∧ _))

/-! ## What a request meets

What the pools and the shared pool answer depends on the request and on the records before it. -/

/-- The pool grants `b` to the request `a`: there is such a pool, and granule `found` is what the address says. -/
def Grants (a : Allocation) (found : Option Nat) (b : Allocation) : Prop :=
  a.memoryPool < p.nrPools ∧ a.size ≠ 0 ∧ ∃ i ∈ found, b = { a with addr := p.start a.memoryPool + i * p.gran }

/-- The pool takes the memory back: there is such a pool, and the range is its own. -/
def PoolTakes (a : Allocation) : Prop :=
  a.memoryPool < p.nrPools ∧ p.hasAddr a.memoryPool (p.poolAddr a.memoryPool a.addr) (p.poolSize a.size) = true

theorem PoolTakes.congr {p : AllocParams} {a b : Allocation} (h : PoolTakes p a) (hkey : a.key = b.key)
    (hsize : a.size = b.size) : PoolTakes p b := by
  obtain ⟨hpool, haddr⟩ := Prod.mk.inj hkey
  rw [PoolTakes] at h ⊢
  rwa [← hpool, ← haddr, ← hsize]

/-- The references that are left when one is given up, as they are returned. -/
def refsLeft (e : SharedEntry) (stale : Int) : Int := if e.refCnt = 1 then stale else toInt (e.refCnt - 1)

/-- The request says that the memory is not shared, or it gives up the last reference to its entry. -/
def LastReference (a : Allocation) (stale : Int) : Prop :=
  a.isGlobal = 1 → ∃ e ∈ s.entries a.key, refsLeft e stale = 0

/-- The request says that the memory is shared, and others have references to its entry. -/
def OthersRefer (a : Allocation) (stale : Int) : Prop :=
  a.isGlobal = 1 ∧ ∃ e ∈ s.entries a.key, 0 < refsLeft e stale

/-! ## What the ioctls do -/

/-- An entry after one has been changed. -/
theorem of_update_eq_some {m : Nat × Nat → Option SharedEntry} {k₀ k : Nat × Nat} {entry : Option SharedEntry}
    {e : SharedEntry} (h : Function.update m k₀ entry k = some e) :
    (k = k₀ ∧ entry = some e) ∨ (k ≠ k₀ ∧ m k = some e) := by
  by_cases hk : k = k₀
  · rw [hk, Function.update_self] at h
    exact .inl ⟨hk, h⟩
  · rw [Function.update_of_ne hk] at h
    exact .inr ⟨hk, h⟩

/-- The files that have the key registered. -/
def holders (k : Nat × Nat) : List Nat := (s.descs.filter fun d => d.2.key = k).map Prod.fst

variable {p s} {t : Allocator} {f : Nat} {a : Allocation} {k : Nat × Nat}

theorem of_lookup {d : Nat × Allocation} (h : s.lookup f a = some d) : d ∈ s.descs ∧ d.1 = f ∧ d.2.key = a.key := by
  have hd := List.find?_some h
  exact ⟨List.mem_of_find?_eq_some h, of_decide_eq_true hd⟩

theorem mem_holders : f ∈ s.holders k ↔ ∃ b, (f, b) ∈ s.descs ∧ b.key = k := by
  simp [holders]

theorem lookup_eq_none : s.lookup f a = none ↔ f ∉ s.holders a.key := by
  simp only [lookup, List.find?_eq_none, mem_holders, decide_eq_true_eq, Prod.forall]
  constructor
  · rintro h ⟨b, hb, hkey⟩
    exact h f b hb ⟨rfl, hkey⟩
  · rintro h g b hb ⟨rfl, hkey⟩
    exact h ⟨b, hb, hkey⟩

theorem holders_cons (hdescs : t.descs = (f, a) :: s.descs) :
    t.holders k = if a.key = k then f :: s.holders k else s.holders k := by
  rw [holders, hdescs, List.filter_cons]
  by_cases hk : a.key = k
  · simp [hk, holders]
  · simp [hk, holders]

/-- An erased descriptor is that of one more file. -/
theorem holders_erase {d : Nat × Allocation} (hd : d ∈ s.descs) (hdescs : t.descs = s.descs.erase d) :
    (s.holders k).Perm (if d.2.key = k then d.1 :: t.holders k else t.holders k) := by
  have hperm := ((List.perm_cons_erase hd).filter fun d => d.2.key = k).map Prod.fst
  rw [List.filter_cons] at hperm
  rw [holders, holders, hdescs]
  by_cases hk : d.2.key = k
  · simpa [hk] using hperm
  · simpa [hk] using hperm

/-- The pool takes the request, or nothing has changed. -/
theorem poolFree_cases (s : Allocator) (a : Allocation) :
    (PoolTakes p a ∧ s.poolFree p a = (0, s.genPoolFree p a)) ∨ (¬ PoolTakes p a ∧ s.poolFree p a = (-EINVAL, s)) := by
  rw [poolFree, PoolTakes]
  split
  · rename_i hpool
    exact .inr ⟨fun h => absurd h.1 (Nat.not_lt.mpr hpool), rfl⟩
  · rename_i hpool
    split
    · rename_i haddr
      exact .inl ⟨⟨Nat.lt_of_not_le hpool, haddr⟩, rfl⟩
    · rename_i haddr
      exact .inr ⟨fun h => haddr h.2, rfl⟩

@[simp] theorem poolFree_descs : (s.poolFree p a).2.descs = s.descs := by
  rcases poolFree_cases (p := p) s a with ⟨-, heq⟩ | ⟨-, heq⟩ <;> simp [heq, genPoolFree]

@[simp] theorem poolFree_entries : (s.poolFree p a).2.entries = s.entries := by
  rcases poolFree_cases (p := p) s a with ⟨-, heq⟩ | ⟨-, heq⟩ <;> simp [heq, genPoolFree]

theorem removeFromEntry_ret_none (h : s.entries a.key = none) (stale : Int) :
    (s.removeFromEntry a stale).1 = -ENOENT := by
  simp [removeFromEntry, h]

theorem removeFromEntry_ret_some {e : SharedEntry} (h : s.entries a.key = some e) (stale : Int) :
    (s.removeFromEntry a stale).1 = refsLeft e stale := by
  have hlast : e.refCnt - 1 = 0 ↔ e.refCnt = 1 := by omega
  simp only [removeFromEntry, h, refsLeft, hlast]
  split <;> rfl

/-- Something is returned that is 0 or positive exactly if the shared pool has no objection. -/
theorem deallocateMemoryUnsafe_ret (s : Allocator) (a : Allocation) (stale : Int) :
    ((s.deallocateMemoryUnsafe p a stale).1 = 0 ↔ s.LastReference a stale ∧ PoolTakes p a) ∧
      (0 < (s.deallocateMemoryUnsafe p a stale).1 ↔ s.OthersRefer a stale) := by
  have hpool : ∀ t : Allocator, ((t.poolFree p a).1 = 0 ↔ PoolTakes p a) ∧ ¬ 0 < (t.poolFree p a).1 := by
    intro t
    rcases poolFree_cases (p := p) t a with ⟨htakes, heq⟩ | ⟨hnot, heq⟩
    · simp [heq, htakes]
    · simp [heq, hnot, EINVAL]
  rw [deallocateMemoryUnsafe, LastReference, OthersRefer]
  by_cases hglobal : a.isGlobal = 1
  · simp only [hglobal, if_true, true_implies, true_and]
    cases hentry : s.entries a.key with
    | none =>
        rw [removeFromEntry_ret_none hentry]
        simp [ENOENT]
    | some e =>
        rw [removeFromEntry_ret_some hentry]
        by_cases hzero : refsLeft e stale = 0
        · simp [hzero, hpool]
        · simp [hzero]
  · simp [hglobal, hpool]

@[simp] theorem removeFromEntry_descs {stale : Int} : (s.removeFromEntry a stale).2.descs = s.descs := by
  rw [removeFromEntry]
  split
  · rfl
  · split <;> rfl

/-- The entry after a reference is given up. -/
theorem removeFromEntry_entries (s : Allocator) (a : Allocation) (stale : Int) :
    (s.removeFromEntry a stale).2.entries =
      Function.update s.entries a.key
        ((s.entries a.key).bind fun e =>
          if e.refCnt - 1 = 0 then none else some { e with refCnt := e.refCnt - 1 }) := by
  rw [removeFromEntry]
  split
  · rename_i hnone
    rw [hnone, Option.bind_none, ← hnone, Function.update_eq_self]
  · rename_i e hsome
    rw [hsome, Option.bind_some]
    split <;> rfl

@[simp] theorem deallocateMemoryUnsafe_descs {stale : Int} :
    (s.deallocateMemoryUnsafe p a stale).2.descs = s.descs := by
  rw [deallocateMemoryUnsafe]
  split
  · dsimp only
    split
    · exact removeFromEntry_descs
    · exact poolFree_descs.trans removeFromEntry_descs
  · exact poolFree_descs

/-- The entries are changed for requests with the flag only. -/
theorem deallocateMemoryUnsafe_entries (s : Allocator) (a : Allocation) (stale : Int) :
    (s.deallocateMemoryUnsafe p a stale).2.entries =
      if a.isGlobal = 1 then
        Function.update s.entries a.key
          ((s.entries a.key).bind fun e => if e.refCnt - 1 = 0 then none else some { e with refCnt := e.refCnt - 1 })
      else s.entries := by
  rw [deallocateMemoryUnsafe, ← removeFromEntry_entries s a stale]
  split
  · dsimp only
    split
    · rfl
    · exact poolFree_entries
  · exact poolFree_entries

theorem registerAlloc_cases {kzalloc : Bool} :
    (kzalloc = true ∧ f ∉ s.holders a.key ∧ s.registerAlloc f a kzalloc = (0, { s with descs := (f, a) :: s.descs })) ∨
      ((kzalloc = false ∨ f ∈ s.holders a.key) ∧ s.registerAlloc f a kzalloc = (-1, s)) := by
  rw [registerAlloc]
  by_cases h : kzalloc = true ∧ (s.lookup f a).isNone
  · exact .inl ⟨h.1, lookup_eq_none.mp (Option.isNone_iff_eq_none.mp h.2), if_pos h⟩
  · refine .inr ⟨?_, if_neg h⟩
    rw [not_and_or, Bool.not_eq_true, Option.isNone_iff_eq_none, lookup_eq_none, not_not] at h
    exact h

/-- What is returned is 0 or a negative code. -/
theorem registerAlloc_ret {kzalloc : Bool} :
    (s.registerAlloc f a kzalloc).1 = 0 ∨ (s.registerAlloc f a kzalloc).1 < 0 := by
  rcases registerAlloc_cases with ⟨-, -, heq⟩ | ⟨-, heq⟩
  · rw [heq]
    exact .inl rfl
  · rw [heq]
    exact .inr (by simp)

@[simp] theorem poolMalloc_entries {found : Option Nat} : (s.poolMalloc p a found).alloc.entries = s.entries := by
  unfold poolMalloc
  split
  · rfl
  · split
    · rfl
    · split <;> rfl

@[simp] theorem poolMalloc_descs {found : Option Nat} : (s.poolMalloc p a found).alloc.descs = s.descs := by
  unfold poolMalloc
  split
  · rfl
  · split
    · rfl
    · split <;> rfl

/-- Free granules are taken, or nothing has changed. -/
theorem poolMalloc_cases {found : Option Nat} (hfinds : s.Finds p a found) :
    let r := s.poolMalloc p a found
    (r.ret ≠ 0 ∧ r.alloc = s) ∨
      (r.ret = 0 ∧ r.alloc = s.genPoolAlloc p r.kreq ∧ PoolTakes p r.kreq ∧ 0 < p.nrGranules r.kreq.size ∧
        ∀ idx i, p.Covers r.kreq idx i → s.taken idx i = false) := by
  dsimp only
  unfold poolMalloc
  split
  · exact .inl ⟨by simp [EINVAL], rfl⟩
  rename_i hpool
  split
  · exact .inl ⟨by simp [EINVAL], rfl⟩
  cases found with
  | none => exact .inl ⟨by simp [ENOMEM], rfl⟩
  | some i =>
      obtain ⟨hpos, hlt, hhas, hfree⟩ := hfinds i rfl
      rw [← p.poolAddr_of_found hlt] at hhas
      refine .inr ⟨rfl, rfl, ⟨Nat.lt_of_not_le hpool, hhas⟩, p.nrGranules_pos hpos, ?_⟩
      rintro idx j ⟨hidx, hle, hj⟩
      dsimp only at hidx hle hj
      rw [p.firstGranule_of_found hlt] at hle hj
      have htaken := hfree (j - i) (by omega)
      rw [Nat.add_sub_cancel' hle, ← hidx] at htaken
      exact htaken

/-- What is granted is what `pnm_alloc_pool_malloc` returns. -/
theorem grants_iff {found : Option Nat} {b : Allocation} :
    Grants p a found b ↔ (s.poolMalloc p a found).ret = 0 ∧ (s.poolMalloc p a found).kreq = b := by
  have haddr : ∀ i, (if p.start a.memoryPool = 0 then p.chunkStart a.memoryPool + i * p.gran - p.gran
      else p.chunkStart a.memoryPool + i * p.gran) = p.start a.memoryPool + i * p.gran := by
    intro i
    rw [AllocParams.chunkStart]
    split
    · rename_i hstart
      rw [hstart]
      omega
    · rfl
  unfold Grants poolMalloc
  split
  · rename_i hpool
    simp [EINVAL, Nat.not_lt.mpr hpool]
  rename_i hpool
  split
  · rename_i hsize
    simp [EINVAL, hsize]
  rename_i hsize
  cases found with
  | none => simp [ENOMEM]
  | some i => simp [Nat.lt_of_not_le hpool, hsize, haddr, @eq_comm _ b]

/-- What holds of everything that is granted holds of what `pnm_alloc_pool_malloc` returns, if it returns 0. -/
theorem forall_grants_iff (s : Allocator) {found : Option Nat} {P : Allocation → Prop} :
    (∀ b, Grants p a found b → P b) ↔
      ((s.poolMalloc p a found).ret = 0 → P (s.poolMalloc p a found).kreq) := by
  constructor
  · exact fun h hret => h _ (grants_iff.mpr ⟨hret, rfl⟩)
  · intro h b hgrants
    obtain ⟨hret, rfl⟩ := (grants_iff (s := s)).mp hgrants
    exact h hret

/-- `ALLOCATE_MEMORY` after the pool has granted the memory. -/
theorem allocateMemory_of_granted {kreq : Allocation} {mostFree : Nat} {found : Option Nat} (kzalloc : Bool)
    (hret : (s.poolMalloc p (choosePool kreq mostFree) found).ret = 0) :
    let r := s.poolMalloc p (choosePool kreq mostFree) found
    let t := s.allocateMemory p f kreq mostFree found kzalloc
    t.kreq = r.kreq ∧ t.alloc.taken = r.alloc.taken ∧ t.alloc.entries = s.entries ∧
      ((kzalloc = true ∧ f ∉ s.holders r.kreq.key) ∧ t.ret = 0 ∧ t.alloc.descs = (f, r.kreq) :: s.descs ∨
        ¬ (kzalloc = true ∧ f ∉ s.holders r.kreq.key) ∧ t.ret = -1 ∧ t.alloc.descs = s.descs) := by
  intro r t
  have hholders : ∀ k, r.alloc.holders k = s.holders k := by
    intro k
    rw [holders, holders, poolMalloc_descs]
  simp only [t, allocateMemory, if_neg (not_not.mpr hret)]
  rcases @registerAlloc_cases r.alloc f r.kreq kzalloc with ⟨hk, hnot, heq⟩ | ⟨hk, heq⟩
  · rw [heq]
    rw [hholders] at hnot
    exact ⟨rfl, rfl, poolMalloc_entries, .inl ⟨⟨hk, hnot⟩, rfl, congrArg _ poolMalloc_descs⟩⟩
  · rw [heq]
    rw [hholders] at hk
    refine ⟨rfl, rfl, poolMalloc_entries, .inr ⟨?_, rfl, poolMalloc_descs⟩⟩
    rintro ⟨rfl, hnot⟩
    exact hnot (hk.resolve_left (by simp))

/-- `ALLOCATE_MEMORY` if the pool refuses. -/
theorem allocateMemory_of_refused {kreq : Allocation} {mostFree : Nat} {found : Option Nat} (kzalloc : Bool)
    (hret : (s.poolMalloc p (choosePool kreq mostFree) found).ret ≠ 0) :
    s.allocateMemory p f kreq mostFree found kzalloc = s.poolMalloc p (choosePool kreq mostFree) found := by
  rw [allocateMemory, if_pos hret]

/-- An allocation is registered, or the descriptors are what they were. -/
theorem allocateMemory_cases (kreq : Allocation) (mostFree : Nat) (found : Option Nat) (kzalloc : Bool) :
    let r := s.allocateMemory p f kreq mostFree found kzalloc
    r.alloc.entries = s.entries ∧
      (r.ret ≠ 0 ∧ r.alloc.descs = s.descs ∨
        r.ret = 0 ∧ f ∉ s.holders r.kreq.key ∧ r.alloc.descs = (f, r.kreq) :: s.descs) := by
  intro r
  by_cases hret : (s.poolMalloc p (choosePool kreq mostFree) found).ret = 0
  · obtain ⟨hkreq, -, hentries, hregister⟩ := allocateMemory_of_granted (f := f) kzalloc hret
    rw [← hkreq] at hregister
    rcases hregister with ⟨⟨-, hnot⟩, hzero, hdescs⟩ | ⟨-, hneg, hdescs⟩
    · exact ⟨hentries, .inr ⟨hzero, hnot, hdescs⟩⟩
    · exact ⟨hentries, .inl ⟨ne_of_eq_of_ne hneg (by simp), hdescs⟩⟩
  · rw [show r = _ from allocateMemory_of_refused kzalloc hret]
    exact ⟨poolMalloc_entries, .inl ⟨hret, poolMalloc_descs⟩⟩

/-- An entry is made where there was none. -/
theorem createEntry_cases (s : Allocator) (a : Allocation) (kzalloc : Bool) :
    (kzalloc = true ∧ s.entries a.key = none ∧
      s.createEntry a kzalloc =
        { ret := 0
          kreq := { a with isGlobal := 1 }
          alloc := { s with entries := Function.update s.entries a.key (some ⟨{ a with isGlobal := 1 }, 1⟩) } }) ∨
      ((kzalloc = false ∨ s.entries a.key ≠ none) ∧ (s.createEntry a kzalloc).ret ≠ 0 ∧
        (s.createEntry a kzalloc).alloc = s) := by
  cases kzalloc with
  | false => exact .inr ⟨.inl rfl, by simp [createEntry, ENOMEM], rfl⟩
  | true =>
      have hkey : ∀ entry, s.entries a.key = entry → s.entries (Allocation.key { a with isGlobal := 1 }) = entry :=
        fun _ h => h
      cases hentry : s.entries a.key with
      | none =>
          refine .inl ⟨rfl, rfl, ?_⟩
          simp only [createEntry, hkey _ hentry, if_true]
          rfl
      | some e => exact .inr ⟨.inr (by simp), by simp [createEntry, hkey _ hentry, EINVAL]⟩

theorem createEntry_ret (s : Allocator) (a : Allocation) (kzalloc : Bool) :
    (s.createEntry a kzalloc).ret = 0 ∨ (s.createEntry a kzalloc).ret < 0 := by
  rw [createEntry]
  split
  · dsimp only
    split
    · exact .inr (by simp [EINVAL])
    · exact .inl rfl
  · exact .inr (by simp [ENOMEM])

/-- Sharing takes and frees nothing. -/
theorem createEntry_frame (s : Allocator) (a : Allocation) (kzalloc : Bool) :
    (s.createEntry a kzalloc).alloc.taken = s.taken ∧ (s.createEntry a kzalloc).alloc.descs = s.descs := by
  rcases createEntry_cases s a kzalloc with ⟨-, -, heq⟩ | ⟨-, -, hsame⟩
  · rw [heq]
    exact ⟨rfl, rfl⟩
  · rw [hsame]
    exact ⟨rfl, rfl⟩

/-- The count is incremented; then the allocation is registered, or the descriptors are what they were. -/
theorem getSharedAlloc_cases {e : SharedEntry} (he : s.entries a.key = some e) (kzalloc : Bool) :
    let r := s.getSharedAlloc f a kzalloc
    r.alloc.entries = Function.update s.entries a.key (some { e with refCnt := e.refCnt + 1 }) ∧
      (kzalloc = true ∧ f ∉ s.holders e.alloc.key ∧ r.ret = 0 ∧ r.kreq = e.alloc ∧
          r.alloc.descs = (f, e.alloc) :: s.descs ∨
        (kzalloc = false ∨ f ∈ s.holders e.alloc.key) ∧ r.ret ≠ 0 ∧ r.alloc.descs = s.descs) := by
  intro r
  have hget : s.getAlloc a =
      { ret := 0
        kreq := e.alloc
        alloc := { s with entries := Function.update s.entries a.key (some { e with refCnt := e.refCnt + 1 }) } } := by
    simp only [getAlloc, he]
  simp only [r, getSharedAlloc, hget]
  rw [if_neg (by simp)]
  rcases registerAlloc_cases with ⟨hk, hnot, heq⟩ | ⟨hk, heq⟩
  · rw [heq]
    exact ⟨rfl, .inl ⟨hk, hnot, rfl, rfl, rfl⟩⟩
  · rw [heq]
    exact ⟨rfl, .inr ⟨hk, by simp, rfl⟩⟩

theorem getSharedAlloc_none (he : s.entries a.key = none) (kzalloc : Bool) :
    (s.getSharedAlloc f a kzalloc).alloc = s ∧ (s.getSharedAlloc f a kzalloc).ret ≠ 0 := by
  simp [getSharedAlloc, getAlloc, he, ENOENT]

theorem getSharedAlloc_ret (s : Allocator) (a : Allocation) (kzalloc : Bool) :
    (s.getSharedAlloc f a kzalloc).ret = 0 ∨ (s.getSharedAlloc f a kzalloc).ret < 0 := by
  cases hentry : s.entries a.key with
  | none => exact .inr (by simp [getSharedAlloc, getAlloc, hentry, ENOENT])
  | some e =>
      simp only [getSharedAlloc, getAlloc, hentry]
      rw [if_neg (not_not.mpr rfl)]
      exact registerAlloc_ret

/-- Neither does taking a reference, and no descriptor goes. -/
theorem getSharedAlloc_frame (s : Allocator) (f : Nat) (a : Allocation) (kzalloc : Bool) :
    (s.getSharedAlloc f a kzalloc).alloc.taken = s.taken ∧ s.descs ⊆ (s.getSharedAlloc f a kzalloc).alloc.descs := by
  cases hentry : s.entries a.key with
  | none =>
      rw [(getSharedAlloc_none hentry kzalloc).1]
      exact ⟨rfl, List.Subset.refl _⟩
  | some e =>
      simp only [getSharedAlloc, getAlloc, hentry]
      rw [if_neg (not_not.mpr rfl)]
      rcases registerAlloc_cases with ⟨-, -, heq⟩ | ⟨-, heq⟩
      · rw [heq]
        exact ⟨rfl, List.subset_cons_self _ _⟩
      · rw [heq]
        exact ⟨rfl, List.Subset.refl _⟩

/-- Without a descriptor nothing happens. -/
theorem deallocateMemory_none (h : f ∉ s.holders a.key) (stale : Int) :
    s.deallocateMemory p f a stale = { ret := -1, kreq := a, alloc := s } := by
  simp [deallocateMemory, removeAlloc, lookup_eq_none.mpr h]

/-- The descriptor goes first, whatever happens then. -/
theorem deallocateMemory_some {d : Nat × Allocation} (h : s.lookup f a = some d) (stale : Int) :
    s.deallocateMemory p f a stale =
      { ret := ({ s with descs := s.descs.erase d }.deallocateMemoryUnsafe p a stale).1
        kreq := a
        alloc := ({ s with descs := s.descs.erase d }.deallocateMemoryUnsafe p a stale).2 } := by
  simp [deallocateMemory, removeAlloc, h]

@[simp] theorem releaseDesc_descs {d : Nat × Allocation} {stale : Int} :
    (s.releaseDesc p d stale).descs = s.descs.erase d :=
  congrArg (List.erase · d) deallocateMemoryUnsafe_descs

end Allocator

/-- A memory ioctl with its request. -/
inductive MemIoctl where
  | allocateMemory (kreq : Allocation) (mostFree : Nat) (found : Option Nat) (kzalloc : Bool)
  | deallocateMemory (kreq : Allocation) (stale : Int)
  | makeSharedAlloc (kreq : Allocation) (kzalloc : Bool)
  | getSharedAlloc (kreq : Allocation) (kzalloc : Bool)

/-- `mem_process_ioctl`. -/
def Allocator.memProcessIoctl (p : AllocParams) (s : Allocator) (f : Nat) : MemIoctl → Reply
  | .allocateMemory kreq mostFree found kzalloc => s.allocateMemory p f kreq mostFree found kzalloc
  | .deallocateMemory kreq stale                => s.deallocateMemory p f kreq stale
  | .makeSharedAlloc kreq kzalloc               => s.createEntry kreq kzalloc
  | .getSharedAlloc kreq kzalloc                => s.getSharedAlloc f kreq kzalloc

end Pnm.Kernel
