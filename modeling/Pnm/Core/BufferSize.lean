import Mathlib.Data.List.Pairwise
import Pnm.Core.SharedBuffer

/-!
# `Core.BufferSize` — the size of a buffer that is rebuilt from its region

A `Buffer` does not hand its number of elements on with its region: a `Buffer` that is built from the region reads the
bytes of the first sub-region and divides them by the size of an element. In another process the bytes come from the
kernel, for each sub-region that the serialised words name.

`rebuilt_size_iff` is the exact condition under which that is the number of elements again, for every buffer that
the allocator gives: the bytes fit in 64 bits, the first unit has memory, and, for another process, the words tell
where there is memory (`SharedRegion.Told`).
-/

namespace Pnm.Core

open Pnm.Lib

/-- `Buffer(const DeviceRegion &, ...)`. -/
def RegionBuffer.ofRegion (sizeofT : BitVec 64) (region : DeviceRegion) : RegionBuffer :=
  { size := region.size / sizeofT
    devRegion := { value := region, ownerProcessId := -1, owned := false, isGlobal := false } }

namespace RankedAllocator

variable {σ : Type} (a : RankedAllocator σ)

/-- The constructors that allocate, in process `pid`; nothing if the turns of the allocation are not enough. -/
def bufferOfSize (pid : Int) (turns : Nat) (n sizeofT : BitVec 64) (props : PropertiesList) :
    Call Error σ (Option RegionBuffer) := do
  let region ← a.allocateImpl turns (n * sizeofT) props
  pure (region.map fun value =>
    { size := n, devRegion := { value := value, ownerProcessId := pid, owned := true, isGlobal := false } })

/-- A `Buffer` of another process, from the words of the `SharedRegion`. -/
def bufferOfWords (sizeofT : BitVec 64) (words : List (BitVec 64)) : Call Error σ RegionBuffer :=
  match SharedRegion.ofSerialized words with
  | .error e   => throw e
  | .ok shared => a.bufferOfShared sizeofT shared

end RankedAllocator

/-! ## Bytes and elements -/

/-- The bytes of `n` elements fit in 64 bits. -/
def BytesFit (n sizeofT : BitVec 64) : Prop := n.toNat * sizeofT.toNat < 2 ^ 64

/-- **The division undoes the product** exactly if it has not wrapped around. -/
theorem mul_div_eq_iff {n sizeofT : BitVec 64} (hpos : 0 < sizeofT) :
    n * sizeofT / sizeofT = n ↔ BytesFit n sizeofT := by
  have hpos' : 0 < sizeofT.toNat := hpos
  rw [← BitVec.toNat_inj, BitVec.toNat_udiv, BitVec.toNat_mul, BytesFit]
  constructor
  · intro h
    by_contra hlarge
    have hlt : n.toNat * sizeofT.toNat % 2 ^ 64 < n.toNat * sizeofT.toNat :=
      (Nat.mod_lt _ (Nat.two_pow_pos 64)).trans_le (Nat.le_of_not_lt hlarge)
    exact absurd h (Nat.ne_of_lt (Nat.div_lt_of_lt_mul (Nat.mul_comm _ _ ▸ hlt)))
  · intro h
    rw [Nat.mod_eq_of_lt h, Nat.mul_div_cancel _ hpos']

theorem bytesFit_zero (sizeofT : BitVec 64) : BytesFit 0 sizeofT := by simp [BytesFit]

/-- The first unit has memory. -/
def OnFirst : DeviceRegion → Prop
  | .ranked (region :: _) => region.location ≠ none
  | _                     => False

/-! ## The regions of the allocator -/

/-- Sub-region `i` is empty, or has `size` bytes of unit `i`. -/
def Placed (size : BitVec 64) (regions : List SequentialRegion) : Prop :=
  ∀ (i : Nat) (region : SequentialRegion), regions[i]? = some region →
    region.location = none ∧ region.start = 0 ∧ region.size = 0 ∨
      ∃ unit, region.location = some unit ∧ unit.toNat = i ∧ region.size = size

theorem placed_emptySlots (size : BitVec 64) (n : Nat) : Placed size (emptySlots n) := by
  intro i region hi
  obtain rfl := List.eq_of_mem_replicate (List.mem_of_getElem? hi)
  exact .inl ⟨rfl, rfl, rfl⟩

theorem Placed.fillSlot {size : BitVec 64} {regions : List SequentialRegion} (h : Placed size regions)
    {region : SequentialRegion} (hsize : region.size = size) : Placed size (fillSlot regions region) := by
  rw [Core.fillSlot]
  cases hlocation : region.location with
  | none => exact h
  | some location =>
      intro i r hi
      dsimp only at hi
      rw [List.getElem?_set] at hi
      split at hi
      · rename_i hslot
        split at hi
        · obtain rfl := Option.some.inj hi
          exact .inr ⟨location, hlocation, hslot, hsize⟩
        · cases hi
      · exact h i r hi

namespace RankedAllocator

variable {σ : Type} {a : RankedAllocator σ} {size : BitVec 64}

/-- What `allocate_ioctl` returns has the size that was asked for. -/
theorem allocateIoctl_size (cunit : Option (BitVec 8)) (s : σ) :
    (a.allocateIoctl size cunit).Ends s (fun region _ => region.size = size) fun _ _ => True :=
  (Call.ends_trivial _ s).bind fun _ _ _ => Call.ends_pure rfl

theorem allocateOnRank_placed (rank : BitVec 8) {regions : List SequentialRegion} (h : Placed size regions) (s : σ) :
    (a.allocateOnRank size rank regions).Ends s (fun regions _ => Placed size regions) fun _ _ => True := by
  refine Call.Ends.tryCatch (E := fun _ _ => True) ?_ fun e t _ => ?_
  · exact (allocateIoctl_size _ s).bind fun region t hregion => Call.ends_pure (h.fillSlot hregion)
  · exact (Call.ends_trivial _ t).bind fun _ _ _ => Call.ends_throw trivial

theorem allocateOnRanks_placed (turns : Nat) (rank : BitVec 8) {regions : List SequentialRegion}
    (h : Placed size regions) (s : σ) :
    (a.allocateOnRanks size turns rank regions).Ends s (fun result _ => ∀ all, result = some all → Placed size all)
      fun _ _ => True := by
  induction turns generalizing rank regions s with
  | zero => exact Call.ends_pure fun all hall => nomatch hall
  | succ turns ih =>
      rw [allocateOnRanks]
      split
      · exact (allocateOnRank_placed rank h s).bind fun regions t ht => ih (rank + 1) ht t
      · exact Call.ends_pure fun all hall => Option.some.inj hall ▸ h

theorem allocateSingle_placed (props : PropertiesList) {regions : List SequentialRegion} (h : Placed size regions)
    (s : σ) : (a.allocateSingle size props regions).Ends s (fun regions _ => Placed size regions) fun _ _ => True :=
  (allocateIoctl_size _ s).bind fun _ _ hregion => Call.ends_pure (h.fillSlot hregion)

theorem allocateReplicateAll_placed (turns : Nat) (props : PropertiesList) {regions : List SequentialRegion}
    (h : Placed size regions) (s : σ) :
    (a.allocateReplicateAll turns size props regions).Ends s
      (fun result _ => ∀ all, result = some all → Placed size all) fun _ _ => True := by
  rw [allocateReplicateAll]
  split
  · exact Call.ends_throw trivial
  · exact allocateOnRanks_placed turns 0 h s

/-- **Whatever the policy and the kernel's replies**, memory of unit `i` is in slot `i`, and has the size. -/
theorem allocateImpl_placed (turns : Nat) (props : PropertiesList) (s : σ) :
    (a.allocateImpl turns size props).Ends s
      (fun result _ => ∀ region, result = some region → ∃ regions, region = .ranked regions ∧ Placed size regions)
      fun _ _ => True := by
  have hempty := placed_emptySlots size a.regionsCount
  rw [allocateImpl]
  split
  · refine (allocateSingle_placed props hempty s).bind fun regions t h => Call.ends_pure ?_
    rintro _ ⟨⟩
    exact ⟨regions, rfl, h⟩
  · refine (allocateSingle_placed props hempty s).bind fun regions t h => Call.ends_pure ?_
    rintro _ ⟨⟩
    exact ⟨regions, rfl, h⟩
  · refine (allocateReplicateAll_placed turns props hempty s).bind fun result t h => Call.ends_pure ?_
    intro region hregion
    obtain ⟨regions, hresult, rfl⟩ := Option.map_eq_some_iff.mp hregion
    exact ⟨regions, rfl, h regions hresult⟩
  · exact Call.ends_throw trivial
  · exact Call.ends_throw trivial

end RankedAllocator

/-! ## The same process -/

/-- **A buffer from the region** has the size exactly if the product fits and the first unit has memory. -/
theorem ofRegion_size_iff {n sizeofT : BitVec 64} (hpos : 0 < sizeofT) {regions : List SequentialRegion}
    (h : Placed (n * sizeofT) regions) :
    (RegionBuffer.ofRegion sizeofT (.ranked regions)).size = n ↔
      BytesFit n sizeofT ∧ (n = 0 ∨ OnFirst (.ranked regions)) := by
  have hzero : 0 / sizeofT = n ↔ BytesFit n sizeofT ∧ (n = 0 ∨ False) := by
    rw [show (0 : BitVec 64) / sizeofT = 0 from BitVec.zero_udiv, or_false]
    constructor
    · rintro rfl
      exact ⟨bytesFit_zero sizeofT, rfl⟩
    · rintro ⟨-, rfl⟩
      rfl
  cases regions with
  | nil => exact hzero
  | cons region rest =>
      rw [RegionBuffer.ofRegion, DeviceRegion.size, OnFirst]
      rcases h 0 region rfl with ⟨hnone, -, hsize⟩ | ⟨unit, hsome, -, hsize⟩
      · rw [hsize, hnone]
        simpa using hzero
      · rw [hsize, hsome, mul_div_eq_iff hpos]
        simp

/-! ## Sharing keeps the places -/

/-- `MAKE_SHARED_ALLOC` changes the flag only. -/
def MakesInPlace {σ : Type} (d : Device σ) : Prop :=
  ∀ req s reply t, d.ioctl .makeSharedAlloc req s = (.ok reply, t) →
    reply.addr = req.addr ∧ reply.size = req.size ∧ reply.memoryPool = req.memoryPool

/-- The kernel does. -/
theorem ofKernel_makesInPlace (p : Kernel.AllocParams) (f : Nat) (choices : Nat → Device.Choices)
    (strerror : Nat → String) : MakesInPlace (.ofKernel p f choices strerror) := by
  intro req s reply t h
  obtain ⟨hret, rfl, -⟩ := Device.ofKernel_ok h
  have haddr := congrArg PnmAllocation.addr (Device.copyToUser_copyFromUser req)
  have hsize := congrArg PnmAllocation.size (Device.copyToUser_copyFromUser req)
  have hpool := congrArg PnmAllocation.memoryPool (Device.copyToUser_copyFromUser req)
  rcases Kernel.Allocator.createEntry_cases s.1 (Device.copyFromUser req) (choices s.2).kzalloc with
    ⟨-, -, heq⟩ | ⟨-, hne, -⟩
  · rw [show Device.processIoctl p f (choices s.2) .makeSharedAlloc (Device.copyFromUser req) s.1 = _ from heq]
    exact ⟨haddr, hsize, hpool⟩
  · exact absurd hret (Int.not_le.mpr ((Kernel.Allocator.createEntry_ret _ _ _).resolve_left hne))

/-- Sub-regions with the same addresses, locations and sizes. -/
structure SameMemory (regions shared : List SequentialRegion) : Prop where
  places : shared.map SharedRegion.place = regions.map SharedRegion.place
  sizes : shared.map SequentialRegion.size = regions.map SequentialRegion.size

theorem sameMemory_of_forall₂ {regions shared : List SequentialRegion}
    (h : List.Forall₂ (fun r r' => SharedRegion.place r' = SharedRegion.place r ∧ r'.size = r.size) regions shared) :
    SameMemory regions shared := by
  induction h with
  | nil => exact ⟨rfl, rfl⟩
  | cons hslot _ ih =>
      exact ⟨congrArg₂ List.cons hslot.1 ih.places, congrArg₂ List.cons hslot.2 ih.sizes⟩

section Share

variable {σ : Type} {a : RankedAllocator σ} {size : BitVec 64} {regions shared : List SequentialRegion}

theorem Placed.empty (h : Placed size regions) {region : SequentialRegion} (hregion : region ∈ regions)
    (hnone : region.location = none) : region.start = 0 ∧ region.size = 0 := by
  obtain ⟨i, hi⟩ := List.getElem?_of_mem hregion
  rcases h i region hi with ⟨-, hempty⟩ | ⟨unit, hsome, -⟩
  · exact hempty
  · rw [hnone] at hsome
    cases hsome

/-- **Sharing** returns the same memory. -/
theorem mapM_makeShared (hmake : MakesInPlace a.device) (h : Placed size regions) (s : σ) :
    (regions.mapM (a.shareSlot .makeSharedAlloc)).Ends s (fun shared _ => SameMemory regions shared)
      fun _ _ => True := by
  refine (Call.Ends.mapM (S := fun r r' => SharedRegion.place r' = SharedRegion.place r ∧ r'.size = r.size)
    (I := fun rest _ => ∀ r ∈ rest, r.location = none → r.start = 0 ∧ r.size = 0) ?_ fun r hr => h.empty hr).mono
    (fun shared t hshared => sameMemory_of_forall₂ hshared.1) fun _ _ => id
  intro slot rest t hempty
  have hrest : ∀ r ∈ rest, r.location = none → r.start = 0 ∧ r.size = 0 := fun r hr =>
    hempty r (List.mem_cons_of_mem _ hr)
  cases hlocation : slot.location with
  | none =>
      obtain ⟨hstart, hsize⟩ := hempty slot List.mem_cons_self hlocation
      have hnone := SequentialRegion.request_eq_none hlocation
      refine (Call.ends_of_ok (RankedAllocator.exec_shareSlot_none hnone)).mpr ⟨⟨?_, hsize.symm⟩, hrest⟩
      rw [SharedRegion.place, SharedRegion.place, hstart, hlocation]
  | some unit =>
      have hsome := SequentialRegion.request_eq_some hlocation
      rcases hioctl : a.device.ioctl .makeSharedAlloc ⟨slot.start, slot.size, unit, slot.isGlobal⟩ t with ⟨e | reply, u⟩
      · obtain ⟨err, hexec⟩ := RankedAllocator.exec_shareSlot_error hsome hioctl
        exact (Call.ends_of_error hexec).mpr trivial
      · obtain ⟨haddr, hsize, hpool⟩ := hmake _ _ _ _ hioctl
        refine (Call.ends_of_ok (RankedAllocator.exec_shareSlot_ok hsome hioctl)).mpr ⟨⟨?_, hsize⟩, hrest⟩
        rw [SharedRegion.place, SharedRegion.place, hlocation, SequentialRegion.ofReply, haddr, hpool]

namespace SameMemory

variable (h : SameMemory regions shared)

include h

theorem length_eq : shared.length = regions.length := by
  have hlength := congrArg List.length h.places
  rwa [List.length_map, List.length_map] at hlength

theorem getElem? {i : Nat} {region : SequentialRegion} (hi : shared[i]? = some region) :
    ∃ r, regions[i]? = some r ∧ SharedRegion.place region = SharedRegion.place r ∧ region.size = r.size := by
  have hplace := congrArg (·[i]?) h.places
  have hsize := congrArg (·[i]?) h.sizes
  simp only [List.getElem?_map, hi, Option.map_some] at hplace hsize
  obtain ⟨r, hr, hplace'⟩ := Option.map_eq_some_iff.mp hplace.symm
  rw [hr, Option.map_some, Option.some.injEq] at hsize
  exact ⟨r, hr, hplace'.symm, hsize⟩

theorem placed (hregions : Placed size regions) : Placed size shared := by
  intro i region hi
  obtain ⟨r, hr, hplace, hsize⟩ := h.getElem? hi
  obtain ⟨hstart, hlocation⟩ := Prod.mk.inj hplace
  rw [hstart, hlocation, hsize]
  exact hregions i r hr

theorem startsFit (hregions : SharedRegion.StartsFit (.ranked regions)) : SharedRegion.StartsFit (.ranked shared) := by
  intro region hregion
  obtain ⟨i, hi⟩ := List.getElem?_of_mem hregion
  obtain ⟨r, hr, hplace, -⟩ := h.getElem? hi
  rw [(Prod.mk.inj hplace).1]
  exact hregions r (List.mem_of_getElem? hr)

theorem told_iff : SharedRegion.Told (.ranked shared) ↔ SharedRegion.Told (.ranked regions) := by
  have hlocations : ∀ regions : List SequentialRegion, (∀ region ∈ regions, region.location ≠ none) ↔
      ∀ place ∈ regions.map SharedRegion.place, place.2 ≠ none := by
    intro regions
    rw [List.forall_mem_map]
    rfl
  rw [SharedRegion.Told, SharedRegion.Told, h.length_eq, hlocations, hlocations, h.places]

theorem size_eq : DeviceRegion.size (.ranked shared) = DeviceRegion.size (.ranked regions) := by
  have hsizes := h.sizes
  cases regions with
  | nil =>
      obtain rfl := List.map_eq_nil_iff.mp hsizes
      rfl
  | cons r rest =>
      obtain ⟨r', rest', rfl, hr, -⟩ := List.map_eq_cons_iff.mp hsizes
      exact hr

end SameMemory

end Share

/-! ## Another process -/

/-- What the kernel promises a process about memory that is shared: `GET_SHARED_ALLOC` returns it with its original
    size, unless the process has got it already. -/
structure Hands {τ : Type} (d : Device τ) (memory : List PnmAllocation) (Inv : τ → Prop)
    (got : τ → Set (BitVec 8 × BitVec 64)) : Prop where
  get_ok : ∀ (req : PnmAllocation) {m : PnmAllocation} {u : τ}, Inv u → m ∈ memory → req.memoryPool = m.memoryPool →
    req.addr = m.addr → (m.memoryPool, m.addr) ∉ got u → ∃ reply v, d.ioctl .getSharedAlloc req u = (.ok reply, v) ∧
      reply.size = m.size ∧ Inv v ∧ got v = insert (m.memoryPool, m.addr) (got u)

/-- In every process that has got nothing yet, of every such kernel, the buffer that is built from the words has `n`
    elements. -/
def Reports (sizeofT n : BitVec 64) (shared : SharedRegion) : Prop :=
  ∀ (τ : Type) (other : RankedAllocator τ) (Inv : τ → Prop) (got : τ → Set (BitVec 8 × BitVec 64)) (u : τ),
    Hands other.device shared.region.memory Inv got → Inv u → (∀ place, place ∉ got u) →
      (other.bufferOfWords sizeofT shared.serializedRegion).Ends u (fun b _ => b.size = n) fun _ _ => False

/-- The kernel keeps this promise to file `f`, as long as the entries are there and it has memory for descriptors. -/
theorem ofKernel_hands (p : Kernel.AllocParams) (f : Nat) {choices : Nat → Device.Choices}
    (hkzalloc : ∀ n, (choices n).kzalloc = true) (strerror : Nat → String) (memory : List PnmAllocation) :
    Hands (.ofKernel p f choices strerror) memory
      (fun u => ∀ m ∈ memory, ∃ e, u.1.entries (Device.copyFromUser m).key = some e ∧
        e.alloc.key = (Device.copyFromUser m).key ∧ e.alloc.size = m.size.toNat)
      fun u => { place | f ∈ u.1.holders (place.1.toNat, place.2.toNat) } where
  get_ok := by
    intro req m u hinv hm hpool haddr hnew
    obtain ⟨e, hentry, hkey, hsize⟩ := hinv m hm
    have hreq : (Device.copyFromUser req).key = (Device.copyFromUser m).key := by
      rw [Device.copyFromUser, Device.copyFromUser, Kernel.Allocation.key, Kernel.Allocation.key, hpool, haddr]
    obtain ⟨hentries, hcases⟩ := Kernel.Allocator.getSharedAlloc_cases (f := f) (hreq ▸ hentry) (choices u.2).kzalloc
    rcases hcases with ⟨-, -, hret, hkreq, hdescs⟩ | ⟨hno | hheld, -⟩
    · refine ⟨_, _, Prod.ext (if_neg (Int.not_lt.mpr hret.ge)) rfl, ?_, fun m' hm' => ?_, Set.ext fun place => ?_⟩
      · change (Device.copyToUser (u.1.getSharedAlloc f (Device.copyFromUser req) _).kreq).size = m.size
        rw [hkreq]
        exact (congrArg (BitVec.ofNat 64) hsize).trans
          (congrArg PnmAllocation.size (Device.copyToUser_copyFromUser m))
      · obtain ⟨e', hentry', hkey', hsize'⟩ := hinv m' hm'
        change ∃ e, (u.1.getSharedAlloc f (Device.copyFromUser req) _).alloc.entries _ = some e ∧ _
        rw [hentries, hreq]
        by_cases hsame : (Device.copyFromUser m').key = (Device.copyFromUser m).key
        · -- the entry of `m` has one reference more
          obtain rfl := Option.some.inj (hentry.symm.trans (hsame ▸ hentry'))
          exact ⟨⟨e.alloc, e.refCnt + 1⟩, by rw [hsame, Function.update_self], hkey', hsize'⟩
        · exact ⟨e', by rw [Function.update_of_ne hsame, hentry'], hkey', hsize'⟩
      · have hplace : e.alloc.key = (place.1.toNat, place.2.toNat) ↔ place = (m.memoryPool, m.addr) := by
          rw [hkey, Device.copyFromUser, Kernel.Allocation.key, Prod.mk.injEq, Prod.ext_iff, BitVec.toNat_inj,
            BitVec.toNat_inj, eq_comm, @eq_comm _ m.addr]
        change f ∈ (u.1.getSharedAlloc f (Device.copyFromUser req) _).alloc.holders _ ↔ _
        rw [Kernel.Allocator.holders_cons hdescs, Set.mem_insert_iff, ← hplace]
        by_cases hk : e.alloc.key = (place.1.toNat, place.2.toNat)
        · rw [if_pos hk]
          exact iff_of_true List.mem_cons_self (.inl hk)
        · rw [if_neg hk, or_iff_right hk]
          rfl
    · rw [hkzalloc] at hno
      cases hno
    · rw [hkey] at hheld
      exact absurd hheld hnew

section OtherProcess

variable {size : BitVec 64} {regions : List SequentialRegion}

/-- Sub-regions that are not on the same unit. -/
def Apart (r r' : SequentialRegion) : Prop := ∀ unit, r.location = some unit → r'.location ≠ some unit

theorem Placed.pairwise_apart (h : Placed size regions) : regions.Pairwise Apart := by
  rw [List.pairwise_iff_getElem]
  intro i j hi hj hij unit hunit hunit'
  have hindex : ∀ k (hk : k < regions.length), regions[k].location = some unit → unit.toNat = k := by
    intro k hk hlocation
    rcases h k _ (List.getElem?_eq_getElem hk) with ⟨hnone, -⟩ | ⟨unit', hsome, hk', -⟩
    · rw [hnone] at hlocation
      cases hlocation
    · rw [hsome, Option.some.injEq] at hlocation
      rw [← hlocation, hk']
  exact Nat.ne_of_lt hij ((hindex i hi hunit).symm.trans (hindex j hj hunit'))

/-- The sub-region as another process rebuilds it. -/
def comeBack (regions : List SequentialRegion) (region : SequentialRegion) : SequentialRegion :=
  { start := region.start, location := SharedRegion.locationBack region.location regions.length }

/-- If the words tell, a location that comes back is the original one, and it is lost only if it is the mark. -/
theorem comeBack_location (htold : SharedRegion.Told (.ranked regions)) {region : SequentialRegion}
    (hregion : region ∈ regions) :
    (comeBack regions region).location = region.location ∨
      (region.location = some 255 ∧ (comeBack regions region).location = none) := by
  by_cases hback : SharedRegion.locationBack region.location regions.length = region.location
  · exact .inl hback
  · have hmark := mt (SharedRegion.locationBack_eq_iff region.location regions.length).mpr hback
    by_cases hall : regions.length = 256
    · rw [if_pos hall] at hmark
      exact absurd (htold.2 hall region hregion) hmark
    · rw [if_neg hall, not_not] at hmark
      refine .inr ⟨hmark, ?_⟩
      rw [comeBack, hmark, SharedRegion.locationBack, if_neg (by simp [hall])]

/-- A unit that comes back is that of memory of the region. -/
theorem exists_memory (h : Placed size regions) (htold : SharedRegion.Told (.ranked regions))
    {region : SequentialRegion} (hregion : region ∈ regions) {unit : BitVec 8}
    (hunit : (comeBack regions region).location = some unit) :
    region.location = some unit ∧
      ∃ m ∈ RankedAllocator.memoryOf regions, m.memoryPool = unit ∧ m.addr = region.start ∧ m.size = size := by
  have hlocation : region.location = some unit := by
    rcases comeBack_location htold hregion with heq | ⟨-, hnone⟩
    · rw [← heq, hunit]
    · rw [hnone] at hunit
      cases hunit
  have hrequest := SequentialRegion.request_eq_some hlocation
  refine ⟨hlocation, _, List.mem_filterMap.mpr ⟨region, hregion, hrequest⟩, rfl, rfl, ?_⟩
  obtain ⟨i, hi⟩ := List.getElem?_of_mem hregion
  rcases h i region hi with ⟨hnone, -⟩ | ⟨-, -, -, hsize⟩
  · rw [hnone] at hlocation
    cases hlocation
  · exact hsize

variable {τ : Type} {other : RankedAllocator τ} {Inv : τ → Prop} {got : τ → Set (BitVec 8 × BitVec 64)} {u : τ}

/-- What is still to get is on different units, has not been got, and is there. -/
structure ToGet (memory : List PnmAllocation) (size : BitVec 64) (Inv : τ → Prop)
    (got : τ → Set (BitVec 8 × BitVec 64)) (slots : List SequentialRegion) (u : τ) : Prop where
  inv : Inv u
  apart : slots.Pairwise Apart
  there : ∀ slot ∈ slots, ∀ unit, slot.location = some unit →
    (unit, slot.start) ∉ got u ∧ ∃ m ∈ memory, m.memoryPool = unit ∧ m.addr = slot.start ∧ m.size = size

/-- One sub-region is got. -/
theorem getSlot_ends {memory : List PnmAllocation} (hhands : Hands other.device memory Inv got)
    {slot : SequentialRegion} {rest : List SequentialRegion} (h : ToGet memory size Inv got (slot :: rest) u) :
    (other.shareSlot .getSharedAlloc slot).Ends u
      (fun out v => out.size = (if slot.location = none then 0 else size) ∧ ToGet memory size Inv got rest v)
      fun _ _ => False := by
  obtain ⟨hslot, hrest⟩ := List.pairwise_cons.mp h.apart
  cases hlocation : slot.location with
  | none =>
      have hnone := SequentialRegion.request_eq_none hlocation
      refine (Call.ends_of_ok (RankedAllocator.exec_shareSlot_none hnone)).mpr ⟨(if_pos rfl).symm, h.inv, hrest, ?_⟩
      exact fun r hr => h.there r (List.mem_cons_of_mem _ hr)
  | some unit =>
      obtain ⟨hnew, m, hm, hpool, haddr, hsize⟩ := h.there slot List.mem_cons_self unit hlocation
      have hsome := SequentialRegion.request_eq_some hlocation
      obtain ⟨reply, v, hioctl, hreply, hv, hgot⟩ := hhands.get_ok
        ⟨slot.start, slot.size, unit, slot.isGlobal⟩ h.inv hm hpool.symm haddr.symm (by rwa [hpool, haddr])
      refine (Call.ends_of_ok (RankedAllocator.exec_shareSlot_ok hsome hioctl)).mpr ⟨?_, hv, hrest, ?_⟩
      · rw [if_neg (Option.some_ne_none unit)]
        exact hreply.trans hsize
      · intro r hr unit' hunit'
        obtain ⟨hnew', hthere⟩ := h.there r (List.mem_cons_of_mem _ hr) unit' hunit'
        refine ⟨?_, hthere⟩
        rw [hgot, Set.mem_insert_iff, not_or, hpool, haddr]
        refine ⟨fun heq => hslot r hr unit hlocation ?_, hnew'⟩
        rw [hunit', (Prod.mk.inj heq).1]

/-- The first of what was got is the memory of the first unit. -/
theorem size_outs (h : Placed size regions) (htold : SharedRegion.Told (.ranked regions))
    {outs : List SequentialRegion}
    (houts : List.Forall₂ (fun slot out => out.size = if slot.location = none then 0 else size)
      (regions.map (comeBack regions)) outs) :
    DeviceRegion.size (.ranked outs) = DeviceRegion.size (.ranked regions) := by
  cases regions with
  | nil => exact absurd htold.1 (by decide)
  | cons first rest =>
      obtain ⟨out, outs', hout, -, rfl⟩ := List.forall₂_cons_left_iff.mp houts
      rw [DeviceRegion.size, DeviceRegion.size, hout]
      rcases h 0 first rfl with ⟨hnone, -, hsize⟩ | ⟨unit, hunit, hzero, hsize⟩
      · rcases comeBack_location htold List.mem_cons_self with heq | ⟨hmark, -⟩
        · rw [heq, if_pos hnone, hsize]
        · rw [hnone] at hmark
          cases hmark
      · rcases comeBack_location htold List.mem_cons_self with heq | ⟨hmark, -⟩
        · rw [heq, hunit, if_neg (Option.some_ne_none unit), hsize]
        · -- the first unit is not the mark
          rw [hunit, Option.some.injEq] at hmark
          rw [hmark] at hzero
          cases hzero

/-- **If the words tell**, another process reads the size of the first sub-region. -/
theorem bufferOfWords_ends (hstarts : SharedRegion.StartsFit (.ranked regions)) (h : Placed size regions)
    (htold : SharedRegion.Told (.ranked regions))
    (hhands : Hands other.device (RankedAllocator.memoryOf regions) Inv got) (hu : Inv u)
    (hnone : ∀ place, place ∉ got u) (sizeofT : BitVec 64) :
    (other.bufferOfWords sizeofT (SharedRegion.serialize (.ranked regions))).Ends u
      (fun b _ => b.size = DeviceRegion.size (.ranked regions) / sizeofT) fun _ _ => False := by
  have hne : DeviceRegion.ranked regions ≠ .ranked [] := by
    rintro ⟨⟩
    exact Nat.not_succ_le_zero 1 htold.1
  have htoGet : ToGet (RankedAllocator.memoryOf regions) size Inv got (regions.map (comeBack regions)) u := by
    refine ⟨hu, ?_, fun slot hslot unit hunit => ?_⟩
    · rw [List.pairwise_map]
      refine h.pairwise_apart.imp_of_mem fun {r r'} hr hr' happart unit hunit hunit' => ?_
      exact happart unit (exists_memory h htold hr hunit).1 (exists_memory h htold hr' hunit').1
    · obtain ⟨r, hr, rfl⟩ := List.mem_map.mp hslot
      exact ⟨hnone _, (exists_memory h htold hr hunit).2⟩
  simp only [RankedAllocator.bufferOfWords, SharedRegion.ofSerialized_serialize hstarts hne,
    RankedAllocator.bufferOfShared, SharedRegion.rebuilt_ranked htold.1, RankedAllocator.sharingIoctl]
  refine ((Call.Ends.mapM (fun slot rest v => getSlot_ends hhands) htoGet).bind fun outs v houts => ?_).bind
    (Q := fun value _ => value.size = DeviceRegion.size (.ranked regions)) fun value v hvalue => ?_
  · exact Call.ends_pure (size_outs h htold houts.1)
  · exact Call.ends_pure (congrArg (· / sizeofT) hvalue)

end OtherProcess

/-! ## A strict kernel -/

/-- A kernel that hands out `memory`, each piece of it once, and nothing else. -/
def strictDevice (memory : List PnmAllocation) : Device (List (BitVec 8 × BitVec 64)) where
  ioctl cmd req u :=
    match cmd, memory.find? fun m => m.memoryPool = req.memoryPool ∧ m.addr = req.addr with
    | .getSharedAlloc, some m =>
        if (m.memoryPool, m.addr) ∈ u then (.error 1, u) else (.ok m, (m.memoryPool, m.addr) :: u)
    | _, _ => (.error 2, u)
  strerror _ := "error"

/-- An ioctl that has not thrown has succeeded. -/
theorem ioctl_of_exec_shareSlot {σ : Type} {a : RankedAllocator σ} {cmd : MemoryCommand} {slot out : SequentialRegion}
    {request : PnmAllocation} {s t : σ} (hrequest : slot.request = some request)
    (h : (a.shareSlot cmd slot).exec s = (.ok out, t)) : ∃ reply, a.device.ioctl cmd request s = (.ok reply, t) := by
  rcases hioctl : a.device.ioctl cmd request s with ⟨e | reply, u⟩
  · obtain ⟨err, hexec⟩ := RankedAllocator.exec_shareSlot_error hrequest hioctl
    cases hexec.symm.trans h
  · obtain rfl := (Prod.mk.inj ((RankedAllocator.exec_shareSlot_ok hrequest hioctl).symm.trans h)).2
    exact ⟨reply, rfl⟩

section Strict

variable {memory : List PnmAllocation} {size : BitVec 64} {regions : List SequentialRegion}
  {u v : List (BitVec 8 × BitVec 64)}

/-- It keeps its promise. -/
theorem strictDevice_hands (hsize : ∀ m ∈ memory, m.size = size) :
    Hands (strictDevice memory) memory (fun _ => True) fun u => { place | place ∈ u } where
  get_ok := by
    intro req m u _ hm hpool haddr hnew
    cases hfind : memory.find? fun m => m.memoryPool = req.memoryPool ∧ m.addr = req.addr with
    | none =>
        have hno := List.find?_eq_none.mp hfind m hm
        exact absurd (decide_eq_true ⟨hpool.symm, haddr.symm⟩) hno
    | some m' =>
        have hfound := List.find?_some hfind
        obtain ⟨hpool', haddr'⟩ := of_decide_eq_true hfound
        have hplace : (m'.memoryPool, m'.addr) = (m.memoryPool, m.addr) := by rw [hpool', haddr', hpool, haddr]
        have hnot : (m.memoryPool, m.addr) ∉ u := hnew
        have hioctl : (strictDevice memory).ioctl .getSharedAlloc req u = (.ok m', (m.memoryPool, m.addr) :: u) := by
          simp only [strictDevice, hfind]
          rw [hplace, if_neg hnot]
        refine ⟨m', _, hioctl, ?_, trivial, ?_⟩
        · rw [hsize m hm, hsize m' (List.mem_of_find?_eq_some hfind)]
        · exact Set.ext fun place => List.mem_cons

theorem strictDevice_ok {req reply : PnmAllocation}
    (h : (strictDevice memory).ioctl .getSharedAlloc req u = (.ok reply, v)) :
    (req.memoryPool, req.addr) ∉ u ∧ v = (req.memoryPool, req.addr) :: u ∧
      ∃ m ∈ memory, m.memoryPool = req.memoryPool ∧ m.addr = req.addr := by
  cases hfind : memory.find? fun m => m.memoryPool = req.memoryPool ∧ m.addr = req.addr with
  | none =>
      simp only [strictDevice, hfind] at h
      cases h
  | some m =>
      have hfound := List.find?_some hfind
      obtain ⟨hpool, haddr⟩ := of_decide_eq_true hfound
      simp only [strictDevice, hfind] at h
      rw [hpool, haddr] at h
      split at h
      · cases h
      · rename_i hnew
        exact ⟨hnew, (Prod.mk.inj h).2.symm, m, List.mem_of_find?_eq_some hfind, hpool, haddr⟩

/-- Sub-regions that are not at the same place. -/
def Elsewhere (r r' : SequentialRegion) : Prop :=
  ∀ unit, r.location = some unit → r'.location = some unit → r.start ≠ r'.start

theorem Elsewhere.symm {r r' : SequentialRegion} (h : Elsewhere r r') : Elsewhere r' r :=
  fun unit hunit hunit' heq => h unit hunit' hunit heq.symm

/-- **What it hands out in one loop** is all there, and at different places. -/
theorem strict_mapM {n : Nat} {slots outs : List SequentialRegion}
    (h : (slots.mapM ((RankedAllocator.mk (strictDevice memory) n).shareSlot .getSharedAlloc)).exec u = (.ok outs, v)) :
    (∀ slot ∈ slots, ∀ unit, slot.location = some unit →
      (unit, slot.start) ∉ u ∧ ∃ m ∈ memory, m.memoryPool = unit ∧ m.addr = slot.start) ∧
    slots.Pairwise Elsewhere := by
  induction slots generalizing u outs v with
  | nil => exact ⟨fun slot hslot => (nomatch hslot), List.Pairwise.nil⟩
  | cons slot rest ih =>
      rw [List.mapM_cons] at h
      obtain ⟨out, w, hslot, hloop⟩ := Call.exec_bind_eq_ok h
      obtain ⟨outs', w', hrest, -⟩ := Call.exec_bind_eq_ok hloop
      obtain ⟨hthere, hpairwise⟩ := ih hrest
      cases hlocation : slot.location with
      | none =>
          have hnone := SequentialRegion.request_eq_none hlocation
          obtain rfl := (Prod.mk.inj ((RankedAllocator.exec_shareSlot_none hnone).symm.trans hslot)).2
          refine ⟨List.forall_mem_cons.mpr ⟨fun unit hunit => ?_, hthere⟩, hpairwise.cons fun r hr unit hunit => ?_⟩
          · cases hlocation.symm.trans hunit
          · cases hlocation.symm.trans hunit
      | some unit =>
          obtain ⟨reply, hioctl⟩ := ioctl_of_exec_shareSlot (SequentialRegion.request_eq_some hlocation) hslot
          obtain ⟨hnew, rfl, hm⟩ := strictDevice_ok hioctl
          refine ⟨List.forall_mem_cons.mpr ⟨fun unit' hunit' => ?_, fun r hr unit' hunit' => ?_⟩,
            hpairwise.cons fun r hr unit' hunit' hr' hstart => ?_⟩
          · obtain rfl := Option.some.inj (hlocation.symm.trans hunit')
            exact ⟨hnew, hm⟩
          · obtain ⟨hnot, hm'⟩ := hthere r hr unit' hunit'
            exact ⟨fun hmem => hnot (List.mem_cons_of_mem _ hmem), hm'⟩
          · obtain rfl := Option.some.inj (hlocation.symm.trans hunit')
            refine (hthere r hr unit hr').1 ?_
            rw [← hstart]
            exact List.mem_cons_self

theorem Placed.memory_size (h : Placed size regions) {m : PnmAllocation} (hm : m ∈ RankedAllocator.memoryOf regions) :
    m.size = size := by
  obtain ⟨region, hregion, hrequest⟩ := List.mem_filterMap.mp hm
  obtain ⟨unit, hunit, rfl⟩ := Option.map_eq_some_iff.mp hrequest
  obtain ⟨i, hi⟩ := List.getElem?_of_mem hregion
  rcases h i region hi with ⟨hnone, -⟩ | ⟨-, -, -, hsize⟩
  · cases hnone.symm.trans hunit
  · exact hsize

/-- What the strict kernel says of the words. -/
theorem Reports.strict {sizeofT n : BitVec 64} (hreports : Reports sizeofT n (.ofRegion (.ranked regions)))
    (h : Placed size regions) :
    ((RankedAllocator.mk (strictDevice (RankedAllocator.memoryOf regions)) 0).bufferOfWords sizeofT
      (SharedRegion.serialize (.ranked regions))).Ends [] (fun b _ => b.size = n) fun _ _ => False :=
  hreports _ _ _ _ [] (strictDevice_hands fun _ => h.memory_size) trivial fun _ => List.not_mem_nil

/-- With 256 sub-regions, one without memory comes back at the place of another, or where there is nothing. -/
theorem not_reports_of_empty {sizeofT n : BitVec 64} (hstarts : SharedRegion.StartsFit (.ranked regions))
    (h : Placed size regions) (hall : regions.length = 256) {region : SequentialRegion} (hregion : region ∈ regions)
    (hempty : region.location = none) : ¬ Reports sizeofT n (.ofRegion (.ranked regions)) := by
  intro hreports
  have hmany : 2 ≤ regions.length := hall ▸ (by decide)
  have hne : DeviceRegion.ranked regions ≠ .ranked [] := by
    rintro ⟨⟩
    cases hall
  have hends := hreports.strict h
  simp only [RankedAllocator.bufferOfWords, SharedRegion.ofSerialized_serialize hstarts hne,
    RankedAllocator.bufferOfShared, SharedRegion.rebuilt_ranked hmany, RankedAllocator.sharingIoctl] at hends
  obtain ⟨b, v, hexec, -⟩ := hends.and hends
  obtain ⟨value, w, hvalue, -⟩ := Call.exec_bind_eq_ok hexec
  obtain ⟨outs, w', houts, -⟩ := Call.exec_bind_eq_ok hvalue
  obtain ⟨hthere, hpairwise⟩ := strict_mapM houts
  have hmark : ∀ r : SequentialRegion, r.location.getD 255 = 255 → (comeBack regions r).location = some 255 := by
    intro r hr
    rw [comeBack, SharedRegion.locationBack, if_pos (.inr hall), hr]
  -- there is memory at its place, on unit 255
  obtain ⟨-, m, hm, hpool, haddr⟩ := hthere (comeBack regions region) (List.mem_map_of_mem hregion) 255
    (hmark region (by rw [hempty]; rfl))
  obtain ⟨r, hr, hrequest⟩ := List.mem_filterMap.mp hm
  obtain ⟨unit, hunit, rfl⟩ := Option.map_eq_some_iff.mp hrequest
  obtain rfl : unit = 255 := hpool
  have hdifferent : region ≠ r := by
    rintro rfl
    cases hempty.symm.trans hunit
  have hsymm : Std.Symm fun a b => Elsewhere (comeBack regions a) (comeBack regions b) := ⟨fun _ _ => Elsewhere.symm⟩
  have hback : regions.Pairwise fun a b => Elsewhere (comeBack regions a) (comeBack regions b) :=
    List.pairwise_map.mp hpairwise
  exact hback.forall hregion hr hdifferent 255 (hmark region (by rw [hempty]; rfl)) (hmark r (by rw [hunit]; rfl))
    haddr.symm

/-- **Another process** reads the same size exactly if the words tell and this process would. -/
theorem reports_iff {sizeofT n : BitVec 64} (hstarts : SharedRegion.StartsFit (.ranked regions))
    (h : Placed size regions) :
    Reports sizeofT n (.ofRegion (.ranked regions)) ↔
      SharedRegion.Told (.ranked regions) ∧ (RegionBuffer.ofRegion sizeofT (.ranked regions)).size = n := by
  constructor
  · intro hreports
    have htold : SharedRegion.Told (.ranked regions) := by
      refine ⟨?_, fun hall region hregion hempty => not_reports_of_empty hstarts h hall hregion hempty hreports⟩
      have hends := hreports.strict h
      match regions with
      | [] => exact hends.elim
      | [region] => exact hends.elim
      | _ :: _ :: _ => simp
    have hstrict := strictDevice_hands fun m => h.memory_size (m := m)
    obtain ⟨b, v, -, hn, hsize⟩ := (hreports.strict h).and
      (bufferOfWords_ends hstarts h htold hstrict trivial (fun _ => List.not_mem_nil) sizeofT)
    exact ⟨htold, hsize.symm.trans hn⟩
  · rintro ⟨htold, hsize⟩ τ other Inv got u hhands hu hnone
    exact (bufferOfWords_ends hstarts h htold hhands hu hnone sizeofT).mono (fun b _ hb => hb.trans hsize) fun _ _ => id

end Strict

/-- **The size of a rebuilt buffer.** For every buffer that the allocator gives: a buffer from its region has the same
    number of elements exactly if the bytes fit in 64 bits and there are none or the first unit has them; and one that
    another process builds from the words of `make_shared`, exactly if in addition the words tell where there is
    memory. -/
theorem rebuilt_size_iff {σ : Type} {a : RankedAllocator σ} (hmake : MakesInPlace a.device) {n sizeofT : BitVec 64}
    (hpos : 0 < sizeofT) (pid : Int) (turns : Nat) (props : PropertiesList) (s : σ) :
    (a.bufferOfSize pid turns n sizeofT props).Ends s
      (fun result _ => ∀ b, result = some b →
        ((RegionBuffer.ofRegion sizeofT b.devRegion.value).size = n ↔
          BytesFit n sizeofT ∧ (n = 0 ∨ OnFirst b.devRegion.value)) ∧
        ∀ t, (a.makeShared b).Ends t
          (fun shared _ => SharedRegion.StartsFit b.devRegion.value →
            (Reports sizeofT n shared.1 ↔
              SharedRegion.Told b.devRegion.value ∧ BytesFit n sizeofT ∧ (n = 0 ∨ OnFirst b.devRegion.value)))
          fun _ _ => True)
      fun _ _ => True := by
  refine (RankedAllocator.allocateImpl_placed turns props s).bind fun region t hregion => Call.ends_pure ?_
  intro b hb
  obtain ⟨value, hvalue, rfl⟩ := Option.map_eq_some_iff.mp hb
  obtain ⟨regions, rfl, hplaced⟩ := hregion value hvalue
  refine ⟨ofRegion_size_iff hpos hplaced, fun t => ?_⟩
  refine ((mapM_makeShared hmake hplaced t).bind fun shared u hshared => Call.ends_pure ?_).bind
    (Q := fun region _ => ∃ shared, region = .ranked shared ∧ SameMemory regions shared) fun region u hregion => ?_
  · exact ⟨shared, rfl, hshared⟩
  · obtain ⟨shared, rfl, hshared⟩ := hregion
    refine Call.ends_pure fun hstarts => ?_
    rw [reports_iff (hshared.startsFit hstarts) (hshared.placed hplaced), hshared.told_iff, RegionBuffer.ofRegion,
      hshared.size_eq]
    exact and_congr_right' (ofRegion_size_iff hpos hplaced)

theorem twoPoolDevice_makesInPlace : MakesInPlace twoPoolDevice := ofKernel_makesInPlace _ _ _ _

/-- The same kernel for another process, with file 1. -/
def otherProcess : Device (Kernel.Allocator × Nat) :=
  .ofKernel { Kernel.onePool with nrPools := 2 } 1 (fun _ => ⟨0, some 0, true, 0⟩) fun _ => "error"

theorem otherProcess_hands (memory : List PnmAllocation) :
    Hands otherProcess memory
      (fun u => ∀ m ∈ memory, ∃ e, u.1.entries (Device.copyFromUser m).key = some e ∧
        e.alloc.key = (Device.copyFromUser m).key ∧ e.alloc.size = m.size.toNat)
      fun u => { place | 1 ∈ u.1.holders (place.1.toNat, place.2.toNat) } :=
  ofKernel_hands _ _ (fun _ => rfl) _ memory

/-- A buffer of 1024 elements of four bytes on both of two units. Built from its region it has 1024 elements, and so it
    has in another process that opens the memory. -/
theorem rebuilt_size_two_pools :
    ∃ b t shared u, (RankedAllocator.mk twoPoolDevice 2 |>.bufferOfSize 1 3 1024 4 { allocPolicy := some 1 }).exec
        (.init, 0) = (.ok (some b), t) ∧
      (RegionBuffer.ofRegion 4 b.devRegion.value).size = 1024 ∧
      (RankedAllocator.mk twoPoolDevice 2 |>.makeShared b).exec t = (.ok shared, u) ∧
      (RankedAllocator.mk otherProcess 2 |>.bufferOfWords 4 shared.1.serializedRegion).Ends u
        (fun other _ => other.size = 1024) fun _ _ => False := by
  have hpos : (0 : BitVec 64) < 4 := by decide
  have hends := rebuilt_size_iff (a := .mk twoPoolDevice 2) (n := 1024) twoPoolDevice_makesInPlace hpos 1 3
    { allocPolicy := some 1 } (.init, 0)
  have hfits : BytesFit 1024 4 := by
    rw [BytesFit]
    decide
  obtain ⟨b, t, shared, u, hexec, hvalue, hmake, hmemory, hfirst, hsecond, hfiles⟩ :
      ∃ b t shared u, (RankedAllocator.mk twoPoolDevice 2 |>.bufferOfSize 1 3 1024 4
        { allocPolicy := some 1 }).exec (.init, 0) = (.ok (some b), t) ∧
      b.devRegion.value = .ranked [⟨0, 4096, some 0, 0⟩, ⟨0, 4096, some 1, 0⟩] ∧
      (RankedAllocator.mk twoPoolDevice 2 |>.makeShared b).exec t = (.ok shared, u) ∧
      shared.1.region.memory = [⟨0, 4096, 0, 1⟩, ⟨0, 4096, 1, 1⟩] ∧
      u.1.entries (0, 0) = some ⟨⟨0, 4096, 0, 1⟩, 1⟩ ∧ u.1.entries (1, 0) = some ⟨⟨0, 4096, 1, 1⟩, 1⟩ ∧
      u.1.descs.map Prod.fst = [0, 0] := ⟨_, _, _, _, rfl, rfl, rfl, rfl, rfl, rfl, rfl⟩
  obtain ⟨hsame, hother⟩ := (Call.ends_of_ok hexec).mp hends b rfl
  have hreports := (Call.ends_of_ok hmake).mp (hother t)
  rw [hvalue] at hsame hreports
  have honFirst : OnFirst (.ranked [⟨0, 4096, some 0, 0⟩, ⟨0, 4096, some 1, 0⟩]) := Option.some_ne_none _
  refine ⟨b, t, shared, u, hexec, hvalue ▸ hsame.mpr ⟨hfits, .inr honFirst⟩, hmake, ?_⟩
  have htold : SharedRegion.Told (.ranked [⟨0, 4096, some 0, 0⟩, ⟨0, 4096, some 1, 0⟩]) :=
    ⟨Nat.le_refl 2, fun hall => nomatch hall⟩
  have hstarts : SharedRegion.StartsFit (.ranked [⟨0, 4096, some 0, 0⟩, ⟨0, 4096, some 1, 0⟩]) := by
    simp [SharedRegion.StartsFit]
  refine (hreports hstarts).mpr ⟨htold, hfits, .inr honFirst⟩ _ _ _ _ u (otherProcess_hands _) ?_ ?_
  · -- both entries are there
    rw [hmemory]
    simp [Device.copyFromUser, Kernel.Allocation.key, hfirst, hsecond]
  · -- and file 1 has not opened them
    intro place hplace
    obtain ⟨d, hd, hfile⟩ := List.mem_map.mp hplace
    have hmem : d.1 ∈ u.1.descs.map Prod.fst := List.mem_map_of_mem (List.mem_of_mem_filter hd)
    rw [hfiles, hfile] at hmem
    simp at hmem

/-- A buffer of 1024 elements of four bytes on the second of two units: one that is built from its region has none. The
    words of a buffer on a device with one unit do not tell another process that it is ranked. -/
theorem rebuilt_size_lost :
    (∃ b t, (RankedAllocator.mk twoPoolDevice 2 |>.bufferOfSize 1 3 1024 4 { cuRegion := some 1 }).exec (.init, 0)
        = (.ok (some b), t) ∧
      (RegionBuffer.ofRegion 4 b.devRegion.value).size = 0) ∧
    ∃ b t, (RankedAllocator.mk RankedAllocator.onePoolDevice 1 |>.bufferOfSize 1 2 1024 4 {}).exec (.init, 0)
        = (.ok (some b), t) ∧
      ¬ (RankedAllocator.mk RankedAllocator.onePoolDevice 1 |>.makeShared b).Ends t
        (fun shared _ => Reports 4 1024 shared.1) fun _ _ => True := by
  refine ⟨⟨_, _, rfl, by decide⟩, _, _, rfl, fun hends => ?_⟩
  have hreports : Reports 4 1024 (.ofRegion (.ranked [⟨0, 4096, some 0, 1⟩])) := hends
  have hplaced : Placed 4096 [⟨0, 4096, some 0, 1⟩] := by
    intro i region hi
    match i with
    | 0 => exact .inr ⟨0, Option.some.inj hi ▸ rfl, rfl, Option.some.inj hi ▸ rfl⟩
  have hstarts : SharedRegion.StartsFit (.ranked [⟨0, 4096, some 0, 1⟩]) := by
    intro region hregion
    obtain rfl := List.mem_singleton.mp hregion
    decide
  exact Nat.not_succ_le_self 1 ((reports_iff hstarts hplaced).mp hreports).1.1

end Pnm.Core
