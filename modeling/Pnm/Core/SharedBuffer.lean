import Pnm.Core.Buffer
import Pnm.Core.RankedAllocator

/-!
# `Core.SharedBuffer` — sharing the memory of a buffer

The model of `sharing_ioctl` (`core/memory/ranked_allocator.cpp`) and of the members of `Buffer` that use it
(`include/pnmlib/core/buffer.h`): `make_shared`, and the constructor from a `SharedRegion`. Both make one ioctl for each
unit with memory, and stop at the first that fails. The objects of the library are then as they were; the kernel is not.

`sharing_all_or_nothing_iff` says when a failure leaves no trace in the kernel: if it is that of the first unit, and the
kernel has not counted a reference before it failed. Of any other failure the shared entries or the registrations
of the earlier units stay.
-/

namespace Pnm.Core

open Pnm.Lib Pnm.Kernel

/-- `Buffer`, with its number of elements and its region. -/
structure RegionBuffer where
  size : BitVec 64
  devRegion : DeviceRegionWrapper DeviceRegion

/-- `DeviceRegionSizeVisitor`. -/
def DeviceRegion.size : DeviceRegion → BitVec 64
  | .sequential region     => region.size
  | .ranked []             => 0
  | .ranked (region :: _) => region.size

namespace RankedAllocator

variable {σ : Type} (a : RankedAllocator σ)

/-- One turn of the loop of `sharing_ioctl`. -/
def shareSlot (cmd : MemoryCommand) (seqRegion : SequentialRegion) : Call Error σ SequentialRegion :=
  match seqRegion.request with
  | none         => pure {}
  | some request => do
      let reply ← a.ioctl cmd request "Error"
      pure (.ofReply reply.size reply)

/-- `sharing_ioctl`. -/
def sharingIoctl (cmd : MemoryCommand) : DeviceRegion → Call Error σ DeviceRegion
  | .sequential _   => throw .badVariantAccess
  | .ranked regions => do
      let sharedRegion ← regions.mapM (a.shareSlot cmd)
      pure (.ranked sharedRegion)

/-- `Buffer::make_shared`, with the `Buffer` that it leaves. -/
def makeShared (b : RegionBuffer) : Call Error σ (SharedRegion × RegionBuffer) :=
  if b.devRegion.isGlobal then pure (.ofRegion b.devRegion.value, b)
  else do
    let region ← a.sharingIoctl .makeSharedAlloc b.devRegion.value
    let sharedRegion := SharedRegion.ofRegion region
    pure (sharedRegion, { b with devRegion := { b.devRegion with value := sharedRegion.region, isGlobal := true } })

/-- `Buffer(const SharedRegion &, ...)`. -/
def bufferOfShared (sizeofT : BitVec 64) (sharedRegion : SharedRegion) : Call Error σ RegionBuffer := do
  let value ← a.sharingIoctl .getSharedAlloc sharedRegion.region
  pure
    { size := value.size / sizeofT
      devRegion := { value := value, ownerProcessId := -1, owned := false, isGlobal := true } }

end RankedAllocator

/-! ## What an ioctl leaves in the kernel -/

/-- The registrations of file `f`. -/
def registrations (f : Nat) (s : Allocator) : List (Nat × Allocation) := s.descs.filter fun d => d.1 = f

/-- The shared entries with their counts, and the registrations of file `f`, are the same. -/
def Untouched (f : Nat) (s t : Allocator) : Prop := t.entries = s.entries ∧ registrations f t = registrations f s

/-- No entry and no registration is lost. -/
structure NothingLost (f : Nat) (s t : Allocator) : Prop where
  entries_kept : ∀ k, s.entries k ≠ none → t.entries k ≠ none
  registrations_le : (registrations f s).length ≤ (registrations f t).length

/-- There is an entry or a registration more. -/
structure Grown (f : Nat) (s t : Allocator) : Prop extends NothingLost f s t where
  grown : (∃ k, s.entries k = none ∧ t.entries k ≠ none) ∨ (registrations f s).length < (registrations f t).length

/-- **What an ioctl that shares is for**: `MAKE_SHARED_ALLOC` has made an entry with one reference, for the file that
    shares; `GET_SHARED_ALLOC` has registered the allocation of the entry for file `f` and counted it. -/
def SharedFor (f : Nat) (cmd : MemoryCommand) (s t : Allocator) (a : Allocation) : Prop :=
  match cmd with
  | .getSharedAlloc => ∃ e, s.entries a.key = some e ∧ t.entries a.key = some { e with refCnt := e.refCnt + 1 } ∧
      (f, e.alloc) ∈ t.descs
  | _ => s.entries a.key = none ∧ t.entries a.key = some ⟨{ a with isGlobal := 1 }, 1⟩

/-- The command would not succeed for this key again. -/
def Settled (f : Nat) (cmd : MemoryCommand) (s : Allocator) (k : Nat × Nat) : Prop :=
  match cmd with
  | .getSharedAlloc => ∃ e, s.entries k = some e ∧ (f, e.alloc) ∈ s.descs
  | _               => s.entries k ≠ none

/-- One ioctl that has succeeded. -/
structure SharesOne (f : Nat) (cmd : MemoryCommand) (s t : Allocator) (a : Allocation) : Prop where
  before : ¬ Settled f cmd s a.key
  shared : SharedFor f cmd s t a
  after : Settled f cmd t a.key
  others : ∀ k, k ≠ a.key → t.entries k = s.entries k
  descs_subset : s.descs ⊆ t.descs

/-- A number of ioctls that have succeeded. -/
structure SharesAll (f : Nat) (cmd : MemoryCommand) (s t : Allocator) (as : List Allocation) : Prop where
  before : ∀ a ∈ as, ¬ Settled f cmd s a.key
  shared : ∀ a ∈ as, SharedFor f cmd s t a
  settled : ∀ k, Settled f cmd s k → t.entries k = s.entries k
  descs_subset : s.descs ⊆ t.descs

section Steps

variable {p : AllocParams} {f : Nat} {cmd : MemoryCommand} {s t u : Allocator} {a : Allocation}

/-- What is shared depends on the entry of the key and on the descriptors. -/
theorem SharedFor.congr (h : SharedFor f cmd s t a) (hbefore : u.entries a.key = s.entries a.key) {v : Allocator}
    (hafter : v.entries a.key = t.entries a.key) (hdescs : t.descs ⊆ v.descs) : SharedFor f cmd u v a := by
  unfold SharedFor at h ⊢
  split at h
  · obtain ⟨e, hentry, hcounted, hdesc⟩ := h
    exact ⟨e, hbefore.trans hentry, hafter.trans hcounted, hdescs hdesc⟩
  · exact ⟨hbefore.trans h.1, hafter.trans h.2⟩

theorem Settled.congr {k : Nat × Nat} (h : Settled f cmd s k) (hentries : t.entries k = s.entries k)
    (hdescs : s.descs ⊆ t.descs) : Settled f cmd t k := by
  unfold Settled at h ⊢
  split at h
  · obtain ⟨e, hentry, hdesc⟩ := h
    exact ⟨e, hentries.trans hentry, hdescs hdesc⟩
  · exact hentries ▸ h

theorem SharesAll.nil (f : Nat) (cmd : MemoryCommand) (s : Allocator) : SharesAll f cmd s s [] :=
  ⟨fun _ h => (nomatch h), fun _ h => (nomatch h), fun _ _ => rfl, fun _ => id⟩

/-- **One ioctl and then others**: they are about other keys, and keep what the first has done. -/
theorem SharesOne.cons {as : List Allocation} (h : SharesOne f cmd s t a) (h' : SharesAll f cmd t u as) :
    SharesAll f cmd s u (a :: as) := by
  have hne : ∀ b ∈ as, b.key ≠ a.key := fun b hb heq => h'.before b hb (heq ▸ h.after)
  refine ⟨fun b hb => ?_, fun b hb => ?_, fun k hk => ?_, fun _ hd => h'.descs_subset (h.descs_subset hd)⟩
  · rcases List.mem_cons.mp hb with rfl | hb
    · exact h.before
    · exact fun hset => h'.before b hb (hset.congr (h.others _ (hne b hb)) h.descs_subset)
  · rcases List.mem_cons.mp hb with rfl | hb
    · exact h.shared.congr rfl (h'.settled _ h.after) h'.descs_subset
    · exact (h'.shared b hb).congr (h.others _ (hne b hb)).symm rfl fun _ => id
  · have hother := h.others k (fun heq => h.before (heq ▸ hk))
    exact (h'.settled k (hk.congr hother h.descs_subset)).trans hother

theorem NothingLost.refl (f : Nat) (s : Allocator) : NothingLost f s s := ⟨fun _ => id, Nat.le_refl _⟩

theorem NothingLost.trans (h : NothingLost f s t) (h' : NothingLost f t u) : NothingLost f s u :=
  ⟨fun k hk => h'.entries_kept k (h.entries_kept k hk), h.registrations_le.trans h'.registrations_le⟩

theorem Grown.not_untouched (h : Grown f s t) (h' : NothingLost f t u) : ¬ Untouched f s u := by
  rintro ⟨hentries, hregistrations⟩
  rcases h.grown with ⟨k, hnone, hsome⟩ | hlt
  · exact h'.entries_kept k hsome (hentries ▸ hnone)
  · exact absurd (hregistrations ▸ h'.registrations_le) (Nat.not_le.mpr hlt)

theorem registrations_congr (h : t.descs = s.descs) : registrations f t = registrations f s := by
  rw [registrations, registrations, h]

theorem length_registrations_cons (h : t.descs = (f, a) :: s.descs) :
    (registrations f s).length < (registrations f t).length := by
  have hnew : registrations f t = (f, a) :: registrations f s := by
    rw [registrations, registrations, h, List.filter_cons, if_pos (decide_eq_true rfl)]
  rw [hnew]
  exact Nat.lt_succ_self _

/-- An entry is there after it has been written. -/
theorem update_ne_none {m : Nat × Nat → Option SharedEntry} {k₀ k : Nat × Nat} {e : SharedEntry}
    (h : k = k₀ ∨ m k ≠ none) : Function.update m k₀ (some e) k ≠ none := by
  by_cases hk : k = k₀
  · rw [hk, Function.update_self]
    exact Option.some_ne_none e
  · rw [Function.update_of_ne hk]
    exact h.resolve_left hk

/-- `MAKE_SHARED_ALLOC` makes an entry, or changes nothing. -/
theorem createEntry_step (f : Nat) (s : Allocator) (a : Allocation) (kzalloc : Bool) :
    let r := s.createEntry a kzalloc
    (r.ret = 0 ∧ Grown f s r.alloc ∧ SharesOne f .makeSharedAlloc s r.alloc a) ∨ (r.ret < 0 ∧ r.alloc = s) := by
  intro r
  rcases Allocator.createEntry_cases s a kzalloc with ⟨-, hnone, heq⟩ | ⟨-, hret, hsame⟩
  · rw [show r = _ from heq]
    have hnew : Function.update s.entries a.key (some ⟨{ a with isGlobal := 1 }, 1⟩) a.key ≠ none :=
      update_ne_none (.inl rfl)
    exact .inl ⟨rfl, ⟨⟨fun k hk => update_ne_none (.inr hk), Nat.le_refl _⟩, .inl ⟨a.key, hnone, hnew⟩⟩,
      fun hset => hset hnone, ⟨hnone, Function.update_self ..⟩, hnew, fun k hk => Function.update_of_ne hk ..,
        fun _ => id⟩
  · exact .inr ⟨(Allocator.createEntry_ret s a kzalloc).resolve_left hret, hsame⟩

/-- `GET_SHARED_ALLOC` registers the memory; if it fails it has changed nothing exactly if there is no entry. -/
theorem getSharedAlloc_step (s : Allocator) (a : Allocation) (kzalloc : Bool) :
    let r := s.getSharedAlloc f a kzalloc
    (r.ret = 0 ∧ Grown f s r.alloc ∧ SharesOne f .getSharedAlloc s r.alloc a) ∨
      (r.ret < 0 ∧ NothingLost f s r.alloc ∧ (Untouched f s r.alloc ↔ s.entries a.key = none)) := by
  intro r
  cases hentry : s.entries a.key with
  | none =>
      obtain ⟨hsame, hret⟩ := Allocator.getSharedAlloc_none hentry (f := f) kzalloc
      rw [show r.alloc = s from hsame]
      exact .inr ⟨(Allocator.getSharedAlloc_ret s a kzalloc).resolve_left hret, NothingLost.refl f s,
        iff_of_true ⟨rfl, rfl⟩ rfl⟩
  | some e =>
      obtain ⟨hentries, hcases⟩ := Allocator.getSharedAlloc_cases (f := f) hentry kzalloc
      have hlost : ∀ k, s.entries k ≠ none → r.alloc.entries k ≠ none := by
        intro k hk
        rw [show r.alloc.entries = _ from hentries]
        exact update_ne_none (.inr hk)
      rcases hcases with ⟨-, hnew, hret, -, hdescs⟩ | ⟨-, hret, hdescs⟩
      · have hlt := length_registrations_cons hdescs
        have hcounted : r.alloc.entries a.key = some { e with refCnt := e.refCnt + 1 } := by
          rw [show r.alloc.entries = _ from hentries, Function.update_self]
        have hdesc : (f, e.alloc) ∈ r.alloc.descs := by
          rw [show r.alloc.descs = _ from hdescs]
          exact List.mem_cons_self
        refine .inl ⟨hret, ⟨⟨hlost, hlt.le⟩, .inr hlt⟩, ?_, ⟨e, hentry, hcounted, hdesc⟩, ⟨_, hcounted, hdesc⟩, ?_, ?_⟩
        · rintro ⟨e', hentry', hdesc'⟩
          obtain rfl := Option.some.inj (hentry.symm.trans hentry')
          exact hnew (Allocator.mem_holders.mpr ⟨_, hdesc', rfl⟩)
        · intro k hk
          rw [show r.alloc.entries = _ from hentries, Function.update_of_ne hk]
        · rw [show r.alloc.descs = _ from hdescs]
          exact List.subset_cons_self _ _
      · refine .inr ⟨(Allocator.getSharedAlloc_ret s a kzalloc).resolve_left hret, ⟨hlost, ?_⟩,
          iff_of_false ?_ (by simp)⟩
        · exact (congrArg List.length (registrations_congr hdescs)).ge
        · -- the count has been incremented
          rintro ⟨hsame, -⟩
          have hcount := congrFun (hentries.symm.trans hsame) a.key
          rw [Function.update_self, hentry, Option.some.injEq] at hcount
          have hrefs := congrArg SharedEntry.refCnt hcount
          simp at hrefs

end Steps

/-! ## The loop -/

/-- The two commands that share. -/
def Shares (cmd : MemoryCommand) : Prop := cmd = .makeSharedAlloc ∨ cmd = .getSharedAlloc

section Loop

variable (p : AllocParams) (f : Nat) (choices : Nat → Device.Choices) (strerror : Nat → String) (cmd : MemoryCommand)

/-- The kernel as the device of file `f`, with any number of units. -/
def kernelAllocator (regionsCount : Nat) : RankedAllocator (Allocator × Nat) :=
  { device := .ofKernel p f choices strerror, regionsCount := regionsCount }

/-- Each of the ioctls succeeds. -/
def AllSucceed : Allocator × Nat → List PnmAllocation → Prop
  | _, []              => True
  | s, request :: rest =>
      match (Device.ofKernel p f choices strerror).ioctl cmd request s with
      | (.ok _, t)    => AllSucceed t rest
      | (.error _, _) => False

/-- An ioctl that fails is the first, and it has not found an entry whose references it counts. -/
def OnlyFirstFails : Allocator × Nat → List PnmAllocation → Prop
  | _, []              => True
  | s, request :: rest =>
      match (Device.ofKernel p f choices strerror).ioctl cmd request s with
      | (.ok _, t)    => AllSucceed p f choices strerror cmd t rest
      | (.error _, _) => cmd = .getSharedAlloc → s.1.entries (Device.copyFromUser request).key = none

variable {p f choices strerror cmd}

variable (p choices strerror) in
/-- **One ioctl** adds an entry or a registration, or fails. -/
theorem share_step (hcmd : Shares cmd) (request : PnmAllocation) (s : Allocator × Nat) :
    (∃ reply t, (Device.ofKernel p f choices strerror).ioctl cmd request s = (.ok reply, t) ∧ Grown f s.1 t.1 ∧
      SharesOne f cmd s.1 t.1 (Device.copyFromUser request)) ∨
    ∃ e t, (Device.ofKernel p f choices strerror).ioctl cmd request s = (.error e, t) ∧ NothingLost f s.1 t.1 ∧
      (Untouched f s.1 t.1 ↔ (cmd = .getSharedAlloc → s.1.entries (Device.copyFromUser request).key = none)) := by
  have hok : ∀ {r : Reply}, Device.processIoctl p f (choices s.2) cmd (Device.copyFromUser request) s.1 = r →
      r.ret = 0 → (Device.ofKernel p f choices strerror).ioctl cmd request s
        = (.ok (Device.copyToUser r.kreq), (r.alloc, s.2 + 1)) := by
    rintro r rfl hret
    exact Prod.ext (if_neg (by rw [hret]; decide)) rfl
  have herror : ∀ {r : Reply}, Device.processIoctl p f (choices s.2) cmd (Device.copyFromUser request) s.1 = r →
      r.ret < 0 → (Device.ofKernel p f choices strerror).ioctl cmd request s
        = (.error (-r.ret).toNat, (r.alloc, s.2 + 1)) := by
    rintro r rfl hret
    exact Prod.ext (if_pos hret) rfl
  rcases hcmd with rfl | rfl
  · rcases createEntry_step f s.1 (Device.copyFromUser request) (choices s.2).kzalloc with
      ⟨hret, hgrown, hentry⟩ | ⟨hret, hsame⟩
    · exact .inl ⟨_, _, hok rfl hret, hgrown, hentry⟩
    · refine .inr ⟨_, _, herror rfl hret, ?_, iff_of_true ?_ fun h => nomatch h⟩
      · change NothingLost f s.1 (s.1.createEntry _ _).alloc
        rw [hsame]
        exact NothingLost.refl f s.1
      · change Untouched f s.1 (s.1.createEntry _ _).alloc
        rw [hsame]
        exact ⟨rfl, rfl⟩
  · rcases getSharedAlloc_step (f := f) s.1 (Device.copyFromUser request) (choices s.2).kzalloc with
      ⟨hret, hgrown, hentry⟩ | ⟨hret, hlost, huntouched⟩
    · exact .inl ⟨_, _, hok rfl hret, hgrown, hentry⟩
    · exact .inr ⟨_, _, herror rfl hret, hlost, huntouched.trans ⟨fun h _ => h, fun h => h rfl⟩⟩

end Loop

namespace RankedAllocator

section Exec

variable {σ : Type} {a : RankedAllocator σ} {cmd : MemoryCommand} {slot : SequentialRegion} {request : PnmAllocation}
  {s t : σ}

theorem exec_shareSlot_none (h : slot.request = none) : (a.shareSlot cmd slot).exec s = (.ok {}, s) := by
  rw [shareSlot, h]
  rfl

theorem exec_shareSlot_ok {reply : PnmAllocation} (h : slot.request = some request)
    (hioctl : a.device.ioctl cmd request s = (.ok reply, t)) :
    (a.shareSlot cmd slot).exec s = (.ok (.ofReply reply.size reply), t) := by
  have hcall : (a.ioctl cmd request "Error").exec s = (.ok reply, t) := by rw [ioctl, Call.exec_ofExec, hioctl]
  rw [shareSlot, h]
  exact Call.exec_bind_ok hcall

theorem exec_shareSlot_error {e : Nat} (h : slot.request = some request)
    (hioctl : a.device.ioctl cmd request s = (.error e, t)) :
    ∃ err, (a.shareSlot cmd slot).exec s = (.error err, t) := by
  have hcall : ∃ err, (a.ioctl cmd request "Error").exec s = (.error err, t) := by
    rw [ioctl, Call.exec_ofExec, hioctl]
    exact ⟨_, rfl⟩
  obtain ⟨err, hcall⟩ := hcall
  rw [shareSlot, h]
  exact ⟨err, Call.exec_bind_error hcall⟩

theorem memoryOf_cons_none (h : slot.request = none) (rest : List SequentialRegion) :
    memoryOf (slot :: rest) = memoryOf rest := List.filterMap_cons_none h

theorem memoryOf_cons_some (h : slot.request = some request) (rest : List SequentialRegion) :
    memoryOf (slot :: rest) = request :: memoryOf rest := List.filterMap_cons_some h

end Exec

section Loop

variable {p : AllocParams} {f : Nat} {choices : Nat → Device.Choices} {strerror : Nat → String} {cmd : MemoryCommand}
  {n : Nat}

/-- **The loop** runs through exactly if each ioctl succeeds, and takes nothing away from the kernel. -/
theorem exec_mapM_shareSlot (hcmd : Shares cmd) (regions : List SequentialRegion) (s : Allocator × Nat) :
    (AllSucceed p f choices strerror cmd s (memoryOf regions) ∧ ∃ shared t,
      (regions.mapM ((kernelAllocator p f choices strerror n).shareSlot cmd)).exec s = (.ok shared, t) ∧
        NothingLost f s.1 t.1 ∧ SharesAll f cmd s.1 t.1 ((memoryOf regions).map Device.copyFromUser)) ∨
    (¬ AllSucceed p f choices strerror cmd s (memoryOf regions) ∧ ∃ e t,
      (regions.mapM ((kernelAllocator p f choices strerror n).shareSlot cmd)).exec s = (.error e, t) ∧
        NothingLost f s.1 t.1) := by
  induction regions generalizing s with
  | nil => exact .inl ⟨trivial, [], s, rfl, NothingLost.refl f s.1, SharesAll.nil f cmd s.1⟩
  | cons slot rest ih =>
      rw [List.mapM_cons]
      cases hrequest : slot.request with
      | none =>
          rw [memoryOf_cons_none hrequest, Call.exec_bind_ok (exec_shareSlot_none hrequest)]
          rcases ih s with ⟨hall, shared, t, hexec, hlost⟩ | ⟨hnot, e, t, hexec, hlost⟩
          · exact .inl ⟨hall, _, t, Call.exec_bind_ok hexec, hlost⟩
          · exact .inr ⟨hnot, e, t, Call.exec_bind_error hexec, hlost⟩
      | some request =>
          rw [memoryOf_cons_some hrequest, AllSucceed]
          rcases share_step p choices strerror hcmd request s with
            ⟨reply, u, hioctl, hgrown, hone⟩ | ⟨e, t, hioctl, hlost, -⟩
          · rw [hioctl, Call.exec_bind_ok (exec_shareSlot_ok hrequest hioctl)]
            rcases ih u with ⟨hall, shared, t, hexec, hlost, hshared⟩ | ⟨hnot, e, t, hexec, hlost⟩
            · exact .inl ⟨hall, _, t, Call.exec_bind_ok hexec, hgrown.toNothingLost.trans hlost, hone.cons hshared⟩
            · exact .inr ⟨hnot, e, t, Call.exec_bind_error hexec, hgrown.toNothingLost.trans hlost⟩
          · rw [hioctl]
            obtain ⟨err, hexec⟩ := exec_shareSlot_error (a := kernelAllocator p f choices strerror n) hrequest hioctl
            exact .inr ⟨id, err, t, Call.exec_bind_error hexec, hlost⟩

/-- The same with the first ioctl apart: nothing before it has left a trace. -/
theorem mapM_shareSlot_iff (hcmd : Shares cmd) (regions : List SequentialRegion) (s : Allocator × Nat) :
    (regions.mapM ((kernelAllocator p f choices strerror n).shareSlot cmd)).Ends s
      (fun _ t => ∀ request ∈ memoryOf regions, SharedFor f cmd s.1 t.1 (Device.copyFromUser request))
      (fun _ t => Untouched f s.1 t.1) ↔ OnlyFirstFails p f choices strerror cmd s (memoryOf regions) := by
  induction regions with
  | nil => exact iff_of_true (Call.ends_pure fun request h => nomatch h) trivial
  | cons slot rest ih =>
      cases hrequest : slot.request with
      | none =>
          rw [List.mapM_cons, memoryOf_cons_none hrequest, ← ih, Call.Ends,
            Call.exec_bind_ok (exec_shareSlot_none hrequest)]
          exact Call.ends_map _
      | some request =>
          rw [memoryOf_cons_some hrequest, OnlyFirstFails, ← memoryOf_cons_some hrequest]
          rcases share_step p choices strerror hcmd request s with
            ⟨reply, u, hioctl, hgrown, hone⟩ | ⟨e, t, hioctl, -, huntouched⟩
          · rw [hioctl]
            -- the first has left a trace: all the others have to succeed
            have hfirst := exec_shareSlot_ok (a := kernelAllocator p f choices strerror n) hrequest hioctl
            rcases exec_mapM_shareSlot (n := n) hcmd rest u with
              ⟨hall, shared, t, hexec, hlost, hshared⟩ | ⟨hnot, e, t, hexec, hlost⟩
            · refine iff_of_true ?_ hall
              rw [List.mapM_cons, Call.Ends, Call.exec_bind_ok hfirst, Call.exec_bind_ok hexec, Call.exec_pure,
                memoryOf_cons_some hrequest]
              intro r hr
              exact (hone.cons hshared).shared _ (List.mem_map_of_mem (f := Device.copyFromUser) hr)
            · refine iff_of_false ?_ hnot
              rw [List.mapM_cons, Call.Ends, Call.exec_bind_ok hfirst, Call.exec_bind_error hexec]
              exact hgrown.not_untouched hlost
          · rw [hioctl]
            obtain ⟨err, hexec⟩ := exec_shareSlot_error (a := kernelAllocator p f choices strerror n) hrequest hioctl
            rw [List.mapM_cons]
            exact (Call.ends_of_error (Call.exec_bind_error hexec)).trans huntouched

end Loop

end RankedAllocator

/-! ## Buffers -/

/-- The memory of a ranked region. -/
def DeviceRegion.memory : DeviceRegion → List PnmAllocation
  | .sequential _   => []
  | .ranked regions => RankedAllocator.memoryOf regions

/-- The memory that `make_shared` has to share. -/
def RegionBuffer.toShare (b : RegionBuffer) : List PnmAllocation :=
  if b.devRegion.isGlobal then [] else b.devRegion.value.memory

/-- A call that shares `memory` for file `f` succeeds for all of it, or fails and leaves the kernel untouched. -/
def AllOrNothing {α : Type} (f : Nat) (cmd : MemoryCommand) (memory : List PnmAllocation)
    (x : Call Error (Allocator × Nat) α) (s : Allocator × Nat) : Prop :=
  x.Ends s (fun _ t => ∀ request ∈ memory, SharedFor f cmd s.1 t.1 (Device.copyFromUser request))
    fun _ t => Untouched f s.1 t.1

section Buffers

variable {p : AllocParams} {f : Nat} {choices : Nat → Device.Choices} {strerror : Nat → String} {cmd : MemoryCommand}
  {n : Nat}

theorem sharingIoctl_iff (hcmd : Shares cmd) (region : DeviceRegion) (s : Allocator × Nat) :
    AllOrNothing f cmd region.memory ((kernelAllocator p f choices strerror n).sharingIoctl cmd region) s ↔
      OnlyFirstFails p f choices strerror cmd s region.memory := by
  cases region with
  | sequential region => exact iff_of_true (Call.ends_throw ⟨rfl, rfl⟩) trivial
  | ranked regions => exact (Call.ends_map _).trans (RankedAllocator.mapM_shareSlot_iff hcmd regions s)

theorem makeShared_iff (b : RegionBuffer) (s : Allocator × Nat) :
    AllOrNothing f .makeSharedAlloc b.toShare ((kernelAllocator p f choices strerror n).makeShared b) s ↔
      OnlyFirstFails p f choices strerror .makeSharedAlloc s b.toShare := by
  rw [RegionBuffer.toShare, RankedAllocator.makeShared]
  split
  · exact iff_of_true (Call.ends_pure fun request h => nomatch h) trivial
  · exact (Call.ends_map _).trans (sharingIoctl_iff (.inl rfl) b.devRegion.value s)

theorem bufferOfShared_iff (sizeofT : BitVec 64) (shared : SharedRegion) (s : Allocator × Nat) :
    AllOrNothing f .getSharedAlloc shared.region.memory
        ((kernelAllocator p f choices strerror n).bufferOfShared sizeofT shared) s ↔
      OnlyFirstFails p f choices strerror .getSharedAlloc s shared.region.memory :=
  (Call.ends_map _).trans (sharingIoctl_iff (.inr rfl) shared.region s)

end Buffers

/-- **All or nothing.** Sharing a buffer, and building one from shared memory, is all or nothing exactly if an ioctl
    that fails is that of the first unit with memory and, if it looks for an entry, there is none. -/
theorem sharing_all_or_nothing_iff (p : AllocParams) (f : Nat) (choices : Nat → Device.Choices)
    (strerror : Nat → String) (n : Nat) (s : Allocator × Nat) :
    (∀ b, AllOrNothing f .makeSharedAlloc b.toShare ((kernelAllocator p f choices strerror n).makeShared b) s ↔
      OnlyFirstFails p f choices strerror .makeSharedAlloc s b.toShare) ∧
    ∀ sizeofT shared,
      AllOrNothing f .getSharedAlloc shared.region.memory
          ((kernelAllocator p f choices strerror n).bufferOfShared sizeofT shared) s ↔
        OnlyFirstFails p f choices strerror .getSharedAlloc s shared.region.memory :=
  ⟨fun b => makeShared_iff b s, fun sizeofT shared => bufferOfShared_iff sizeofT shared s⟩

/-- A buffer with a page on each of two units. -/
def twoPages : RegionBuffer :=
  { size := 4096
    devRegion :=
      { value := .ranked
          [{ start := 0, size := 4096, location := some 0 }, { start := 0, size := 4096, location := some 1 }]
        ownerProcessId := 1
        owned := true
        isGlobal := false } }

/-- File 0 has shared its page on the first unit. -/
def sharedPage : Allocator :=
  { taken := fun _ i => i = 0
    returned := []
    descs := [(0, ⟨0, 4096, 0, 0⟩)]
    entries := fun k => if k = (0, 0) then some ⟨⟨0, 4096, 0, 1⟩, 1⟩ else none }

/-- The entry of the second unit cannot be allocated: that of the first stays. And a file that gets the page that it has
    shared itself is refused, but counted. -/
theorem sharing_leaves_traces :
    ¬ AllOrNothing 0 .makeSharedAlloc twoPages.toShare
      ((kernelAllocator onePool 0 (fun n => ⟨0, none, n == 0, 0⟩) (fun _ => "error") 2).makeShared twoPages)
      (.init, 0) ∧
    ¬ AllOrNothing 0 .getSharedAlloc twoPages.devRegion.value.memory
      ((kernelAllocator onePool 0 (fun _ => ⟨0, none, true, 0⟩) (fun _ => "error") 2).bufferOfShared 1
        (.ofRegion twoPages.devRegion.value))
      (sharedPage, 0) := by
  constructor
  · intro h
    exact (makeShared_iff twoPages _).mp h
  · intro h
    have hnone := (bufferOfShared_iff 1 (.ofRegion twoPages.devRegion.value) _).mp h rfl
    exact absurd hnone (by decide)

end Pnm.Core
