import Pnm.Kernel.Isolation
import Pnm.Kernel.RefCounts

/-!
# `Kernel.FailedIoctls` — what a memory ioctl that fails leaves behind

A memory ioctl changes the granules, the trees of the files and the shared pool one after another, and undoes nothing:
memory that cannot be registered stays taken, and a descriptor is gone before the pool is asked. `LeavesNoTrace` says
exactly which requests change nothing if a negative code is returned (`unchangedOnFailure_iff`), in any state.

What follows for whole runs is a statement of its own: a granule that is taken belongs to a registered allocation
(`Backed`). The exact condition on each event is `Accounted`. Both conditions are about the request and the records
before it: what the pool grants or takes back, the shared entry and its count, and who else has the granules.
-/

namespace Pnm.Kernel

open Pnm.Lib

def EFAULT : Int := 14

/-- Whether `copy_from_user` and `copy_to_user` succeed. -/
structure UserCopies where
  fromUser : Bool
  toUser : Bool

namespace Allocator

section Definitions

variable (p : AllocParams) (s : Allocator) (f : Nat)

/-- `mem_process_ioctl` with its two copies: the request is copied back only if the ioctl returns 0. -/
def userIoctl (copies : UserCopies) (io : MemIoctl) : Int × Allocator :=
  if copies.fromUser then
    let r := s.memProcessIoctl p f io
    if r.ret ≠ 0 then (r.ret, r.alloc)
    else if copies.toUser then (0, r.alloc)
    else (-EFAULT, r.alloc)
  else (-EFAULT, s)

/-- The granules, the registrations and the shared entries are what they were. -/
def Unchanged (s t : Allocator) : Prop := t.taken = s.taken ∧ t.descs = s.descs ∧ t.entries = s.entries

/-- If a negative code is returned, nothing has changed. -/
def UnchangedOnFailure (copies : UserCopies) (io : MemIoctl) : Prop :=
  (s.userIoctl p f copies io).1 < 0 → s.Unchanged (s.userIoctl p f copies io).2

/-- Whatever the ioctl has done by then, it does not fail. -/
def LeavesNoTrace (copies : UserCopies) : MemIoctl → Prop
  | .allocateMemory kreq mostFree found kzalloc =>
      ∀ b, Grants p (choosePool kreq mostFree) found b →
        kzalloc = true ∧ f ∉ s.holders b.key ∧ copies.toUser = true
  | .deallocateMemory kreq stale =>
      f ∈ s.holders kreq.key →
        s.OthersRefer kreq stale ∨ s.LastReference kreq stale ∧ PoolTakes p kreq ∧ copies.toUser = true
  | .makeSharedAlloc kreq kzalloc => kzalloc = true → s.entries kreq.key = none → copies.toUser = true
  | .getSharedAlloc kreq kzalloc =>
      ∀ e ∈ s.entries kreq.key, kzalloc = true ∧ f ∉ s.holders e.alloc.key ∧ copies.toUser = true

/-- A descriptor in the list has the granule. -/
def CoveredBy (descs : List (Nat × Allocation)) (idx i : Nat) : Prop := ∃ d ∈ descs, p.Covers d.2 idx i

/-- Every granule that is taken belongs to a registered allocation. -/
def Backed : Prop := ∀ idx i, s.taken idx i = true → CoveredBy p s.descs idx i

/-- What happens to the records: an ioctl on a file, or a turn of the loop of `release_process_resources`. -/
inductive Event where
  | ioctl (f : Nat) (copies : UserCopies) (io : MemIoctl)
  | release (d : Nat × Allocation) (stale : Int)

def next (s : Allocator) : Event → Option Allocator
  | .ioctl f copies io => if Counted.Possible p s io then some (s.userIoctl p f copies io).2 else none
  | .release d stale   => if s.descs.contains d then some (s.releaseDesc p d stale) else none

/-- Granule `i` of pool `idx` is taken, and `d` is the only descriptor that has it. -/
def SoleOwner (d : Nat × Allocation) (idx i : Nat) : Prop :=
  s.taken idx i = true ∧ p.Covers d.2 idx i ∧ ∀ e ∈ s.descs.erase d, ¬ p.Covers e.2 idx i

/-- What it takes to drop descriptor `d` and deallocate `a`: where `d` is the sole owner of a granule, the request
    gives up the last reference, the pool takes the memory and the request has the granule. -/
def GivesBack (d : Nat × Allocation) (a : Allocation) (stale : Int) : Prop :=
  ∀ idx i, s.SoleOwner p d idx i → s.LastReference a stale ∧ PoolTakes p a ∧ p.Covers a idx i

/-- No granule is left without a descriptor: memory that is granted can be registered or is that of other descriptors,
    and a descriptor goes with the granules it is the sole owner of. -/
def Accounted (s : Allocator) : Event → Prop
  | .ioctl f copies (.allocateMemory kreq mostFree found kzalloc) =>
      copies.fromUser = true → ∀ b, Grants p (choosePool kreq mostFree) found b →
        (kzalloc = true ∧ f ∉ s.holders b.key) ∨ ∀ idx i, p.Covers b idx i → CoveredBy p s.descs idx i
  | .ioctl f copies (.deallocateMemory kreq stale) =>
      copies.fromUser = true → ∀ d ∈ s.lookup f kreq, s.GivesBack p d kreq stale
  | .ioctl _ _ (.makeSharedAlloc _ _) | .ioctl _ _ (.getSharedAlloc _ _) => True
  | .release d stale => s.GivesBack p d d.2 stale

end Definitions

variable {p : AllocParams} {s t : Allocator} {f : Nat} {a : Allocation}

/-- What is taken after a deallocation: all but the granules of the request, if it is the last and the pool takes
    them. -/
theorem taken_deallocateMemoryUnsafe (s : Allocator) (a : Allocation) (stale : Int) (idx i : Nat) :
    (s.deallocateMemoryUnsafe p a stale).2.taken idx i = true ↔
      s.taken idx i = true ∧ ¬ ((s.LastReference a stale ∧ PoolTakes p a) ∧ p.Covers a idx i) := by
  rw [← (deallocateMemoryUnsafe_ret s a stale).1]
  rcases deallocateMemoryUnsafe_cases (p := p) s a stale with ⟨hret, htaken, -⟩ | ⟨hret, htaken, -⟩
  · rw [htaken]
    simp [genPoolFree, hret]
  · rw [htaken]
    simp [hret]

/-! ## Failed requests -/

/-- A reply that stands for a success whenever something has changed. -/
def CleanReply (s : Allocator) (copies : UserCopies) (r : Reply) : Prop :=
  ¬ s.Unchanged r.alloc → 0 ≤ r.ret ∧ (r.ret = 0 → copies.toUser = true)

theorem unchangedOnFailure_copied_iff {copies : UserCopies} (hcopied : copies.fromUser = true) (io : MemIoctl) :
    s.UnchangedOnFailure p f copies io ↔ s.CleanReply copies (s.memProcessIoctl p f io) := by
  rw [UnchangedOnFailure, userIoctl, if_pos hcopied]
  generalize s.memProcessIoctl p f io = r
  rw [CleanReply]
  by_cases hret : r.ret = 0
  · simp only [hret, ne_eq, not_true_eq_false, if_false]
    cases copies.toUser
    · simp [EFAULT]
    · simp
  · simp only [hret, ne_eq, not_false_eq_true, if_true, false_implies, and_true]
    rw [← not_lt, not_imp_not]

theorem unchanged_refl : s.Unchanged s := ⟨rfl, rfl, rfl⟩

/-- Granules that were free are taken. -/
theorem not_unchanged_of_granted {kreq : Allocation} (hpos : 0 < p.nrGranules kreq.size)
    (hfree : ∀ idx i, p.Covers kreq idx i → s.taken idx i = false) (htaken : t.taken = (s.genPoolAlloc p kreq).taken) :
    ¬ s.Unchanged t := by
  rintro ⟨hsame, -⟩
  have hfirst := p.covers_first hpos
  have hwas := hfree _ _ hfirst
  rw [← hsame, htaken] at hwas
  simp [genPoolAlloc, hfirst] at hwas

/-- A descriptor has gone. -/
theorem not_unchanged_of_erase {d : Nat × Allocation} (hd : d ∈ s.descs) (hdescs : t.descs = s.descs.erase d) :
    ¬ s.Unchanged t := by
  rintro ⟨-, hsame, -⟩
  have hlength := congrArg List.length (hsame.symm.trans hdescs)
  rw [List.length_erase_of_mem hd] at hlength
  have hpos := List.length_pos_of_mem hd
  omega

/-- An entry is another one. -/
theorem not_unchanged_of_entry {k : Nat × Nat} {entry : Option SharedEntry} (hne : entry ≠ s.entries k)
    (hentries : t.entries = Function.update s.entries k entry) : ¬ s.Unchanged t := by
  rintro ⟨-, -, hsame⟩
  rw [hentries] at hsame
  apply hne
  rw [← hsame, Function.update_self]

section Requests

variable {copies : UserCopies} {kreq : Allocation} {kzalloc : Bool}

theorem allocateMemory_clean_iff {mostFree : Nat} {found : Option Nat}
    (hfinds : s.Finds p (choosePool kreq mostFree) found) :
    s.CleanReply copies (s.allocateMemory p f kreq mostFree found kzalloc) ↔
      s.LeavesNoTrace p f copies (.allocateMemory kreq mostFree found kzalloc) := by
  rw [CleanReply, LeavesNoTrace, forall_grants_iff s]
  rcases poolMalloc_cases hfinds with ⟨hret, hsame⟩ | ⟨hret, halloc, -, hpos, hfree⟩
  · rw [allocateMemory_of_refused kzalloc hret, hsame]
    simp [unchanged_refl, hret]
  · obtain ⟨-, htaken, -, hregister⟩ := allocateMemory_of_granted (f := f) kzalloc hret
    rw [halloc] at htaken
    have hchanged := not_unchanged_of_granted hpos hfree htaken
    rcases hregister with ⟨⟨rfl, hnot⟩, hzero, -⟩ | ⟨hk, hneg, -⟩
    · simp [hret, hchanged, hzero, hnot]
    · rw [← and_assoc]
      simp [hret, hchanged, hneg, hk]

theorem deallocateMemory_clean_iff (stale : Int) :
    s.CleanReply copies (s.deallocateMemory p f kreq stale) ↔
      s.LeavesNoTrace p f copies (.deallocateMemory kreq stale) := by
  rw [CleanReply, LeavesNoTrace]
  cases hlookup : s.lookup f kreq with
  | none =>
      have hnot := lookup_eq_none.mp hlookup
      rw [deallocateMemory_none hnot]
      simp [unchanged_refl, hnot]
  | some d =>
      have hholds : f ∈ s.holders kreq.key := by
        by_contra hnot
        cases hlookup.symm.trans (lookup_eq_none.mpr hnot)
      rw [deallocateMemory_some hlookup]
      have hdescs := @deallocateMemoryUnsafe_descs p { s with descs := s.descs.erase d } kreq stale
      have hchanged := not_unchanged_of_erase (of_lookup hlookup).1 hdescs
      simp only [hchanged, hholds, not_false_eq_true, true_implies]
      obtain ⟨hzero, hpos⟩ := deallocateMemoryUnsafe_ret (p := p) { s with descs := s.descs.erase d } kreq stale
      -- a count that is left is returned as it is; 0 stands for memory that has been freed
      generalize ({ s with descs := s.descs.erase d }.deallocateMemoryUnsafe p kreq stale).1 = ret at hzero hpos ⊢
      change _ ↔ s.LastReference kreq stale ∧ PoolTakes p kreq at hzero
      change _ ↔ s.OthersRefer kreq stale at hpos
      rw [← hpos, ← and_assoc, ← hzero]
      constructor
      · rintro ⟨hle, hcopy⟩
        rcases hle.eq_or_lt with heq | hlt
        · exact .inr ⟨heq.symm, hcopy heq.symm⟩
        · exact .inl hlt
      · rintro (hlt | ⟨heq, hcopy⟩)
        · exact ⟨hlt.le, fun heq => absurd heq hlt.ne'⟩
        · exact ⟨heq.ge, fun _ => hcopy⟩

theorem createEntry_clean_iff :
    s.CleanReply copies (s.createEntry kreq kzalloc) ↔ s.LeavesNoTrace p f copies (.makeSharedAlloc kreq kzalloc) := by
  rw [CleanReply, LeavesNoTrace]
  rcases createEntry_cases s kreq kzalloc with ⟨rfl, hnone, heq⟩ | ⟨hrefused, -, hsame⟩
  · have hnew : some ⟨{ kreq with isGlobal := 1 }, 1⟩ ≠ s.entries kreq.key := hnone ▸ Option.some_ne_none _
    have hchanged := not_unchanged_of_entry hnew (congrArg (fun r => r.alloc.entries) heq)
    have hret : (s.createEntry kreq true).ret = 0 := congrArg Reply.ret heq
    simp [hchanged, hret, hnone]
  · rw [hsame]
    refine iff_of_true (fun hchanged => absurd unchanged_refl hchanged) ?_
    rintro rfl hnone
    exact absurd hnone (hrefused.resolve_left (by simp))

/-- The count is incremented before the allocation is registered. -/
theorem getSharedAlloc_clean_iff :
    s.CleanReply copies (s.getSharedAlloc f kreq kzalloc) ↔
      s.LeavesNoTrace p f copies (.getSharedAlloc kreq kzalloc) := by
  rw [CleanReply, LeavesNoTrace]
  cases hentry : s.entries kreq.key with
  | none =>
      rw [(getSharedAlloc_none hentry kzalloc).1]
      simp [unchanged_refl]
  | some e =>
      obtain ⟨hentries, hregister⟩ := getSharedAlloc_cases (f := f) hentry kzalloc
      have hnew : some { e with refCnt := e.refCnt + 1 } ≠ s.entries kreq.key := by
        rw [hentry]
        intro hsame
        have hcount := congrArg SharedEntry.refCnt (Option.some.inj hsame)
        simp at hcount
      have hchanged := not_unchanged_of_entry hnew hentries
      rcases hregister with ⟨rfl, hnot, hret, -⟩ | ⟨hk, hret, -⟩
      · simp [hchanged, hret, hnot]
      · have hneg := (getSharedAlloc_ret s kreq kzalloc).resolve_left hret
        refine iff_of_false (fun h => absurd hneg (not_lt.mpr (h hchanged).1)) fun h => ?_
        obtain ⟨rfl, hnot, -⟩ := h e rfl
        exact hnot (hk.resolve_left (by simp))

end Requests

/-- **Failed requests.** A request changes nothing if it fails, exactly if it leaves no trace or is not read at
    all. -/
theorem unchangedOnFailure_iff {copies : UserCopies} {io : MemIoctl} (hpossible : Counted.Possible p s io) :
    s.UnchangedOnFailure p f copies io ↔ (copies.fromUser = true → s.LeavesNoTrace p f copies io) := by
  cases hcopied : copies.fromUser with
  | false => simp [UnchangedOnFailure, userIoctl, hcopied, unchanged_refl]
  | true =>
      rw [unchangedOnFailure_copied_iff hcopied, imp_iff_right rfl]
      cases io with
      | allocateMemory kreq mostFree found kzalloc => exact allocateMemory_clean_iff hpossible
      | deallocateMemory kreq stale => exact deallocateMemory_clean_iff stale
      | makeSharedAlloc kreq kzalloc => exact createEntry_clean_iff
      | getSharedAlloc kreq kzalloc => exact getSharedAlloc_clean_iff

/-! ## Runs -/

/-- Descriptor `d` goes and `a` is deallocated, in whichever order. -/
theorem backed_drop_iff {d : Nat × Allocation} {stale : Int} (hbacked : s.Backed p)
    (hdescs : t.descs = s.descs.erase d)
    (htaken : ∀ idx i, t.taken idx i = true ↔
      s.taken idx i = true ∧ ¬ ((s.LastReference a stale ∧ PoolTakes p a) ∧ p.Covers a idx i)) :
    t.Backed p ↔ s.GivesBack p d a stale := by
  constructor
  · rintro h idx i ⟨hwas, -, hsole⟩
    rw [← and_assoc]
    by_contra hkept
    obtain ⟨e, he, hcovers⟩ := h idx i ((htaken idx i).mpr ⟨hwas, hkept⟩)
    exact hsole e (hdescs ▸ he) hcovers
  · intro h idx i hnow
    obtain ⟨hwas, hkept⟩ := (htaken idx i).mp hnow
    rw [hdescs]
    by_contra hsole
    obtain ⟨e, he, hcovers⟩ := hbacked idx i hwas
    have hed : e = d := by
      by_contra hne
      exact hsole ⟨e, (List.mem_erase_of_ne hne).mpr he, hcovers⟩
    obtain ⟨hlast, htakes, hfreed⟩ :=
      h idx i ⟨hwas, hed ▸ hcovers, fun e he hcovers => hsole ⟨e, he, hcovers⟩⟩
    exact hkept ⟨⟨hlast, htakes⟩, hfreed⟩

theorem backed_deallocateMemory_iff {stale : Int} (hbacked : s.Backed p) :
    (s.deallocateMemory p f a stale).alloc.Backed p ↔ ∀ d ∈ s.lookup f a, s.GivesBack p d a stale := by
  cases hlookup : s.lookup f a with
  | none =>
      rw [deallocateMemory_none (lookup_eq_none.mp hlookup)]
      exact iff_of_true hbacked (by simp)
  | some d =>
      rw [deallocateMemory_some hlookup]
      have htaken := taken_deallocateMemoryUnsafe (p := p) { s with descs := s.descs.erase d } a stale
      rw [backed_drop_iff hbacked deallocateMemoryUnsafe_descs htaken]
      simp

theorem backed_releaseDesc_iff {d : Nat × Allocation} {stale : Int} (hbacked : s.Backed p) :
    (s.releaseDesc p d stale).Backed p ↔ s.GivesBack p d d.2 stale :=
  backed_drop_iff hbacked releaseDesc_descs (taken_deallocateMemoryUnsafe s d.2 stale)

theorem backed_allocateMemory_iff {kreq : Allocation} {mostFree : Nat} {found : Option Nat} {kzalloc : Bool}
    (hbacked : s.Backed p) (hfinds : s.Finds p (choosePool kreq mostFree) found) :
    (s.allocateMemory p f kreq mostFree found kzalloc).alloc.Backed p ↔
      ∀ b, Grants p (choosePool kreq mostFree) found b →
        (kzalloc = true ∧ f ∉ s.holders b.key) ∨ ∀ idx i, p.Covers b idx i → CoveredBy p s.descs idx i := by
  rw [forall_grants_iff s]
  rcases poolMalloc_cases hfinds with ⟨hret, hsame⟩ | ⟨hret, halloc, -, -⟩
  · rw [allocateMemory_of_refused kzalloc hret, hsame]
    exact iff_of_true hbacked fun hzero => absurd hzero hret
  · obtain ⟨-, htaken, -, hregister⟩ := allocateMemory_of_granted (f := f) kzalloc hret
    have hnow : ∀ idx i, (s.allocateMemory p f kreq mostFree found kzalloc).alloc.taken idx i = true ↔
        s.taken idx i = true ∨ p.Covers (s.poolMalloc p (choosePool kreq mostFree) found).kreq idx i := by
      intro idx i
      rw [htaken, halloc]
      simp [genPoolAlloc]
    rw [imp_iff_right hret]
    rcases hregister with ⟨hregistered, -, hdescs⟩ | ⟨hnot, -, hdescs⟩
    · refine iff_of_true (fun idx i h => ?_) (.inl hregistered)
      rw [hdescs]
      rcases (hnow idx i).mp h with hwas | hcovers
      · obtain ⟨e, he, hcovers⟩ := hbacked idx i hwas
        exact ⟨e, List.mem_cons_of_mem _ he, hcovers⟩
      · exact ⟨_, List.mem_cons_self, hcovers⟩
    · rw [or_iff_right hnot, Backed, hdescs]
      constructor
      · exact fun h idx i hcovers => h idx i ((hnow idx i).mpr (.inr hcovers))
      · intro h idx i htaken
        rcases (hnow idx i).mp htaken with hwas | hcovers
        · exact hbacked idx i hwas
        · exact h idx i hcovers

/-- Sharing takes and frees nothing, and no descriptor goes. -/
theorem Backed.of_grown (hbacked : s.Backed p) (htaken : t.taken = s.taken) (hdescs : s.descs ⊆ t.descs) :
    t.Backed p := by
  intro idx i h
  rw [htaken] at h
  obtain ⟨d, hd, hcovers⟩ := hbacked idx i h
  exact ⟨d, hdescs hd, hcovers⟩

/-- The copy to the caller comes after everything else. -/
theorem userIoctl_alloc (copies : UserCopies) (io : MemIoctl) :
    (s.userIoctl p f copies io).2 = if copies.fromUser then (s.memProcessIoctl p f io).alloc else s := by
  rw [userIoctl]
  split
  · dsimp only
    split
    · rfl
    · split <;> rfl
  · rfl

/-- **One event.** It leaves every granule that is taken with a descriptor, exactly if it accounts for its own. -/
theorem backed_next_iff {e : Event} (hbacked : s.Backed p) (hnext : s.next p e = some t) :
    t.Backed p ↔ s.Accounted p e := by
  cases e with
  | release d stale =>
      obtain ⟨-, rfl⟩ := of_guarded hnext
      exact backed_releaseDesc_iff hbacked
  | ioctl f copies io =>
      obtain ⟨hpossible, rfl⟩ := of_guarded hnext
      rw [userIoctl_alloc]
      cases hcopied : copies.fromUser with
      | false =>
          refine iff_of_true hbacked ?_
          cases io <;> simp [Accounted, hcopied]
      | true =>
          rw [if_pos rfl]
          cases io with
          | allocateMemory kreq mostFree found kzalloc =>
              rw [Accounted, imp_iff_right hcopied]
              exact backed_allocateMemory_iff hbacked hpossible
          | deallocateMemory kreq stale =>
              rw [Accounted, imp_iff_right hcopied]
              exact backed_deallocateMemory_iff hbacked
          | makeSharedAlloc kreq kzalloc =>
              obtain ⟨htaken, hdescs⟩ := createEntry_frame s kreq kzalloc
              exact iff_of_true (hbacked.of_grown htaken fun _ hd => hdescs.symm ▸ hd) trivial
          | getSharedAlloc kreq kzalloc =>
              obtain ⟨htaken, hdescs⟩ := getSharedAlloc_frame s f kreq kzalloc
              exact iff_of_true (hbacked.of_grown htaken hdescs) trivial

theorem backed_init : init.Backed p := fun _ _ h => absurd h Bool.false_ne_true

/-- Every granule that is taken belongs to a registered allocation all along, exactly if every event accounts for
    its own. -/
theorem backed_along_iff (es : List Event) :
    Along (next p) (Backed p) init es ↔ Allowed (next p) (Accounted p) init es :=
  along_iff_allowed (fun _ _ _ hbacked hnext => (backed_next_iff hbacked hnext).mpr) (fun _ h => h)
    (fun _ _ _ hbacked hnext => (backed_next_iff hbacked hnext).mp) backed_init

/-- **What a failed request leaves behind.** In any state a request changes nothing if it fails, exactly if it leaves
    no trace or is not read at all; and along any run every granule that is taken belongs to a registered allocation,
    exactly if every event accounts for its own. -/
theorem failed_ioctls_iff (p : AllocParams) :
    (∀ s f copies io, Counted.Possible p s io →
      (s.UnchangedOnFailure p f copies io ↔ (copies.fromUser = true → s.LeavesNoTrace p f copies io))) ∧
    ∀ es, Along (next p) (Backed p) init es ↔ Allowed (next p) (Accounted p) init es :=
  ⟨fun _ _ _ _ hpossible => unchangedOnFailure_iff hpossible, backed_along_iff⟩

/-- File 0 asks for a page; the pool has granted the first one. -/
def allocatePage (kzalloc : Bool) : MemIoctl := .allocateMemory ⟨0, 4096, 0, 0⟩ 0 (some 0) kzalloc

/-- File 0 deallocates the page, and says that it is shared. -/
def deallocateShared : MemIoctl := .deallocateMemory ⟨0, 4096, 0, 1⟩ 0

/-- It deallocates the page. -/
def deallocatePage : MemIoctl := .deallocateMemory ⟨0, 4096, 0, 0⟩ 0

theorem allocatePage_possible : ∀ kzalloc, Counted.Possible onePool init (allocatePage kzalloc) := by
  decide

/-- The page is allocated. -/
def onePage : Allocator := (init.userIoctl onePool 0 ⟨true, true⟩ (allocatePage true)).2

theorem next_allocatePage (kzalloc : Bool) :
    init.next onePool (.ioctl 0 ⟨true, true⟩ (allocatePage kzalloc)) =
      some (init.userIoctl onePool 0 ⟨true, true⟩ (allocatePage kzalloc)).2 := by
  rw [next, if_pos (allocatePage_possible kzalloc)]

/-- File 0 allocates a page; file 1, which has none, deallocates it and fails; file 0 deallocates it. -/
theorem failed_ioctls_one_page :
    init.UnchangedOnFailure onePool 0 ⟨true, true⟩ (allocatePage true) ∧
      (onePage.userIoctl onePool 1 ⟨true, true⟩ deallocatePage).1 = -1 ∧
      onePage.UnchangedOnFailure onePool 1 ⟨true, true⟩ deallocatePage ∧
      (onePage.userIoctl onePool 0 ⟨true, true⟩ deallocatePage).1 = 0 ∧
      Along (next onePool) (Backed onePool) init
        [.ioctl 0 ⟨true, true⟩ (allocatePage true), .ioctl 1 ⟨true, true⟩ deallocatePage,
          .ioctl 0 ⟨true, true⟩ deallocatePage] := by
  obtain ⟨hfails, hruns⟩ := failed_ioctls_iff onePool
  refine ⟨?_, by decide, ?_, by decide, ?_⟩
  · exact (hfails _ 0 _ _ (allocatePage_possible true)).mpr fun _ _ _ => ⟨rfl, List.not_mem_nil, rfl⟩
  · refine (hfails onePage 1 _ deallocatePage trivial).mpr fun _ hholds => ?_
    exact absurd hholds (by decide)
  · refine (hruns _).mpr fun t ht => ⟨fun _ _ _ => .inl ⟨rfl, List.not_mem_nil⟩, ?_⟩
    obtain rfl := Option.some.inj ((next_allocatePage true).symm.trans ht)
    intro t ht
    refine ⟨fun _ d hd => (Option.not_mem_none d hd).elim, ?_⟩
    obtain rfl := Option.some.inj ht
    intro t _
    refine ⟨fun _ d hd idx i hsole => ?_, trivial⟩
    obtain rfl : (0, ⟨0, 4096, 0, 0⟩) = d := Option.some.inj hd
    exact ⟨fun hglobal => absurd hglobal (by decide), ⟨by decide, by decide⟩, hsole.2.1⟩

/-- `kzalloc` fails after the pool has granted the page: -1 is returned and the page stays taken, without a
    descriptor. And a page that is not shared is deallocated as if it were: `-ENOENT` is returned, the descriptor is
    gone and the page stays taken. -/
theorem failed_ioctls_leave_traces :
    (init.userIoctl onePool 0 ⟨true, true⟩ (allocatePage false)).1 = -1 ∧
    ¬ init.UnchangedOnFailure onePool 0 ⟨true, true⟩ (allocatePage false) ∧
    ¬ Along (next onePool) (Backed onePool) init [.ioctl 0 ⟨true, true⟩ (allocatePage false)] ∧
    (onePage.userIoctl onePool 0 ⟨true, true⟩ deallocateShared).1 = -ENOENT ∧
    ¬ onePage.UnchangedOnFailure onePool 0 ⟨true, true⟩ deallocateShared ∧
    ¬ Along (next onePool) (Backed onePool) init
      [.ioctl 0 ⟨true, true⟩ (allocatePage true), .ioctl 0 ⟨true, true⟩ deallocateShared] := by
  refine ⟨by decide, fun h => ?_, fun h => ?_, by decide, fun h => ?_, fun h => ?_⟩
  · have hsame := congrFun (congrFun (h (by decide)).1 0) 0
    exact absurd hsame (by decide)
  · obtain ⟨d, hd, -⟩ := (h.2 _ (next_allocatePage false)) 0 0 (by decide)
    cases hd
  · exact absurd (h (by decide)).2.1 (by decide)
  · obtain ⟨d, hd, -⟩ := ((h.2 _ (next_allocatePage true)).2 _ rfl) 0 0 (by decide)
    cases hd

end Allocator

end Pnm.Kernel
