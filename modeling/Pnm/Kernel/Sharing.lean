import Pnm.Kernel.Isolation
import Pnm.Kernel.Regions
import Pnm.Lib.Runs
import Mathlib.Data.Fintype.EquivFin

/-!
# `Kernel.Sharing` — shared memory is kept while a process has it

Processes that use the memory ioctls as they are meant to be used: a process shares and deallocates only what it has
obtained, with the copy that the kernel last returned to it, and when it exits its descriptors are released one by one.

Whether a release goes through the reference count is decided by a flag: by that of the process's copy in
`DEALLOCATE_MEMORY`, and by that of the descriptor at exit. Sharing sets the flag of the copy and not that of the
descriptor; so a process that shares an allocation and exits with it frees the memory under the others. If this does not
happen (`SafeRelease`), the count is at least the number of the files (`Inv`), and memory is freed only when nobody has
it registered (`shared_memory_kept`). Every other release leaves an entry of the shared pool without its memory, and the
next process that asks for it registers what is free (`safeRelease_iff`).
-/

namespace Pnm.Kernel

open Pnm.Lib

/-- The records, the allocations that processes hold as the kernel returned them, and the processes that have exited. -/
structure Processes where
  alloc : Allocator
  copies : List (Nat × Allocation)
  exited : Nat → Bool

/-- What processes do. -/
inductive ProcessEvent where
  | allocate (f : Nat) (kreq : Allocation) (mostFree : Nat) (found : Option Nat) (kzalloc : Bool)
  | makeShared (f : Nat) (copy : Allocation) (kzalloc : Bool)
  | getShared (f : Nat) (kreq : Allocation) (kzalloc : Bool)
  | deallocate (f : Nat) (copy : Allocation) (stale : Int)
  | exit (f : Nat)
  | cleanup (d : Nat × Allocation) (stale : Int)

namespace Processes

variable (p : AllocParams)

def init : Processes := { alloc := .init, copies := [], exited := fun _ => false }

/-- The copies without that of file `f` for the key. -/
def dropCopy (copies : List (Nat × Allocation)) (f : Nat) (k : Nat × Nat) : List (Nat × Allocation) :=
  copies.filter fun c => ¬ (c.1 = f ∧ c.2.key = k)

/-- One event. -/
def next (s : Processes) : ProcessEvent → Option Processes
  | .allocate f kreq mostFree found kzalloc =>
      if s.exited f = false ∧ s.alloc.Finds p (Allocator.choosePool kreq mostFree) found then
        let r := s.alloc.allocateMemory p f kreq mostFree found kzalloc
        some { s with alloc := r.alloc, copies := if r.ret = 0 then (f, r.kreq) :: s.copies else s.copies }
      else none
  | .makeShared f copy kzalloc =>
      if (f, copy) ∈ s.copies then
        let r := s.alloc.createEntry copy kzalloc
        some { s with
          alloc := r.alloc
          copies := if r.ret = 0 then (f, r.kreq) :: dropCopy s.copies f copy.key else s.copies }
      else none
  | .getShared f kreq kzalloc =>
      if s.exited f = false then
        let r := s.alloc.getSharedAlloc f kreq kzalloc
        some { s with alloc := r.alloc, copies := if r.ret = 0 then (f, r.kreq) :: s.copies else s.copies }
      else none
  | .deallocate f copy stale =>
      if (f, copy) ∈ s.copies then
        some { s with
          alloc := (s.alloc.deallocateMemory p f copy stale).alloc
          copies := dropCopy s.copies f copy.key }
      else none
  | .exit f =>
      some { s with copies := s.copies.filter (fun c => c.1 ≠ f), exited := Function.update s.exited f true }
  | .cleanup d stale =>
      if s.exited d.1 = true ∧ d ∈ s.alloc.descs then some { s with alloc := s.alloc.releaseDesc p d stale } else none

/-- All that is registered is taken. -/
def RegisteredTaken (s : Processes) : Prop :=
  ∀ d ∈ s.alloc.descs, ∀ idx i, p.Covers d.2 idx i → s.alloc.taken idx i = true

/-- The count that is left is not mistaken for 0 when it is returned as an `int`. -/
def CountFits (s : Allocator) (a : Allocation) : Prop :=
  ∀ e ∈ s.entries a.key, e.refCnt - 1 ≠ 0 → Allocator.toInt (e.refCnt - 1) ≠ 0

instance (s : Allocator) (a : Allocation) : Decidable (CountFits s a) :=
  inferInstanceAs (Decidable (∀ e ∈ s.entries a.key, _ → _))

/-- No process exits with an allocation that is shared and that it has registered without the flag; and counts fit. -/
def SafeRelease (s : Processes) : ProcessEvent → Prop
  | .deallocate _ copy _ => CountFits s.alloc copy
  | .cleanup d _         => CountFits s.alloc d.2 ∧ (d.2.isGlobal ≠ 1 → (s.alloc.entries d.2.key).isNone = true)
  | _                    => True

instance (s : Processes) : (e : ProcessEvent) → Decidable (s.SafeRelease e)
  | .deallocate _ _ _                                              => inferInstanceAs (Decidable (CountFits _ _))
  | .cleanup _ _                                                   => inferInstanceAs (Decidable (_ ∧ _))
  | .allocate _ _ _ _ _ | .makeShared _ _ _ | .getShared _ _ _ | .exit _ => isTrue trivial

end Processes

/-! ## The records -/

namespace Allocator

variable {p : AllocParams} {s t : Allocator} {f : Nat} {a : Allocation}

/-- A file has the allocation registered, or it is shared. -/
def Claimed (s : Allocator) (a : Allocation) : Prop :=
  (∃ f, (f, a) ∈ s.descs) ∨ ∃ k e, s.entries k = some e ∧ e.alloc = a

/-- The count of an entry is at least the number of the files, and without an entry there is at most one file. -/
structure Sound (p : AllocParams) (s : Allocator) : Prop where
  keys : ∀ k e, s.entries k = some e → e.alloc.key = k ∧ e.alloc.isGlobal = 1
  regions : Regions p s.Claimed s.taken
  counted : ∀ k e, s.entries k = some e → (s.holders k).length ≤ e.refCnt
  alone : ∀ k, s.entries k = none → (s.holders k).length ≤ 1

theorem sound_init : Sound p init where
  keys := fun _ _ h => (nomatch h)
  regions := by
    have hnone : ∀ a, ¬ init.Claimed a := by
      rintro a (⟨f, hf⟩ | ⟨k, e, he, -⟩)
      · exact nomatch hf
      · exact nomatch he
    exact ⟨fun a ha => absurd ha (hnone a), fun a ha => absurd ha (hnone a), fun a ha => absurd ha (hnone a),
      fun a _ ha => absurd ha (hnone a), fun a _ ha => absurd ha (hnone a)⟩
  counted := fun _ _ h => (nomatch h)
  alone := fun _ _ => Nat.zero_le 1

theorem length_holders_cons (hdescs : t.descs = (f, a) :: s.descs) (k : Nat × Nat) :
    (t.holders k).length = (s.holders k).length + if a.key = k then 1 else 0 := by
  rw [holders_cons hdescs]
  split <;> simp

/-- Nothing is claimed under a key that nobody has. -/
theorem Claimed.key_ne (ha : s.Claimed a) {k : Nat × Nat} (hkeys : ∀ k e, s.entries k = some e → e.alloc.key = k)
    (hholders : (s.holders k).length = 0) (hentry : s.entries k = none) : a.key ≠ k := by
  rintro rfl
  rcases ha with ⟨f, hf⟩ | ⟨k, e, he, rfl⟩
  · have hmem := mem_holders.mpr ⟨a, hf, rfl⟩
    rw [List.length_eq_zero_iff.mp hholders] at hmem
    exact nomatch hmem
  · rw [hkeys k e he] at hentry
    exact nomatch hentry.symm.trans he

/-- Memory that is free is not shared. -/
theorem Sound.entry_of_free (h : Sound p s) (hpos : 0 < p.nrGranules a.size)
    (hfree : ∀ idx i, p.Covers a idx i → s.taken idx i = false) : s.entries a.key = none := by
  by_contra hsome
  obtain ⟨e, he⟩ := Option.ne_none_iff_exists'.mp hsome
  exact h.regions.key_ne_of_free (.inr ⟨_, e, he, rfl⟩) hpos hfree (h.keys _ e he).1.symm

/-- Nobody has it registered. -/
theorem Sound.holders_of_free (h : Sound p s) (hpos : 0 < p.nrGranules a.size)
    (hfree : ∀ idx i, p.Covers a idx i → s.taken idx i = false) : s.holders a.key = [] := by
  refine List.eq_nil_iff_forall_not_mem.mpr fun g hg => ?_
  obtain ⟨c, hc, hkey⟩ := mem_holders.mp hg
  exact h.regions.key_ne_of_free (.inl ⟨g, hc⟩) hpos hfree hkey.symm

/-- **Allocation.** The memory is new, so it is not shared. -/
theorem Sound.allocateMemory (h : Sound p s) {kreq : Allocation} {mostFree : Nat} {found : Option Nat} (kzalloc : Bool)
    (hfinds : s.Finds p (choosePool kreq mostFree) found) :
    let r := s.allocateMemory p f kreq mostFree found kzalloc
    Sound p r.alloc ∧ (r.ret = 0 → s.entries r.kreq.key = none) := by
  have hmalloc := poolMalloc_cases hfinds
  simp only [Allocator.allocateMemory]
  generalize s.poolMalloc p (choosePool kreq mostFree) found = m at hmalloc ⊢
  obtain ⟨ret, b, alloc⟩ := m
  dsimp only at hmalloc ⊢
  rcases hmalloc with ⟨hret, rfl⟩ | ⟨rfl, rfl, htakes, hpos, hfree⟩
  · rw [if_pos hret]
    exact ⟨h, fun hzero => absurd hzero hret⟩
  · have hnone := h.entry_of_free hpos hfree
    have hholders := h.holders_of_free hpos hfree
    have hregions := h.regions.insert htakes hpos hfree
    rw [if_neg (by simp)]
    rcases registerAlloc_cases with ⟨-, -, heq⟩ | ⟨-, heq⟩
    · rw [heq]
      refine ⟨⟨h.keys, hregions.mono (fun c hc => ⟨c, ?_, rfl, rfl⟩) fun _ _ ht => ht, fun k e he => ?_,
        fun k hk => ?_⟩, fun _ => hnone⟩
      · rcases hc with ⟨g, hg⟩ | hc
        · rcases List.mem_cons.mp hg with heq | hg
          · exact .inl (Prod.mk.inj heq).2
          · exact .inr (.inl ⟨g, hg⟩)
        · exact .inr (.inr hc)
      · have hne : b.key ≠ k := by
          rintro rfl
          cases hnone.symm.trans he
        rw [length_holders_cons (s := s) rfl, if_neg hne]
        exact h.counted k e he
      · rw [length_holders_cons (s := s) rfl]
        split
        · rename_i hkey
          rw [← hkey, hholders]
          exact Nat.le_refl 1
        · exact h.alone k hk
    · rw [heq]
      refine ⟨⟨h.keys, h.regions.mono (fun c hc => ⟨c, hc, rfl, rfl⟩) fun idx i ht => ?_, h.counted, h.alone⟩, ?_⟩
      · simp [genPoolAlloc, ht]
      · intro hzero
        cases hzero

/-- **Sharing**, by a process that has the allocation registered. -/
theorem Sound.createEntry (h : Sound p s) (kzalloc : Bool)
    (ha : ∃ b, (f, b) ∈ s.descs ∧ b.key = a.key ∧ b.size = a.size) : Sound p (s.createEntry a kzalloc).alloc := by
  rcases s.createEntry_cases a kzalloc with ⟨-, hnone, hcreate⟩ | ⟨-, -, hsame⟩
  · rw [hcreate]
    refine ⟨fun k e he => ?_, h.regions.mono (fun b hb => ?_) fun _ _ ht => ht, fun k e he => ?_, fun k hk => ?_⟩
    · rcases of_update_eq_some he with ⟨rfl, hnew⟩ | ⟨-, hold⟩
      · obtain rfl := Option.some.inj hnew
        exact ⟨rfl, rfl⟩
      · exact h.keys k e hold
    · rcases hb with hb | ⟨k, e, he, rfl⟩
      · exact ⟨b, .inl hb, rfl, rfl⟩
      · rcases of_update_eq_some he with ⟨-, hnew⟩ | ⟨-, hold⟩
        · obtain rfl := Option.some.inj hnew
          obtain ⟨c, hc, hkey, hsize⟩ := ha
          exact ⟨c, .inl ⟨f, hc⟩, hkey, hsize⟩
        · exact ⟨e.alloc, .inr ⟨k, e, hold, rfl⟩, rfl, rfl⟩
    · rcases of_update_eq_some he with ⟨rfl, hnew⟩ | ⟨-, hold⟩
      · obtain rfl := Option.some.inj hnew
        have halone := h.alone _ hnone
        change ((s.holders a.key).length : Int) ≤ 1
        omega
      · exact h.counted k e hold
    · refine h.alone k ?_
      by_cases hka : k = a.key
      · rw [hka]
        exact hnone
      · exact (Function.update_of_ne hka ..).symm.trans hk
  · rw [hsame]
    exact h

/-- **A reference is taken**; the count grows, also if nothing is registered then. -/
theorem Sound.getSharedAlloc (h : Sound p s) (kzalloc : Bool) : Sound p (s.getSharedAlloc f a kzalloc).alloc := by
  cases hentry : s.entries a.key with
  | none =>
      rw [(getSharedAlloc_none hentry kzalloc).1]
      exact h
  | some e =>
      have hkey := (h.keys _ e hentry).1
      obtain ⟨hentries, hdescs⟩ := getSharedAlloc_cases (f := f) hentry kzalloc
      have htaken := (getSharedAlloc_frame s f a kzalloc).1
      generalize (s.getSharedAlloc f a kzalloc) = r at *
      -- one file more at most, and only under this key
      have hlength : ∀ k, (r.alloc.holders k).length ≤ (s.holders k).length + if a.key = k then 1 else 0 := by
        intro k
        rcases hdescs with ⟨-, -, -, -, hdescs⟩ | ⟨-, -, hdescs⟩
        · rw [length_holders_cons hdescs, hkey]
        · rw [holders, hdescs]
          exact Nat.le_add_right ..
      refine ⟨fun k e' he => ?_, h.regions.mono (fun b hb => ⟨b, ?_, rfl, rfl⟩) fun _ _ ht => htaken ▸ ht,
        fun k e' he => ?_, fun k hk => ?_⟩
      · rw [hentries] at he
        rcases of_update_eq_some he with ⟨rfl, hnew⟩ | ⟨-, hold⟩
        · obtain rfl := Option.some.inj hnew
          exact h.keys _ e hentry
        · exact h.keys k e' hold
      · rcases hb with ⟨g, hg⟩ | ⟨k, e', he, rfl⟩
        · rcases hdescs with ⟨-, -, -, -, hdescs⟩ | ⟨-, -, hdescs⟩
          · rw [hdescs] at hg
            rcases List.mem_cons.mp hg with heq | hg
            · exact .inr ⟨_, e, hentry, (Prod.mk.inj heq).2.symm⟩
            · exact .inl ⟨g, hg⟩
          · exact .inl ⟨g, hdescs ▸ hg⟩
        · rw [hentries] at he
          rcases of_update_eq_some he with ⟨rfl, hnew⟩ | ⟨-, hold⟩
          · obtain rfl := Option.some.inj hnew
            exact .inr ⟨_, e, hentry, rfl⟩
          · exact .inr ⟨k, e', hold, rfl⟩
      · rw [hentries] at he
        have hle := hlength k
        rcases of_update_eq_some he with ⟨rfl, hnew⟩ | ⟨hne, hold⟩
        · obtain rfl := Option.some.inj hnew
          have hcounted := h.counted _ e hentry
          rw [if_pos rfl] at hle
          dsimp only
          omega
        · have hcounted := h.counted k e' hold
          rw [if_neg hne.symm] at hle
          omega
      · rw [hentries] at hk
        have hne : k ≠ a.key := by
          rintro rfl
          rw [Function.update_self] at hk
          cases hk
        have hle := hlength k
        rw [Function.update_of_ne hne] at hk
        rw [if_neg hne.symm] at hle
        exact hle.trans (h.alone k hk)

/-- What a release through the reference count, or past it, does to the pool. -/
theorem deallocateMemoryUnsafe_taken (s : Allocator) (a : Allocation) (stale : Int) :
    (s.deallocateMemoryUnsafe p a stale).2.taken = s.taken ∨
      ((s.deallocateMemoryUnsafe p a stale).2.taken = (s.genPoolFree p a).taken ∧
        (a.isGlobal = 1 → ∃ e, s.entries a.key = some e ∧ (e.refCnt - 1 = 0 ∨ toInt (e.refCnt - 1) = 0))) := by
  rcases deallocateMemoryUnsafe_cases (p := p) s a stale with ⟨hret, htaken, -⟩ | ⟨-, htaken, -⟩
  · refine .inr ⟨htaken, fun hglobal => ?_⟩
    have hrc : (s.removeFromEntry a stale).1 = 0 := by
      by_contra hrc
      rw [deallocateMemoryUnsafe, if_pos hglobal] at hret
      dsimp only at hret
      rw [if_pos hrc] at hret
      exact hrc hret
    rw [removeFromEntry] at hrc
    split at hrc
    · cases hrc
    · rename_i e he
      refine ⟨e, he, ?_⟩
      split at hrc
      · rename_i hlast
        exact .inl hlast
      · exact .inr hrc
  · exact .inl htaken

/-- A request that does not look at the count, or takes what is left of it for 0, frees the memory and leaves the
    entry. -/
theorem deallocateMemoryUnsafe_frees {e : SharedEntry} (hentry : s.entries a.key = some e) (htakes : PoolTakes p a)
    (hcase : a.isGlobal ≠ 1 ∨ e.refCnt - 1 ≠ 0 ∧ toInt (e.refCnt - 1) = 0) (stale : Int) :
    (∃ e', (s.deallocateMemoryUnsafe p a stale).2.entries a.key = some e' ∧ e'.alloc = e.alloc) ∧
      (s.deallocateMemoryUnsafe p a stale).2.taken = (s.genPoolFree p a).taken := by
  constructor
  · rw [deallocateMemoryUnsafe_entries]
    split
    · rename_i hglobal
      have hleft := (hcase.resolve_left (not_not.mpr hglobal)).1
      rw [Function.update_self, hentry, Option.bind_some, if_neg hleft]
      exact ⟨_, rfl, rfl⟩
    · exact ⟨e, hentry, rfl⟩
  · have hlast : s.LastReference a stale := by
      intro hglobal
      obtain ⟨hleft, hzero⟩ := hcase.resolve_left (not_not.mpr hglobal)
      refine ⟨e, hentry, ?_⟩
      rw [refsLeft, if_neg (by omega)]
      exact hzero
    have hret := (deallocateMemoryUnsafe_ret (p := p) s a stale).1.mpr ⟨hlast, htakes⟩
    rcases deallocateMemoryUnsafe_cases (p := p) s a stale with ⟨-, htaken, -⟩ | ⟨hne, -, -⟩
    · exact htaken
    · exact absurd hret hne

/-- `t` is `s` after descriptor `d` was released, by a request for its allocation that goes through the reference
    count if the allocation is shared. -/
structure Released (p : AllocParams) (s t : Allocator) (d : Nat × Allocation) (a : Allocation) : Prop where
  mem : d ∈ s.descs
  key : d.2.key = a.key
  size : d.2.size = a.size
  flag : a.isGlobal ≠ 1 → s.entries a.key = none
  fits : Processes.CountFits s a
  descs : t.descs = s.descs.erase d
  entries : t.entries =
    if a.isGlobal = 1 then
      Function.update s.entries a.key
        ((s.entries a.key).bind fun e => if e.refCnt - 1 = 0 then none else some { e with refCnt := e.refCnt - 1 })
    else s.entries
  taken : t.taken = s.taken ∨ (t.taken = (s.genPoolFree p a).taken ∧
    (a.isGlobal = 1 → ∃ e, s.entries a.key = some e ∧ (e.refCnt - 1 = 0 ∨ toInt (e.refCnt - 1) = 0)))

namespace Released

variable {d : Nat × Allocation}

theorem length_holders (hr : Released p s t d a) (k : Nat × Nat) :
    (s.holders k).length = (t.holders k).length + if d.2.key = k then 1 else 0 := by
  rw [(holders_erase hr.mem hr.descs).length_eq]
  split <;> simp

/-- An entry that is left was there, and has lost the reference if it is the one. -/
theorem entry (hr : Released p s t d a) {k : Nat × Nat} {e' : SharedEntry} (he' : t.entries k = some e') :
    ∃ e, s.entries k = some e ∧ e'.alloc = e.alloc ∧ e'.refCnt = e.refCnt - if d.2.key = k then 1 else 0 := by
  rw [hr.entries] at he'
  split at he'
  · rcases of_update_eq_some he' with ⟨rfl, hnew⟩ | ⟨hne, hsame⟩
    · obtain ⟨e, he, hif⟩ := Option.bind_eq_some_iff.mp hnew
      split at hif
      · exact nomatch hif
      · obtain rfl := Option.some.inj hif
        exact ⟨e, he, rfl, by rw [if_pos hr.key]⟩
    · refine ⟨e', hsame, rfl, ?_⟩
      rw [if_neg (hr.key ▸ hne.symm), sub_zero]
  · rename_i hlocal
    refine ⟨e', he', rfl, ?_⟩
    have hne : d.2.key ≠ k := by
      rintro rfl
      rw [hr.key, hr.flag hlocal] at he'
      exact nomatch he'
    rw [if_neg hne, sub_zero]

/-- No other entry goes. -/
theorem entries_eq_none (hr : Released p s t d a) {k : Nat × Nat} (hk : k ≠ a.key) (hnone : t.entries k = none) :
    s.entries k = none := by
  rw [hr.entries] at hnone
  split at hnone
  · exact (Function.update_of_ne hk ..).symm.trans hnone
  · exact hnone

/-- Without the entry, the file was the last one. -/
theorem last (hr : Released p s t d a) (h : Sound p s) (hnone : t.entries a.key = none) :
    (t.holders a.key).length = 0 := by
  have hcount := hr.length_holders a.key
  rw [if_pos hr.key] at hcount
  cases hentry : s.entries a.key with
  | none =>
      have halone := h.alone _ hentry
      omega
  | some e =>
      have hglobal : a.isGlobal = 1 := by
        by_contra hlocal
        exact nomatch (hr.flag hlocal).symm.trans hentry
      rw [hr.entries, if_pos hglobal, Function.update_self, hentry, Option.bind_some] at hnone
      have hcounted := h.counted _ e hentry
      split at hnone
      · omega
      · exact nomatch hnone

/-- If the memory is freed, the entry is gone. -/
theorem gone (hr : Released p s t d a)
    (hzero : a.isGlobal = 1 → ∃ e, s.entries a.key = some e ∧ (e.refCnt - 1 = 0 ∨ toInt (e.refCnt - 1) = 0)) :
    t.entries a.key = none := by
  rw [hr.entries]
  split
  · rename_i hglobal
    obtain ⟨e, he, hcase⟩ := hzero hglobal
    have hone : e.refCnt - 1 = 0 := by
      by_contra hne
      exact hcase.elim hne (hr.fits e he hne)
    rw [Function.update_self, he, Option.bind_some, if_pos hone]
  · rename_i hlocal
    exact hr.flag hlocal

theorem claimed (hr : Released p s t d a) {b : Allocation} (hb : t.Claimed b) : s.Claimed b := by
  rcases hb with ⟨g, hg⟩ | ⟨k, e', he', rfl⟩
  · rw [hr.descs] at hg
    exact .inl ⟨g, List.mem_of_mem_erase hg⟩
  · obtain ⟨e, he, halloc, -⟩ := hr.entry he'
    exact .inr ⟨k, e, he, halloc.symm⟩

end Released

/-- **A reference is given up.** -/
theorem Sound.release {d : Nat × Allocation} (h : Sound p s) (hr : Released p s t d a) : Sound p t := by
  have hkeys : ∀ k e, t.entries k = some e → e.alloc.key = k ∧ e.alloc.isGlobal = 1 := by
    intro k e' he'
    obtain ⟨e, he, halloc, -⟩ := hr.entry he'
    rw [halloc]
    exact h.keys k e he
  refine ⟨hkeys, ?_, fun k e' he' => ?_, fun k hk => ?_⟩
  · rcases hr.taken with htaken | ⟨htaken, hzero⟩
    · rw [htaken]
      exact h.regions.mono (fun b hb => ⟨b, hr.claimed hb, rfl, rfl⟩) fun _ _ ht => ht
    · -- it is free for the others: nobody has it any more
      have hgone := hr.gone hzero
      rw [htaken]
      exact h.regions.free ⟨d.2, .inl ⟨d.1, hr.mem⟩, hr.key, hr.size⟩ fun b hb =>
        ⟨hr.claimed hb, hb.key_ne (fun k e he => (hkeys k e he).1) (hr.last h hgone) hgone⟩
  · obtain ⟨e, he, -, hrefs⟩ := hr.entry he'
    have hcounted := h.counted k e he
    have hlen := hr.length_holders k
    split at hrefs <;> split at hlen <;> omega
  · by_cases hka : k = a.key
    · rw [hka] at hk ⊢
      rw [hr.last h hk]
      exact Nat.zero_le 1
    · have halone := h.alone k (hr.entries_eq_none hka hk)
      have hlen := hr.length_holders k
      omega

/-- A release makes no entry. -/
theorem deallocateMemoryUnsafe_entries_ne_none {stale : Int} {k : Nat × Nat}
    (h : (s.deallocateMemoryUnsafe p a stale).2.entries k ≠ none) : s.entries k ≠ none := by
  rw [deallocateMemoryUnsafe_entries] at h
  split at h
  · by_cases hk : k = a.key
    · rw [hk, Function.update_self] at h
      rintro hnone
      rw [← hk, hnone] at h
      exact h rfl
    · rwa [Function.update_of_ne hk] at h
  · exact h

end Allocator

/-! ## The processes -/

namespace Processes

variable {p : AllocParams} {s : Processes}

/-- The records are sound, and every copy that a process has is of what it has registered, with the flag if it is
    shared; and there are always processes that run. -/
structure Inv (p : AllocParams) (s : Processes) : Prop where
  sound : s.alloc.Sound p
  registered : ∀ f c, (f, c) ∈ s.copies → ∃ b, (f, b) ∈ s.alloc.descs ∧ b.key = c.key ∧ b.size = c.size
  flagged : ∀ f c, (f, c) ∈ s.copies → s.alloc.entries c.key ≠ none → c.isGlobal = 1
  running : ∀ f c, (f, c) ∈ s.copies → s.exited f = false
  others : ∃ n, ∀ f, n ≤ f → s.exited f = false

theorem inv_init : Inv p init :=
  ⟨Allocator.sound_init, fun _ _ h => (nomatch h), fun _ _ h => (nomatch h), fun _ _ h => (nomatch h),
    ⟨0, fun _ _ => rfl⟩⟩

theorem Inv.kept (h : Inv p s) : s.RegisteredTaken p := fun d hd => h.sound.regions.taken d.2 (.inl ⟨d.1, hd⟩)

theorem mem_dropCopy {copies : List (Nat × Allocation)} {f g : Nat} {k : Nat × Nat} {c : Allocation} :
    (g, c) ∈ dropCopy copies f k ↔ (g, c) ∈ copies ∧ ¬ (g = f ∧ c.key = k) := by
  simp only [dropCopy, List.mem_filter, decide_eq_true_eq]

/-- A copy that was just obtained, beside those that were there. -/
theorem Inv.obtain (h : Inv p s) {alloc : Allocator} (hsound : alloc.Sound p) {f : Nat} {a : Allocation}
    (hrunning : s.exited f = false) (hdescs : alloc.descs = (f, a) :: s.alloc.descs)
    (hflag : alloc.entries a.key ≠ none → a.isGlobal = 1)
    (hentries : ∀ k, alloc.entries k ≠ none → s.alloc.entries k ≠ none) :
    Inv p { s with alloc := alloc, copies := (f, a) :: s.copies } := by
  refine ⟨hsound, fun g c hc => ?_, fun g c hc => ?_, fun g c hc => ?_, h.others⟩
  · rcases List.mem_cons.mp hc with heq | hc
    · obtain ⟨rfl, rfl⟩ := Prod.mk.inj heq
      exact ⟨c, hdescs ▸ List.mem_cons_self, rfl, rfl⟩
    · obtain ⟨b, hb, hsame⟩ := h.registered g c hc
      exact ⟨b, hdescs ▸ List.mem_cons_of_mem _ hb, hsame⟩
  · rcases List.mem_cons.mp hc with heq | hc
    · obtain ⟨rfl, rfl⟩ := Prod.mk.inj heq
      exact hflag
    · exact fun hne => h.flagged g c hc (hentries _ hne)
  · rcases List.mem_cons.mp hc with heq | hc
    · obtain ⟨rfl, rfl⟩ := Prod.mk.inj heq
      exact hrunning
    · exact h.running g c hc

/-- An ioctl that returns nothing to the process. -/
theorem Inv.fail (h : Inv p s) {alloc : Allocator} (hsound : alloc.Sound p) (hdescs : alloc.descs = s.alloc.descs)
    (hentries : ∀ k, alloc.entries k ≠ none → s.alloc.entries k ≠ none) : Inv p { s with alloc := alloc } :=
  ⟨hsound, fun g c hc => hdescs ▸ h.registered g c hc, fun g c hc hne => h.flagged g c hc (hentries _ hne), h.running,
    h.others⟩

theorem Inv.allocate (h : Inv p s) {f : Nat} {kreq : Allocation} {mostFree : Nat} {found : Option Nat} (kzalloc : Bool)
    (hrunning : s.exited f = false) (hfinds : s.alloc.Finds p (Allocator.choosePool kreq mostFree) found) :
    let r := s.alloc.allocateMemory p f kreq mostFree found kzalloc
    Inv p { s with alloc := r.alloc, copies := if r.ret = 0 then (f, r.kreq) :: s.copies else s.copies } := by
  intro r
  obtain ⟨hsound, hnone⟩ := h.sound.allocateMemory (f := f) kzalloc hfinds
  obtain ⟨hentries, ⟨hret, hdescs⟩ | ⟨hret, -, hdescs⟩⟩ :=
    s.alloc.allocateMemory_cases (p := p) (f := f) kreq mostFree found kzalloc
  · rw [if_neg hret]
    exact h.fail hsound hdescs fun k hne => hentries ▸ hne
  · rw [if_pos hret]
    refine h.obtain hsound hrunning hdescs (fun hne => absurd ?_ hne) fun k hne => hentries ▸ hne
    rw [hentries]
    exact hnone hret

/-- Sharing. Without an entry the process is the only one that has the allocation; its copy gets the flag. -/
theorem Inv.makeShared (h : Inv p s) {f : Nat} {copy : Allocation} (kzalloc : Bool) (hcopy : (f, copy) ∈ s.copies) :
    let r := s.alloc.createEntry copy kzalloc
    Inv p { s with
      alloc := r.alloc
      copies := if r.ret = 0 then (f, r.kreq) :: dropCopy s.copies f copy.key else s.copies } := by
  intro r
  obtain ⟨b, hb, hkey, hsize⟩ := h.registered f copy hcopy
  have hsound := h.sound.createEntry kzalloc ⟨b, hb, hkey, hsize⟩
  rcases s.alloc.createEntry_cases copy kzalloc with ⟨-, hnone, hcreate⟩ | ⟨-, hret, hsame⟩
  · have hr : r = _ := hcreate
    rw [hcreate] at hsound
    rw [hr, if_pos rfl]
    refine ⟨hsound, fun g c hc => ?_, fun g c hc hne => ?_, fun g c hc => ?_, h.others⟩
    · rcases List.mem_cons.mp hc with heq | hc
      · obtain ⟨rfl, rfl⟩ := Prod.mk.inj heq
        exact ⟨b, hb, hkey, hsize⟩
      · exact h.registered g c (mem_dropCopy.mp hc).1
    · rcases List.mem_cons.mp hc with heq | hc
      · obtain ⟨rfl, rfl⟩ := Prod.mk.inj heq
        rfl
      · obtain ⟨hc, hother⟩ := mem_dropCopy.mp hc
        refine h.flagged g c hc ?_
        by_cases hck : c.key = copy.key
        · -- a copy of another process: there would be two holders
          obtain ⟨b', hb', hkey', -⟩ := h.registered g c hc
          have halone := h.sound.alone _ hnone
          have hf : f ∈ s.alloc.holders copy.key := Allocator.mem_holders.mpr ⟨b, hb, hkey⟩
          have hg : g ∈ s.alloc.holders copy.key := Allocator.mem_holders.mpr ⟨b', hb', hkey'.trans hck⟩
          have hgf : g = f := by
            obtain ⟨x, hx⟩ := List.length_eq_one_iff.mp (le_antisymm halone (List.length_pos_of_mem hf))
            rw [hx, List.mem_singleton] at hf hg
            exact hg.trans hf.symm
          exact absurd ⟨hgf, hck⟩ hother
        · intro hold
          exact hne ((Function.update_of_ne hck ..).trans hold)
    · rcases List.mem_cons.mp hc with heq | hc
      · obtain ⟨rfl, rfl⟩ := Prod.mk.inj heq
        exact h.running g _ hcopy
      · exact h.running g c (mem_dropCopy.mp hc).1
  · rw [if_neg hret]
    exact h.fail hsound (by rw [hsame]) fun k hne => by rwa [hsame] at hne

theorem Inv.getShared (h : Inv p s) {f : Nat} (kreq : Allocation) (kzalloc : Bool) (hrunning : s.exited f = false) :
    let r := s.alloc.getSharedAlloc f kreq kzalloc
    Inv p { s with alloc := r.alloc, copies := if r.ret = 0 then (f, r.kreq) :: s.copies else s.copies } := by
  intro r
  have hsound : r.alloc.Sound p := h.sound.getSharedAlloc kzalloc
  cases hentry : s.alloc.entries kreq.key with
  | none =>
      obtain ⟨hsame, hret⟩ := Allocator.getSharedAlloc_none (f := f) hentry kzalloc
      rw [if_neg hret]
      exact h.fail hsound (by rw [hsame]) fun k hne => by rwa [hsame] at hne
  | some e =>
      obtain ⟨hentries, hcases⟩ := Allocator.getSharedAlloc_cases (f := f) hentry kzalloc
      have hold : ∀ k, r.alloc.entries k ≠ none → s.alloc.entries k ≠ none := by
        intro k hne hnone
        by_cases hk : k = kreq.key
        · rw [hk, hentry] at hnone
          exact nomatch hnone
        · refine hne ?_
          rw [hentries, Function.update_of_ne hk]
          exact hnone
      rcases hcases with ⟨-, -, hret, hkreq, hdescs⟩ | ⟨-, hret, hdescs⟩
      · rw [if_pos hret, hkreq]
        exact h.obtain hsound hrunning hdescs (fun _ => (h.sound.keys _ e hentry).2) hold
      · rw [if_neg hret]
        exact h.fail hsound hdescs hold

/-- What a process has a copy of is in its records. -/
theorem Inv.lookup (h : Inv p s) {f : Nat} {copy : Allocation} (hcopy : (f, copy) ∈ s.copies) :
    ∃ d, s.alloc.lookup f copy = some d ∧ d.2.size = copy.size := by
  obtain ⟨b, hb, hkey, hsize⟩ := h.registered f copy hcopy
  cases hlookup : s.alloc.lookup f copy with
  | none => exact absurd (Allocator.mem_holders.mpr ⟨b, hb, hkey⟩) (Allocator.lookup_eq_none.mp hlookup)
  | some d =>
      obtain ⟨hd, -, hdkey⟩ := Allocator.of_lookup hlookup
      refine ⟨d, rfl, Eq.trans ?_ hsize⟩
      exact h.sound.regions.same d.2 b (.inl ⟨d.1, hd⟩) (.inl ⟨f, hb⟩) (hdkey.trans hkey.symm)

theorem Inv.deallocate (h : Inv p s) {f : Nat} {copy : Allocation} (stale : Int) (hcopy : (f, copy) ∈ s.copies)
    (hfits : CountFits s.alloc copy) :
    Inv p { s with
      alloc := (s.alloc.deallocateMemory p f copy stale).alloc
      copies := dropCopy s.copies f copy.key } := by
  obtain ⟨d, hlookup, hdsize⟩ := h.lookup hcopy
  obtain ⟨hd, hfile, hdkey⟩ := Allocator.of_lookup hlookup
  have hflag : copy.isGlobal ≠ 1 → s.alloc.entries copy.key = none := by
    intro hlocal
    by_contra hsome
    exact hlocal (h.flagged f copy hcopy hsome)
  rw [Allocator.deallocateMemory_some hlookup]
  dsimp only
  have hsound := h.sound.release {
    mem := hd
    key := hdkey
    size := hdsize
    flag := hflag
    fits := hfits
    descs := Allocator.deallocateMemoryUnsafe_descs
    entries := Allocator.deallocateMemoryUnsafe_entries { s.alloc with descs := s.alloc.descs.erase d } copy stale
    taken := Allocator.deallocateMemoryUnsafe_taken { s.alloc with descs := s.alloc.descs.erase d } copy stale }
  refine ⟨hsound, fun g c hc => ?_, fun g c hc hne => ?_, fun g c hc => h.running g c (mem_dropCopy.mp hc).1,
    h.others⟩
  · obtain ⟨hc, hother⟩ := mem_dropCopy.mp hc
    obtain ⟨b', hb', hkey', hsize'⟩ := h.registered g c hc
    refine ⟨b', ?_, hkey', hsize'⟩
    change (g, b') ∈ (Allocator.deallocateMemoryUnsafe p _ copy stale).2.descs
    rw [Allocator.deallocateMemoryUnsafe_descs]
    refine (List.mem_erase_of_ne ?_).mpr hb'
    rintro rfl
    exact hother ⟨hfile, hkey'.symm.trans hdkey⟩
  · have hold := Allocator.deallocateMemoryUnsafe_entries_ne_none
      (s := { s.alloc with descs := s.alloc.descs.erase d }) hne
    exact h.flagged g c (mem_dropCopy.mp hc).1 hold

theorem Inv.cleanup (h : Inv p s) {d : Nat × Allocation} (stale : Int) (hexited : s.exited d.1 = true)
    (hd : d ∈ s.alloc.descs) (hfits : CountFits s.alloc d.2)
    (hflag : d.2.isGlobal ≠ 1 → (s.alloc.entries d.2.key).isNone = true) :
    Inv p { s with alloc := s.alloc.releaseDesc p d stale } := by
  have hsound := h.sound.release {
    mem := hd
    key := rfl
    size := rfl
    flag := fun hlocal => Option.isNone_iff_eq_none.mp (hflag hlocal)
    fits := hfits
    descs := Allocator.releaseDesc_descs
    entries := Allocator.deallocateMemoryUnsafe_entries s.alloc d.2 stale
    taken := Allocator.deallocateMemoryUnsafe_taken s.alloc d.2 stale }
  refine ⟨hsound, fun g c hc => ?_, fun g c hc hne => ?_, h.running, h.others⟩
  · obtain ⟨b, hb, hsame⟩ := h.registered g c hc
    refine ⟨b, ?_, hsame⟩
    change (g, b) ∈ (s.alloc.releaseDesc p d stale).descs
    rw [Allocator.releaseDesc_descs]
    refine (List.mem_erase_of_ne ?_).mpr hb
    rintro rfl
    exact nomatch (h.running g c hc).symm.trans hexited
  · exact h.flagged g c hc (Allocator.deallocateMemoryUnsafe_entries_ne_none hne)

/-- **One event.** -/
theorem Inv.next {t : Processes} {e : ProcessEvent} (h : Inv p s) (hnext : s.next p e = some t)
    (hsafe : s.SafeRelease e) : Inv p t := by
  cases e with
  | allocate f kreq mostFree found kzalloc =>
      obtain ⟨hguard, rfl⟩ := of_guarded hnext
      exact h.allocate kzalloc hguard.1 hguard.2
  | makeShared f copy kzalloc =>
      obtain ⟨hcopy, rfl⟩ := of_guarded hnext
      exact h.makeShared kzalloc hcopy
  | getShared f kreq kzalloc =>
      obtain ⟨hrunning, rfl⟩ := of_guarded hnext
      exact h.getShared kreq kzalloc hrunning
  | deallocate f copy stale =>
      obtain ⟨hcopy, rfl⟩ := of_guarded hnext
      exact h.deallocate stale hcopy hsafe
  | exit f =>
      obtain rfl := Option.some.inj hnext
      have hsub : ∀ g c, (g, c) ∈ s.copies.filter (fun c => c.1 ≠ f) → (g, c) ∈ s.copies ∧ g ≠ f := by
        intro g c hc
        simpa using hc
      refine ⟨h.sound, fun g c hc => h.registered g c (hsub g c hc).1, fun g c hc => h.flagged g c (hsub g c hc).1,
        fun g c hc => ?_, ?_⟩
      · obtain ⟨hmem, hne⟩ := hsub g c hc
        exact (Function.update_of_ne hne ..).trans (h.running g c hmem)
      · obtain ⟨n, hn⟩ := h.others
        refine ⟨max n (f + 1), fun g hg => ?_⟩
        exact (Function.update_of_ne (by omega) ..).trans (hn g (by omega))
  | cleanup d stale =>
      obtain ⟨hguard, rfl⟩ := of_guarded hnext
      exact h.cleanup stale hguard.1 hguard.2 hsafe.1 hsafe.2

/-- **Memory is kept while a process has it registered**, for any number of processes and any order of their ioctls and
    exits, if no process exits with an allocation that is shared and that it has registered without the flag. -/
theorem shared_memory_kept (p : AllocParams) (es : List ProcessEvent) (h : Allowed (next p) SafeRelease init es) :
    Along (next p) (RegisteredTaken p) init es :=
  h.along (fun _ _ _ => Inv.next) (fun _ => Inv.kept) inv_init

/-- Process 0 shares a page with process 1, deallocates it and exits; process 1 exits with it. -/
theorem shared_memory_kept_two_processes : Along (next onePool) (RegisteredTaken onePool) init
    [.allocate 0 ⟨0, 4096, 0, 0⟩ 0 (some 0) true, .makeShared 0 ⟨0, 4096, 0, 0⟩ true,
      .getShared 1 ⟨0, 4096, 0, 0⟩ true, .deallocate 0 ⟨0, 4096, 0, 1⟩ 0, .exit 0, .exit 1,
      .cleanup (1, ⟨0, 4096, 0, 1⟩) 0] :=
  shared_memory_kept onePool _ (by decide)

/-- Process 0 shares a page with process 1 and exits. -/
theorem shared_memory_lost : ¬ Along (next onePool) (RegisteredTaken onePool) init
    [.allocate 0 ⟨0, 4096, 0, 0⟩ 0 (some 0) true, .makeShared 0 ⟨0, 4096, 0, 0⟩ true,
      .getShared 1 ⟨0, 4096, 0, 0⟩ true, .exit 0, .cleanup (0, ⟨0, 4096, 0, 0⟩) 0] := by
  intro h
  have hlast := h.of_foldlM rfl (1, ⟨0, 4096, 0, 1⟩) (by decide) 0 0 (by decide)
  exact nomatch hlast

/-! ## The converse -/

/-- Some process that is none of these runs. -/
theorem Inv.exists_running (h : Inv p s) (files : List Nat) : ∃ g, s.exited g = false ∧ g ∉ files := by
  obtain ⟨n, hn⟩ := h.others
  obtain ⟨g, hg⟩ := Infinite.exists_notMem_finset (Finset.range n ∪ files.toFinset)
  rw [Finset.mem_union, not_or, Finset.mem_range, List.mem_toFinset, Nat.not_lt] at hg
  exact ⟨g, hn g hg.1, hg.2⟩

/-- An entry whose memory is free: the next process gets it. -/
theorem canBreak_of_free {a : Allocation} {e : SharedEntry} (hentry : s.alloc.entries a.key = some e)
    (hkey : e.alloc.key = a.key) (hpos : 0 < p.nrGranules e.alloc.size)
    (hfree : ∀ idx i, p.Covers e.alloc idx i → s.alloc.taken idx i = false) {g : Nat} (hrunning : s.exited g = false)
    (hg : g ∉ s.alloc.holders a.key) : CanBreak (next p) SafeRelease (RegisteredTaken p) s := by
  refine .of_next (e := .getShared g a true) (if_pos hrunning) (fun _ => trivial) (.of_not fun htaken => ?_)
  obtain ⟨-, ⟨-, -, -, -, hdescs⟩ | ⟨hcase, -⟩⟩ := Allocator.getSharedAlloc_cases (f := g) hentry true
  · have hfirst := p.covers_first hpos
    have hset := htaken (g, e.alloc) (hdescs ▸ List.mem_cons_self) _ _ hfirst
    dsimp only at hset
    rw [(Allocator.getSharedAlloc_frame ..).1, hfree _ _ hfirst] at hset
    exact nomatch hset
  · rw [hkey] at hcase
    exact hg (hcase.resolve_left (by simp))

/-- A release that frees the memory and leaves the entry. -/
theorem Inv.canBreak (h : Inv p s) {t : Processes} {d : Nat × Allocation} {a : Allocation} {e : SharedEntry}
    (descs : List (Nat × Allocation)) (stale : Int) (hd : d ∈ s.alloc.descs) (hkey : d.2.key = a.key)
    (hsize : d.2.size = a.size) (hentry : s.alloc.entries a.key = some e)
    (hcase : a.isGlobal ≠ 1 ∨ e.refCnt - 1 ≠ 0 ∧ Allocator.toInt (e.refCnt - 1) = 0) (hexited : t.exited = s.exited)
    (hentries : t.alloc.entries = ({ s.alloc with descs := descs }.deallocateMemoryUnsafe p a stale).2.entries)
    (htaken : t.alloc.taken = ({ s.alloc with descs := descs }.deallocateMemoryUnsafe p a stale).2.taken) :
    CanBreak (Processes.next p) SafeRelease (RegisteredTaken p) t := by
  have hclaimed : s.alloc.Claimed d.2 := .inl ⟨d.1, hd⟩
  have hshared : s.alloc.Claimed e.alloc := .inr ⟨_, e, hentry, rfl⟩
  have hekey := (h.sound.keys _ e hentry).1
  have hesize := h.sound.regions.same e.alloc d.2 hshared hclaimed (hekey.trans hkey.symm)
  obtain ⟨⟨e', he', halloc⟩, hfreed⟩ := Allocator.deallocateMemoryUnsafe_frees (s := { s.alloc with descs := descs })
    hentry ((h.sound.regions.back d.2 hclaimed).congr hkey hsize) hcase stale
  obtain ⟨g, hrunning, hg⟩ := h.exists_running (t.alloc.holders a.key)
  refine canBreak_of_free (hentries ▸ he') (halloc ▸ hekey) (halloc ▸ h.sound.regions.nonempty _ hshared) ?_
    (hexited ▸ hrunning) hg
  intro idx i hcovers
  rw [halloc, p.covers_congr hekey (by rw [hesize, hsize])] at hcovers
  rw [htaken, hfreed]
  simp [Allocator.genPoolFree, hcovers]

/-- **The condition is exact**: a sequence of events meets it exactly if nowhere on its way events that meet it could
    lead to a process that has memory registered which is free. -/
theorem safeRelease_iff (p : AllocParams) (es : List ProcessEvent) :
    Allowed (next p) SafeRelease init es ↔
      Along (next p) (fun s => ∀ es', Allowed (next p) SafeRelease s es' → Along (next p) (RegisteredTaken p) s es')
        init es := by
  refine allowed_iff_along_safe (fun _ _ _ => Inv.next) (fun _ => Inv.kept) (fun s e t h hnext hnot => ?_) inv_init
  cases e with
  | deallocate f copy stale =>
      obtain ⟨hcopy, rfl⟩ := of_guarded hnext
      rw [SafeRelease, CountFits] at hnot
      push Not at hnot
      obtain ⟨e, hentry, hcount⟩ := hnot
      obtain ⟨d, hlookup, hsize⟩ := h.lookup hcopy
      obtain ⟨hd, -, hkey⟩ := Allocator.of_lookup hlookup
      refine h.canBreak (s.alloc.descs.erase d) stale hd hkey hsize hentry (.inr hcount) rfl ?_ ?_
      · rw [Allocator.deallocateMemory_some hlookup]
      · rw [Allocator.deallocateMemory_some hlookup]
  | cleanup d stale =>
      obtain ⟨⟨-, hd⟩, rfl⟩ := of_guarded hnext
      obtain ⟨e, hentry, hcase⟩ : ∃ e, s.alloc.entries d.2.key = some e ∧
          (d.2.isGlobal ≠ 1 ∨ e.refCnt - 1 ≠ 0 ∧ Allocator.toInt (e.refCnt - 1) = 0) := by
        rw [SafeRelease, CountFits, not_and_or] at hnot
        push Not at hnot
        rcases hnot with ⟨e, hentry, hcount⟩ | ⟨hlocal, hsome⟩
        · exact ⟨e, hentry, .inr hcount⟩
        · obtain ⟨e, hentry⟩ := Option.ne_none_iff_exists'.mp (Option.isNone_iff_eq_none.not.mp hsome)
          exact ⟨e, hentry, .inl hlocal⟩
      exact h.canBreak s.alloc.descs stale hd rfl rfl hentry hcase rfl rfl rfl
  | _ => exact absurd trivial hnot

end Processes

end Pnm.Kernel
