import Pnm.Kernel.Alloc
import Pnm.Lib.Runs

/-!
# `Kernel.RefCounts` — the reference counts of the shared pool

The count of an entry and the trees of the files are updated one after the other, and nothing is undone if the second
update fails. This module says exactly which ioctls keep them in step (`Keeps`), over every sequence of ioctls on any
number of files (`refcounts_exact_iff`). The argument is about one key at a time: an ioctl changes the count, the
holders and the entry of one key (`exact_iff_of_frame`), and there it is a matter of numbers (`KeyExact`).
-/

namespace Pnm.Kernel

open Pnm.Lib

/-- The number of files that have the key registered. -/
def Allocator.count (s : Allocator) (k : Nat × Nat) : Nat := (s.holders k).toFinset.card

/-- The records, and which keys are shared: made shared, and registered by some file ever since. -/
structure Counted where
  alloc : Allocator
  shared : Nat × Nat → Bool

/-- For `n` files: the entry counts them, and exists exactly while the allocation is shared and their number
    positive. -/
def KeyExact (n : Nat) (entry : Option SharedEntry) (shared : Bool) : Prop :=
  (∀ e ∈ entry, e.refCnt = n) ∧ (entry.isSome = true ↔ shared = true ∧ 0 < n)

namespace Counted

variable (p : AllocParams)

def init : Counted := { alloc := .init, shared := fun _ => false }

def Exact (t : Counted) : Prop := ∀ k, KeyExact (t.alloc.count k) (t.alloc.entries k) (t.shared k)

/-- `gen_pool_alloc` finds free granules only. -/
def Possible (s : Allocator) : MemIoctl → Prop
  | .allocateMemory kreq mostFree found _ => s.Finds p (Allocator.choosePool kreq mostFree) found
  | _                                     => True

instance (s : Allocator) : (io : MemIoctl) → Decidable (Possible p s io)
  | .allocateMemory _ _ _ _                                         => inferInstanceAs (Decidable (s.Finds p _ _))
  | .deallocateMemory _ _ | .makeSharedAlloc _ _ | .getSharedAlloc _ _ => isTrue trivial

/-- The ioctl makes the key shared. -/
def makes (ret : Int) : MemIoctl → Nat × Nat → Bool
  | .makeSharedAlloc kreq _, k => ret = 0 ∧ kreq.key = k
  | _, _                       => false

/-- The records after an ioctl. -/
def after (t : Counted) (s : Allocator) (made : Nat × Nat → Bool) : Counted :=
  { alloc := s, shared := fun k => (t.shared k || made k) && decide (0 < s.count k) }

/-- An ioctl on file `e.1`. -/
def next (t : Counted) (e : Nat × MemIoctl) : Option Counted :=
  if Possible p t.alloc e.2 then
    let r := t.alloc.memProcessIoctl p e.1 e.2
    some (t.after r.alloc (makes r.ret e.2))
  else none

/-- What keeps the counts exact: memory that is granted and registered has no entry yet, an allocation that is made
    shared is registered by one file, a file that takes a reference can register it, and a file that gives one up says
    so. -/
def Keeps (t : Counted) (e : Nat × MemIoctl) : Prop :=
  match e.2 with
  | .allocateMemory kreq mostFree found kzalloc =>
      ∀ b, Allocator.Grants p (Allocator.choosePool kreq mostFree) found b →
        kzalloc = true → e.1 ∉ t.alloc.holders b.key → t.alloc.entries b.key = none
  | .makeSharedAlloc kreq kzalloc =>
      kzalloc = true → t.alloc.entries kreq.key = none → t.alloc.count kreq.key = 1
  | .getSharedAlloc kreq kzalloc =>
      (t.alloc.entries kreq.key).isSome = true → kzalloc = true ∧ e.1 ∉ t.alloc.holders kreq.key
  | .deallocateMemory kreq _ =>
      e.1 ∈ t.alloc.holders kreq.key → (t.alloc.entries kreq.key).isSome = true → kreq.isGlobal = 1

end Counted

/-! ## One key -/

section Key

variable {n : Nat} {entry : Option SharedEntry} {shared : Bool}

/-- Nothing happens to the key. -/
theorem KeyExact.same (h : KeyExact n entry shared) : KeyExact n entry ((shared || false) && decide (0 < n)) := by
  refine ⟨h.1, h.2.trans ?_⟩
  simp

/-- The number changes and the entry does not. -/
theorem keyExact_changed_iff {m : Nat} (h : KeyExact n entry shared) (hlive : shared = true → 0 < n) (hne : m ≠ n) :
    KeyExact m entry ((shared || false) && decide (0 < m)) ↔ entry = none := by
  cases entry with
  | none =>
      have hfalse : shared = false := by
        by_contra hs
        rw [Bool.not_eq_false] at hs
        exact nomatch h.2.mpr ⟨hs, hlive hs⟩
      simp [KeyExact, hfalse]
  | some e =>
      have hcount := h.1 e rfl
      simp only [reduceCtorEq, iff_false]
      intro hnew
      have hnext := hnew.1 e rfl
      omega

theorem keyExact_create_iff (a : Allocation) :
    KeyExact n (some ⟨a, 1⟩) ((shared || true) && decide (0 < n)) ↔ n = 1 := by
  constructor
  · intro h
    have hcount := h.1 _ rfl
    dsimp only at hcount
    omega
  · rintro rfl
    simp [KeyExact]

theorem KeyExact.get {e : SharedEntry} (h : KeyExact n (some e) shared) :
    KeyExact (n + 1) (some { e with refCnt := e.refCnt + 1 }) ((shared || false) && decide (0 < n + 1)) := by
  have hcount := h.1 e rfl
  have hshared := (h.2.mp rfl).1
  simp [KeyExact, hcount, hshared]

theorem not_keyExact_get {e : SharedEntry} (h : KeyExact n (some e) shared) (shared' : Bool) :
    ¬ KeyExact n (some { e with refCnt := e.refCnt + 1 }) shared' := by
  intro hnew
  have hcount := h.1 e rfl
  have hnext := hnew.1 _ rfl
  dsimp only at hnext
  omega

/-- A file gives its reference up. -/
theorem KeyExact.remove {e : SharedEntry} (h : KeyExact (n + 1) (some e) shared) :
    KeyExact n (if e.refCnt - 1 = 0 then none else some { e with refCnt := e.refCnt - 1 })
      ((shared || false) && decide (0 < n)) := by
  have hcount := h.1 e rfl
  have hshared := (h.2.mp rfl).1
  by_cases hn : n = 0
  · subst hn
    rw [if_pos (by omega)]
    simp [KeyExact]
  · rw [if_neg (by omega)]
    simp [KeyExact, hcount, hshared, Nat.pos_of_ne_zero hn]

end Key

namespace Allocator

variable {s t : Allocator} {f : Nat} {a : Allocation} {k : Nat × Nat}

theorem count_congr (h : t.descs = s.descs) : t.count k = s.count k := by
  rw [count, count, holders, holders, h]

theorem count_cons (hf : f ∉ s.holders a.key) (hdescs : t.descs = (f, a) :: s.descs) :
    t.count k = s.count k + if a.key = k then 1 else 0 := by
  rw [count, count, holders_cons hdescs]
  by_cases hk : a.key = k
  · subst hk
    rw [if_pos rfl, if_pos rfl, List.toFinset_cons, Finset.card_insert_of_notMem (by simpa using hf)]
  · rw [if_neg hk, if_neg hk, Nat.add_zero]

theorem count_erase (hnodup : (s.holders k).Nodup) {d : Nat × Allocation} (hd : d ∈ s.descs)
    (hdescs : t.descs = s.descs.erase d) : s.count k = t.count k + if d.2.key = k then 1 else 0 := by
  have hperm := holders_erase (k := k) hd hdescs
  rw [count, count, List.toFinset_eq_of_perm _ _ hperm]
  by_cases hk : d.2.key = k
  · rw [if_pos hk] at hperm ⊢
    have hnot := (List.nodup_cons.mp (hperm.nodup_iff.mp hnodup)).1
    rw [if_pos hk, List.toFinset_cons, Finset.card_insert_of_notMem (by simpa using hnot)]
  · rw [if_neg hk, if_neg hk, Nat.add_zero]

theorem nodup_holders_cons (h : ∀ k, (s.holders k).Nodup) (hf : f ∉ s.holders a.key)
    (hdescs : t.descs = (f, a) :: s.descs) (k : Nat × Nat) : (t.holders k).Nodup := by
  rw [holders_cons hdescs]
  split
  · rename_i hk
    exact List.nodup_cons.mpr ⟨hk ▸ hf, h k⟩
  · exact h k

theorem nodup_holders_erase (h : ∀ k, (s.holders k).Nodup) {d : Nat × Allocation}
    (hdescs : t.descs = s.descs.erase d) (k : Nat × Nat) : (t.holders k).Nodup := by
  have hsub : (t.holders k).Sublist (s.holders k) := by
    rw [holders, holders, hdescs]
    exact (List.erase_sublist.filter _).map _
  exact (h k).sublist hsub

end Allocator

/-- An entry is where it is searched. -/
theorem key_of_update {m : Nat × Nat → Option SharedEntry} (h : ∀ k e, m k = some e → e.alloc.key = k) {k₀ : Nat × Nat}
    {entry : Option SharedEntry} (hentry : ∀ e, entry = some e → e.alloc.key = k₀) :
    ∀ k e, Function.update m k₀ entry k = some e → e.alloc.key = k := by
  intro k e he
  rcases Allocator.of_update_eq_some he with ⟨rfl, hnew⟩ | ⟨-, hold⟩
  · exact hentry e hnew
  · exact h k e hold

/-! ## The ioctls -/

namespace Counted

variable {p : AllocParams} {t : Counted}

/-- Counts are exact, a file has a key once, and entries are where they are searched. -/
structure Inv (t : Counted) : Prop where
  exact : t.Exact
  nodup : ∀ k, (t.alloc.holders k).Nodup
  keys : ∀ k e, t.alloc.entries k = some e → e.alloc.key = k
  live : ∀ k, t.shared k = true → 0 < t.alloc.count k

theorem inv_init : Inv init where
  exact := fun _ => ⟨fun _ h => (nomatch h), ⟨fun h => (nomatch h), fun h => (nomatch h.1)⟩⟩
  nodup := fun _ => List.nodup_nil
  keys := fun _ _ h => (nomatch h)
  live := fun _ h => (nomatch h)

/-- **Other keys** are as exact as they were. -/
theorem Inv.exact_iff_of_frame (h : Inv t) {s : Allocator} {made : Nat × Nat → Bool} (k₀ : Nat × Nat)
    (hframe : ∀ k, k ≠ k₀ → s.count k = t.alloc.count k ∧ s.entries k = t.alloc.entries k ∧ made k = false) :
    (t.after s made).Exact ↔
      KeyExact (s.count k₀) (s.entries k₀) ((t.shared k₀ || made k₀) && decide (0 < s.count k₀)) := by
  refine ⟨fun hexact => hexact k₀, fun hkey k => ?_⟩
  by_cases hk : k = k₀
  · subst hk
    exact hkey
  · obtain ⟨hcount, hentry, hmade⟩ := hframe k hk
    change KeyExact (s.count k) (s.entries k) ((t.shared k || made k) && decide (0 < s.count k))
    rw [hcount, hentry, hmade]
    exact (h.exact k).same

/-- Nothing has changed. -/
theorem Inv.exact_of_same (h : Inv t) {s : Allocator} (hdescs : s.descs = t.alloc.descs)
    (hentries : s.entries = t.alloc.entries) : (t.after s fun _ => false).Exact := by
  refine (h.exact_iff_of_frame (0, 0) fun k _ => ⟨Allocator.count_congr hdescs, by rw [hentries], rfl⟩).mpr ?_
  rw [Allocator.count_congr hdescs, hentries]
  exact (h.exact (0, 0)).same

theorem Inv.exact_allocate_iff (h : Inv t) (f : Nat) (kreq : Allocation) (mostFree : Nat) (found : Option Nat)
    (kzalloc : Bool) :
    (t.after (t.alloc.allocateMemory p f kreq mostFree found kzalloc).alloc fun _ => false).Exact ↔
      t.Keeps p (f, .allocateMemory kreq mostFree found kzalloc) := by
  rw [Keeps]
  dsimp only
  rw [Allocator.forall_grants_iff t.alloc]
  obtain hgranted | hrefused := eq_or_ne (t.alloc.poolMalloc p (Allocator.choosePool kreq mostFree) found).ret 0
  · obtain ⟨-, -, hentries, ⟨⟨hk, hnot⟩, -, hdescs⟩ | ⟨hnot, -, hdescs⟩⟩ :=
      Allocator.allocateMemory_of_granted (f := f) kzalloc hgranted
    · generalize (t.alloc.poolMalloc p (Allocator.choosePool kreq mostFree) found).kreq = b at *
      rw [h.exact_iff_of_frame b.key, Allocator.count_cons hnot hdescs, if_pos rfl, hentries,
        keyExact_changed_iff (h.exact _) (h.live _) (Nat.succ_ne_self _)]
      · exact ⟨fun hnone _ _ _ => hnone, fun hkeeps => hkeeps hgranted hk hnot⟩
      · intro k hk
        rw [Allocator.count_cons hnot hdescs, if_neg hk.symm, hentries]
        exact ⟨rfl, rfl, rfl⟩
    · exact iff_of_true (h.exact_of_same hdescs hentries) fun _ hk hfree => absurd ⟨hk, hfree⟩ hnot
  · rw [Allocator.allocateMemory_of_refused kzalloc hrefused]
    exact iff_of_true (h.exact_of_same Allocator.poolMalloc_descs Allocator.poolMalloc_entries)
      fun hzero => absurd hzero hrefused

theorem Inv.exact_make_iff (h : Inv t) (f : Nat) (kreq : Allocation) (kzalloc : Bool) :
    (t.after (t.alloc.createEntry kreq kzalloc).alloc
      (makes (t.alloc.createEntry kreq kzalloc).ret (.makeSharedAlloc kreq kzalloc))).Exact ↔
      t.Keeps p (f, .makeSharedAlloc kreq kzalloc) := by
  rw [Keeps]
  dsimp only
  rcases t.alloc.createEntry_cases kreq kzalloc with ⟨hk, hnone, hcreate⟩ | ⟨hfail, hret, hsame⟩
  · rw [hcreate, h.exact_iff_of_frame kreq.key]
    · have hmade : makes 0 (.makeSharedAlloc kreq kzalloc) kreq.key = true := by simp [makes]
      dsimp only
      rw [Function.update_self, hmade, keyExact_create_iff]
      exact ⟨fun hone _ _ => hone, fun hkeeps => hkeeps hk hnone⟩
    · intro k hne
      refine ⟨Allocator.count_congr rfl, Function.update_of_ne hne .., ?_⟩
      simp [makes, hne.symm]
  · have hmakes : makes (t.alloc.createEntry kreq kzalloc).ret (.makeSharedAlloc kreq kzalloc) = fun _ => false := by
      funext k
      simp [makes, hret]
    rw [hmakes]
    refine iff_of_true (h.exact_of_same (by rw [hsame]) (by rw [hsame])) fun hk hnone => ?_
    rcases hfail with hfail | hfail
    · exact nomatch hfail.symm.trans hk
    · exact absurd hnone hfail

theorem Inv.exact_get_iff (h : Inv t) (f : Nat) (kreq : Allocation) (kzalloc : Bool) :
    (t.after (t.alloc.getSharedAlloc f kreq kzalloc).alloc fun _ => false).Exact ↔
      t.Keeps p (f, .getSharedAlloc kreq kzalloc) := by
  rw [Keeps]
  dsimp only
  cases hentry : t.alloc.entries kreq.key with
  | none =>
      have hsame := (Allocator.getSharedAlloc_none (f := f) hentry kzalloc).1
      exact iff_of_true (h.exact_of_same (by rw [hsame]) (by rw [hsame])) (by simp)
  | some e =>
      have hkey : e.alloc.key = kreq.key := h.keys _ e hentry
      have hexact := h.exact kreq.key
      rw [hentry] at hexact
      obtain ⟨hentries, ⟨hk, hnot, -, -, hdescs⟩ | ⟨hk, -, hdescs⟩⟩ :=
        Allocator.getSharedAlloc_cases (f := f) hentry kzalloc
      · rw [hkey] at hnot
        refine iff_of_true ?_ fun _ => ⟨hk, hnot⟩
        rw [h.exact_iff_of_frame kreq.key, Allocator.count_cons (hkey ▸ hnot) hdescs, if_pos hkey, hentries,
          Function.update_self]
        · exact hexact.get
        · intro k hne
          rw [Allocator.count_cons (hkey ▸ hnot) hdescs, if_neg (hkey ▸ hne.symm), hentries,
            Function.update_of_ne hne]
          exact ⟨rfl, rfl, rfl⟩
      · rw [hkey] at hk
        refine iff_of_false ?_ ?_
        · intro hnew
          have hbad := hnew kreq.key
          change KeyExact ((t.alloc.getSharedAlloc f kreq kzalloc).alloc.count kreq.key)
            ((t.alloc.getSharedAlloc f kreq kzalloc).alloc.entries kreq.key) _ at hbad
          rw [Allocator.count_congr hdescs, hentries, Function.update_self] at hbad
          exact not_keyExact_get hexact _ hbad
        · intro hkeeps
          obtain ⟨hmem, hnot⟩ := hkeeps rfl
          rcases hk with hk | hk
          · exact nomatch hk.symm.trans hmem
          · exact hnot hk

theorem Inv.exact_deallocate_iff (h : Inv t) (f : Nat) (kreq : Allocation) (stale : Int) :
    (t.after (t.alloc.deallocateMemory p f kreq stale).alloc fun _ => false).Exact ↔
      t.Keeps p (f, .deallocateMemory kreq stale) := by
  rw [Keeps]
  dsimp only
  by_cases hf : f ∈ t.alloc.holders kreq.key
  · cases hlookup : t.alloc.lookup f kreq with
    | none => exact absurd hf (Allocator.lookup_eq_none.mp hlookup)
    | some d =>
        obtain ⟨hd, -, hkey⟩ := Allocator.of_lookup hlookup
        rw [Allocator.deallocateMemory_some hlookup]
        dsimp only
        have hdescs : ({ t.alloc with descs := t.alloc.descs.erase d }.deallocateMemoryUnsafe p kreq stale).2.descs =
            t.alloc.descs.erase d := Allocator.deallocateMemoryUnsafe_descs
        have hentries := Allocator.deallocateMemoryUnsafe_entries (p := p)
          { t.alloc with descs := t.alloc.descs.erase d } kreq stale
        generalize ({ t.alloc with descs := t.alloc.descs.erase d }.deallocateMemoryUnsafe p kreq stale).2 = s at *
        dsimp only at hentries
        have hcount := fun k => Allocator.count_erase (h.nodup k) hd hdescs
        have hn : t.alloc.count kreq.key = s.count kreq.key + 1 := by rw [hcount, if_pos hkey]
        have hexact := h.exact kreq.key
        rw [hn] at hexact
        have hchanged := keyExact_changed_iff hexact (fun _ => Nat.succ_pos _) (Nat.succ_ne_self _).symm
        rw [h.exact_iff_of_frame kreq.key]
        · by_cases hglobal : kreq.isGlobal = 1
          · refine iff_of_true ?_ fun _ _ => hglobal
            rw [hentries, if_pos hglobal, Function.update_self]
            cases hentry : t.alloc.entries kreq.key with
            | none =>
                rw [hentry] at hchanged
                exact hchanged.mpr rfl
            | some e =>
                rw [hentry] at hexact
                exact hexact.remove
          · rw [hentries, if_neg hglobal, hchanged]
            constructor
            · intro hnone _ hsome
              rw [hnone] at hsome
              exact nomatch hsome
            · intro hkeeps
              by_contra hsome
              exact hglobal (hkeeps hf (Option.isSome_iff_ne_none.mpr hsome))
        · intro k hk
          refine ⟨?_, ?_, rfl⟩
          · rw [hcount k, if_neg (hkey ▸ hk.symm), Nat.add_zero]
          · rw [hentries]
            split
            · exact Function.update_of_ne hk ..
            · rfl
  · rw [Allocator.deallocateMemory_none hf]
    exact iff_of_true (h.exact_of_same rfl rfl) fun hmem => absurd hmem hf

/-- **An ioctl keeps the counts exact if and only if it meets the condition.** -/
theorem Inv.exact_next_iff {t' : Counted} {e : Nat × MemIoctl} (h : Inv t) (hnext : t.next p e = some t') :
    t'.Exact ↔ t.Keeps p e := by
  obtain ⟨-, rfl⟩ := of_guarded hnext
  obtain ⟨f, io⟩ := e
  cases io with
  | allocateMemory kreq mostFree found kzalloc => exact h.exact_allocate_iff f kreq mostFree found kzalloc
  | deallocateMemory kreq stale => exact h.exact_deallocate_iff f kreq stale
  | makeSharedAlloc kreq kzalloc => exact h.exact_make_iff f kreq kzalloc
  | getSharedAlloc kreq kzalloc => exact h.exact_get_iff f kreq kzalloc

/-- A file has a key once, and entries are where they are searched, whatever happens. -/
theorem Inv.wellFormed (h : Inv t) (f : Nat) (io : MemIoctl) :
    (∀ k, ((t.alloc.memProcessIoctl p f io).alloc.holders k).Nodup) ∧
      ∀ k e, (t.alloc.memProcessIoctl p f io).alloc.entries k = some e → e.alloc.key = k := by
  cases io with
  | allocateMemory kreq mostFree found kzalloc =>
      obtain ⟨hentries, ⟨-, hdescs⟩ | ⟨-, hnot, hdescs⟩⟩ :=
        t.alloc.allocateMemory_cases (p := p) (f := f) kreq mostFree found kzalloc
      · refine ⟨fun k => ?_, fun k e he => h.keys k e (congrFun hentries k ▸ he)⟩
        rw [Allocator.holders, Allocator.memProcessIoctl, hdescs]
        exact h.nodup k
      · exact ⟨Allocator.nodup_holders_cons h.nodup hnot hdescs, fun k e he => h.keys k e (congrFun hentries k ▸ he)⟩
  | deallocateMemory kreq stale =>
      cases hlookup : t.alloc.lookup f kreq with
      | none =>
          rw [Allocator.memProcessIoctl, Allocator.deallocateMemory_none (Allocator.lookup_eq_none.mp hlookup)]
          exact ⟨h.nodup, h.keys⟩
      | some d =>
          rw [Allocator.memProcessIoctl, Allocator.deallocateMemory_some hlookup]
          refine ⟨Allocator.nodup_holders_erase h.nodup Allocator.deallocateMemoryUnsafe_descs, ?_⟩
          dsimp only
          rw [Allocator.deallocateMemoryUnsafe_entries]
          split
          · refine key_of_update h.keys fun e he => ?_
            obtain ⟨old, hold, hif⟩ := Option.bind_eq_some_iff.mp he
            split at hif
            · cases hif
            · obtain rfl := Option.some.inj hif
              exact h.keys _ old hold
          · exact h.keys
  | makeSharedAlloc kreq kzalloc =>
      rcases t.alloc.createEntry_cases kreq kzalloc with ⟨-, -, hcreate⟩ | ⟨-, -, hsame⟩
      · rw [Allocator.memProcessIoctl, hcreate]
        refine ⟨h.nodup, key_of_update h.keys fun e he => ?_⟩
        obtain rfl := Option.some.inj he
        rfl
      · rw [Allocator.memProcessIoctl, hsame]
        exact ⟨h.nodup, h.keys⟩
  | getSharedAlloc kreq kzalloc =>
      cases hentry : t.alloc.entries kreq.key with
      | none =>
          rw [Allocator.memProcessIoctl, (Allocator.getSharedAlloc_none hentry kzalloc).1]
          exact ⟨h.nodup, h.keys⟩
      | some e =>
          obtain ⟨hentries, hdescs⟩ := Allocator.getSharedAlloc_cases (f := f) hentry kzalloc
          rw [Allocator.memProcessIoctl, hentries]
          refine ⟨?_, key_of_update h.keys fun new hnew => ?_⟩
          · rcases hdescs with ⟨-, hnot, -, -, hdescs⟩ | ⟨-, -, hdescs⟩
            · exact Allocator.nodup_holders_cons h.nodup hnot hdescs
            · intro k
              rw [Allocator.holders, hdescs]
              exact h.nodup k
          · obtain rfl := Option.some.inj hnew
            exact h.keys _ e hentry

theorem Inv.next {t' : Counted} {e : Nat × MemIoctl} (h : Inv t) (hnext : t.next p e = some t') (hkeeps : t.Keeps p e) :
    Inv t' := by
  have hexact := (h.exact_next_iff hnext).mpr hkeeps
  obtain ⟨-, rfl⟩ := of_guarded hnext
  obtain ⟨hnodup, hkeys⟩ := h.wellFormed (p := p) e.1 e.2
  refine ⟨hexact, hnodup, hkeys, fun k hk => ?_⟩
  exact of_decide_eq_true (Bool.and_eq_true_iff.mp hk).2

/-- **The counts are exact as long as every ioctl meets the condition, and no longer.** -/
theorem refcounts_exact_iff (p : AllocParams) (es : List (Nat × MemIoctl)) :
    Along (next p) Exact init es ↔ Allowed (next p) (Keeps p) init es :=
  along_iff_allowed (fun _ _ _ => Inv.next) (fun _ h => h.exact) (fun _ _ _ h hnext => (h.exact_next_iff hnext).mp)
    inv_init

/-- File 1 gets the allocation of file 0 for the second time; and file 1 gets it when there is no memory for the
    descriptor. In both cases the count is incremented and nothing is registered. -/
theorem refcounts_not_exact :
    (¬ Along (next onePool) Exact init
      [(0, .allocateMemory ⟨0, 4096, 0, 0⟩ 0 (some 0) true), (0, .makeSharedAlloc ⟨0, 4096, 0, 0⟩ true),
        (1, .getSharedAlloc ⟨0, 4096, 0, 0⟩ true), (1, .getSharedAlloc ⟨0, 4096, 0, 0⟩ true)]) ∧
    ¬ Along (next onePool) Exact init
      [(0, .allocateMemory ⟨0, 4096, 0, 0⟩ 0 (some 0) true), (0, .makeSharedAlloc ⟨0, 4096, 0, 0⟩ true),
        (1, .getSharedAlloc ⟨0, 4096, 0, 0⟩ false)] := by
  constructor
  · intro h
    have hkey := h.of_foldlM rfl (0, 0)
    exact absurd (hkey.1 _ rfl) (by decide)
  · intro h
    have hkey := h.of_foldlM rfl (0, 0)
    exact absurd (hkey.1 _ rfl) (by decide)

end Counted

end Pnm.Kernel
