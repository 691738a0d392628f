import Pnm.Kernel.Cunits

/-!
# `Kernel.Exclusive` — a compute unit is held by one file

`RELEASE_CUNIT` clears the bit of the file and makes the unit idle whether the bit was set or not. If every release is
of a unit that the file's own mask has, or of a number that is not that of a unit (`OwnRelease`), then at every moment a
busy unit belongs to one file or to one call in flight (`Inv`), and no two files hold it (`cunits_exclusive`). After
every other release a file can come to hold a unit that is available, or a bit behind the mask was written
(`ownRelease_iff`).
-/

namespace Pnm.Kernel

open Pnm.Lib

namespace CunitDevice

/-- No unit is held by two files, and none that is held is available. -/
structure Exclusive (s : CunitDevice) : Prop where
  unique : ∀ f g cunit, s.held f cunit = true → s.held g cunit = true → f = g
  unavailable : ∀ f cunit, s.held f cunit = true → s.sched.busy cunit = true

/-- Files release units of their own masks, or what is no unit but has a bit in the mask. -/
def OwnRelease (s : CunitDevice) : CunitEvent → Prop
  | .removeCunit f arg => s.has f (arg % 256) = true ∨ s.sched.nrCunits ≤ arg % 256 ∧ arg % 256 < 64
  | _                  => True

instance (s : CunitDevice) : (e : CunitEvent) → Decidable (s.OwnRelease e)
  | .removeCunit _ _                                            => inferInstanceAs (Decidable (_ ∨ _))
  | .openFile _ | .getCunit _ _ | .registerCunit _ _            => isTrue trivial
  | .releaseCunit _ _ | .close _ | .cleanup _                   => isTrue trivial

variable {s t : CunitDevice} {f cunit : Nat}

/-! ## The invariant -/

/-- Every unit that is in a mask or in a call in flight is busy, and is in one place only. -/
structure Apart (s : CunitDevice) : Prop where
  calls_apart : s.calls.Pairwise fun a b => a.cunit < s.sched.nrCunits → a.cunit ≠ b.cunit
  masks_apart : ∀ f g cunit, s.has f cunit = true → s.has g cunit = true → f = g
  apart : ∀ x ∈ s.calls, ∀ f, s.has f x.cunit = false
  mask_busy : ∀ f cunit, s.has f cunit = true → s.sched.busy cunit = true
  call_busy : ∀ x ∈ s.calls, x.cunit < s.sched.nrCunits → s.sched.busy x.cunit = true

/-- The units are accounted for and apart, and nothing behind a mask was written. -/
structure Inv (s : CunitDevice) : Prop where
  accounted : Accounted s
  apart : Apart s
  inside : s.behind = false

theorem inv_init (nrCunits : Nat) : Inv (init nrCunits) where
  accounted := accounted_init nrCunits
  apart := by constructor <;> simp [init, has]
  inside := rfl

theorem Inv.exclusive (h : Inv s) : Exclusive s where
  unique f g cunit hf hg :=
    h.apart.masks_apart f g cunit ((h.accounted.held_iff f cunit).mp hf).2 ((h.accounted.held_iff g cunit).mp hg).2
  unavailable f cunit hf := h.apart.mask_busy f cunit ((h.accounted.held_iff f cunit).mp hf).2

/-- The other calls are about other units. -/
theorem Apart.ne_of_mem_erase (h : Apart s) {x y : CunitCall} (hx : x ∈ s.calls) (hlt : x.cunit < s.sched.nrCunits)
    (hy : y ∈ s.calls.erase x) : y.cunit ≠ x.cunit := by
  have hsymm : ∀ {a b : CunitCall}, (a.cunit < s.sched.nrCunits → a.cunit ≠ b.cunit) →
      b.cunit < s.sched.nrCunits → b.cunit ≠ a.cunit := fun hab hb heq => hab (heq ▸ hb) heq.symm
  have hcons := ((List.perm_cons_erase hx).pairwise_iff hsymm).mp h.calls_apart
  exact ((List.pairwise_cons.mp hcons).1 y hy hlt).symm

/-- Bits and calls may go away. -/
theorem Apart.mono (h : Apart s) (hsched : t.sched = s.sched) (hcalls : t.calls.Sublist s.calls)
    (hmask : ∀ f cunit, t.has f cunit = true → s.has f cunit = true) : Apart t where
  calls_apart := hsched ▸ h.calls_apart.sublist hcalls
  masks_apart := fun f g cunit hf hg => h.masks_apart f g cunit (hmask f cunit hf) (hmask g cunit hg)
  apart := by
    intro x hx f
    by_contra hset
    rw [Bool.not_eq_false] at hset
    have hclear := h.apart x (hcalls.subset hx) f
    rw [hmask f x.cunit hset] at hclear
    exact nomatch hclear
  mask_busy := fun f cunit hf => hsched ▸ h.mask_busy f cunit (hmask f cunit hf)
  call_busy := fun x hx => hsched ▸ h.call_busy x (hcalls.subset hx)

/-- A unit that a file has is not the unit of a call. -/
theorem Apart.call_ne (h : Apart s) (hown : s.has f cunit = true) {x : CunitCall} (hx : x ∈ s.calls) :
    x.cunit ≠ cunit := by
  rintro rfl
  exact nomatch (h.apart x hx f).symm.trans hown

/-- No file has a unit after the one that had it has cleared its bit. -/
theorem Apart.mask_cleared (h : Apart s) (hown : s.has f cunit = true) (hsmall : cunit < 64) (g : Nat) :
    (s.setCunitStatus f cunit false).has g cunit = false := by
  by_contra hset
  rw [Bool.not_eq_false] at hset
  obtain ⟨hg, hne⟩ := has_of_clear hset
  exact hne ⟨h.masks_apart g f cunit hg hown, rfl, hsmall⟩

/-- A unit that is nowhere may become idle. -/
theorem Apart.release (h : Apart s) (hmask : ∀ f, s.has f cunit = false)
    (hcalls : cunit < s.sched.nrCunits → ∀ x ∈ s.calls, x.cunit ≠ cunit) :
    Apart { s with sched := (s.sched.releaseCunit cunit).2 } where
  calls_apart := by
    rw [Sched.releaseCunit_nrCunits]
    exact h.calls_apart
  masks_apart := h.masks_apart
  apart := h.apart
  mask_busy := by
    intro f other hf
    refine (Sched.releaseCunit_busy ..).mpr ⟨h.mask_busy f other hf, ?_⟩
    rintro ⟨rfl, -⟩
    exact nomatch (hmask f).symm.trans hf
  call_busy := by
    intro x hx hlt
    rw [Sched.releaseCunit_nrCunits] at hlt
    exact (Sched.releaseCunit_busy ..).mpr ⟨h.call_busy x hx hlt, fun heq => hcalls heq.2 x hx heq.1⟩

/-- An acquisition: the unit was nowhere, and is in the new call. -/
theorem Apart.getCunit (h : Apart s) (hidle : s.sched.busy cunit = false) :
    Apart { s with sched := s.sched.acquireFreeCunit cunit, calls := .registering f cunit :: s.calls } := by
  have hbusy : ∀ other, s.sched.busy other = true → (s.sched.acquireFreeCunit cunit).busy other = true :=
    fun other hother => (Sched.acquireFreeCunit_busy ..).mpr (.inr hother)
  refine ⟨List.pairwise_cons.mpr ⟨?_, h.calls_apart⟩, h.masks_apart, ?_, fun g d hg => hbusy d (h.mask_busy g d hg), ?_⟩
  · intro x hx hlt heq
    have hx' := h.call_busy x hx (heq ▸ hlt)
    rw [← heq] at hx'
    exact nomatch hidle.symm.trans hx'
  · intro x hx g
    rcases List.mem_cons.mp hx with rfl | hx
    · by_contra hset
      rw [Bool.not_eq_false] at hset
      exact nomatch hidle.symm.trans (h.mask_busy g cunit hset)
    · exact h.apart x hx g
  · intro x hx hlt
    rcases List.mem_cons.mp hx with rfl | hx
    · exact (Sched.acquireFreeCunit_busy ..).mpr (.inl rfl)
    · exact hbusy x.cunit (h.call_busy x hx hlt)

/-- A registration: the unit goes from the call to the mask. -/
theorem Apart.registerCunit (h : Apart s) (hcall : .registering f cunit ∈ s.calls) (hlt : cunit < s.sched.nrCunits) :
    Apart { s.setCunitStatus f cunit true with
      held := setHeld s.held f cunit true, calls := s.calls.erase (.registering f cunit) } := by
  have hnone := h.apart _ hcall
  have hsub := (List.erase_sublist : (s.calls.erase (.registering f cunit)).Sublist s.calls)
  refine ⟨h.calls_apart.sublist hsub, ?_, ?_, ?_, fun x hx => h.call_busy x (hsub.subset hx)⟩
  · intro g g' d hg hg'
    rcases has_of_set hg with ⟨rfl, rfl⟩ | hold
    · rcases has_of_set hg' with ⟨rfl, -⟩ | hold'
      · rfl
      · exact nomatch (hnone g').symm.trans hold'
    · rcases has_of_set hg' with ⟨rfl, rfl⟩ | hold'
      · exact nomatch (hnone g).symm.trans hold
      · exact h.masks_apart g g' d hold hold'
  · intro x hx g
    have hne := h.ne_of_mem_erase hcall hlt hx
    by_contra hset
    rw [Bool.not_eq_false] at hset
    rcases has_of_set hset with ⟨-, heq⟩ | hold
    · exact hne heq
    · exact nomatch (h.apart x (hsub.subset hx) g).symm.trans hold
  · intro g d hg
    rcases has_of_set hg with ⟨rfl, rfl⟩ | hg
    · exact h.call_busy _ hcall hlt
    · exact h.mask_busy g d hg

/-- The first half of a release: the unit goes from the mask of its file to the call, or it is no unit. -/
theorem Apart.removeCunit (h : Apart s) (hsmall : cunit < 64)
    (hown : s.has f cunit = true ∨ s.sched.nrCunits ≤ cunit ∧ ∀ g, s.has g cunit = false) :
    Apart { s.setCunitStatus f cunit false with
      held := setHeld s.held f cunit false, calls := .releasing f cunit :: s.calls } := by
  have hunit : cunit < s.sched.nrCunits → s.has f cunit = true :=
    fun hlt => hown.resolve_right fun hout => absurd hlt (Nat.not_lt.mpr hout.1)
  refine ⟨List.pairwise_cons.mpr ⟨?_, h.calls_apart⟩, ?_, ?_, fun g d hg => h.mask_busy g d (has_of_clear hg).1, ?_⟩
  · exact fun x hx hlt => (h.call_ne (hunit hlt) hx).symm
  · intro g g' d hg hg'
    exact h.masks_apart g g' d (has_of_clear hg).1 (has_of_clear hg').1
  · intro x hx g
    by_contra hset
    rw [Bool.not_eq_false] at hset
    have hold := (has_of_clear hset).1
    rcases List.mem_cons.mp hx with rfl | hx
    · rcases hown with hown | ⟨-, hnone⟩
      · exact nomatch (h.mask_cleared hown hsmall g).symm.trans hset
      · exact nomatch (hnone g).symm.trans hold
    · exact nomatch (h.apart x hx g).symm.trans hold
  · intro x hx hlt
    rcases List.mem_cons.mp hx with rfl | hx
    · exact h.mask_busy f cunit (hunit hlt)
    · exact h.call_busy x hx hlt

/-- One turn of the cleanup: the unit goes from the mask of a closing file to idle. -/
theorem Apart.cleanup (h : Apart s) (hset : s.has f cunit = true) (hsmall : cunit < 64) :
    Apart { s.setCunitStatus f cunit false with sched := (s.sched.releaseCunit cunit).2 } := by
  have hclear : Apart (s.setCunitStatus f cunit false) :=
    h.mono rfl (List.Sublist.refl _) fun g d hg => (has_of_clear hg).1
  exact hclear.release (h.mask_cleared hset hsmall) fun _ x hx => h.call_ne hset hx

theorem Apart.next {e : CunitEvent} (h : Apart s) (haccounted : Accounted s) (hnext : s.next e = some t)
    (hown : s.OwnRelease e) : Apart t := by
  cases e with
  | openFile f =>
      obtain ⟨-, rfl⟩ := of_guarded hnext
      refine h.mono rfl (List.Sublist.refl _) fun g d hg => ?_
      rw [has] at hg ⊢
      dsimp only at hg
      by_cases hgf : g = f
      · simp [hgf] at hg
      · rwa [Function.update_of_ne hgf] at hg
  | getCunit f arg =>
      obtain ⟨-, cunit, -, -, hidle, rfl⟩ := of_getCunit hnext
      exact h.getCunit hidle
  | registerCunit f cunit =>
      obtain ⟨hcall, rfl⟩ := of_guarded hnext
      exact h.registerCunit hcall (haccounted.registering f cunit hcall).2
  | removeCunit f arg =>
      obtain ⟨-, rfl⟩ := of_guarded hnext
      rcases hown with hown | ⟨hout, hsmall⟩
      · exact h.removeCunit ((haccounted.small f _ hown).trans (by decide)) (.inl hown)
      · refine h.removeCunit hsmall (.inr ⟨hout, fun g => ?_⟩)
        by_contra hset
        rw [Bool.not_eq_false] at hset
        exact absurd (haccounted.range _ (h.mask_busy g _ hset)) (Nat.not_lt.mpr hout)
  | releaseCunit f cunit =>
      obtain ⟨hcall, rfl⟩ := of_guarded hnext
      have herase : Apart { s with calls := s.calls.erase (.releasing f cunit) } :=
        h.mono rfl List.erase_sublist fun _ _ hg => hg
      exact herase.release (h.apart _ hcall) fun hlt x hx => h.ne_of_mem_erase hcall hlt hx
  | close f =>
      obtain ⟨-, rfl⟩ := of_guarded hnext
      exact h.mono rfl (List.Sublist.refl _) fun _ _ hg => hg
  | cleanup f =>
      obtain ⟨-, ⟨cunit, hset, rfl⟩ | ⟨-, rfl⟩⟩ := of_cleanup hnext
      · exact h.cleanup hset ((haccounted.small f _ hset).trans (by decide))
      · exact h.mono rfl (List.Sublist.refl _) fun _ _ hg => hg

/-- Registrations and the cleanup write inside the masks, and so do the releases that are allowed. -/
theorem Accounted.inside {e : CunitEvent} (h : Accounted s) (hinside : s.behind = false) (hnext : s.next e = some t)
    (hown : s.OwnRelease e) : t.behind = false := by
  have hset : ∀ f cunit b, cunit < 64 → (s.setCunitStatus f cunit b).behind = false := by
    intro f cunit b hlt
    simp [setCunitStatus, hinside, hlt]
  cases e with
  | registerCunit f cunit =>
      obtain ⟨hcall, rfl⟩ := of_guarded hnext
      exact hset f cunit true ((h.registering f cunit hcall).1.trans (by decide))
  | removeCunit f arg =>
      obtain ⟨-, rfl⟩ := of_guarded hnext
      exact hset f _ false (hown.elim (fun hown => (h.small f _ hown).trans (by decide)) And.right)
  | cleanup f =>
      obtain ⟨-, ⟨cunit, hcunit, rfl⟩ | ⟨-, rfl⟩⟩ := of_cleanup hnext
      · exact hset f cunit false ((h.small f _ hcunit).trans (by decide))
      · exact hinside
  | getCunit f arg =>
      obtain ⟨-, cunit, -, -, -, rfl⟩ := of_getCunit hnext
      exact hinside
  | _ =>
      obtain ⟨-, rfl⟩ := of_guarded hnext
      exact hinside

/-- **One event.** -/
theorem Inv.next {e : CunitEvent} (h : Inv s) (hnext : s.next e = some t) (hown : s.OwnRelease e) : Inv t :=
  ⟨h.accounted.next hnext, h.apart.next h.accounted hnext hown, h.accounted.inside h.inside hnext hown⟩

/-- **Exclusivity.** If files release units of their own masks, or what is no unit, then in every state no unit is held
    by two files and none that is held is available, for any number of units and files and any interleaving. -/
theorem cunits_exclusive (nrCunits : Nat) (es : List CunitEvent) (h : Allowed next OwnRelease (init nrCunits) es) :
    Along next Exclusive (init nrCunits) es :=
  h.along (fun _ _ _ => Inv.next) (fun _ => Inv.exclusive) (inv_init nrCunits)

/-- Two files take turns with the only unit, and one of them releases what is no unit. -/
theorem cunits_exclusive_two_files : Along next Exclusive (init 1)
    [.openFile 0, .openFile 1, .getCunit 0 1, .registerCunit 0 0, .removeCunit 1 5, .removeCunit 0 0, .releaseCunit 1 5,
      .releaseCunit 0 0, .getCunit 1 1, .registerCunit 1 0, .close 1, .cleanup 1, .cleanup 1] :=
  cunits_exclusive 1 _ (by decide)

/-- File 1 releases the unit that file 0 holds, and gets it. -/
theorem cunits_not_exclusive : ¬ Along next Exclusive (init 1)
    [.openFile 0, .openFile 1, .getCunit 0 1, .registerCunit 0 0, .removeCunit 1 0, .releaseCunit 1 0, .getCunit 1 1,
      .registerCunit 1 0] := by
  intro h
  have hlast := h.of_foldlM rfl
  exact absurd (hlast.unique 0 1 0 rfl rfl) (by decide)

/-! ## The converse

After a release of a unit that is not the file's own, the unit can become idle while a file holds it. -/

/-- Nothing behind a mask was written, and the files are apart. -/
def Clean (s : CunitDevice) : Prop := s.behind = false ∧ s.Exclusive

/-- The second half of a release of a unit that a file holds. -/
theorem canBreak_of_held (hcall : .releasing f cunit ∈ s.calls) (hlt : cunit < s.sched.nrCunits) {g : Nat}
    (hheld : s.held g cunit = true) : CanBreak next OwnRelease Clean s := by
  refine .of_next (e := .releaseCunit f cunit) (if_pos hcall) (fun _ => trivial) (.of_not fun hclean => ?_)
  have hbusy := hclean.2.unavailable g cunit hheld
  exact ((Sched.releaseCunit_busy ..).mp hbusy).2 ⟨rfl, hlt⟩

/-- A file is about to get the unit. -/
theorem canBreak_of_registering (hcall : .releasing f cunit ∈ s.calls) (hlt : cunit < s.sched.nrCunits) {g : Nat}
    (hget : .registering g cunit ∈ s.calls) : CanBreak next OwnRelease Clean s := by
  refine .of_next (e := .registerCunit g cunit) (if_pos hget) (fun _ => trivial) ?_
  refine canBreak_of_held (f := f) (g := g) ?_ hlt ?_
  · exact (List.mem_erase_of_ne (by simp)).mpr hcall
  · exact (setHeld_apply ..).trans (if_pos ⟨rfl, rfl⟩)

/-- The unit is idle: the file gets it in the middle of its own release. -/
theorem canBreak_of_idle (hcall : .releasing f cunit ∈ s.calls) (hlt : cunit < s.sched.nrCunits)
    (hnr : s.sched.nrCunits ≤ 32) (hopen : s.status f = .opened) (hidle : s.sched.busy cunit = false) :
    CanBreak next OwnRelease Clean s := by
  have harg : 2 ^ cunit < 2 ^ 32 := Nat.pow_lt_pow_right (by decide) (by omega)
  have hget : s.next (.getCunit f (2 ^ cunit)) = some { s with
      sched := s.sched.acquireFreeCunit cunit, calls := .registering f cunit :: s.calls } := by
    simp only [CunitDevice.next, hopen, harg, and_self, if_true,
      Sched.findAcquireFreeCunit_two_pow hlt (by omega) hidle]
  refine .of_next hget (fun _ => trivial) ?_
  exact canBreak_of_registering (List.mem_cons_of_mem _ hcall) hlt List.mem_cons_self

/-- The unit was just released. -/
theorem canBreak_of_released (hsched : t.sched = (s.sched.releaseCunit cunit).2) (hcall : .releasing f cunit ∈ t.calls)
    (hlt : cunit < s.sched.nrCunits) (hnr : s.sched.nrCunits ≤ 32) (hopen : t.status f = .opened) :
    CanBreak next OwnRelease Clean t := by
  have hsame : t.sched.nrCunits = s.sched.nrCunits := by rw [hsched, Sched.releaseCunit_nrCunits]
  refine canBreak_of_idle hcall (hsame ▸ hlt) (hsame ▸ hnr) hopen (Bool.eq_false_iff.mpr fun hbusy => ?_)
  rw [hsched] at hbusy
  exact ((Sched.releaseCunit_busy ..).mp hbusy).2 ⟨rfl, hlt⟩

/-- Another release of the unit is under way: it comes first. -/
theorem canBreak_of_releasing {g : Nat} {calls : List CunitCall} (hcalls : s.calls = .releasing f cunit :: calls)
    (hother : .releasing g cunit ∈ calls) (hlt : cunit < s.sched.nrCunits) (hnr : s.sched.nrCunits ≤ 32)
    (hopen : s.status f = .opened) : CanBreak next OwnRelease Clean s := by
  have hmem : .releasing g cunit ∈ s.calls := hcalls ▸ List.mem_cons_of_mem _ hother
  refine .of_next (e := .releaseCunit g cunit) (if_pos hmem) (fun _ => trivial) ?_
  have hcall : .releasing f cunit ∈ s.calls.erase (.releasing g cunit) := by
    rw [hcalls]
    by_cases hgf : g = f
    · rw [hgf, List.erase_cons_head]
      exact hgf ▸ hother
    · exact (List.mem_erase_of_ne (by simpa using Ne.symm hgf)).mpr List.mem_cons_self
  exact canBreak_of_released rfl hcall hlt hnr hopen

/-- One turn of the cleanup, at the lowest bit. -/
theorem next_cleanup {g low : Nat} (hclosing : s.status g = .closing) (hset : s.has g low = true) (hlow : low < 32)
    (hbelow : ∀ d < low, s.has g d = false) :
    s.next (.cleanup g) = some { s.setCunitStatus g low false with sched := (s.sched.releaseCunit low).2 } := by
  have hfind : (List.range 32).find? (s.has g) = some low :=
    List.find?_range_eq_some.mpr ⟨hset, List.mem_range.mpr hlow, fun d hd => by simp [hbelow d hd]⟩
  simp only [CunitDevice.next, hclosing, if_true, hfind]

/-- A closing file still has the unit: its cleanup makes it idle. -/
theorem canBreak_of_closing (hcall : .releasing f cunit ∈ s.calls) (hlt : cunit < s.sched.nrCunits)
    (hnr : s.sched.nrCunits ≤ 32) (hopen : s.status f = .opened) {g : Nat} (hclosing : s.status g = .closing)
    (hset : s.has g cunit = true) : CanBreak next OwnRelease Clean s := by
  -- over the bits below that of the unit which may still be set
  suffices hall : ∀ (k low : Nat) (s : CunitDevice), cunit = low + k → (∀ d < low, s.has g d = false) →
      .releasing f cunit ∈ s.calls → cunit < s.sched.nrCunits → s.sched.nrCunits ≤ 32 → s.status f = .opened →
      s.status g = .closing → s.has g cunit = true → CanBreak next OwnRelease Clean s from
    hall cunit 0 s (Nat.zero_add cunit).symm (fun _ hd => absurd hd (Nat.not_lt_zero _)) hcall hlt hnr hopen hclosing
      hset
  clear hcall hlt hnr hopen hclosing hset
  intro k
  induction k with
  | zero =>
      rintro low s rfl hbelow hcall hlt hnr hopen hclosing hset
      refine .of_next (next_cleanup hclosing hset (hlt.trans_le hnr) hbelow) (fun _ => trivial) ?_
      exact canBreak_of_released rfl hcall hlt hnr hopen
  | succ k ih =>
      intro low s heq hbelow hcall hlt hnr hopen hclosing hset
      by_cases hlow : s.has g low = true
      · refine .of_next (next_cleanup hclosing hlow (by omega) hbelow) (fun _ => trivial) ?_
        refine ih (low + 1) _ (by omega) (fun d hd => ?_) hcall ?_ ?_ hopen hclosing ?_
        · refine Bool.eq_false_iff.mpr fun hset => ?_
          obtain ⟨hold, hne⟩ := has_of_clear hset
          rcases Nat.lt_succ_iff_lt_or_eq.mp hd with hd | rfl
          · exact nomatch (hbelow d hd).symm.trans hold
          · exact hne ⟨rfl, rfl, by omega⟩
        · exact (Sched.releaseCunit_nrCunits _).symm ▸ hlt
        · exact (Sched.releaseCunit_nrCunits _).symm ▸ hnr
        · exact has_clear_of_ne hset (by omega)
      · refine ih (low + 1) s (by omega) (fun d hd => ?_) hcall hlt hnr hopen hclosing hset
        rcases Nat.lt_succ_iff_lt_or_eq.mp hd with hd | rfl
        · exact hbelow d hd
        · exact Bool.eq_false_iff.mpr hlow

/-- The first half of a release of a unit that the file does not have. Wherever the unit is, a file can come to hold it
    before the second half. -/
theorem canBreak_of_foreign (h : Accounted s) (hopen : s.status f = .opened) (hforeign : s.has f cunit = false)
    (hlt : cunit < s.sched.nrCunits) (hnr : s.sched.nrCunits ≤ 32) :
    CanBreak next OwnRelease Clean { s.setCunitStatus f cunit false with
      held := setHeld s.held f cunit false, calls := .releasing f cunit :: s.calls } := by
  cases hbusy : s.sched.busy cunit with
  | false => exact canBreak_of_idle List.mem_cons_self hlt hnr hopen hbusy
  | true =>
      rcases h.owned cunit hbusy with ⟨g, hg⟩ | ⟨x, hx, hxc⟩
      · have hgf : ¬ (g = f ∧ cunit = cunit) := by
          rintro ⟨rfl, -⟩
          exact nomatch hforeign.symm.trans hg
        cases hstatus : s.status g with
        | closed => exact nomatch (h.closed g cunit hstatus).symm.trans hg
        | opened =>
            refine canBreak_of_held (g := g) List.mem_cons_self hlt ?_
            exact (setHeld_apply ..).trans ((if_neg hgf).trans ((h.held_iff g cunit).mpr ⟨hstatus, hg⟩))
        | closing => exact canBreak_of_closing List.mem_cons_self hlt hnr hopen hstatus (has_clear_of_ne hg hgf)
      · cases x with
        | registering g d =>
            obtain rfl : d = cunit := hxc
            exact canBreak_of_registering List.mem_cons_self hlt (List.mem_cons_of_mem _ hx)
        | releasing g d =>
            obtain rfl : d = cunit := hxc
            exact canBreak_of_releasing rfl hx hlt hnr hopen

theorem next_nrCunits {e : CunitEvent} (hnext : s.next e = some t) : t.sched.nrCunits = s.sched.nrCunits := by
  cases e with
  | getCunit f arg =>
      obtain ⟨-, cunit, -, -, -, rfl⟩ := of_getCunit hnext
      rfl
  | releaseCunit f cunit =>
      obtain ⟨-, rfl⟩ := of_guarded hnext
      exact Sched.releaseCunit_nrCunits cunit
  | cleanup f =>
      obtain ⟨-, ⟨cunit, -, rfl⟩ | ⟨-, rfl⟩⟩ := of_cleanup hnext
      · exact Sched.releaseCunit_nrCunits cunit
      · rfl
  | _ =>
      obtain ⟨-, rfl⟩ := of_guarded hnext
      rfl

/-- **The condition is exact**, for up to 32 units: a sequence of events meets it exactly if nowhere on its way events
    that meet it could lead to a unit that two files hold, or that is held and available, and no bit behind a mask is
    written. -/
theorem ownRelease_iff {nrCunits : Nat} (hnr : nrCunits ≤ 32) (es : List CunitEvent) :
    Allowed next OwnRelease (init nrCunits) es ↔
      Along next (fun s => ∀ es', Allowed next OwnRelease s es' → Along next Clean s es') (init nrCunits) es := by
  refine allowed_iff_along_safe (I := fun s => Inv s ∧ s.sched.nrCunits ≤ 32)
    (fun s e t h hnext hown => ⟨h.1.next hnext hown, (next_nrCunits hnext).symm ▸ h.2⟩)
    (fun s h => ⟨h.1.inside, h.1.exclusive⟩) (fun s e t h hnext hnot => ?_) ⟨inv_init nrCunits, hnr⟩
  cases e with
  | removeCunit f arg =>
      obtain ⟨hopen, rfl⟩ := of_guarded hnext
      rw [OwnRelease, not_or, Bool.not_eq_true] at hnot
      by_cases hsmall : arg % 256 < 64
      · have hlt := Nat.lt_of_not_le fun hout => hnot.2 ⟨hout, hsmall⟩
        exact canBreak_of_foreign h.1.accounted hopen hnot.1 hlt h.2
      · refine .of_not fun hclean => ?_
        have hinside : (s.behind || decide (64 ≤ arg % 256)) = false := hclean.1
        simp [Nat.le_of_not_lt hsmall] at hinside
  | _ => exact absurd trivial hnot

end CunitDevice

end Pnm.Kernel
