import Pnm.Kernel.Sched
import Pnm.Lib.Runs
import Mathlib.Data.BitVec

/-!
# `Kernel.Cunits` — compute units and the files that hold them

The model of `drivers/pnm/sls_resource/cunit_sched.c` and of the masks of `process_manager.c`: the ioctls
`GET_CUNIT` and `RELEASE_CUNIT` on any number of open files and the cleanup when a file is closed. That a file has a
unit is recorded twice, in the states of the scheduler and in the mask of the file, and each ioctl updates one after
the other; so between the two an ioctl is a call in flight.

Whatever the files do, no unit gets lost: what a file holds is in its mask, and a busy unit is in a mask or in a call
(`Accounted`). What is needed for a unit to be in one place only is in `Kernel.Exclusive`.
-/

namespace Pnm.Kernel

open Pnm.Lib

/-- An ioctl between its two updates: `GET_CUNIT` has acquired the unit, `RELEASE_CUNIT` has cleared its bit. -/
inductive CunitCall where
  | registering (file cunit : Nat)
  | releasing (file cunit : Nat)
deriving DecidableEq

namespace CunitCall

def file : CunitCall → Nat
  | registering f _ => f
  | releasing f _   => f

def cunit : CunitCall → Nat
  | registering _ c => c
  | releasing _ c   => c

end CunitCall

inductive FileStatus where
  | closed
  | opened
  | closing
deriving DecidableEq

/-- The scheduler, the masks of the files and the calls in flight. `held` records the units that `GET_CUNIT` has
    returned to a file and the file has not released, and `behind` that a bit behind a mask was written; what is there
    is not modelled. -/
structure CunitDevice where
  sched : Sched
  mask : Nat → BitVec 64
  status : Nat → FileStatus
  calls : List CunitCall
  held : Nat → Nat → Bool
  behind : Bool

/-- What can happen. -/
inductive CunitEvent where
  | openFile (f : Nat)
  | getCunit (f arg : Nat)
  | registerCunit (f cunit : Nat)
  | removeCunit (f arg : Nat)
  | releaseCunit (f cunit : Nat)
  | close (f : Nat)
  | cleanup (f : Nat)

/-- `assign_bit`, inside the mask. -/
def assignBit (mask : BitVec 64) (cunit : Nat) (b : Bool) : BitVec 64 :=
  if b then mask ||| BitVec.twoPow 64 cunit else mask &&& ~~~BitVec.twoPow 64 cunit

theorem getLsbD_assignBit (mask : BitVec 64) (cunit : Nat) (b : Bool) (d : Nat) :
    (assignBit mask cunit b).getLsbD d = if d = cunit ∧ cunit < 64 then b else mask.getLsbD d := by
  rw [assignBit]
  cases b <;> simp [BitVec.getLsbD_twoPow] <;> grind

/-- The units of file `f` with `cunit` among them, or without it. -/
def setHeld (held : Nat → Nat → Bool) (f cunit : Nat) (b : Bool) : Nat → Nat → Bool :=
  Function.update held f (Function.update (held f) cunit b)

theorem setHeld_apply (held : Nat → Nat → Bool) (f cunit : Nat) (b : Bool) (g d : Nat) :
    setHeld held f cunit b g d = if g = f ∧ d = cunit then b else held g d := by
  simp only [setHeld, Function.update_apply]
  split <;> split <;> simp_all

namespace CunitDevice

def init (nrCunits : Nat) : CunitDevice :=
  { sched := .init nrCunits
    mask := fun _ => 0
    status := fun _ => .closed
    calls := []
    held := fun _ _ => false
    behind := false }

/-- The bit of the unit in the mask of the file. -/
def has (s : CunitDevice) (f cunit : Nat) : Bool := (s.mask f).getLsbD cunit

/-- `set_cunit_status`. -/
def setCunitStatus (s : CunitDevice) (f cunit : Nat) (set : Bool) : CunitDevice :=
  { s with
    mask := Function.update s.mask f (assignBit (s.mask f) cunit set)
    behind := s.behind || decide (64 ≤ cunit) }

/-- One event. An unsuccessful search changes nothing and is not an event. -/
def next (s : CunitDevice) : CunitEvent → Option CunitDevice
  | .openFile f =>
      -- `register_sls_process`: the resources are zeroed
      if s.status f = .closed then
        some { s with
          status := Function.update s.status f .opened
          mask := Function.update s.mask f 0
          held := Function.update s.held f fun _ => false }
      else none
  | .getCunit f arg =>
      -- `get_sls_cunit`, up to the acquisition
      if s.status f = .opened ∧ arg < 2 ^ 32 then
        match s.sched.findAcquireFreeCunit arg with
        | some (cunit, sched) => some { s with sched := sched, calls := .registering f cunit :: s.calls }
        | none => none
      else none
  | .registerCunit f cunit =>
      -- `sls_proc_register_cunit`, and the return to the user
      if .registering f cunit ∈ s.calls then
        some { s.setCunitStatus f cunit true with
          held := setHeld s.held f cunit true
          calls := s.calls.erase (.registering f cunit) }
      else none
  | .removeCunit f arg =>
      -- `sls_proc_remove_cunit`; the argument becomes an `uint8_t`
      if s.status f = .opened then
        some { s.setCunitStatus f (arg % 256) false with
          held := setHeld s.held f (arg % 256) false
          calls := .releasing f (arg % 256) :: s.calls }
      else none
  | .releaseCunit f cunit =>
      -- `pnm_sched_release_and_wakeup`
      if .releasing f cunit ∈ s.calls then
        some { s with sched := (s.sched.releaseCunit cunit).2, calls := s.calls.erase (.releasing f cunit) }
      else none
  | .close f =>
      -- `release_sls_process`, when no call uses the file any more
      if s.status f = .opened ∧ s.calls.all (fun c => c.file ≠ f) then
        some { s with
          status := Function.update s.status f .closing
          held := Function.update s.held f fun _ => false }
      else none
  | .cleanup f =>
      -- one turn of `release_cunit_mask`, where `clear_bit` assigns 0; the index is that of the lowest bit of an `int`
      if s.status f = .closing then
        match (List.range 32).find? (s.has f) with
        | some cunit =>
            some { s.setCunitStatus f cunit false with sched := (s.sched.releaseCunit cunit).2 }
        | none => some { s with status := Function.update s.status f .closed }
      else none

variable {s t : CunitDevice} {f cunit : Nat}

/-! ## The masks -/

theorem has_setCunitStatus (s : CunitDevice) (f cunit : Nat) (b : Bool) (g d : Nat) :
    (s.setCunitStatus f cunit b).has g d = if g = f ∧ d = cunit ∧ cunit < 64 then b else s.has g d := by
  by_cases hgf : g = f
  · subst hgf
    simp only [has, setCunitStatus, Function.update_self, getLsbD_assignBit, true_and]
  · simp only [has, setCunitStatus, Function.update_of_ne hgf, if_neg (fun h : g = f ∧ _ => hgf h.1)]

/-- A bit that is set after another was cleared was set before. -/
theorem has_of_clear {g d : Nat} (h : (s.setCunitStatus f cunit false).has g d = true) :
    s.has g d = true ∧ ¬ (g = f ∧ d = cunit ∧ cunit < 64) := by
  rw [has_setCunitStatus] at h
  split at h
  · exact nomatch h
  · rename_i hne
    exact ⟨h, hne⟩

theorem has_clear_of_ne {g d : Nat} (h : s.has g d = true) (hne : ¬ (g = f ∧ d = cunit)) :
    (s.setCunitStatus f cunit false).has g d = true := by
  rw [has_setCunitStatus, if_neg (fun heq => hne ⟨heq.1, heq.2.1⟩)]
  exact h

theorem has_of_set {g d : Nat} (h : (s.setCunitStatus f cunit true).has g d = true) :
    (g = f ∧ d = cunit) ∨ s.has g d = true := by
  rw [has_setCunitStatus] at h
  split at h
  · rename_i heq
    exact .inl ⟨heq.1, heq.2.1⟩
  · exact .inr h

/-! ## The two searches -/

/-- The argument of `GET_CUNIT` has 32 bits. -/
theorem lt_of_testBit {arg : Nat} (harg : arg < 2 ^ 32) (hbit : arg.testBit cunit = true) : cunit < 32 := by
  by_contra hge
  have hlt : arg < 2 ^ cunit := harg.trans_le (Nat.pow_le_pow_right (by omega) (by omega))
  rw [Nat.testBit_lt_two_pow hlt] at hbit
  exact nomatch hbit

/-- `GET_CUNIT` acquires an idle unit. -/
theorem of_getCunit {arg : Nat} (h : s.next (.getCunit f arg) = some t) :
    s.status f = .opened ∧ ∃ cunit, cunit < 32 ∧ cunit < s.sched.nrCunits ∧ s.sched.busy cunit = false ∧
      t = { s with sched := s.sched.acquireFreeCunit cunit, calls := .registering f cunit :: s.calls } := by
  obtain ⟨⟨hopen, harg⟩, hacquire⟩ := Option.ite_none_right_eq_some.mp h
  split at hacquire
  · rename_i cunit sched hfind
    obtain ⟨hlt, hbit, hidle, rfl⟩ := Sched.findAcquireFreeCunit_eq_some hfind
    exact ⟨hopen, cunit, lt_of_testBit harg hbit, hlt, hidle, (Option.some.inj hacquire).symm⟩
  · cases hacquire

/-- The cleanup releases a unit of the mask; or there is none, and the file is closed. -/
theorem of_cleanup (h : s.next (.cleanup f) = some t) :
    s.status f = .closing ∧
      ((∃ cunit, s.has f cunit = true ∧
          t = { s.setCunitStatus f cunit false with sched := (s.sched.releaseCunit cunit).2 }) ∨
        (∀ cunit < 32, s.has f cunit = false) ∧ t = { s with status := Function.update s.status f .closed }) := by
  obtain ⟨hclosing, hturn⟩ := Option.ite_none_right_eq_some.mp h
  refine ⟨hclosing, ?_⟩
  split at hturn
  · rename_i cunit hfind
    exact .inl ⟨cunit, List.find?_some hfind, (Option.some.inj hturn).symm⟩
  · rename_i hfind
    refine .inr ⟨fun cunit hlt => Bool.eq_false_iff.mpr ?_, (Option.some.inj hturn).symm⟩
    exact List.find?_eq_none.mp hfind cunit (List.mem_range.mpr hlt)

/-! ## No unit gets lost -/

/-- What a file holds is in its mask, a closed file has nothing, and every busy unit is in a mask or in a call. -/
structure Accounted (s : CunitDevice) : Prop where
  held_iff : ∀ f cunit, s.held f cunit = true ↔ s.status f = .opened ∧ s.has f cunit = true
  closed : ∀ f cunit, s.status f = .closed → s.has f cunit = false
  small : ∀ f cunit, s.has f cunit = true → cunit < 32
  opened : ∀ x ∈ s.calls, s.status x.file = .opened
  registering : ∀ f cunit, .registering f cunit ∈ s.calls → cunit < 32 ∧ cunit < s.sched.nrCunits
  range : ∀ cunit, s.sched.busy cunit = true → cunit < s.sched.nrCunits
  owned : ∀ cunit, s.sched.busy cunit = true → (∃ f, s.has f cunit = true) ∨ ∃ x ∈ s.calls, x.cunit = cunit

theorem accounted_init (nrCunits : Nat) : Accounted (init nrCunits) := by
  constructor <;> simp [init, has, Sched.init]

/-- A file is opened or closed: it holds nothing, and the units stay where they are. -/
theorem Accounted.setStatus (h : Accounted s) {status : FileStatus}
    (hempty : status ≠ .closing → ∀ d, s.has f d = false) (hcalls : status ≠ .opened → ∀ x ∈ s.calls, x.file ≠ f) :
    Accounted { s with
      status := Function.update s.status f status, held := Function.update s.held f fun _ => false } := by
  refine ⟨fun g d => ?_, fun g d hg => ?_, h.small, fun x hx => ?_, h.registering, h.range, h.owned⟩ <;> dsimp only at *
  · change _ ↔ _ ∧ s.has g d = true
    by_cases hgf : g = f
    · subst hgf
      rw [Function.update_self, Function.update_self]
      refine ⟨fun hheld => (nomatch hheld), fun ⟨hopen, hset⟩ => ?_⟩
      exact nomatch (hempty (by simp [hopen]) d).symm.trans hset
    · rw [Function.update_of_ne hgf, Function.update_of_ne hgf]
      exact h.held_iff g d
  · change s.has g d = false
    by_cases hgf : g = f
    · subst hgf
      rw [Function.update_self] at hg
      exact hempty (by simp [hg]) d
    · rw [Function.update_of_ne hgf] at hg
      exact h.closed g d hg
  · by_cases hxf : x.file = f
    · rw [hxf, Function.update_self]
      by_contra hopen
      exact hcalls hopen x hx hxf
    · rw [Function.update_of_ne hxf]
      exact h.opened x hx

/-- The mask of a closed file is 0 already. -/
theorem Accounted.mask_eq_zero (h : Accounted s) (hfile : s.status f = .closed) :
    Function.update s.mask f 0 = s.mask := by
  refine Function.update_eq_self_iff.mpr (BitVec.eq_of_getLsbD_eq fun d _ => ?_)
  rw [show (s.mask f).getLsbD d = false from h.closed f d hfile]
  exact BitVec.getLsbD_zero

/-- A file that is not open holds nothing. -/
theorem Accounted.held_eq (h : Accounted s) (hfile : s.status f ≠ .opened) :
    Function.update s.held f (fun _ => false) = s.held := by
  refine Function.update_eq_self_iff.mpr (funext fun d => (Bool.eq_false_iff.mpr fun hset => ?_).symm)
  exact hfile ((h.held_iff f d).mp hset).1

theorem Accounted.getCunit (h : Accounted s) (hopen : s.status f = .opened) (hsmall : cunit < 32)
    (hlt : cunit < s.sched.nrCunits) :
    Accounted { s with sched := s.sched.acquireFreeCunit cunit, calls := .registering f cunit :: s.calls } := by
  refine ⟨h.held_iff, h.closed, h.small, fun x hx => ?_, fun g d hd => ?_, fun d hd => ?_, fun d hd => ?_⟩
  · rcases List.mem_cons.mp hx with rfl | hx
    · exact hopen
    · exact h.opened x hx
  · rcases List.mem_cons.mp hd with heq | hd
    · obtain ⟨-, rfl⟩ := CunitCall.registering.inj heq
      exact ⟨hsmall, hlt⟩
    · exact h.registering g d hd
  · rcases (Sched.acquireFreeCunit_busy ..).mp hd with rfl | hd
    · exact hlt
    · exact h.range d hd
  · rcases (Sched.acquireFreeCunit_busy ..).mp hd with rfl | hd
    · exact .inr ⟨_, List.mem_cons_self, rfl⟩
    · obtain hmask | ⟨x, hx, heq⟩ := h.owned d hd
      · exact .inl hmask
      · exact .inr ⟨x, List.mem_cons_of_mem _ hx, heq⟩

theorem Accounted.registerCunit (h : Accounted s) (hcall : .registering f cunit ∈ s.calls) :
    Accounted { s.setCunitStatus f cunit true with
      held := setHeld s.held f cunit true, calls := s.calls.erase (.registering f cunit) } := by
  have hsmall := (h.registering f cunit hcall).1
  have hopen := h.opened _ hcall
  have hhas : ∀ g d, (s.setCunitStatus f cunit true).has g d = if g = f ∧ d = cunit then true else s.has g d := by
    intro g d
    simp only [has_setCunitStatus, show cunit < 64 by omega, and_true]
  refine ⟨fun g d => ?_, fun g d hg => ?_, fun g d hd => ?_, fun x hx => h.opened x (List.mem_of_mem_erase hx),
    fun g d hd => h.registering g d (List.mem_of_mem_erase hd), h.range, fun d hd => ?_⟩
  · refine Iff.trans ?_ (and_congr_right' (iff_of_eq (congrArg (· = true) (hhas g d)))).symm
    dsimp only
    rw [setHeld_apply]
    split
    · rename_i heq
      rw [heq.1]
      exact ⟨fun _ => ⟨hopen, rfl⟩, fun _ => rfl⟩
    · exact h.held_iff g d
  · refine (hhas g d).trans ?_
    rw [if_neg]
    · exact h.closed g d hg
    · rintro ⟨rfl, -⟩
      exact nomatch hg.symm.trans hopen
  · rcases has_of_set hd with ⟨-, rfl⟩ | hd
    · exact hsmall
    · exact h.small g d hd
  · by_cases hdc : d = cunit
    · exact .inl ⟨f, (hhas f d).trans (if_pos ⟨rfl, hdc⟩)⟩
    · rcases h.owned d hd with ⟨g, hg⟩ | ⟨x, hx, rfl⟩
      · exact .inl ⟨g, (hhas g d).trans ((if_neg fun heq => hdc heq.2).trans hg)⟩
      · refine .inr ⟨x, (List.mem_erase_of_ne ?_).mpr hx, rfl⟩
        rintro rfl
        exact hdc rfl

theorem Accounted.removeCunit (h : Accounted s) (hopen : s.status f = .opened) (cunit : Nat) :
    Accounted { s.setCunitStatus f cunit false with
      held := setHeld s.held f cunit false, calls := .releasing f cunit :: s.calls } := by
  refine ⟨fun g d => ?_, fun g d hg => ?_, fun g d hd => h.small g d (has_of_clear hd).1, fun x hx => ?_,
    fun g d hd => h.registering g d ((List.mem_cons.mp hd).resolve_left (by simp)), h.range, fun d hd => ?_⟩
  · change setHeld s.held f cunit false g d = true ↔
      s.status g = .opened ∧ (s.setCunitStatus f cunit false).has g d = true
    rw [setHeld_apply, has_setCunitStatus]
    by_cases heq : g = f ∧ d = cunit
    · -- a bit behind the mask was not set before
      have hclear : (if g = f ∧ d = cunit ∧ cunit < 64 then false else s.has g d) = false := by
        split
        · rfl
        · by_contra hset
          rw [Bool.not_eq_false] at hset
          have := h.small g d hset
          omega
      rw [if_pos heq, hclear]
      simp
    · rw [if_neg heq, if_neg fun h => heq ⟨h.1, h.2.1⟩]
      exact h.held_iff g d
  · by_contra hset
    rw [Bool.not_eq_false] at hset
    exact nomatch (h.closed g d hg).symm.trans (has_of_clear hset).1
  · rcases List.mem_cons.mp hx with rfl | hx
    · exact hopen
    · exact h.opened x hx
  · by_cases hdc : d = cunit
    · exact .inr ⟨_, List.mem_cons_self, hdc.symm⟩
    · rcases h.owned d hd with ⟨g, hg⟩ | ⟨x, hx, heq⟩
      · exact .inl ⟨g, has_clear_of_ne hg fun heq => hdc heq.2⟩
      · exact .inr ⟨x, List.mem_cons_of_mem _ hx, heq⟩

theorem Accounted.releaseCunit (h : Accounted s) (f cunit : Nat) :
    Accounted { s with
      sched := (s.sched.releaseCunit cunit).2, calls := s.calls.erase (.releasing f cunit) } := by
  refine ⟨h.held_iff, h.closed, h.small, fun x hx => h.opened x (List.mem_of_mem_erase hx), fun g d hd => ?_,
    fun d hd => ?_, fun d hd => ?_⟩
  · rw [Sched.releaseCunit_nrCunits]
    exact h.registering g d (List.mem_of_mem_erase hd)
  · rw [Sched.releaseCunit_nrCunits]
    exact h.range d ((Sched.releaseCunit_busy ..).mp hd).1
  · obtain ⟨hbusy, hne⟩ := (Sched.releaseCunit_busy ..).mp hd
    rcases h.owned d hbusy with hmask | ⟨x, hx, rfl⟩
    · exact .inl hmask
    · refine .inr ⟨x, (List.mem_erase_of_ne ?_).mpr hx, rfl⟩
      rintro rfl
      exact hne ⟨rfl, h.range _ hbusy⟩

theorem Accounted.cleanup (h : Accounted s) (hclosing : s.status f = .closing) (cunit : Nat) :
    Accounted { s.setCunitStatus f cunit false with sched := (s.sched.releaseCunit cunit).2 } := by
  refine ⟨fun g d => ?_, fun g d hg => ?_, fun g d hd => h.small g d (has_of_clear hd).1, h.opened, fun g d hd => ?_,
    fun d hd => ?_, fun d hd => ?_⟩
  · refine (h.held_iff g d).trans (and_congr_right fun hopen => ⟨fun hset => ?_, fun hset => (has_of_clear hset).1⟩)
    refine has_clear_of_ne hset ?_
    rintro ⟨rfl, -⟩
    exact nomatch hclosing.symm.trans hopen
  · by_contra hset
    rw [Bool.not_eq_false] at hset
    exact nomatch (h.closed g d hg).symm.trans (has_of_clear hset).1
  · rw [Sched.releaseCunit_nrCunits]
    exact h.registering g d hd
  · rw [Sched.releaseCunit_nrCunits]
    exact h.range d ((Sched.releaseCunit_busy ..).mp hd).1
  · obtain ⟨hbusy, hne⟩ := (Sched.releaseCunit_busy ..).mp hd
    rcases h.owned d hbusy with ⟨g, hg⟩ | hcall
    · refine .inl ⟨g, has_clear_of_ne hg ?_⟩
      rintro ⟨-, rfl⟩
      exact hne ⟨rfl, h.range _ hbusy⟩
    · exact .inr hcall

/-- **One event**, whatever it releases. -/
theorem Accounted.next {e : CunitEvent} (h : Accounted s) (hnext : s.next e = some t) : Accounted t := by
  cases e with
  | openFile f =>
      obtain ⟨hfile, rfl⟩ := of_guarded hnext
      rw [h.mask_eq_zero hfile]
      exact h.setStatus (fun _ d => h.closed f d hfile) fun hne => absurd rfl hne
  | getCunit f arg =>
      obtain ⟨hopen, cunit, hsmall, hlt, -, rfl⟩ := of_getCunit hnext
      exact h.getCunit hopen hsmall hlt
  | registerCunit f cunit =>
      obtain ⟨hcall, rfl⟩ := of_guarded hnext
      exact h.registerCunit hcall
  | removeCunit f arg =>
      obtain ⟨hopen, rfl⟩ := of_guarded hnext
      exact h.removeCunit hopen _
  | releaseCunit f cunit =>
      obtain ⟨-, rfl⟩ := of_guarded hnext
      exact h.releaseCunit f cunit
  | close f =>
      obtain ⟨⟨-, hcalls⟩, rfl⟩ := of_guarded hnext
      refine h.setStatus (fun hne => absurd rfl hne) fun _ x hx => ?_
      exact of_decide_eq_true (List.all_eq_true.mp hcalls x hx)
  | cleanup f =>
      obtain ⟨hclosing, ⟨cunit, -, rfl⟩ | ⟨hnone, rfl⟩⟩ := of_cleanup hnext
      · exact h.cleanup hclosing cunit
      · have hopen : s.status f ≠ .opened := by simp [hclosing]
        rw [← h.held_eq hopen]
        refine h.setStatus (fun _ d => ?_) fun _ x hx hxf => hopen (hxf ▸ h.opened x hx)
        by_contra hset
        rw [Bool.not_eq_false] at hset
        exact nomatch (hnone d (h.small f d hset)).symm.trans hset

end CunitDevice

end Pnm.Kernel
