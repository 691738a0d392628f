import Mathlib.Algebra.Group.Nat.Defs
import Mathlib.Logic.Function.Basic
import Mathlib.Tactic.Common

/-!
# `Kernel.Sched` — the scheduler of compute units

The model of the part of `lib/pnm/sched.c` that runs under the scheduler's mutex: the search for a free unit and its
acquisition, and the release of a unit. A mask is a number; the mask of the free units is the list of its bits, lowest
first.
-/

namespace Pnm.Kernel

/-- `struct pnm_sched`: the number of the units and which of them are busy. -/
structure Sched where
  nrCunits : Nat
  busy : Nat → Bool

namespace Sched

variable (s : Sched)

/-- `pnm_sched_init`. -/
def init (nrCunits : Nat) : Sched := { nrCunits := nrCunits, busy := fun _ => false }

/-- `BIT_MASK(nr_cunits)`. -/
def maxMskVal : Nat := 2 ^ (s.nrCunits % 64)

/-- `pnm_sched_find_free_cunits`. -/
def findFreeCunits (reqMsk : Nat) : List Nat :=
  (List.range s.nrCunits).filter fun cunit => reqMsk.testBit cunit && !s.busy cunit

/-- `pnm_sched_acquire_free_cunit`. -/
def acquireFreeCunit (cunit : Nat) : Sched := { s with busy := Function.update s.busy cunit true }

/-- `pnm_sched_find_acquire_free_cunit`; `none` is the return value -1. -/
def findAcquireFreeCunit (reqMsk : Nat) : Option (Nat × Sched) :=
  if s.maxMskVal ≤ reqMsk then none
  else
    match s.findFreeCunits reqMsk with
    | []         => none
    | cunit :: _ => some (cunit, s.acquireFreeCunit cunit)

/-- `pnm_sched_release_cunit`, with its return value. -/
def releaseCunit (cunit : Nat) : Int × Sched :=
  if s.nrCunits ≤ cunit then (-1, s) else (cunit, { s with busy := Function.update s.busy cunit false })

variable {s}

/-- What is acquired was free and asked for. -/
theorem findAcquireFreeCunit_eq_some {reqMsk cunit : Nat} {t : Sched}
    (h : s.findAcquireFreeCunit reqMsk = some (cunit, t)) :
    cunit < s.nrCunits ∧ reqMsk.testBit cunit = true ∧ s.busy cunit = false ∧ t = s.acquireFreeCunit cunit := by
  rw [findAcquireFreeCunit] at h
  split at h
  · exact nomatch h
  · split at h
    · exact nomatch h
    · rename_i first rest hfree
      obtain ⟨rfl, rfl⟩ := Prod.mk.inj (Option.some.inj h)
      have hmem : first ∈ s.findFreeCunits reqMsk := by
        rw [hfree]
        exact List.mem_cons_self
      rw [findFreeCunits, List.mem_filter, List.mem_range, Bool.and_eq_true, Bool.not_eq_true'] at hmem
      exact ⟨hmem.1, hmem.2.1, hmem.2.2, rfl⟩

/-- A request for one unit that is idle. -/
theorem findAcquireFreeCunit_two_pow {cunit : Nat} (hlt : cunit < s.nrCunits) (hnr : s.nrCunits < 64)
    (hidle : s.busy cunit = false) : s.findAcquireFreeCunit (2 ^ cunit) = some (cunit, s.acquireFreeCunit cunit) := by
  have hvalid : ¬ s.maxMskVal ≤ 2 ^ cunit := by
    rw [maxMskVal, Nat.mod_eq_of_lt hnr, Nat.not_le]
    exact Nat.pow_lt_pow_right (by decide) hlt
  have hmem : cunit ∈ s.findFreeCunits (2 ^ cunit) := by
    simp [findFreeCunits, hlt, hidle]
  cases hfind : s.findAcquireFreeCunit (2 ^ cunit) with
  | none =>
      rw [findAcquireFreeCunit, if_neg hvalid] at hfind
      split at hfind
      · rename_i hnone
        rw [hnone] at hmem
        exact absurd hmem List.not_mem_nil
      · cases hfind
  | some found =>
      obtain ⟨-, hbit, -, hacquire⟩ := findAcquireFreeCunit_eq_some hfind
      obtain rfl : cunit = found.1 := by
        rw [Nat.testBit_two_pow, decide_eq_true_eq] at hbit
        exact hbit
      rw [← hacquire]

theorem releaseCunit_of_lt {cunit : Nat} (h : cunit < s.nrCunits) :
    s.releaseCunit cunit = ((cunit : Int), { s with busy := Function.update s.busy cunit false }) :=
  if_neg (Nat.not_le.mpr h)

theorem releaseCunit_of_le {cunit : Nat} (h : s.nrCunits ≤ cunit) : s.releaseCunit cunit = (-1, s) := if_pos h

@[simp] theorem releaseCunit_nrCunits (cunit : Nat) : (s.releaseCunit cunit).2.nrCunits = s.nrCunits := by
  rw [releaseCunit]
  split <;> rfl

theorem acquireFreeCunit_busy (cunit other : Nat) :
    (s.acquireFreeCunit cunit).busy other = true ↔ other = cunit ∨ s.busy other = true := by
  rw [acquireFreeCunit]
  dsimp only
  rw [Function.update_apply]
  split <;> simp_all

theorem releaseCunit_busy (cunit other : Nat) :
    (s.releaseCunit cunit).2.busy other = true ↔ s.busy other = true ∧ ¬ (other = cunit ∧ cunit < s.nrCunits) := by
  by_cases hlt : cunit < s.nrCunits
  · rw [releaseCunit_of_lt hlt]
    dsimp only
    rw [Function.update_apply]
    split <;> simp_all
  · rw [releaseCunit_of_le (Nat.le_of_not_lt hlt)]
    simp [hlt]

end Sched

end Pnm.Kernel
