import Mathlib.Data.List.Nodup
import Mathlib.Logic.Function.Basic

/-!
# `Lib.Ledger` — exclusive ownership of resources

Owners hold at most one resource each. A resource comes to an owner when it is allocated, goes from owner to owner,
and is freed by the owner that has it. `Valid` is the invariant: every resource that was ever allocated has exactly
one owner or has been freed, and is freed once.
-/

namespace Pnm.Lib

/-- Who has what, what was allocated and what was freed. -/
structure Ledger (ι ρ : Type) where
  holder : ι → Option ρ
  allocated : List ρ
  freed : List ρ

namespace Ledger

variable {ι ρ : Type} (l : Ledger ι ρ)

/-- No resource has two owners, is used after it was freed, is freed twice, or is lost. -/
structure Valid : Prop where
  held_allocated : ∀ x r, l.holder x = some r → r ∈ l.allocated
  exclusive : ∀ x y r, l.holder x = some r → l.holder y = some r → x = y
  held_notFreed : ∀ x r, l.holder x = some r → r ∉ l.freed
  freed_allocated : ∀ r ∈ l.freed, r ∈ l.allocated
  freed_once : l.freed.Nodup
  accounted : ∀ r ∈ l.allocated, r ∈ l.freed ∨ ∃ x, l.holder x = some r

/-- Nothing has been allocated. -/
theorem valid_empty : Valid { holder := fun _ => none, allocated := [], freed := [] : Ledger ι ρ } where
  held_allocated := fun _ _ h => nomatch h
  exclusive := fun _ _ _ h => nomatch h
  held_notFreed := fun _ _ h => nomatch h
  freed_allocated := fun _ h => absurd h (by simp)
  freed_once := List.nodup_nil
  accounted := fun _ h => absurd h (by simp)

variable [DecidableEq ι]

/-- A new resource, for an owner that has none. -/
def acquire (x : ι) (r : ρ) : Ledger ι ρ :=
  { l with holder := Function.update l.holder x (some r), allocated := r :: l.allocated }

/-- What `y` has goes to `x`. -/
def transfer (x y : ι) : Ledger ι ρ :=
  { l with holder := Function.update (Function.update l.holder y none) x (l.holder y) }

/-- An owner frees what it has. -/
def free (x : ι) : Ledger ι ρ :=
  { l with holder := Function.update l.holder x none, freed := l.freed ++ (l.holder x).toList }

variable {l}

@[simp] theorem acquire_holder (x : ι) (r : ρ) :
    (l.acquire x r).holder = Function.update l.holder x (some r) := rfl

@[simp] theorem transfer_holder (x y : ι) :
    (l.transfer x y).holder = Function.update (Function.update l.holder y none) x (l.holder y) := rfl

@[simp] theorem free_holder (x : ι) : (l.free x).holder = Function.update l.holder x none := rfl

theorem Valid.acquire (h : l.Valid) {x : ι} {r : ρ} (hx : l.holder x = none) (hr : r ∉ l.allocated) :
    (l.acquire x r).Valid := by
  -- an owner other than `x` has what it had
  have hcases : ∀ y r', (l.acquire x r).holder y = some r' → (y = x ∧ r' = r) ∨ (y ≠ x ∧ l.holder y = some r') := by
    intro y r' hy
    by_cases hyx : y = x
    · subst hyx
      rw [acquire_holder, Function.update_self] at hy
      exact .inl ⟨rfl, (Option.some.inj hy).symm⟩
    · rw [acquire_holder, Function.update_of_ne hyx] at hy
      exact .inr ⟨hyx, hy⟩
  constructor
  case held_allocated =>
    intro y r' hy
    rcases hcases y r' hy with ⟨-, rfl⟩ | ⟨-, hy⟩
    · exact List.mem_cons_self
    · exact List.mem_cons_of_mem _ (h.held_allocated y r' hy)
  case exclusive =>
    intro y z r' hy hz
    rcases hcases y r' hy with ⟨rfl, rfl⟩ | ⟨-, hy'⟩
    · rcases hcases z _ hz with ⟨rfl, -⟩ | ⟨-, hz'⟩
      · rfl
      · exact absurd (h.held_allocated z _ hz') hr
    · rcases hcases z r' hz with ⟨-, rfl⟩ | ⟨-, hz'⟩
      · exact absurd (h.held_allocated y _ hy') hr
      · exact h.exclusive y z r' hy' hz'
  case held_notFreed =>
    intro y r' hy
    rcases hcases y r' hy with ⟨-, rfl⟩ | ⟨-, hy⟩
    · exact fun hfreed => hr (h.freed_allocated _ hfreed)
    · exact h.held_notFreed y r' hy
  case freed_allocated => exact fun r' hr' => List.mem_cons_of_mem _ (h.freed_allocated r' hr')
  case freed_once => exact h.freed_once
  case accounted =>
    intro r' hr'
    rcases List.mem_cons.mp hr' with rfl | hr'
    · exact .inr ⟨x, Function.update_self ..⟩
    · rcases h.accounted r' hr' with hfreed | ⟨y, hy⟩
      · exact .inl hfreed
      · have hyx : y ≠ x := by
          rintro rfl
          exact nomatch hx.symm.trans hy
        exact .inr ⟨y, (Function.update_of_ne hyx ..).trans hy⟩

theorem Valid.transfer (h : l.Valid) {x y : ι} (hx : l.holder x = none) : (l.transfer x y).Valid := by
  -- what an owner has, it had itself or has from `y`
  have hcases : ∀ z r, (l.transfer x y).holder z = some r →
      (z = x ∧ l.holder y = some r) ∨ (z ≠ x ∧ z ≠ y ∧ l.holder z = some r) := by
    intro z r hz
    by_cases hzx : z = x
    · subst hzx
      rw [transfer_holder, Function.update_self] at hz
      exact .inl ⟨rfl, hz⟩
    · rw [transfer_holder, Function.update_of_ne hzx] at hz
      by_cases hzy : z = y
      · subst hzy
        rw [Function.update_self] at hz
        exact nomatch hz
      · rw [Function.update_of_ne hzy] at hz
        exact .inr ⟨hzx, hzy, hz⟩
  have hsource : ∀ z r, (l.transfer x y).holder z = some r → ∃ z', l.holder z' = some r := by
    intro z r hz
    rcases hcases z r hz with ⟨-, hz⟩ | ⟨-, -, hz⟩
    · exact ⟨y, hz⟩
    · exact ⟨z, hz⟩
  constructor
  case held_allocated =>
    intro z r hz
    obtain ⟨z', hz'⟩ := hsource z r hz
    exact h.held_allocated z' r hz'
  case exclusive =>
    intro z w r hz hw
    rcases hcases z r hz with ⟨rfl, hz'⟩ | ⟨-, hzy, hz'⟩
    · rcases hcases w r hw with ⟨rfl, -⟩ | ⟨-, hwy, hw'⟩
      · rfl
      · exact absurd (h.exclusive w y r hw' hz') hwy
    · rcases hcases w r hw with ⟨-, hw'⟩ | ⟨-, -, hw'⟩
      · exact absurd (h.exclusive z y r hz' hw') hzy
      · exact h.exclusive z w r hz' hw'
  case held_notFreed =>
    intro z r hz
    obtain ⟨z', hz'⟩ := hsource z r hz
    exact h.held_notFreed z' r hz'
  case freed_allocated => exact h.freed_allocated
  case freed_once => exact h.freed_once
  case accounted =>
    intro r hr
    rcases h.accounted r hr with hfreed | ⟨z, hz⟩
    · exact .inl hfreed
    · by_cases hzy : z = y
      · subst hzy
        exact .inr ⟨x, (Function.update_self ..).trans hz⟩
      · have hzx : z ≠ x := by
          rintro rfl
          exact nomatch hx.symm.trans hz
        exact .inr ⟨z, (Function.update_of_ne hzx ..).trans ((Function.update_of_ne hzy ..).trans hz)⟩

theorem Valid.free (h : l.Valid) (x : ι) : (l.free x).Valid := by
  have hcases : ∀ z r, (l.free x).holder z = some r → z ≠ x ∧ l.holder z = some r := by
    intro z r hz
    by_cases hzx : z = x
    · subst hzx
      rw [free_holder, Function.update_self] at hz
      exact nomatch hz
    · rw [free_holder, Function.update_of_ne hzx] at hz
      exact ⟨hzx, hz⟩
  have hfreed : ∀ r, r ∈ (l.free x).freed ↔ r ∈ l.freed ∨ l.holder x = some r := by
    intro r
    rw [Ledger.free, List.mem_append, Option.mem_toList]
  constructor
  case held_allocated => exact fun z r hz => h.held_allocated z r (hcases z r hz).2
  case exclusive => exact fun z w r hz hw => h.exclusive z w r (hcases z r hz).2 (hcases w r hw).2
  case held_notFreed =>
    intro z r hz hmem
    obtain ⟨hzx, hz⟩ := hcases z r hz
    rcases (hfreed r).mp hmem with hold | hx
    · exact h.held_notFreed z r hz hold
    · exact hzx (h.exclusive z x r hz hx)
  case freed_allocated =>
    intro r hmem
    rcases (hfreed r).mp hmem with hold | hx
    · exact h.freed_allocated r hold
    · exact h.held_allocated x r hx
  case freed_once =>
    show (l.freed ++ (l.holder x).toList).Nodup
    cases hx : l.holder x with
    | none => simpa using h.freed_once
    | some r =>
        rw [Option.toList_some, ← List.concat_eq_append]
        exact h.freed_once.concat (h.held_notFreed x r hx)
  case accounted =>
    intro r hr
    rcases h.accounted r hr with hold | ⟨z, hz⟩
    · exact .inl ((hfreed r).mpr (.inl hold))
    · by_cases hzx : z = x
      · subst hzx
        exact .inl ((hfreed r).mpr (.inr hz))
      · exact .inr ⟨z, (Function.update_of_ne hzx ..).trans hz⟩

end Ledger

end Pnm.Lib
