import Mathlib.Tactic.Common

/-!
# `Lib.Calls` — calls that change a state and may throw

A call that throws keeps what it has changed: the state is below the exception. `exec` is its outcome in a state, with
one equation for each way to combine calls. `Ends` is total correctness with two postconditions, one for the value
that is returned and one for what is thrown, and has one rule for each combination (`Ends.bind`, `Ends.tryCatch`,
`Ends.forM`, `Ends.mapM`).
-/

namespace Pnm.Lib

/-- A call with state `σ` that may throw an `ε`. -/
abbrev Call (ε σ α : Type) := ExceptT ε (StateM σ) α

namespace Call

variable {ε σ α β : Type}

/-- The outcome of a call. -/
def exec (x : Call ε σ α) (s : σ) : Except ε α × σ := StateT.run (ExceptT.run x) s

/-- The call with a given outcome. -/
def ofExec (f : σ → Except ε α × σ) : Call ε σ α := ExceptT.mk f

@[simp] theorem exec_ofExec (f : σ → Except ε α × σ) (s : σ) : (ofExec f).exec s = f s := rfl

@[simp] theorem exec_pure (a : α) (s : σ) : (pure a : Call ε σ α).exec s = (.ok a, s) := rfl

@[simp] theorem exec_throw (e : ε) (s : σ) : (throw e : Call ε σ α).exec s = (.error e, s) := rfl

theorem exec_bind_ok {x : Call ε σ α} {f : α → Call ε σ β} {s t : σ} {a : α} (h : x.exec s = (.ok a, t)) :
    (x >>= f).exec s = (f a).exec t := by
  simp only [exec, ExceptT.run_bind, StateT.run_bind] at h ⊢
  rw [h]
  rfl

theorem exec_bind_error {x : Call ε σ α} {f : α → Call ε σ β} {s t : σ} {e : ε} (h : x.exec s = (.error e, t)) :
    (x >>= f).exec s = (.error e, t) := by
  simp only [exec, ExceptT.run_bind, StateT.run_bind] at h ⊢
  rw [h]
  rfl

theorem exec_tryCatch_ok {x : Call ε σ α} {handler : ε → Call ε σ α} {s t : σ} {a : α} (h : x.exec s = (.ok a, t)) :
    (tryCatch x handler).exec s = (.ok a, t) := by
  simp only [exec, tryCatch, tryCatchThe, MonadExceptOf.tryCatch, ExceptT.tryCatch, ExceptT.run_mk,
    StateT.run_bind] at h ⊢
  rw [show StateT.run x s = _ from h]
  rfl

theorem exec_tryCatch_error {x : Call ε σ α} {handler : ε → Call ε σ α} {s t : σ} {e : ε}
    (h : x.exec s = (.error e, t)) : (tryCatch x handler).exec s = (handler e).exec t := by
  simp only [exec, tryCatch, tryCatchThe, MonadExceptOf.tryCatch, ExceptT.tryCatch, ExceptT.run_mk,
    StateT.run_bind] at h ⊢
  rw [show StateT.run x s = _ from h]
  rfl

/-! ## Postconditions -/

/-- The call returns with `Q`, or throws with `E`. -/
def Ends (x : Call ε σ α) (s : σ) (Q : α → σ → Prop) (E : ε → σ → Prop) : Prop :=
  match x.exec s with
  | (.ok a, t)    => Q a t
  | (.error e, t) => E e t

section Rules

variable {x : Call ε σ α} {s t : σ} {Q Q' : α → σ → Prop} {E E' : ε → σ → Prop} {R : β → σ → Prop}

theorem ends_of_ok {a : α} (h : x.exec s = (.ok a, t)) : x.Ends s Q E ↔ Q a t := by rw [Ends, h]

theorem ends_of_error {e : ε} (h : x.exec s = (.error e, t)) : x.Ends s Q E ↔ E e t := by rw [Ends, h]

/-- A call returns or throws. -/
theorem exec_cases (x : Call ε σ α) (s : σ) :
    (∃ a t, x.exec s = (.ok a, t)) ∨ ∃ e t, x.exec s = (.error e, t) := by
  rcases h : x.exec s with ⟨⟨⟩ | ⟨⟩, t⟩
  · exact .inr ⟨_, t, rfl⟩
  · exact .inl ⟨_, t, rfl⟩

theorem exec_bind_eq_ok {f : α → Call ε σ β} {b : β} (h : (x >>= f).exec s = (.ok b, t)) :
    ∃ a u, x.exec s = (.ok a, u) ∧ (f a).exec u = (.ok b, t) := by
  rcases x.exec_cases s with ⟨a, u, hx⟩ | ⟨e, u, hx⟩
  · exact ⟨a, u, hx, (exec_bind_ok hx).symm.trans h⟩
  · cases (exec_bind_error hx).symm.trans h

theorem ends_pure {a : α} (h : Q a s) : (pure a : Call ε σ α).Ends s Q E := (ends_of_ok (exec_pure a s)).mpr h

theorem ends_throw {e : ε} (h : E e s) : (throw e : Call ε σ α).Ends s Q E := (ends_of_error (exec_throw e s)).mpr h

theorem ends_trivial (x : Call ε σ α) (s : σ) : x.Ends s (fun _ _ => True) fun _ _ => True := by
  rcases x.exec_cases s with ⟨a, t, hx⟩ | ⟨e, t, hx⟩
  · exact (ends_of_ok hx).mpr trivial
  · exact (ends_of_error hx).mpr trivial

theorem Ends.mono (h : x.Ends s Q E) (hQ : ∀ a t, Q a t → Q' a t) (hE : ∀ e t, E e t → E' e t) : x.Ends s Q' E' := by
  rcases x.exec_cases s with ⟨a, t, hx⟩ | ⟨e, t, hx⟩
  · exact (ends_of_ok hx).mpr (hQ a t ((ends_of_ok hx).mp h))
  · exact (ends_of_error hx).mpr (hE e t ((ends_of_error hx).mp h))

theorem Ends.bind {f : α → Call ε σ β} (h : x.Ends s Q E) (hf : ∀ a t, Q a t → (f a).Ends t R E) :
    (x >>= f).Ends s R E := by
  rcases x.exec_cases s with ⟨a, t, hx⟩ | ⟨e, t, hx⟩
  · rw [Ends, exec_bind_ok hx]
    exact hf a t ((ends_of_ok hx).mp h)
  · exact (ends_of_error (exec_bind_error hx)).mpr ((ends_of_error hx).mp h)

/-- What is returned does not matter. -/
theorem ends_map {S : σ → Prop} (g : α → β) :
    (x >>= fun a => (pure (g a) : Call ε σ β)).Ends s (fun _ => S) E ↔ x.Ends s (fun _ => S) E := by
  rcases x.exec_cases s with ⟨a, t, hx⟩ | ⟨e, t, hx⟩
  · rw [Ends, exec_bind_ok hx, exec_pure, Ends, hx]
  · rw [Ends, exec_bind_error hx, Ends, hx]

theorem Ends.tryCatch {handler : ε → Call ε σ α} (h : x.Ends s Q E) (hh : ∀ e t, E e t → (handler e).Ends t Q E') :
    (MonadExcept.tryCatch x handler).Ends s Q E' := by
  rcases x.exec_cases s with ⟨a, t, hx⟩ | ⟨e, t, hx⟩
  · exact (ends_of_ok (exec_tryCatch_ok hx)).mpr ((ends_of_ok hx).mp h)
  · rw [Ends, exec_tryCatch_error hx]
    exact hh e t ((ends_of_error hx).mp h)

/-- **The rule for loops.** The invariant is about what is still to do. -/
theorem Ends.forM {f : β → Call ε σ PUnit} {I : List β → σ → Prop}
    (hf : ∀ b rest s, I (b :: rest) s → (f b).Ends s (fun _ => I rest) E) {l : List β} (h : I l s) :
    (l.forM f).Ends s (fun _ => I []) E := by
  induction l generalizing s with
  | nil => exact ends_pure h
  | cons b rest ih => exact (hf b rest s h).bind fun _ t ht => ih ht

/-- The same for loops that collect what their turns return. -/
theorem Ends.mapM {f : β → Call ε σ α} {I : List β → σ → Prop} {S : β → α → Prop}
    (hf : ∀ b rest s, I (b :: rest) s → (f b).Ends s (fun a t => S b a ∧ I rest t) E) {l : List β} (h : I l s) :
    (l.mapM f).Ends s (fun as t => List.Forall₂ S l as ∧ I [] t) E := by
  induction l generalizing s with
  | nil => exact ends_pure ⟨.nil, h⟩
  | cons b rest ih =>
      rw [List.mapM_cons]
      refine (hf b rest s h).bind fun a t ht => (ih ht.2).bind fun as u hu => ?_
      exact ends_pure ⟨.cons ht.1 hu.1, hu.2⟩

/-- A call that does not throw has both postconditions. -/
theorem Ends.and {R : α → σ → Prop} (h : x.Ends s Q fun _ _ => False) (h' : x.Ends s R E) :
    ∃ a t, x.exec s = (.ok a, t) ∧ Q a t ∧ R a t := by
  rcases x.exec_cases s with ⟨a, t, hx⟩ | ⟨e, t, hx⟩
  · exact ⟨a, t, hx, (ends_of_ok hx).mp h, (ends_of_ok hx).mp h'⟩
  · exact ((ends_of_error hx).mp h).elim

end Rules

end Call

end Pnm.Lib
