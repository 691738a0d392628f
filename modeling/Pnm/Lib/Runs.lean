import Mathlib.Logic.Relation
import Mathlib.Tactic.Common

/-!
# `Lib.Runs` — runs of a transition system

A system is a step relation on its states; a run is its reflexive-transitive closure. Two rules are enough
for what follows: an invariant of the steps holds along every run (`Run.invariant`), and a measure that every step
decreases bounds every run (`terminates_of_measure`).

A system with events is a partial function: `Along` says that something holds in every state that a sequence of
events goes through, `Allowed` that every event of it is allowed where it happens. If allowed events keep an invariant,
it holds along every allowed sequence (`Allowed.along`); if in addition an event that is not allowed shows at once,
the two are the same (`along_iff_allowed`); if it can show later, an allowed sequence is one that stays clear of such
states (`allowed_iff_along_safe`). A goal is reached on every fair schedule if there is always one party whose events
come closer to it (`exists_goal_of_fair`). Calls that may fail are taken apart by `bind_eq_ok`.
-/

namespace Pnm.Lib

variable {σ : Type*} {step : σ → σ → Prop} {s s' : σ}

/-- Any number of steps. -/
abbrev Run (step : σ → σ → Prop) : σ → σ → Prop := Relation.ReflTransGen step

/-- No step is possible. -/
def Stuck (step : σ → σ → Prop) (s : σ) : Prop := ∀ s', ¬ step s s'

/-- Every sequence of steps from `s` is finite. -/
def Terminates (step : σ → σ → Prop) (s : σ) : Prop := Acc (fun b a => step a b) s

/-- **The invariant rule.** -/
theorem Run.invariant {I : σ → Prop} (hstep : ∀ a b, I a → step a b → I b) (h0 : I s) (h : Run step s s') :
    I s' := by
  induction h with
  | refl => exact h0
  | tail _ hab ih => exact hstep _ _ ih hab

/-- Tasks stay apart on their units if the one that changes takes a unit that no other task has. -/
theorem exclusive_update {α β γ : Type*} [DecidableEq α] {unit : β → Option γ} {phase : α → β} {p : α} {b : β}
    (h : ∀ q r d, unit (phase q) = some d → unit (phase r) = some d → q = r)
    (hfree : ∀ q d, q ≠ p → unit (phase q) = some d → unit b ≠ some d) (q r : α) (d : γ)
    (hq : unit (Function.update phase p b q) = some d) (hr : unit (Function.update phase p b r) = some d) : q = r := by
  rw [Function.update_apply] at hq hr
  split at hq <;> split at hr
  · rename_i hqp hrp
    exact hqp.trans hrp.symm
  · rename_i hrp
    exact absurd hq (hfree r d hrp hr)
  · rename_i hqp _
    exact absurd hr (hfree q d hqp hq)
  · exact h q r d hq hr

/-- **The measure rule**, under an invariant. -/
theorem terminates_of_measure {I : σ → Prop} (μ : σ → Nat) (hstep : ∀ a b, I a → step a b → I b)
    (hdec : ∀ a b, I a → step a b → μ b < μ a) (h0 : I s) : Terminates step s := by
  induction hn : μ s using Nat.strongRecOn generalizing s with
  | _ n ih =>
      subst hn
      exact Acc.intro s fun b hb => ih (μ b) (hdec s b h0 hb) (hstep s b h0 hb) rfl

/-! ## Systems with events -/

section Events

variable {ε : Type*} (next : σ → ε → Option σ)

/-- An event that happens only under a guard. -/
theorem of_guarded {p : Prop} {_ : Decidable p} {t : σ} (h : (if p then some s else none) = some t) : p ∧ s = t := by
  obtain ⟨hp, heq⟩ := Option.ite_none_right_eq_some.mp h
  exact ⟨hp, Option.some.inj heq⟩

/-- `P` holds in every state that a sequence of events goes through. -/
def Along (P : σ → Prop) : σ → List ε → Prop
  | s, []      => P s
  | s, e :: es => P s ∧ ∀ t, next s e = some t → Along P t es

/-- Every event that happens is allowed in the state it happens in. -/
def Allowed (C : σ → ε → Prop) : σ → List ε → Prop
  | _, []      => True
  | s, e :: es => ∀ t, next s e = some t → C s e ∧ Allowed C t es

variable {next} {P I : σ → Prop} {C : σ → ε → Prop} {es : List ε}

theorem Along.head (h : Along next P s es) : P s := by
  cases es with
  | nil => exact h
  | cons e es => exact h.1

/-- A sequence that happens as a whole ends in a state where `P` holds. -/
theorem Along.of_foldlM (h : Along next P s es) {t : σ} (ht : es.foldlM next s = some t) : P t := by
  induction es generalizing s with
  | nil =>
      obtain rfl := Option.some.inj ht
      exact h
  | cons e es ih =>
      rw [List.foldlM_cons] at ht
      obtain ⟨u, hu, hrest⟩ := Option.bind_eq_some_iff.mp ht
      exact ih (h.2 u hu) hrest

instance Allowed.decidable [∀ s e, Decidable (C s e)] : ∀ (s : σ) (es : List ε), Decidable (Allowed next C s es)
  | _, []      => isTrue trivial
  | s, e :: es =>
      match h : next s e with
      | none   => isTrue fun _ ht => nomatch h.symm.trans ht
      | some t =>
          have := Allowed.decidable t es
          decidable_of_iff (C s e ∧ Allowed next C t es)
            ⟨fun hc _ hu => Option.some.inj (h.symm.trans hu) ▸ hc, fun hall => hall t h⟩

/-- **Allowed events keep the invariant**, along the whole sequence. -/
theorem Allowed.along (hstep : ∀ s e t, I s → next s e = some t → C s e → I t) (hP : ∀ s, I s → P s) (h0 : I s)
    (h : Allowed next C s es) : Along next P s es := by
  induction es generalizing s with
  | nil => exact hP s h0
  | cons e es ih =>
      refine ⟨hP s h0, fun t ht => ?_⟩
      obtain ⟨hc, hrest⟩ := h t ht
      exact ih (hstep s e t h0 ht hc) hrest

/-- An invariant of all events holds along every sequence. -/
theorem along_of_invariant (hstep : ∀ s e t, I s → next s e = some t → I t) (hP : ∀ s, I s → P s) (h0 : I s) :
    Along next P s es := by
  induction es generalizing s with
  | nil => exact hP s h0
  | cons e es ih => exact ⟨hP s h0, fun t ht => ih (hstep s e t h0 ht)⟩

/-- **Events that are not allowed show at once.** -/
theorem along_iff_allowed (hstep : ∀ s e t, I s → next s e = some t → C s e → I t) (hP : ∀ s, I s → P s)
    (hC : ∀ s e t, I s → next s e = some t → P t → C s e) (h0 : I s) : Along next P s es ↔ Allowed next C s es := by
  refine ⟨fun h => ?_, Allowed.along hstep hP h0⟩
  induction es generalizing s with
  | nil => trivial
  | cons e es ih =>
      intro t ht
      have hc := hC s e t h0 ht (h.2 t ht).head
      exact ⟨hc, ih (hstep s e t h0 ht hc) (h.2 t ht)⟩

/-- Some events that are allowed in every state lead to where `P` does not hold. -/
def CanBreak (next : σ → ε → Option σ) (C : σ → ε → Prop) (P : σ → Prop) (s : σ) : Prop :=
  ∃ es, (∀ e ∈ es, ∀ t, C t e) ∧ ¬ Along next P s es

theorem CanBreak.of_not (h : ¬ P s) : CanBreak next C P s := ⟨[], fun _ he => absurd he List.not_mem_nil, h⟩

theorem CanBreak.of_next {e : ε} {t : σ} (ht : next s e = some t) (he : ∀ s, C s e) (h : CanBreak next C P t) :
    CanBreak next C P s := by
  obtain ⟨es, hes, hbad⟩ := h
  refine ⟨e :: es, fun e' he' => ?_, fun hall => hbad (hall.2 t ht)⟩
  rcases List.mem_cons.mp he' with rfl | he'
  · exact he
  · exact hes e' he'

theorem allowed_of_forall (h : ∀ e ∈ es, ∀ t, C t e) : Allowed next C s es := by
  induction es generalizing s with
  | nil => trivial
  | cons e es ih => exact fun t _ => ⟨h e List.mem_cons_self s, ih fun e' he' => h e' (List.mem_cons_of_mem e he')⟩

/-- **Events that are not allowed show later.** If `P` can break after each of them, then a sequence is allowed
    exactly if on its way there is no state from which allowed events lead to where `P` does not hold. -/
theorem allowed_iff_along_safe (hstep : ∀ s e t, I s → next s e = some t → C s e → I t) (hP : ∀ s, I s → P s)
    (hC : ∀ s e t, I s → next s e = some t → ¬ C s e → CanBreak next C P t) (h0 : I s) :
    Allowed next C s es ↔ Along next (fun t => ∀ es', Allowed next C t es' → Along next P t es') s es := by
  have hsafe : ∀ t, I t → ∀ es', Allowed next C t es' → Along next P t es' := fun t ht _ => Allowed.along hstep hP ht
  refine ⟨Allowed.along hstep hsafe h0, fun h => ?_⟩
  induction es generalizing s with
  | nil => trivial
  | cons e es ih =>
      intro t ht
      have hc : C s e := by
        by_contra hnot
        obtain ⟨es', hes, hbad⟩ := hC s e t h0 ht hnot
        exact hbad ((h.2 t ht).head es' (allowed_of_forall hes))
      exact ⟨hc, ih (hstep s e t h0 ht hc) (h.2 t ht)⟩

end Events

/-! ## Calls that may fail -/

section Calls

variable {ε α β σ : Type}

/-- A sequence of calls succeeds exactly if each of them does. -/
theorem bind_eq_ok {x : Except ε α} {f : α → Except ε β} {b : β} :
    (x >>= f) = .ok b ↔ ∃ a, x = .ok a ∧ f a = .ok b := by
  cases x with
  | error e => simp [bind, Except.bind]
  | ok a => simp [bind, Except.bind]

/-- A loop that returns has taken each of its turns. -/
theorem exists_of_foldlM_mem {f : σ → α → Except ε σ} {l : List α} {s s' : σ}
    (h : l.foldlM f s = .ok s') {a : α} (ha : a ∈ l) : ∃ t t', f t a = .ok t' := by
  induction l generalizing s with
  | nil => exact absurd ha (by simp)
  | cons b l ih =>
      rw [List.foldlM_cons] at h
      obtain ⟨t, hstep, hrest⟩ := bind_eq_ok.mp h
      rcases List.mem_cons.mp ha with rfl | ha
      · exact ⟨s, t, hstep⟩
      · exact ih hrest ha

/-- A loop whose turns all succeed is a fold. -/
theorem foldlM_eq_ok {f : σ → α → Except ε σ} {g : σ → α → σ} (h : ∀ s a, f s a = .ok (g s a))
    (l : List α) (s : σ) : l.foldlM f s = .ok (l.foldl g s) := by
  induction l generalizing s with
  | nil => rfl
  | cons a l ih =>
      rw [List.foldlM_cons, h s a, List.foldl_cons]
      exact ih (g s a)

end Calls

/-! ## Fair schedules -/

section Fair

variable {ε τ : Type*} (exec : σ → ε → σ) (sched : Nat → ε)

/-- The states of a schedule, event by event. -/
def statesOf (s : σ) : Nat → σ
  | 0     => s
  | n + 1 => exec (statesOf s n) (sched n)

variable {exec sched} {I G : σ → Prop}

/-- **The rule for fair schedules.** Outside the goal one party has the turn. Its events come closer to the goal;
    other events do so too, or leave the distance and the turn as they are. If every party has events again and
    again, the goal is reached. -/
theorem exists_goal_of_fair (dist : σ → Nat) (turn : σ → τ) (helps : τ → ε → Prop)
    (hstep : ∀ s e, I s → ¬ G s → G (exec s e) ∨ (I (exec s e) ∧ (dist (exec s e) < dist s ∨
      (dist (exec s e) = dist s ∧ turn (exec s e) = turn s ∧ ¬ helps (turn s) e))))
    (hfair : ∀ k n, ∃ m ≥ n, helps k (sched m)) (h0 : I s) : ∃ n, G (statesOf exec sched s n) := by
  suffices hclose : ∀ v n, I (statesOf exec sched s n) → dist (statesOf exec sched s n) = v →
      ∃ m, G (statesOf exec sched s m) from hclose _ 0 h0 rfl
  intro v
  induction v using Nat.strongRecOn with
  | _ v ih =>
      intro n hn hv
      obtain ⟨m, hm, hhelps⟩ := hfair (turn (statesOf exec sched s n)) n
      -- walk to the next event of the party whose turn it is
      obtain ⟨d, rfl⟩ := Nat.exists_eq_add_of_le hm
      induction d generalizing n with
      | zero =>
          by_cases hgoal : G (statesOf exec sched s n)
          · exact ⟨n, hgoal⟩
          · rcases hstep _ (sched n) hn hgoal with hnext | ⟨hinv, hlt | ⟨-, -, hno⟩⟩
            · exact ⟨n + 1, hnext⟩
            · exact ih _ (hv ▸ hlt) (n + 1) hinv rfl
            · exact absurd hhelps hno
      | succ d ihd =>
          by_cases hgoal : G (statesOf exec sched s n)
          · exact ⟨n, hgoal⟩
          · rcases hstep _ (sched n) hn hgoal with hnext | ⟨hinv, hlt | ⟨heq, hturn, -⟩⟩
            · exact ⟨n + 1, hnext⟩
            · exact ih _ (hv ▸ hlt) (n + 1) hinv rfl
            · refine ihd (n + 1) hinv (heq.trans hv) (by omega) ?_
              have hindex : n + (d + 1) = n + 1 + d := by omega
              rw [hindex] at hhelps
              change helps (turn (exec (statesOf exec sched s n) (sched n))) _
              rw [hturn]
              exact hhelps

end Fair

end Pnm.Lib
