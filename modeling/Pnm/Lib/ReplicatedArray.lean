import Mathlib.Tactic.Common

/-!
# `Lib.ReplicatedArray` — arrays that are kept in several copies

A state holds the same array several times: a store at an index goes to every copy, a read is answered from the first
one. `Behaves` says what a client expects of whole histories, in terms of the last value stored at an index. By
`behaves_iff` this comes down to one store and one read from an arbitrary state.
-/

namespace Pnm.Lib

variable {σ ε ι κ V ρ : Type}

/-- What a client does with an array. -/
inductive ArrayOp (ι V : Type) where
  | store (i : ι) (v : V)
  | read (i : ι)

/-- The value most recently stored at an index. -/
def lastStored [DecidableEq ι] (i : ι) : List (ArrayOp ι V) → Option V
  | []                => none
  | .store j v :: ops => (lastStored i ops).or (if j = i then some v else none)
  | .read _ :: ops    => lastStored i ops

section LastStored

variable [DecidableEq ι] {i j : ι} {v c : V}

theorem getD_lastStored_store : (lastStored j [.store i v]).getD c = if i = j then v else c := by
  show Option.getD (if i = j then some v else none) c = _
  by_cases hij : i = j
  · rw [if_pos hij, if_pos hij, Option.getD_some]
  · rw [if_neg hij, if_neg hij, Option.getD_none]

/-- What is stored later wins. -/
theorem getD_lastStored_cons (op : ArrayOp ι V) (ops : List (ArrayOp ι V)) :
    (lastStored i (op :: ops)).getD c = (lastStored i ops).getD ((lastStored i [op]).getD c) := by
  cases op with
  | store j v => exact Option.getD_or
  | read j    => rfl

end LastStored

/-- A state with stores and reads. `cell k i s` is what copy `k` holds at index `i`, and `rest` is what the state holds
    besides the copies. -/
structure ArrayImpl (σ ε ι κ V ρ : Type) where
  store : ι → V → σ → Except ε σ
  read : ι → σ → Except ε V
  copies : List κ
  cell : κ → ι → σ → V
  rest : σ → ρ

namespace ArrayImpl

variable (A : ArrayImpl σ ε ι κ V ρ)

/-- The state after an operation; the answer of a read is dropped. -/
def step (s : σ) : ArrayOp ι V → Except ε σ
  | .store i v => A.store i v s
  | .read i    => do
    let _ ← A.read i s
    return s

def run (ops : List (ArrayOp ι V)) (s : σ) : Except ε σ := ops.foldlM A.step s

variable [DecidableEq ι]

/-- **An array.** Every history runs; after it each copy holds at each index the value most recently stored there, or
    the initial one, a read answers with that of the first copy, and nothing besides the copies has changed. -/
def Behaves : Prop :=
  ∀ (ops : List (ArrayOp ι V)) (s : σ), ∃ s', A.run ops s = .ok s' ∧
    (∀ k ∈ A.copies, ∀ i, A.cell k i s' = (lastStored i ops).getD (A.cell k i s)) ∧
    (∀ first ∈ A.copies.head?, ∀ i, A.read i s' = .ok ((lastStored i ops).getD (A.cell first i s))) ∧
    A.rest s' = A.rest s

/-- One store: it succeeds, reaches every copy and changes nothing else. -/
def StoresOne (i : ι) (v : V) (s : σ) : Prop :=
  ∃ s', A.store i v s = .ok s' ∧
    (∀ k ∈ A.copies, ∀ j, A.cell k j s' = if i = j then v else A.cell k j s) ∧ A.rest s' = A.rest s

/-- Every read is answered from the first copy. -/
def ReadsFirst : Prop := ∀ first ∈ A.copies.head?, ∀ i s, A.read i s = .ok (A.cell first i s)

variable {A}

theorem step_of_stores_reads (hstore : ∀ i v s, A.StoresOne i v s) (hne : A.copies ≠ []) (hread : A.ReadsFirst)
    (op : ArrayOp ι V) (s : σ) :
    ∃ s', A.step s op = .ok s' ∧
      (∀ k ∈ A.copies, ∀ j, A.cell k j s' = (lastStored j [op]).getD (A.cell k j s)) ∧ A.rest s' = A.rest s := by
  cases op with
  | store i v =>
    obtain ⟨s', hs', hcells, hrest⟩ := hstore i v s
    refine ⟨s', hs', fun k hk j => ?_, hrest⟩
    rw [hcells k hk j, getD_lastStored_store]
  | read i =>
    obtain ⟨first, hfirst⟩ : ∃ first, first ∈ A.copies.head? := ⟨A.copies.head hne, List.head?_eq_some_head hne⟩
    refine ⟨s, ?_, fun _ _ _ => rfl, rfl⟩
    unfold step
    dsimp only
    rw [hread first hfirst i s]
    rfl

/-- **An array is one store and one read from every state.** -/
theorem behaves_iff (hne : A.copies ≠ []) : A.Behaves ↔ (∀ i v s, A.StoresOne i v s) ∧ A.ReadsFirst := by
  constructor
  · intro h
    refine ⟨fun i v s => ?_, fun first hfirst i s => ?_⟩
    · obtain ⟨s', hrun, hcells, -, hrest⟩ := h [.store i v] s
      refine ⟨s', ?_, fun k hk j => ?_, hrest⟩
      · rw [← hrun]
        exact (bind_pure (A.store i v s)).symm
      · rw [hcells k hk j, getD_lastStored_store]
    · obtain ⟨s', hrun, -, hread, -⟩ := h [] s
      cases hrun
      exact hread first hfirst i
  · rintro ⟨hstore, hread⟩ ops
    -- the history is consumed from the front: the invariant is the conclusion for the state reached so far
    induction ops with
    | nil =>
      intro s
      exact ⟨s, rfl, fun _ _ _ => rfl, fun first hfirst i => hread first hfirst i s, rfl⟩
    | cons op ops ih =>
      intro s
      obtain ⟨s₁, hstep, hcells₁, hrest₁⟩ := step_of_stores_reads hstore hne hread op s
      obtain ⟨s', hrun, hcells, hreads, hrest⟩ := ih s₁
      refine ⟨s', ?_, fun k hk i => ?_, fun first hfirst i => ?_, hrest.trans hrest₁⟩
      · unfold run at hrun ⊢
        rw [List.foldlM_cons, hstep]
        exact hrun
      · rw [hcells k hk i, hcells₁ k hk i, getD_lastStored_cons op ops]
      · rw [hreads first hfirst i, hcells₁ first (List.mem_of_mem_head? hfirst) i, getD_lastStored_cons op ops]

end ArrayImpl

end Pnm.Lib
