import Mathlib.Data.List.Basic
import Mathlib.Data.List.TakeDrop
import Mathlib.Tactic.Common

/-!
# `Lib.Walk` — walking a container by positions

A forward iterator is a test for the end, the value at a position and the position after it. Values and positions may
be missing: an access outside the container has no result.

`Yields` relates a position to the values of the walk from there to the end. It is inductive, so a walk that yields a
list has come to an end and has made no access outside the container. `Produces` does not look at the end: it gives the
first values from a position on, which may lie behind the end. Both together say what a comparison of two walks finds
that looks at the end of the first one only (`equal_eq`).

Two kinds of walks are solved here: those over all indices (`yields_indexed`) and those that skip the indices
without a property (`Skipping`).
-/

namespace Pnm.Lib

/-- A forward iterator with its end. -/
structure Walk (σ α : Type) where
  stop : σ → Bool
  value : σ → Option α
  next : σ → Option σ

namespace Walk

variable {σ τ α : Type}

/-- The walk from a position to the end yields these values. -/
inductive Yields (W : Walk σ α) : σ → List α → Prop
  | done {p : σ} (hstop : W.stop p = true) : W.Yields p []
  | more {p q : σ} {a : α} {l : List α} (hstop : W.stop p = false) (hvalue : W.value p = some a)
      (hnext : W.next p = some q) (hrest : W.Yields q l) : W.Yields p (a :: l)

/-- These are the first values from a position on, wherever the end is. -/
inductive Produces (W : Walk σ α) : σ → List α → Prop
  | nil {p : σ} : W.Produces p []
  | cons {p q : σ} {a : α} {l : List α} (hvalue : W.value p = some a) (hnext : W.next p = some q)
      (hrest : W.Produces q l) : W.Produces p (a :: l)

/-- The loop that compares two walks. It looks at the end of the first one only. -/
def equal [DecidableEq α] (W : Walk σ α) (V : Walk τ α) : Nat → σ → τ → Option Bool
  | 0, _, _        => none
  | fuel + 1, p, q =>
      if W.stop p then some true
      else do
        let a ← W.value p
        let b ← V.value q
        if a = b then do
          let p' ← W.next p
          let q' ← V.next q
          equal W V fuel p' q'
        else some false

variable {W : Walk σ α} {V : Walk τ α} {p : σ} {q : τ} {l m : List α}

/-- **A walk yields one list.** -/
theorem Yields.unique (h : W.Yields p l) (h' : W.Yields p m) : l = m := by
  induction h generalizing m with
  | done hstop =>
      cases h' with
      | done _ => rfl
      | more hgo _ _ _ => rw [hstop] at hgo; cases hgo
  | more hgo hvalue hnext _ ih =>
      cases h' with
      | done hstop => rw [hgo] at hstop; cases hstop
      | more _ hvalue' hnext' hrest' =>
          obtain rfl := Option.some.inj (hvalue.symm.trans hvalue')
          obtain rfl := Option.some.inj (hnext.symm.trans hnext')
          rw [ih hrest']

/-- Fewer values from the same position. -/
theorem Produces.take (h : W.Produces p l) (n : Nat) : W.Produces p (l.take n) := by
  induction h generalizing n with
  | nil => rw [List.take_nil]; exact .nil
  | cons hvalue hnext _ ih =>
      cases n with
      | zero => exact .nil
      | succ n => exact .cons hvalue hnext (ih n)

/-- **What a comparison finds**: whether the values of the first walk are the first values from the other position. -/
theorem equal_eq [DecidableEq α] (h : W.Yields p l) (h' : V.Produces q m) (hlength : m.length = l.length) {fuel : Nat}
    (hfuel : l.length < fuel) : W.equal V fuel p q = some (decide (l = m)) := by
  induction h generalizing q m fuel with
  | done hstop =>
      obtain ⟨fuel, rfl⟩ := Nat.exists_eq_succ_of_ne_zero (Nat.ne_of_gt hfuel)
      obtain rfl := List.eq_nil_of_length_eq_zero hlength
      rw [equal, if_pos hstop, decide_eq_true rfl]
  | more hgo hvalue hnext _ ih =>
      obtain ⟨fuel, rfl⟩ := Nat.exists_eq_succ_of_ne_zero (Nat.ne_of_gt (Nat.zero_lt_of_lt hfuel))
      cases h' with
      | nil => cases hlength
      | @cons _ _ b _ hvalue' hnext' hrest' =>
          have htail := ih hrest' (Nat.succ.inj hlength) (Nat.lt_of_succ_lt_succ hfuel)
          rw [equal, if_neg (by simp [hgo]), hvalue, hvalue']
          simp only [Option.bind_eq_bind, Option.bind_some, List.cons.injEq]
          split
          · rename_i heq
            rw [hnext, hnext', Option.bind_some, Option.bind_some, htail]
            simp [heq]
          · rename_i hne
            simp [hne]

/-! ## Walks over indices -/

/-- **A walk over all indices below `n`** yields their values in order. -/
theorem yields_indexed {W : Walk Nat α} {f : Nat → α} {n : Nat} (hstop : ∀ i, W.stop i = (i == n))
    (hvalue : ∀ i < n, W.value i = some (f i)) (hnext : ∀ i < n, W.next i = some (i + 1)) :
    W.Yields 0 ((List.range n).map f) := by
  have hfrom : ∀ k i, i + k = n → W.Yields i ((List.range' i k).map f) := by
    intro k
    induction k with
    | zero =>
        intro i hi
        apply Yields.done
        rw [hstop, beq_iff_eq]
        exact hi
    | succ k ih =>
        intro i hi
        rw [List.range'_succ, List.map_cons]
        apply Yields.more _ (hvalue i (by omega)) (hnext i (by omega)) (ih (i + 1) (by omega))
        rw [hstop, beq_eq_false_iff_ne]
        omega
  rw [List.range_eq_range']
  exact hfrom n 0 (Nat.zero_add n)

/-- The first of `r` indices from `k` on that has the property, or the index behind them. -/
def firstFrom (P : Nat → Bool) : Nat → Nat → Nat
  | 0, k     => k
  | r + 1, k => if P k then k else firstFrom P r (k + 1)

/-- A walk over the indices below `n` that have the property. -/
structure Skipping (W : Walk Nat Nat) (P : Nat → Bool) (n : Nat) : Prop where
  stop_eq : ∀ i, W.stop i = (i == n)
  value_eq : ∀ i, W.value i = some i
  next_eq : ∀ i, W.next i = some (firstFrom P (n - (i + 1)) (i + 1))

namespace Skipping

variable {W : Walk Nat Nat} {P : Nat → Bool} {n : Nat}

/-- **A walk that skips yields the indices with the property**, in order. -/
theorem yields (h : W.Skipping P n) {r k : Nat} (hk : k + r = n) :
    W.Yields (firstFrom P r k) ((List.range' k r).filter P) := by
  induction r generalizing k with
  | zero =>
      apply Yields.done
      rw [h.stop_eq, firstFrom, beq_iff_eq]
      exact hk
  | succ r ih =>
      have hrest := ih (k := k + 1) (by omega)
      rw [firstFrom, List.range'_succ, List.filter_cons]
      split
      · refine Yields.more ?_ (h.value_eq k) (h.next_eq k) ?_
        · rw [h.stop_eq, beq_eq_false_iff_ne]
          omega
        · rw [show n - (k + 1) = r by omega]
          exact hrest
      · exact hrest

/-- Behind the end every index is a position. -/
theorem produces_end (h : W.Skipping P n) (m : Nat) {i : Nat} (hi : n ≤ i) : W.Produces i (List.range' i m) := by
  induction m generalizing i with
  | zero => exact .nil
  | succ m ih =>
      have hnext := h.next_eq i
      rw [show n - (i + 1) = 0 by omega, firstFrom] at hnext
      rw [List.range'_succ]
      exact .cons (h.value_eq i) hnext (ih (by omega))

/-- **Without looking at the end** the indices with the property are followed by all indices from `n` on. -/
theorem produces (h : W.Skipping P n) (m : Nat) {r k : Nat} (hk : k + r = n) :
    W.Produces (firstFrom P r k) ((List.range' k r).filter P ++ List.range' n m) := by
  induction r generalizing k with
  | zero =>
      obtain rfl : k = n := by omega
      exact h.produces_end m (Nat.le_refl k)
  | succ r ih =>
      have hrest := ih (k := k + 1) (by omega)
      rw [firstFrom, List.range'_succ, List.filter_cons]
      split
      · apply Produces.cons (h.value_eq k) (h.next_eq k)
        rw [show n - (k + 1) = r by omega]
        exact hrest
      · exact hrest

end Skipping

end Walk

end Pnm.Lib
