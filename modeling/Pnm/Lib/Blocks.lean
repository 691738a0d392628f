import Mathlib.Data.List.Induction
import Mathlib.Tactic.Common

/-!
# `Lib.Blocks` — greedy cutting of a sequence into blocks, and runs of adjacent intervals

Two small theories that do not name any program:

* **`Cut`**: a sequence is consumed element by element; an element that does not fit the open block closes
  it and starts the next one. `Cut.run` never loses or reorders an element (`run_all`), and any block
  property that a singleton has and that a fitting element keeps holds of every block (`run_good`).
* **`Consecutive`**: a list of non-empty intervals `(start, length)`, each starting where the one before
  ended.
-/

namespace Pnm.Lib

variable {α : Type}

/-! ## Changing the last element of a list -/

/-- Apply `f` to the last element (`vector::back()`); the empty list is left alone. -/
def modifyBack (f : α → α) (l : List α) : List α :=
  match l.getLast? with
  | none   => l
  | some a => l.dropLast ++ [f a]

@[simp] theorem modifyBack_nil (f : α → α) : modifyBack f [] = [] := rfl

@[simp] theorem modifyBack_concat (f : α → α) (l : List α) (a : α) :
    modifyBack f (l ++ [a]) = l ++ [f a] := by
  simp [modifyBack]

@[simp] theorem modifyBack_eq_nil {f : α → α} {l : List α} : modifyBack f l = [] ↔ l = [] := by
  rcases l.eq_nil_or_concat with rfl | ⟨init, a, rfl⟩ <;> simp

/-- Split a list at its first element without a property. -/
theorem exists_first_not {P : α → Prop} {l : List α} (h : ¬ ∀ a ∈ l, P a) :
    ∃ pre a post, l = pre ++ a :: post ∧ (∀ b ∈ pre, P b) ∧ ¬ P a := by
  induction l with
  | nil => simp at h
  | cons x l ih =>
      by_cases hx : P x
      · obtain ⟨pre, a, post, rfl, hpre, ha⟩ := ih fun hl => h (by simpa [hx] using hl)
        exact ⟨x :: pre, a, post, rfl, by simpa [hx] using hpre, ha⟩
      · exact ⟨[], x, l, rfl, by simp, hx⟩

/-! ## Greedy cutting -/

/-- The state of a greedy cut: the blocks closed so far, in order, and the block still open. -/
structure Cut (α : Type) where
  closed : List (List α) := []
  opened : List α := []

namespace Cut

/-- Take one more element: into the open block if it fits, else the open block is closed and the element
    starts a new one. -/
def add (fits : List α → α → Bool) (c : Cut α) (a : α) : Cut α :=
  if fits c.opened a then ⟨c.closed, c.opened ++ [a]⟩ else ⟨c.closed ++ [c.opened], [a]⟩

/-- Cut a whole sequence, starting from nothing. -/
def run (fits : List α → α → Bool) (xs : List α) : Cut α := xs.foldl (add fits) {}

/-- Everything consumed so far, in order. -/
def all (c : Cut α) : List α := c.closed.flatten ++ c.opened

/-- All blocks, the open one included unless it is empty. -/
def blocks (c : Cut α) : List (List α) :=
  if c.opened.isEmpty then c.closed else c.closed ++ [c.opened]

variable {fits : List α → α → Bool}

theorem add_fits {c : Cut α} {a : α} (h : fits c.opened a = true) :
    c.add fits a = ⟨c.closed, c.opened ++ [a]⟩ := by simp [add, h]

theorem add_not_fits {c : Cut α} {a : α} (h : fits c.opened a = false) :
    c.add fits a = ⟨c.closed ++ [c.opened], [a]⟩ := by simp [add, h]

@[simp] theorem add_all (c : Cut α) (a : α) : (c.add fits a).all = c.all ++ [a] := by
  unfold add all
  split <;> simp

theorem foldl_all (xs : List α) (c : Cut α) : (xs.foldl (add fits) c).all = c.all ++ xs := by
  induction xs generalizing c with
  | nil => simp
  | cons a xs ih => simp [ih]

@[simp] theorem run_all (xs : List α) : (run fits xs).all = xs := by
  rw [run, foldl_all]
  simp [all]

theorem run_concat (xs : List α) (a : α) : run fits (xs ++ [a]) = (run fits xs).add fits a := by
  simp [run]

theorem blocks_flatten (c : Cut α) : c.blocks.flatten = c.all := by
  unfold blocks all
  split
  · rename_i h
    simp [List.isEmpty_iff.mp h]
  · simp

theorem mem_blocks_of_mem_closed {c : Cut α} {b : List α} (h : b ∈ c.closed) : b ∈ c.blocks := by
  unfold blocks
  split
  · exact h
  · exact List.mem_append_left _ h

/-- **The invariant rule.** A property of blocks that every singleton of the sequence has, and that adding
    a fitting element keeps, holds of every closed block and of the open one. The empty block must accept
    any element, so that no empty block is ever closed. -/
theorem run_good {P : List α → Prop} {xs : List α} (hempty : ∀ a ∈ xs, fits [] a = true)
    (hone : ∀ a ∈ xs, P [a])
    (hext : ∀ b, ∀ a ∈ xs, P b → fits b a = true → P (b ++ [a])) :
    (∀ b ∈ (run fits xs).closed, P b) ∧ ((run fits xs).opened = [] ∨ P (run fits xs).opened) := by
  induction xs using List.reverseRecOn with
  | nil => simp [run]
  | append_singleton xs a ih =>
      obtain ⟨hc, ho⟩ := ih (fun x hx => hempty x (by simp [hx])) (fun x hx => hone x (by simp [hx]))
        (fun b x hx => hext b x (by simp [hx]))
      have ha : a ∈ xs ++ [a] := by simp
      rw [run_concat]
      cases hf : fits (run fits xs).opened a with
      | true =>
          rw [add_fits hf]
          refine ⟨hc, Or.inr ?_⟩
          rcases ho with hnil | hP
          · simpa [hnil] using hone a ha
          · exact hext _ a ha hP hf
      | false =>
          rw [add_not_fits hf]
          refine ⟨?_, Or.inr (hone a ha)⟩
          intro b hb
          rcases List.mem_append.mp hb with hb | hb
          · exact hc b hb
          · -- the block just closed is not the empty one, which accepts every element
            rw [List.mem_singleton.mp hb]
            refine ho.resolve_left fun hnil => ?_
            rw [hnil, hempty a ha] at hf
            exact Bool.noConfusion hf

/-- `run_good`, read on the list of all blocks. -/
theorem run_blocks_good {P : List α → Prop} {xs : List α} (hempty : ∀ a ∈ xs, fits [] a = true)
    (hone : ∀ a ∈ xs, P [a])
    (hext : ∀ b, ∀ a ∈ xs, P b → fits b a = true → P (b ++ [a])) :
    ∀ b ∈ (run fits xs).blocks, P b := by
  obtain ⟨hc, ho⟩ := run_good hempty hone hext
  intro b hb
  unfold blocks at hb
  split at hb
  · exact hc b hb
  · rename_i hne
    rcases List.mem_append.mp hb with hb | hb
    · exact hc b hb
    · rw [List.mem_singleton.mp hb]
      exact ho.resolve_left fun h => hne (by simp [h])

end Cut

/-! ## Adjacent intervals -/

/-- Non-empty intervals `(start, length)` that follow one another from `a` to `b` without a gap. -/
inductive Consecutive : Nat → List (Nat × Nat) → Nat → Prop where
  | nil (a) : Consecutive a [] a
  | cons {a n ivs b} : 0 < n → Consecutive (a + n) ivs b → Consecutive a ((a, n) :: ivs) b

namespace Consecutive

/-- Non-empty intervals whose points, written out in order, are the points from `a` on are adjacent. -/
theorem of_expand {ivs : List (Nat × Nat)} (hpos : ∀ iv ∈ ivs, 0 < iv.2) :
    ∀ {a n : Nat}, ivs.flatMap (fun iv => List.range' iv.1 iv.2) = List.range' a n →
      Consecutive a ivs (a + n) := by
  induction ivs with
  | nil =>
      intro a n h
      obtain rfl : n = 0 := by simpa using congrArg List.length h.symm
      exact nil a
  | cons iv ivs ih =>
      intro a n h
      obtain ⟨s, k⟩ := iv
      have hk : 0 < k := hpos (s, k) (by simp)
      have hkn : k ≤ n := by
        have := congrArg List.length h
        simp at this
        omega
      -- the first interval is the first `k` points, the others are the rest
      have hsplit : List.range' s k ++ ivs.flatMap (fun iv => List.range' iv.1 iv.2)
          = List.range' a k ++ List.range' (a + k) (n - k) := by
        rw [List.flatMap_cons] at h
        rw [h, List.range'_append_1]
        congr 1
        omega
      obtain ⟨h1, h2⟩ := List.append_inj hsplit (by simp)
      obtain rfl : s = a := by
        have := congrArg List.head? h1
        simpa [List.head?_range', Nat.ne_of_gt hk] using this
      have := ih (fun x hx => hpos x (by simp [hx])) h2
      rw [show s + n = s + k + (n - k) by omega]
      exact cons hk this

end Consecutive

end Pnm.Lib
