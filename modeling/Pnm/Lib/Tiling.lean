import Mathlib.Data.List.Nodup
import Mathlib.Tactic.Common
import Mathlib.Tactic.Ring

/-!
# `Lib.Tiling` — ranges that tile an area

A range is a start and a length. Ranges tile an area if no point is in two of them and the points in any of them are
those of the area. To show it, it is enough to write the points of all ranges out: if that list is a permutation of the
points of the area, the ranges tile it (`tiles_of_perm`). Tilings scale (`Tiles.scale`), and tilings of two neighbouring
areas make one (`Tiles.append`).
-/

namespace Pnm.Lib

/-- The points of a range. -/
def InSpan (r : Nat × Nat) (x : Nat) : Prop := r.1 ≤ x ∧ x < r.1 + r.2

/-- No point is in both ranges. -/
def Apart (r s : Nat × Nat) : Prop := ∀ x, InSpan r x → ¬ InSpan s x

/-- **A tiling** of the area of `n` points from `a` on. -/
structure Tiles (rs : List (Nat × Nat)) (a n : Nat) : Prop where
  apart : rs.Pairwise Apart
  covers : ∀ x, (∃ r ∈ rs, InSpan r x) ↔ InSpan (a, n) x

variable {rs ss : List (Nat × Nat)} {a n m : Nat}

theorem tiles_of_perm (h : (rs.flatMap fun r => List.range' r.1 r.2).Perm (List.range' a n)) : Tiles rs a n := by
  have hmem : ∀ (r : Nat × Nat) x, x ∈ List.range' r.1 r.2 ↔ InSpan r x := fun r x => List.mem_range'_1
  have hnodup : (rs.flatMap fun r => List.range' r.1 r.2).Nodup := h.nodup_iff.mpr List.nodup_range'
  constructor
  · apply (List.nodup_flatMap.mp hnodup).2.imp
    intro r s hdisjoint x hr hs
    exact hdisjoint ((hmem r x).mpr hr) ((hmem s x).mpr hs)
  · intro x
    rw [← hmem (a, n) x, ← h.mem_iff, List.mem_flatMap]
    simp only [hmem]

/-- A point of a scaled range is a point of the range, scaled down. -/
theorem inSpan_scale {c : Nat} (hc : 0 < c) (base : Nat) (r : Nat × Nat) (x : Nat) :
    InSpan (base + r.1 * c, r.2 * c) x ↔ base ≤ x ∧ InSpan r ((x - base) / c) := by
  unfold InSpan
  rw [Nat.le_div_iff_mul_le hc, Nat.div_lt_iff_lt_mul hc, Nat.add_mul]
  omega

/-- **Tilings scale.** -/
theorem Tiles.scale (h : Tiles rs a n) {c : Nat} (hc : 0 < c) (base : Nat) :
    Tiles (rs.map fun r => (base + r.1 * c, r.2 * c)) (base + a * c) (n * c) := by
  constructor
  · rw [List.pairwise_map]
    apply h.apart.imp
    intro r s hrs x hr hs
    exact hrs _ ((inSpan_scale hc base r x).mp hr).2 ((inSpan_scale hc base s x).mp hs).2
  · intro x
    rw [inSpan_scale hc base (a, n) x, ← h.covers]
    constructor
    · rintro ⟨r', hr', hx⟩
      obtain ⟨r, hr, rfl⟩ := List.mem_map.mp hr'
      obtain ⟨hle, hin⟩ := (inSpan_scale hc base r x).mp hx
      exact ⟨hle, r, hr, hin⟩
    · rintro ⟨hle, r, hr, hin⟩
      exact ⟨_, List.mem_map_of_mem hr, (inSpan_scale hc base r x).mpr ⟨hle, hin⟩⟩

/-- **Neighbouring areas.** -/
theorem Tiles.append {b : Nat} (h : Tiles rs a n) (h' : Tiles ss b m) (hb : b = a + n) :
    Tiles (rs ++ ss) a (n + m) := by
  subst hb
  constructor
  · rw [List.pairwise_append]
    refine ⟨h.apart, h'.apart, fun r hr s hs x hrx hsx => ?_⟩
    have hlow := (h.covers x).mp ⟨r, hr, hrx⟩
    have hhigh := (h'.covers x).mp ⟨s, hs, hsx⟩
    unfold InSpan at hlow hhigh
    omega
  · intro x
    have hsplit : InSpan (a, n + m) x ↔ InSpan (a, n) x ∨ InSpan (a + n, m) x := by
      unfold InSpan
      omega
    rw [hsplit, ← h.covers, ← h'.covers]
    constructor
    · rintro ⟨r, hr, hx⟩
      rcases List.mem_append.mp hr with hr | hr
      · exact .inl ⟨r, hr, hx⟩
      · exact .inr ⟨r, hr, hx⟩
    · rintro (⟨r, hr, hx⟩ | ⟨r, hr, hx⟩)
      · exact ⟨r, List.mem_append_left _ hr, hx⟩
      · exact ⟨r, List.mem_append_right _ hr, hx⟩

end Pnm.Lib
