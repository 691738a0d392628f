import Pnm.Kernel.Alloc

/-!
# `Kernel.Regions` — sets of allocations in a pool

Several files may have the same allocation registered, and the shared pool has a copy of it as well. What they have in
common is where it is: two copies are of the same region of the pool, or of regions that have no granule in common.
`Regions` says this of any set of allocations, together with that all their granules are taken, and the rules say how
such a set may change: a copy more or fewer, a new region where granules are free, a region that nobody has any more.
-/

namespace Pnm.Kernel

/-- A set of allocations: none is empty, all are taken and their pools take them back, and two of them are at the same
    address with the same size or have no granule in common. -/
structure Regions (p : AllocParams) (C : Allocation → Prop) (taken : Nat → Nat → Bool) : Prop where
  nonempty : ∀ a, C a → 0 < p.nrGranules a.size
  back : ∀ a, C a → Allocator.PoolTakes p a
  taken : ∀ a, C a → ∀ idx i, p.Covers a idx i → taken idx i = true
  same : ∀ a b, C a → C b → a.key = b.key → a.size = b.size
  apart : ∀ a b, C a → C b → a.key ≠ b.key → ∀ idx i, p.Covers a idx i → ¬ p.Covers b idx i

namespace Regions

variable {p : AllocParams} {C C' : Allocation → Prop} {taken taken' : Nat → Nat → Bool}

/-- Allocations may go away or be copied, and granules may be taken. -/
theorem mono (h : Regions p C taken) (hC : ∀ a, C' a → ∃ b, C b ∧ b.key = a.key ∧ b.size = a.size)
    (htaken : ∀ idx i, taken idx i = true → taken' idx i = true) : Regions p C' taken' := by
  have hcovers : ∀ {a b : Allocation}, b.key = a.key → b.size = a.size → ∀ idx i, p.Covers a idx i ↔ p.Covers b idx i :=
    fun hkey hsize => p.covers_congr hkey.symm (by rw [hsize])
  refine ⟨fun a ha => ?_, fun a ha => ?_, fun a ha idx i hcov => ?_, fun a b ha hb hkey => ?_,
    fun a b ha hb hkey idx i hcov => ?_⟩
  · obtain ⟨c, hc, -, hsize⟩ := hC a ha
    exact hsize ▸ h.nonempty c hc
  · obtain ⟨c, hc, hkey, hsize⟩ := hC a ha
    exact (h.back c hc).congr hkey hsize
  · obtain ⟨c, hc, hkey, hsize⟩ := hC a ha
    exact htaken idx i (h.taken c hc idx i ((hcovers hkey hsize idx i).mp hcov))
  · obtain ⟨c, hc, hkc, hsc⟩ := hC a ha
    obtain ⟨d, hd, hkd, hsd⟩ := hC b hb
    exact hsc.symm.trans ((h.same c d hc hd (hkc.trans (hkey.trans hkd.symm))).trans hsd)
  · obtain ⟨c, hc, hkc, hsc⟩ := hC a ha
    obtain ⟨d, hd, hkd, hsd⟩ := hC b hb
    rw [hcovers hkc hsc] at hcov
    rw [hcovers hkd hsd]
    refine h.apart c d hc hd ?_ idx i hcov
    rw [hkc, hkd]
    exact hkey

/-- Free granules are not those of any allocation. -/
theorem not_covers_of_free (h : Regions p C taken) {a b : Allocation} (hb : C b)
    (hfree : ∀ idx i, p.Covers a idx i → taken idx i = false) {idx i : Nat} (ha : p.Covers a idx i) :
    ¬ p.Covers b idx i := by
  intro hcov
  exact nomatch (hfree idx i ha).symm.trans (h.taken b hb idx i hcov)

/-- No allocation begins at a free granule. -/
theorem key_ne_of_free (h : Regions p C taken) {a b : Allocation} (hb : C b) (hpos : 0 < p.nrGranules a.size)
    (hfree : ∀ idx i, p.Covers a idx i → taken idx i = false) : a.key ≠ b.key := by
  intro hkey
  obtain ⟨hpool, haddr⟩ := Prod.mk.inj hkey
  have hfirst := p.covers_first (h.nonempty b hb)
  rw [← hpool, ← haddr] at hfirst
  exact h.not_covers_of_free hb hfree (p.covers_first hpos) hfirst

/-- A new allocation, of free granules. -/
theorem insert (h : Regions p C taken) {a : Allocation} (htakes : Allocator.PoolTakes p a)
    (hpos : 0 < p.nrGranules a.size) (hfree : ∀ idx i, p.Covers a idx i → taken idx i = false) :
    Regions p (fun b => b = a ∨ C b) fun idx i => taken idx i || decide (p.Covers a idx i) := by
  refine ⟨?_, ?_, ?_, ?_, ?_⟩
  · rintro b (rfl | hb)
    · exact hpos
    · exact h.nonempty b hb
  · rintro b (rfl | hb)
    · exact htakes
    · exact h.back b hb
  · rintro b (rfl | hb) idx i hcov
    · simp [hcov]
    · simp [h.taken b hb idx i hcov]
  · rintro b c (rfl | hb) (rfl | hc) hkey
    · rfl
    · exact absurd hkey (h.key_ne_of_free hc hpos hfree)
    · exact absurd hkey.symm (h.key_ne_of_free hb hpos hfree)
    · exact h.same b c hb hc hkey
  · rintro b c (rfl | hb) (rfl | hc) hkey idx i hcov
    · exact absurd rfl hkey
    · exact h.not_covers_of_free hc hfree hcov
    · exact fun hnew => h.not_covers_of_free hb hfree hnew hcov
    · exact h.apart b c hb hc hkey idx i hcov

/-- An allocation that is gone may be freed. -/
theorem free (h : Regions p C taken) {a : Allocation} (ha : ∃ b, C b ∧ b.key = a.key ∧ b.size = a.size)
    (hC : ∀ b, C' b → C b ∧ b.key ≠ a.key) :
    Regions p C' fun idx i => taken idx i && !decide (p.Covers a idx i) := by
  obtain ⟨c, hc, hkey, hsize⟩ := ha
  have hcovers := p.covers_congr hkey (congrArg p.nrGranules hsize)
  refine ⟨fun b hb => h.nonempty b (hC b hb).1, fun b hb => h.back b (hC b hb).1, fun b hb idx i hcov => ?_,
    fun b d hb hd => h.same b d (hC b hb).1 (hC d hd).1, fun b d hb hd => h.apart b d (hC b hb).1 (hC d hd).1⟩
  have hne : c.key ≠ b.key := by
    rw [hkey]
    exact (hC b hb).2.symm
  have hnot : ¬ p.Covers a idx i := by
    rw [← hcovers]
    exact fun hc' => h.apart c b hc (hC b hb).1 hne idx i hc' hcov
  simp [h.taken b (hC b hb).1 idx i hcov, hnot]

end Regions

end Pnm.Kernel
