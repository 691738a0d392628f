import Pnm.Kernel.Alloc
import Mathlib.Tactic.IntervalCases

/-!
# `Kernel.Isolation` — whose memory `DEALLOCATE_MEMORY` frees

The descriptor is searched by pool and address, and what is freed is given by the address and the size of the
request. So the descriptor is the file's own, but the size is whatever the caller says, and whether others have the
memory registered is asked only if the caller's flag says so. `deallocate_isolated_iff` is the exact condition under
which a request frees an allocation of its own file and nothing else, or fails with an error, in any state of any
number of files. It is about the request and the records before it: the descriptor of the file, the shared entry with
its count, the pool, and the granules of all descriptors.
-/

namespace Pnm.Kernel

namespace Allocator

variable {p : AllocParams} {s : Allocator}

/-- What files have registered is not empty, and is taken. -/
structure Live (p : AllocParams) (s : Allocator) : Prop where
  nonempty : ∀ d ∈ s.descs, 0 < p.nrGranules d.2.size
  taken : ∀ d ∈ s.descs, ∀ idx i, p.Covers d.2 idx i → s.taken idx i = true

/-- The granules that are returned to the pool are those of an allocation that the file has registered, or none and
    an error is returned; and what files have registered then is taken still. -/
def Isolated (p : AllocParams) (s : Allocator) (f : Nat) (kreq : Allocation) (stale : Int) : Prop :=
  let r := s.deallocateMemory p f kreq stale
  ((∃ a b, (f, a) ∈ s.descs ∧ r.alloc.returned = b :: s.returned ∧ ∀ idx i, p.Covers b idx i ↔ p.Covers a idx i) ∨
    r.alloc.returned = s.returned ∧ r.ret < 0) ∧
  ∀ d ∈ r.alloc.descs, ∀ idx i, p.Covers d.2 idx i → r.alloc.taken idx i = true

/-! ## What is freed -/

theorem removeFromEntry_frame (s : Allocator) (a : Allocation) (stale : Int) :
    (s.removeFromEntry a stale).2.taken = s.taken ∧ (s.removeFromEntry a stale).2.returned = s.returned := by
  rw [removeFromEntry]
  split
  · exact ⟨rfl, rfl⟩
  · split <;> exact ⟨rfl, rfl⟩

/-- Exactly if 0 is returned, the granules of the request are freed. -/
theorem deallocateMemoryUnsafe_cases (s : Allocator) (a : Allocation) (stale : Int) :
    let r := s.deallocateMemoryUnsafe p a stale
    (r.1 = 0 ∧ r.2.taken = (s.genPoolFree p a).taken ∧ r.2.returned = a :: s.returned) ∨
      (r.1 ≠ 0 ∧ r.2.taken = s.taken ∧ r.2.returned = s.returned) := by
  intro r
  obtain ⟨htaken, hreturned⟩ := removeFromEntry_frame s a stale
  simp only [r, deallocateMemoryUnsafe]
  split
  · split
    · rename_i hrc
      exact .inr ⟨hrc, htaken, hreturned⟩
    · rcases poolFree_cases (p := p) (s.removeFromEntry a stale).2 a with ⟨-, hfree⟩ | ⟨-, hrefused⟩
      · rw [hfree]
        refine .inl ⟨rfl, ?_, congrArg _ hreturned⟩
        simp only [genPoolFree, htaken]
      · rw [hrefused]
        exact .inr ⟨by simp [EINVAL], htaken, hreturned⟩
  · rcases poolFree_cases (p := p) s a with ⟨-, hfree⟩ | ⟨-, hrefused⟩
    · rw [hfree]
      exact .inl ⟨rfl, rfl, rfl⟩
    · rw [hrefused]
      exact .inr ⟨by simp [EINVAL], rfl, rfl⟩

/-- The same for the ioctl, if the file has a descriptor. -/
theorem deallocateMemory_cases {f : Nat} {kreq : Allocation} {d : Nat × Allocation} (hlookup : s.lookup f kreq = some d)
    (stale : Int) :
    let r := s.deallocateMemory p f kreq stale
    r.alloc.descs = s.descs.erase d ∧
      ((s.LastReference kreq stale ∧ PoolTakes p kreq) ∧ r.alloc.taken = (s.genPoolFree p kreq).taken ∧
          r.alloc.returned = kreq :: s.returned ∨
        ¬ (s.LastReference kreq stale ∧ PoolTakes p kreq) ∧ (0 ≤ r.ret ↔ s.OthersRefer kreq stale) ∧
          r.alloc.taken = s.taken ∧ r.alloc.returned = s.returned) := by
  intro r
  rw [show r = _ from deallocateMemory_some hlookup stale]
  refine ⟨deallocateMemoryUnsafe_descs, ?_⟩
  obtain ⟨hzero, hpos⟩ := deallocateMemoryUnsafe_ret (p := p) { s with descs := s.descs.erase d } kreq stale
  rcases deallocateMemoryUnsafe_cases (p := p) { s with descs := s.descs.erase d } kreq stale with
    ⟨hret, htaken, hreturned⟩ | ⟨hret, htaken, hreturned⟩
  · exact .inl ⟨hzero.mp hret, htaken, hreturned⟩
  · refine .inr ⟨mt hzero.mpr hret, Iff.trans ?_ hpos, htaken, hreturned⟩
    rw [lt_iff_le_and_ne]
    exact (and_iff_left (Ne.symm hret)).symm

/-- Allocations at one address with the same granules have the same number of them. -/
theorem nrGranules_eq_of_covers {a b : Allocation} (hkey : a.key = b.key)
    (h : ∀ idx i, p.Covers a idx i ↔ p.Covers b idx i) : p.nrGranules a.size = p.nrGranules b.size := by
  obtain ⟨hpool, haddr⟩ := Prod.mk.inj hkey
  simp only [AllocParams.Covers, hpool, haddr] at h
  generalize p.firstGranule b.memoryPool b.addr = first at h
  rcases Nat.lt_trichotomy (p.nrGranules a.size) (p.nrGranules b.size) with hlt | heq | hlt
  · have hlast := (h b.memoryPool (first + p.nrGranules a.size)).mpr ⟨rfl, by omega, by omega⟩
    omega
  · exact heq
  · have hlast := (h b.memoryPool (first + p.nrGranules b.size)).mp ⟨rfl, by omega, by omega⟩
    omega

/-- What was taken and is not freed is taken in the end: no descriptor that stays has a granule of the request. -/
theorem keeps_taken_iff {kreq : Allocation} {descs : List (Nat × Allocation)} (hlive : Live p s)
    (hsub : descs ⊆ s.descs) :
    (∀ e ∈ descs, ∀ idx i, p.Covers e.2 idx i → (s.genPoolFree p kreq).taken idx i = true) ↔
      ∀ e ∈ descs, ∀ idx i, p.Covers kreq idx i → ¬ p.Covers e.2 idx i := by
  refine forall₂_congr fun e he => forall₂_congr fun idx i => ?_
  have hwas := hlive.taken e (hsub he) idx i
  by_cases hcovers : p.Covers kreq idx i
  · simp [genPoolFree, hcovers]
  · simpa [genPoolFree, hcovers] using hwas

/-- **Whose memory is freed.** A request is isolated if and only if the file has no descriptor at its address, or
    nobody else has a reference that the request counts and, if it is the last one and the pool takes the memory, its
    size takes as many granules as that of the descriptor and no other descriptor has any of them. -/
theorem deallocate_isolated_iff (p : AllocParams) (s : Allocator) (hlive : Live p s) (f : Nat) (kreq : Allocation)
    (stale : Int) :
    Isolated p s f kreq stale ↔
      ∀ d ∈ s.lookup f kreq, ¬ s.OthersRefer kreq stale ∧
        (s.LastReference kreq stale → PoolTakes p kreq → p.nrGranules kreq.size = p.nrGranules d.2.size ∧
          ∀ e ∈ s.descs.erase d, ∀ idx i, p.Covers d.2 idx i → ¬ p.Covers e.2 idx i) := by
  unfold Isolated
  cases hlookup : s.lookup f kreq with
  | none =>
      rw [deallocateMemory_none (lookup_eq_none.mp hlookup)]
      exact iff_of_true ⟨.inr ⟨rfl, by simp⟩, hlive.taken⟩ (by simp)
  | some d =>
      obtain ⟨hd, hfile, hkey⟩ := of_lookup hlookup
      have hsub : s.descs.erase d ⊆ s.descs := List.erase_subset
      obtain ⟨hdescs, ⟨⟨hlast, htakes⟩, htaken, hreturned⟩ | ⟨hnot, hret, htaken, hreturned⟩⟩ :=
        deallocateMemory_cases (p := p) hlookup stale
      · have hothersRefer : ¬ s.OthersRefer kreq stale := by
          rintro ⟨hglobal, e, he, hpos⟩
          obtain ⟨e', he', hzero⟩ := hlast hglobal
          obtain rfl := Option.some.inj (he.symm.trans he')
          omega
        dsimp only
        rw [hdescs, htaken, hreturned, keeps_taken_iff hlive hsub]
        simp only [Option.mem_some_iff, forall_eq', hothersRefer, not_false_eq_true, true_and, hlast, htakes,
          true_implies]
        constructor
        · rintro ⟨⟨a, b, ha, hb, hcovers⟩ | ⟨hsame, -⟩, hothers⟩
          · obtain rfl := (List.cons.inj hb).1
            have hda : d = (f, a) := by
              by_contra hne
              -- the descriptor that stays would lose its first granule
              have hfirst := p.covers_first (hlive.nonempty _ ha)
              exact hothers (f, a) ((List.mem_erase_of_ne (Ne.symm hne)).mpr ha) _ _ ((hcovers _ _).mpr hfirst) hfirst
            subst hda
            exact ⟨nrGranules_eq_of_covers hkey.symm hcovers,
              fun e he idx i hcov => hothers e he idx i ((hcovers idx i).mpr hcov)⟩
          · exact absurd hsame (List.cons_ne_self _ _)
        · rintro ⟨hsize, hothers⟩
          have hcovers := p.covers_congr hkey.symm hsize
          refine ⟨.inl ⟨d.2, kreq, ?_, rfl, hcovers⟩,
            fun e he idx i hcov => hothers e he idx i ((hcovers idx i).mp hcov)⟩
          rw [← hfile]
          exact hd
      · dsimp only
        rw [hdescs, htaken, hreturned]
        simp only [Option.mem_some_iff, forall_eq']
        constructor
        · rintro ⟨⟨a, b, -, hb, -⟩ | ⟨-, hneg⟩, -⟩
          · exact absurd hb.symm (List.cons_ne_self _ _)
          · exact ⟨fun hothers => absurd (hret.mpr hothers) (not_le.mpr hneg),
              fun hlast htakes => absurd ⟨hlast, htakes⟩ hnot⟩
        · rintro ⟨hothers, -⟩
          exact ⟨.inr ⟨trivial, not_le.mp (mt hret.mp hothers)⟩, fun e he => hlive.taken e (hsub he)⟩

/-- Files 0 and 1 have a page each. -/
def twoFiles : Allocator :=
  { taken := fun idx i => idx = 0 ∧ i < 2
    returned := []
    descs := [(0, ⟨0, 4096, 0, 0⟩), (1, ⟨4096, 4096, 0, 0⟩)]
    entries := fun _ => none }

theorem live_twoFiles : Live onePool twoFiles := by
  have hcovers : ∀ n < 2, ∀ idx i, onePool.Covers ⟨n * 4096, 4096, 0, 0⟩ idx i → twoFiles.taken idx i = true := by
    rintro n hn idx i ⟨hidx, -, hi⟩
    have hfirst : onePool.firstGranule 0 (n * 4096) = n := by
      interval_cases n <;> decide
    have hnr : onePool.nrGranules 4096 = 1 := by decide
    simp only [hfirst, hnr] at hi hidx
    exact decide_eq_true ⟨hidx, by omega⟩
  refine ⟨by decide, fun d hd => ?_⟩
  rcases List.mem_cons.mp hd with rfl | hd
  · exact hcovers 0 (by decide)
  · obtain rfl := List.mem_singleton.mp hd
    exact hcovers 1 (by decide)

/-- File 0 frees its page, and that of file 1 stays taken. -/
theorem deallocate_isolated_page :
    Isolated onePool twoFiles 0 ⟨0, 4096, 0, 0⟩ 0 ∧
      (twoFiles.deallocateMemory onePool 0 ⟨0, 4096, 0, 0⟩ 0).ret = 0 ∧
      (twoFiles.deallocateMemory onePool 0 ⟨0, 4096, 0, 0⟩ 0).alloc.taken 0 0 = false ∧
      (twoFiles.deallocateMemory onePool 0 ⟨0, 4096, 0, 0⟩ 0).alloc.taken 0 1 = true := by
  refine ⟨(deallocate_isolated_iff onePool twoFiles live_twoFiles 0 _ 0).mpr fun d hd => ?_, by decide⟩
  obtain rfl : (0, ⟨0, 4096, 0, 0⟩) = d := Option.some.inj hd
  refine ⟨fun hothers => absurd hothers.1 (by decide), fun _ _ => ⟨rfl, fun e he idx i hcovers hother => ?_⟩⟩
  obtain rfl := List.mem_singleton.mp he
  have hlt : i < 1 := hcovers.2.2
  have hle : 1 ≤ i := hother.2.1
  omega

/-- File 0 says that its page has twice the size, and frees the page of file 1. -/
theorem deallocate_not_isolated : Live onePool twoFiles ∧ ¬ Isolated onePool twoFiles 0 ⟨0, 8192, 0, 0⟩ 0 := by
  refine ⟨live_twoFiles, fun h => ?_⟩
  have hstays := h.2 (1, ⟨4096, 4096, 0, 0⟩) (by decide) 0 1 (by decide)
  exact absurd hstays (by decide)

end Allocator

end Pnm.Kernel
