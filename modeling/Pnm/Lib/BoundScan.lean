import Mathlib.Data.List.Nodup
import Mathlib.Data.List.Range
import Mathlib.Tactic.Common
import Pnm.Lib.Blocks

/-!
# `Lib.BoundScan` — when a scan checks what it is meant to check

A scan reads positions of an array one after the other and compares each value with a bound; it stops at the
first value that is too large. The `reads` it makes may differ from the comparisons that are `wanted`. The
question is when that makes no difference: for which `reads` every array is rejected exactly if it violates a
wanted comparison, without a read outside the array.

The answer (`scanExact_iff`) needs no more than arrays that are zero except at one place (`spike`): either every
wanted comparison is made and no read asks for more than the wanted one of its position (`Covers`), or nothing can
pass anyway, because both sides have a bound of zero and the scan reaches its own before it leaves the array
(`Blocked`). `StopsAtZero` follows a scan that is made in rounds to the round where this happens.
-/

namespace Pnm.Lib

/-- A read of position `pos`, whose value has to stay below `bound`. -/
structure BoundedRead where
  pos : Nat
  bound : Nat
deriving DecidableEq, Repr

/-- How a scan ends. -/
inductive ScanResult where
  | passed
  | rejected
  | outside
deriving DecidableEq, Repr

/-- Read after read, up to the first that fails. -/
def scan (a : List Nat) : List BoundedRead → ScanResult
  | []      => .passed
  | r :: rs =>
      match a[r.pos]? with
      | none   => .outside
      | some x => if r.bound ≤ x then .rejected else scan a rs

namespace BoundedRead

/-- The value is there and small enough. -/
def InBounds (a : List Nat) (r : BoundedRead) : Prop := ∃ x, a[r.pos]? = some x ∧ x < r.bound

/-- The value is there and too large. -/
def Violated (a : List Nat) (r : BoundedRead) : Prop := ∃ x, a[r.pos]? = some x ∧ r.bound ≤ x

theorem InBounds.not_violated {a : List Nat} {r : BoundedRead} (h : r.InBounds a) : ¬ r.Violated a := by
  rintro ⟨y, hy, hle⟩
  obtain ⟨x, hx, hlt⟩ := h
  rw [hx] at hy
  cases hy
  exact absurd hle (Nat.not_le.mpr hlt)

/-- A read is in one of three cases. -/
theorem cases_at (a : List Nat) (r : BoundedRead) : a[r.pos]? = none ∨ r.Violated a ∨ r.InBounds a := by
  cases hx : a[r.pos]? with
  | none   => exact .inl rfl
  | some x =>
      rcases Nat.lt_or_ge x r.bound with hlt | hge
      · exact .inr (.inr ⟨x, hx, hlt⟩)
      · exact .inr (.inl ⟨x, hx, hge⟩)

end BoundedRead

section Outcome

variable {a : List Nat} {r : BoundedRead} {rs : List BoundedRead}

theorem scan_cons_outside (h : a[r.pos]? = none) : scan a (r :: rs) = .outside := by
  rw [scan, h]

theorem scan_cons_violated (h : r.Violated a) : scan a (r :: rs) = .rejected := by
  obtain ⟨x, hx, hle⟩ := h
  rw [scan, hx]
  exact if_pos hle

theorem scan_cons_inBounds (h : r.InBounds a) : scan a (r :: rs) = scan a rs := by
  obtain ⟨x, hx, hlt⟩ := h
  rw [scan, hx]
  exact if_neg (Nat.not_le.mpr hlt)

/-- A second scan is made if the first passes. -/
theorem scan_append (a : List Nat) (pre rs : List BoundedRead) :
    scan a (pre ++ rs) = if scan a pre = .passed then scan a rs else scan a pre := by
  induction pre with
  | nil => rfl
  | cons q pre ih =>
      rw [List.cons_append]
      rcases q.cases_at a with hout | hviol | hkept
      · rw [scan_cons_outside hout, scan_cons_outside hout]
        rfl
      · rw [scan_cons_violated hviol, scan_cons_violated hviol]
        rfl
      · rw [scan_cons_inBounds hkept, scan_cons_inBounds hkept, ih]

/-- **A scan passes** if every read does. -/
theorem scan_eq_passed_iff : scan a rs = .passed ↔ ∀ r ∈ rs, r.InBounds a := by
  induction rs with
  | nil => simp [scan]
  | cons r rs ih =>
      rw [List.forall_mem_cons]
      rcases r.cases_at a with hout | hviol | hkept
      · have hnot : ¬ r.InBounds a := by
          rintro ⟨x, hx, -⟩
          rw [hout] at hx
          cases hx
        simp [scan_cons_outside hout, hnot]
      · have hnot : ¬ r.InBounds a := fun hkept => hkept.not_violated hviol
        simp [scan_cons_violated hviol, hnot]
      · rw [scan_cons_inBounds hkept, ih]
        exact ⟨fun h => ⟨hkept, h⟩, And.right⟩

/-- **A scan rejects** at its first read that does not pass. -/
theorem scan_eq_rejected_iff :
    scan a rs = .rejected ↔ ∃ pre r post, rs = pre ++ r :: post ∧ (∀ q ∈ pre, q.InBounds a) ∧ r.Violated a := by
  constructor
  · induction rs with
    | nil =>
        intro h
        cases h
    | cons r rs ih =>
        intro h
        rcases r.cases_at a with hout | hviol | hkept
        · rw [scan_cons_outside hout] at h
          cases h
        · exact ⟨[], r, rs, rfl, by simp, hviol⟩
        · rw [scan_cons_inBounds hkept] at h
          obtain ⟨pre, r', post, hsplit, hpre, hr'⟩ := ih h
          refine ⟨r :: pre, r', post, by rw [hsplit, List.cons_append], ?_, hr'⟩
          rw [List.forall_mem_cons]
          exact ⟨hkept, hpre⟩
  · rintro ⟨pre, r, post, rfl, hpre, hr⟩
    rw [scan_append, if_pos (scan_eq_passed_iff.mpr hpre), scan_cons_violated hr]

/-- A scan that leaves the array has a read outside of it. -/
theorem exists_outside_of_scan (h : scan a rs = .outside) : ∃ r ∈ rs, a.length ≤ r.pos := by
  induction rs with
  | nil => cases h
  | cons r rs ih =>
      rcases r.cases_at a with hout | hviol | hkept
      · exact ⟨r, List.mem_cons_self, List.getElem?_eq_none_iff.mp hout⟩
      · rw [scan_cons_violated hviol] at h
        cases h
      · rw [scan_cons_inBounds hkept] at h
        obtain ⟨q, hq, hlen⟩ := ih h
        exact ⟨q, List.mem_cons_of_mem _ hq, hlen⟩

theorem BoundedRead.InBounds.pos_lt (h : r.InBounds a) : r.pos < a.length := by
  obtain ⟨x, hx, -⟩ := h
  exact (List.getElem?_eq_some_iff.mp hx).1

theorem BoundedRead.Violated.pos_lt (h : r.Violated a) : r.pos < a.length := by
  obtain ⟨x, hx, -⟩ := h
  exact (List.getElem?_eq_some_iff.mp hx).1

/-- A bound of zero is violated by every value. -/
theorem BoundedRead.violated_of_bound_zero (hpos : r.pos < a.length) (h : r.bound = 0) : r.Violated a :=
  ⟨a[r.pos], List.getElem?_eq_getElem hpos, by rw [h]; exact Nat.zero_le _⟩

end Outcome

/-! ## Exactness -/

/-- On this array the scan stays inside and rejects exactly the violations of the wanted comparisons. -/
def ScanExact (reads wanted : List BoundedRead) (a : List Nat) : Prop :=
  scan a reads ≠ .outside ∧ (scan a reads = .rejected ↔ ∃ w ∈ wanted, w.Violated a)

/-- Every wanted comparison is made, and no read asks for more than the wanted one of its position. -/
structure Covers (reads wanted : List BoundedRead) : Prop where
  complete : ∀ w ∈ wanted, w ∈ reads
  implied : ∀ r ∈ reads, ∃ w ∈ wanted, w.pos = r.pos ∧ w.bound ≤ r.bound

/-- The scan comes to a bound of zero before it leaves an array of `n` values. -/
def StopsAtZero (n : Nat) (reads : List BoundedRead) : Prop :=
  ∃ pre r post, reads = pre ++ r :: post ∧ r.bound = 0 ∧ ∀ q ∈ pre ++ [r], q.pos < n

/-- Nothing can pass: a wanted bound is zero, and the scan comes to a bound of zero inside the array. -/
def Blocked (n : Nat) (reads wanted : List BoundedRead) : Prop :=
  (∃ w ∈ wanted, w.bound = 0) ∧ StopsAtZero n reads

/-- The array that is zero except at `p`. -/
def spike (n p x : Nat) : List Nat := (List.replicate n 0).set p x

theorem length_spike (n p x : Nat) : (spike n p x).length = n := by
  unfold spike
  rw [List.length_set, List.length_replicate]

theorem getElem?_spike_self {n p : Nat} (x : Nat) (hp : p < n) : (spike n p x)[p]? = some x := by
  unfold spike
  rw [List.getElem?_set_self (by rwa [List.length_replicate])]

theorem getElem?_spike_ne {n p q : Nat} (x : Nat) (hq : q < n) (hne : p ≠ q) : (spike n p x)[q]? = some 0 := by
  unfold spike
  rw [List.getElem?_set_ne hne, List.getElem?_replicate, if_pos hq]

theorem lt_of_mem_spike {n p x m : Nat} (hx : x < m) {y : Nat} (hy : y ∈ spike n p x) : y < m := by
  rcases List.mem_or_eq_of_mem_set hy with h | rfl
  · rw [List.eq_of_mem_replicate h]
    omega
  · exact hx

/-- What is violated on a spike is read at the spike, if its bound is not zero. -/
theorem BoundedRead.Violated.at_spike {n p x : Nat} {r : BoundedRead} (h : r.Violated (spike n p x))
    (hpos : r.bound ≠ 0) : r.pos = p ∧ r.bound ≤ x := by
  obtain ⟨y, hy, hle⟩ := h
  have hlt : r.pos < n := by
    rw [← length_spike n p x]
    exact (List.getElem?_eq_some_iff.mp hy).1
  by_cases hp : p = r.pos
  · subst hp
    rw [getElem?_spike_self x hlt] at hy
    cases hy
    exact ⟨rfl, hle⟩
  · rw [getElem?_spike_ne x hlt hp] at hy
    cases hy
    exact absurd (Nat.le_zero.mp hle) hpos

section Exact

variable {n m : Nat} {reads wanted : List BoundedRead}

/-- Reads that cover the wanted comparisons are as good. -/
theorem Covers.scanExact (h : Covers reads wanted) {a : List Nat} (hinside : ∀ w ∈ wanted, w.pos < a.length) :
    ScanExact reads wanted a := by
  have hstays : scan a reads ≠ .outside := by
    intro hout
    obtain ⟨r, hr, hlen⟩ := exists_outside_of_scan hout
    obtain ⟨w, hw, hpos, -⟩ := h.implied r hr
    have := hinside w hw
    omega
  refine ⟨hstays, ?_, ?_⟩
  · intro hrejected
    obtain ⟨pre, r, post, rfl, -, x, hx, hle⟩ := scan_eq_rejected_iff.mp hrejected
    obtain ⟨w, hw, hpos, hbound⟩ := h.implied r (by simp)
    exact ⟨w, hw, x, by rw [hpos, hx], hbound.trans hle⟩
  · rintro ⟨w, hw, hviol⟩
    cases hres : scan a reads with
    | passed   => exact absurd hviol (scan_eq_passed_iff.mp hres w (h.complete w hw)).not_violated
    | rejected => rfl
    | outside  => exact absurd hres hstays

/-- Where nothing can pass, the scan rejects everything. -/
theorem Blocked.scanExact (h : Blocked n reads wanted) {a : List Nat} (hlen : a.length = n)
    (hinside : ∀ w ∈ wanted, w.pos < n) : ScanExact reads wanted a := by
  obtain ⟨⟨w, hw, hzero⟩, pre, r, post, rfl, hr, hpre⟩ := h
  have hviol : w.Violated a := BoundedRead.violated_of_bound_zero (by rw [hlen]; exact hinside w hw) hzero
  have hlast : r.Violated a := BoundedRead.violated_of_bound_zero (by rw [hlen]; exact hpre r (by simp)) hr
  have hrejected : scan a (pre ++ r :: post) = .rejected := by
    by_cases hall : ∀ q ∈ pre, q.InBounds a
    · exact scan_eq_rejected_iff.mpr ⟨pre, r, post, rfl, hall, hlast⟩
    · -- the scan stops at the first read of `pre` that is not kept; being inside, it is violated
      obtain ⟨pre', q, post', rfl, hkept, hq⟩ := exists_first_not hall
      have hin : a[q.pos]? ≠ none := by
        rw [ne_eq, List.getElem?_eq_none_iff, hlen, Nat.not_le]
        exact hpre q (by simp)
      rcases q.cases_at a with hout | hviol' | hkept'
      · exact absurd hout hin
      · refine scan_eq_rejected_iff.mpr ⟨pre', q, post' ++ r :: post, by simp, hkept, hviol'⟩
      · exact absurd hkept' hq
  rw [ScanExact, hrejected]
  exact ⟨by decide, fun _ => ⟨w, hw, hviol⟩, fun _ => rfl⟩

theorem ScanExact.rejected_of_violated {a : List Nat} (h : ScanExact reads wanted a) {r : BoundedRead}
    (hr : r ∈ reads) (hviol : r.Violated a) : ∃ w ∈ wanted, w.Violated a := by
  apply h.2.mp
  cases hres : scan a reads with
  | passed   => exact absurd hviol (scan_eq_passed_iff.mp hres r hr).not_violated
  | rejected => rfl
  | outside  => exact absurd hres h.1

theorem ScanExact.violated_of_wanted {a : List Nat} (h : ScanExact reads wanted a) {w : BoundedRead}
    (hw : w ∈ wanted) (hviol : w.Violated a) : ∃ r ∈ reads, r.Violated a := by
  obtain ⟨pre, r, post, rfl, -, hr⟩ := scan_eq_rejected_iff.mp (h.2.mpr ⟨w, hw, hviol⟩)
  exact ⟨r, by simp, hr⟩

/-- If the zero array is treated exactly and the scan is not blocked, no bound of zero is wanted, and no read is
    outside or has a bound of zero. -/
theorem ScanExact.bounds_of_zero {p : Nat} (h : ScanExact reads wanted (spike n p 0))
    (hinside : ∀ w ∈ wanted, w.pos < n) (hblocked : ¬ Blocked n reads wanted) :
    (∀ w ∈ wanted, w.bound ≠ 0) ∧ ∀ r ∈ reads, r.pos < n ∧ r.bound ≠ 0 := by
  have hlen := length_spike n p 0
  have hzero : ∀ {r : BoundedRead}, r.Violated (spike n p 0) → r.bound = 0 := by
    intro r hr
    by_contra hne
    exact hne (Nat.le_zero.mp (hr.at_spike hne).2)
  have hwanted : ∀ w ∈ wanted, w.bound ≠ 0 := by
    intro w hw hw0
    have hviol : w.Violated (spike n p 0) :=
      BoundedRead.violated_of_bound_zero (by rw [hlen]; exact hinside w hw) hw0
    obtain ⟨pre, r, post, hsplit, hpre, hr⟩ := scan_eq_rejected_iff.mp (h.2.mpr ⟨w, hw, hviol⟩)
    refine hblocked ⟨⟨w, hw, hw0⟩, pre, r, post, hsplit, hzero hr, ?_⟩
    intro q hq
    rw [← hlen]
    rcases List.mem_append.mp hq with hq | hq
    · exact (hpre q hq).pos_lt
    · rw [List.mem_singleton.mp hq]
      exact hr.pos_lt
  have hpassed : scan (spike n p 0) reads = .passed := by
    cases hres : scan (spike n p 0) reads with
    | passed   => rfl
    | rejected =>
        obtain ⟨w, hw, hviol⟩ := h.2.mp hres
        exact absurd (hzero hviol) (hwanted w hw)
    | outside  => exact absurd hres h.1
  refine ⟨hwanted, fun r hr => ?_⟩
  have hkept := scan_eq_passed_iff.mp hpassed r hr
  refine ⟨hlen ▸ hkept.pos_lt, fun hr0 => ?_⟩
  obtain ⟨x, -, hlt⟩ := hkept
  rw [hr0] at hlt
  exact Nat.not_lt_zero x hlt

/-- **When a scan is exact.** The wanted comparisons ask one thing of each position of an array of `n` values below
    `m`. Then the scan is exact on all these arrays if and only if its reads cover the wanted comparisons or nothing
    can pass. -/
theorem scanExact_iff (hwanted : wanted.map (·.pos) = List.range n) (hreads : ∀ r ∈ reads, r.bound < m)
    (hbounds : ∀ w ∈ wanted, w.bound < m) :
    (∀ a : List Nat, a.length = n → (∀ x ∈ a, x < m) → ScanExact reads wanted a) ↔
      Blocked n reads wanted ∨ Covers reads wanted := by
  have hmem : ∀ p, p < n ↔ ∃ w ∈ wanted, w.pos = p := by
    intro p
    rw [← List.mem_range, ← hwanted, List.mem_map]
  have hinside : ∀ w ∈ wanted, w.pos < n := fun w hw => (hmem _).mpr ⟨w, hw, rfl⟩
  have hunique : ∀ w ∈ wanted, ∀ w' ∈ wanted, w.pos = w'.pos → w = w' := by
    have hnodup : (wanted.map (·.pos)).Nodup := by
      rw [hwanted]
      exact List.nodup_range
    intro w hw w' hw' hpos
    exact List.inj_on_of_nodup_map hnodup hw hw' hpos
  constructor
  · intro hexact
    rw [Classical.or_iff_not_imp_left]
    intro hblocked
    have hspike : ∀ p x, x < m → ScanExact reads wanted (spike n p x) := fun p x hx =>
      hexact _ (length_spike n p x) fun y hy => lt_of_mem_spike hx hy
    -- the value of a read on a spike: no read can ask for more than the wanted comparison of its position
    have himplied : ∀ r ∈ reads, ∃ w ∈ wanted, w.pos = r.pos ∧ w.bound ≤ r.bound := by
      intro r hr
      have hm := hreads r hr
      obtain ⟨hw0, hr0⟩ := (hspike 0 0 (by omega)).bounds_of_zero hinside hblocked
      have hviol : r.Violated (spike n r.pos r.bound) :=
        ⟨r.bound, getElem?_spike_self r.bound (hr0 r hr).1, Nat.le_refl _⟩
      obtain ⟨w, hw, hw'⟩ := (hspike r.pos r.bound hm).rejected_of_violated hr hviol
      exact ⟨w, hw, hw'.at_spike (hw0 w hw)⟩
    refine ⟨fun w hw => ?_, himplied⟩
    have hm := hbounds w hw
    obtain ⟨-, hr0⟩ := (hspike 0 0 (by omega)).bounds_of_zero hinside hblocked
    have hviol : w.Violated (spike n w.pos w.bound) :=
      ⟨w.bound, getElem?_spike_self w.bound (hinside w hw), Nat.le_refl _⟩
    obtain ⟨r, hr, hr'⟩ := (hspike w.pos w.bound hm).violated_of_wanted hw hviol
    obtain ⟨hpos, hle⟩ := hr'.at_spike (hr0 r hr).2
    obtain ⟨w', hw', hpos', hle'⟩ := himplied r hr
    obtain rfl := hunique w hw w' hw' (hpos.symm.trans hpos'.symm)
    have heq : r = w := by
      cases r
      cases w
      simp only [BoundedRead.mk.injEq] at *
      omega
    exact heq ▸ hr
  · rintro (hblocked | hcovers) a hlen -
    · exact hblocked.scanExact hlen hinside
    · exact hcovers.scanExact (by rwa [hlen])

end Exact

/-! ## Where a scan stops -/

section Stops

variable {n : Nat}

theorem not_stopsAtZero_nil : ¬ StopsAtZero n [] := by
  rintro ⟨pre, r, post, hsplit, -⟩
  simp at hsplit

theorem stopsAtZero_cons_iff {r : BoundedRead} {rs : List BoundedRead} :
    StopsAtZero n (r :: rs) ↔ r.pos < n ∧ (r.bound = 0 ∨ StopsAtZero n rs) := by
  constructor
  · rintro ⟨pre, q, post, hsplit, hzero, hinside⟩
    cases pre with
    | nil =>
        obtain ⟨rfl, rfl⟩ := List.cons.inj hsplit
        exact ⟨hinside r (by simp), .inl hzero⟩
    | cons x pre =>
        obtain ⟨rfl, rfl⟩ := List.cons.inj hsplit
        exact ⟨hinside r (by simp), .inr ⟨pre, q, post, rfl, hzero, fun y hy => hinside y (List.mem_cons_of_mem _ hy)⟩⟩
  · rintro ⟨hr, hzero | ⟨pre, q, post, rfl, hzero, hinside⟩⟩
    · exact ⟨[], r, rs, rfl, hzero, by simpa using hr⟩
    · exact ⟨r :: pre, q, post, rfl, hzero, List.forall_mem_cons.mpr ⟨hr, hinside⟩⟩

theorem stopsAtZero_append_iff {xs ys : List BoundedRead} :
    StopsAtZero n (xs ++ ys) ↔ StopsAtZero n xs ∨ ((∀ q ∈ xs, q.pos < n) ∧ StopsAtZero n ys) := by
  induction xs with
  | nil => simp [not_stopsAtZero_nil]
  | cons x xs ih =>
      rw [List.cons_append, stopsAtZero_cons_iff, stopsAtZero_cons_iff, ih, List.forall_mem_cons]
      tauto

/-- A scan in rounds stops in a round that it reaches. -/
theorem stopsAtZero_rounds_iff {f : Nat → List BoundedRead} {m : Nat} :
    StopsAtZero n ((List.range m).flatMap f) ↔
      ∃ b < m, (∀ c < b, ∀ q ∈ f c, q.pos < n) ∧ StopsAtZero n (f b) := by
  induction m with
  | zero => simp [not_stopsAtZero_nil]
  | succ m ih =>
      rw [List.range_succ, List.flatMap_append, List.flatMap_singleton, stopsAtZero_append_iff, ih]
      simp only [List.mem_flatMap, List.mem_range, Nat.lt_succ_iff_lt_or_eq]
      constructor
      · rintro (⟨b, hb, hstops⟩ | ⟨hinside, hstops⟩)
        · exact ⟨b, .inl hb, hstops⟩
        · exact ⟨m, .inr rfl, fun c hc q hq => hinside q ⟨c, hc, hq⟩, hstops⟩
      · rintro ⟨b, hb | rfl, hinside, hstops⟩
        · exact .inl ⟨b, hb, hinside, hstops⟩
        · exact .inr ⟨fun q ⟨c, hc, hq⟩ => hinside c hc q hq, hstops⟩

/-- Reads with one bound stop at the first of them, if at all. -/
theorem stopsAtZero_map_range_iff {pos : Nat → Nat} {k bound : Nat} :
    StopsAtZero n ((List.range k).map fun i => ⟨pos i, bound⟩) ↔ 0 < k ∧ bound = 0 ∧ pos 0 < n := by
  cases k with
  | zero => simp [not_stopsAtZero_nil]
  | succ k =>
      rw [List.range_succ_eq_map, List.map_cons, stopsAtZero_cons_iff]
      constructor
      · rintro ⟨hpos, hzero | ⟨pre, r, post, hsplit, hzero, -⟩⟩
        · exact ⟨Nat.succ_pos k, hzero, hpos⟩
        · have hr : r ∈ ((List.range k).map Nat.succ).map fun i => BoundedRead.mk (pos i) bound := by simp [hsplit]
          obtain ⟨i, -, rfl⟩ := List.mem_map.mp hr
          exact ⟨Nat.succ_pos k, hzero, hpos⟩
      · rintro ⟨-, hzero, hpos⟩
        exact ⟨hpos, .inl hzero⟩

end Stops

end Pnm.Lib
