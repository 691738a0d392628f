import Mathlib.Data.Finset.Basic
import Mathlib.Data.Finset.Lattice.Lemmas
import Mathlib.Data.List.Sort
import Pnm.Imdb.Containers

/-!
# `Imdb.BitSet` — bit vectors as sets

The model of `containers::bit_vector`: the view of `bit_views.h` over allocated words, with its iterators and its
comparison. As in `Imdb.Containers` an access outside the words has no result.

The abstract container is a finite set of numbers. `Represents` relates the two; it holds after construction, is kept by
every operation (`Represents.apply`) and so by every sequence of them (`Represents.foldlM`). The iterators skip the
values that are not contained, so a walk over them is a skipping walk of `Lib.Walk`, and yields the members in order.
The comparison is `std::equal` with one end only. What it finds is `equal_eq_members`.
-/

namespace Pnm.Imdb

open Pnm.Lib

/-- `containers::bit_vector`, with the storage of `allocate`. -/
structure BitVector (T : StorageType) where
  size : Nat
  words : Vector (BitVec T.bits) (bitVectorStorageSize T.sizeof size)

namespace BitVector

variable {T : StorageType} (b : BitVector T)

/-- The view of the container. -/
def view : BitVectorView T.bits := { size := b.size, data := wordsOf b.words }

@[simp] theorem view_size : b.view.size = b.size := rfl

@[simp] theorem view_data : b.view.data = wordsOf b.words := rfl

/-- `contains`. -/
def contains (value : Nat) : Option Bool :=
  if value ≥ b.size then some false
  else do
    let word ← b.words[value / T.bits]?
    some ((word &&& BitVectorView.bitMask T.bits value) != 0)

/-- `insert`. -/
def insert (value : Nat) : Option (BitVector T) := do
  let words ← modifyWord b.words (value / T.bits) fun word => word ||| BitVectorView.bitMask T.bits value
  some { b with words := words }

/-- `erase`. -/
def erase (value : Nat) : Option (BitVector T) := do
  let words ← modifyWord b.words (value / T.bits) fun word => word &&& ~~~ BitVectorView.bitMask T.bits value
  some { b with words := words }

/-- `clear`. -/
def clear : BitVector T := { b with words := Vector.replicate _ 0 }

/-- `range_upper_limit`. -/
def rangeUpperLimit (values : List Nat) : Nat :=
  match values.max? with
  | none   => 0
  | some m => m + 1

/-- The constructor from a limit. -/
def ofLimit (N : Nat) : BitVector T := { size := N, words := Vector.replicate _ 0 }

/-- The constructor from a range of values. -/
def ofValues (values : List Nat) : Option (BitVector T) := values.foldlM insert (ofLimit (rangeUpperLimit values))

/-- The loop `while (index < size() && !contains(index)) ++index`, by the number of values left. -/
def skipFrom : Nat → Nat → Option Nat
  | 0, index        => some index
  | left + 1, index => do
      if ← b.contains index then some index else skipFrom left (index + 1)

/-- `begin`. -/
def beginIndex : Option Nat := b.skipFrom b.size 0

/-- `it_helper_next`. -/
def itHelperNext (index : Nat) : Option Nat := b.skipFrom (b.size - (index + 1)) (index + 1)

/-- The iterators: `end()` is at `size()`. -/
def walk : Walk Nat Nat where
  stop index := index == b.size
  value index := some index
  next index := b.itHelperNext index

/-- `operator==`: `std::equal` from both first positions to the end of the first container. The first position moves
    forward on every turn, which bounds the turns. -/
def equal (a b : BitVector T) : Option Bool := do
  let p ← a.beginIndex
  let q ← b.beginIndex
  a.walk.equal b.walk (a.size + 1) p q

variable {b}

/-! ## Inside the storage -/

/-- The word of a value is allocated. -/
theorem word_lt {v : Nat} (hv : v < b.size) : v / T.bits < bitVectorStorageSize T.sizeof b.size := by
  have hroom := le_storageSize T b.size
  rw [Nat.div_lt_iff_lt_mul T.bits_pos, Nat.mul_comm]
  exact Nat.lt_of_lt_of_le hv hroom

/-- **`contains` never leaves the storage.** -/
theorem contains_eq (v : Nat) : b.contains v = some (b.view.contains v) := by
  unfold contains BitVectorView.contains
  by_cases hv : v ≥ b.size
  · rw [if_pos hv, if_pos (show v ≥ b.view.size from hv)]
  · rw [if_neg hv, if_neg (show ¬ v ≥ b.view.size from hv), getElem?_words b.words (word_lt (Nat.lt_of_not_le hv))]
    rfl

theorem insert_eq {v : Nat} (hv : v < b.size) : ∃ b', b.insert v = some b' ∧ b'.view = b.view.insert v := by
  obtain ⟨words, hwords, hdata⟩ := modifyWord_eq b.words (word_lt hv)
    fun word => word ||| BitVectorView.bitMask T.bits v
  refine ⟨{ b with words := words }, ?_, ?_⟩
  · rw [insert, hwords]
    rfl
  · rw [view, hdata]
    rfl

theorem erase_eq {v : Nat} (hv : v < b.size) : ∃ b', b.erase v = some b' ∧ b'.view = b.view.erase v := by
  obtain ⟨words, hwords, hdata⟩ := modifyWord_eq b.words (word_lt hv)
    fun word => word &&& ~~~ BitVectorView.bitMask T.bits v
  refine ⟨{ b with words := words }, ?_, ?_⟩
  · rw [erase, hwords]
    rfl
  · rw [view, hdata]
    rfl

theorem clear_eq : b.clear.view = b.view.clear := by
  rw [clear, view, wordsOf_replicate]
  rfl

/-! ## Sets -/

/-- The operations. -/
inductive SetOp where
  | insert (value : Nat)
  | erase (value : Nat)
  | clear

/-- An operation of the container. -/
def apply (b : BitVector T) : SetOp → Option (BitVector T)
  | .insert value => b.insert value
  | .erase value  => b.erase value
  | .clear        => some b.clear

/-- The same operation of a set. -/
def SetOp.onSet (S : Finset Nat) : SetOp → Finset Nat
  | .insert value => Insert.insert value S
  | .erase value  => S.erase value
  | .clear        => ∅

/-- The value of an operation is below a limit. -/
def SetOp.Below (limit : Nat) : SetOp → Prop
  | .insert value => value < limit
  | .erase value  => value < limit
  | .clear        => True

/-- **The container holds the set**: the bits of its members are set, and they are all below the size. -/
structure Represents (b : BitVector T) (S : Finset Nat) : Prop where
  bits : ∀ v < b.size, bitAt b.view.data v = decide (v ∈ S)
  below : ∀ v ∈ S, v < b.size

variable {S : Finset Nat}

/-- `contains` is membership, for values of any size. -/
theorem Represents.contains (h : Represents b S) (x : Nat) : b.contains x = some (decide (x ∈ S)) := by
  rw [contains_eq, BitVectorView.contains_eq T.bits_pos]
  by_cases hx : x < b.size
  · rw [h.bits x hx, decide_eq_true (show x < b.view.size from hx), Bool.true_and]
  · rw [decide_eq_false (show ¬ x < b.view.size from hx), decide_eq_false fun hmem => hx (h.below x hmem),
      Bool.false_and]

theorem Represents.insert {v : Nat} (h : Represents b S) (hv : v < b.size) :
    ∃ b', b.insert v = some b' ∧ b'.size = b.size ∧ Represents b' (Insert.insert v S) := by
  obtain ⟨b', hrun, hview⟩ := insert_eq hv
  have hsize : b'.size = b.size := congrArg BitVectorView.size hview
  refine ⟨b', hrun, hsize, ⟨fun x hx => ?_, fun x hx => ?_⟩⟩
  · rw [hview, BitVectorView.bitAt_insert T.bits_pos, h.bits x (hsize ▸ hx), ← Bool.decide_or, decide_eq_decide,
      Finset.mem_insert, or_comm]
  · rw [hsize]
    rcases Finset.mem_insert.mp hx with rfl | hmem
    · exact hv
    · exact h.below x hmem

theorem Represents.erase {v : Nat} (h : Represents b S) (hv : v < b.size) :
    ∃ b', b.erase v = some b' ∧ b'.size = b.size ∧ Represents b' (S.erase v) := by
  obtain ⟨b', hrun, hview⟩ := erase_eq hv
  have hsize : b'.size = b.size := congrArg BitVectorView.size hview
  refine ⟨b', hrun, hsize, ⟨fun x hx => ?_, fun x hx => ?_⟩⟩
  · rw [hview, BitVectorView.bitAt_erase T.bits_pos, h.bits x (hsize ▸ hx), ← decide_not, ← Bool.decide_and,
      decide_eq_decide, Finset.mem_erase, and_comm]
  · rw [hsize]
    exact h.below x (Finset.mem_of_mem_erase hx)

theorem Represents.clear : Represents b.clear ∅ := by
  refine ⟨fun x _ => ?_, fun x hx => absurd hx (Finset.notMem_empty x)⟩
  rw [clear_eq, BitVectorView.bitAt_clear, decide_eq_false (Finset.notMem_empty x)]

/-- **One operation** does to the container what it does to the set. -/
theorem Represents.apply {op : SetOp} (h : Represents b S) (hop : op.Below b.size) :
    ∃ b', b.apply op = some b' ∧ b'.size = b.size ∧ Represents b' (op.onSet S) := by
  cases op with
  | insert v => exact h.insert hop
  | erase v => exact h.erase hop
  | clear => exact ⟨b.clear, rfl, rfl, Represents.clear⟩

/-- **Any sequence of operations.** -/
theorem Represents.foldlM {ops : List SetOp} (h : Represents b S) (hops : ∀ op ∈ ops, op.Below b.size) :
    ∃ b', ops.foldlM BitVector.apply b = some b' ∧ b'.size = b.size ∧ Represents b' (ops.foldl SetOp.onSet S) := by
  induction ops generalizing b S with
  | nil => exact ⟨b, rfl, rfl, h⟩
  | cons op ops ih =>
      obtain ⟨next, hop, hsize, hnext⟩ := h.apply (hops op (by simp))
      obtain ⟨b', hrest, hsize', hb'⟩ := ih hnext fun o ho => hsize.symm ▸ hops o (by simp [ho])
      refine ⟨b', ?_, hsize'.trans hsize, hb'⟩
      rw [List.foldlM_cons, hop]
      exact hrest

theorem lt_rangeUpperLimit {values : List Nat} {v : Nat} (hv : v ∈ values) : v < rangeUpperLimit values := by
  unfold rangeUpperLimit
  cases hmax : values.max? with
  | none =>
      rw [List.max?_eq_none_iff.mp hmax] at hv
      exact absurd hv (by simp)
  | some m => exact Nat.lt_succ_of_le ((List.max?_eq_some_iff.mp hmax).2 v hv)

theorem Represents.ofLimit (N : Nat) : Represents (BitVector.ofLimit N : BitVector T) ∅ := by
  refine ⟨fun x _ => ?_, fun x hx => absurd hx (Finset.notMem_empty x)⟩
  rw [view_data, BitVector.ofLimit, wordsOf_replicate]
  simp [bitAt]

/-- Inserting values one after another. -/
theorem Represents.foldlM_insert {values : List Nat} (h : Represents b S) (hvalues : ∀ v ∈ values, v < b.size) :
    ∃ b', values.foldlM BitVector.insert b = some b' ∧ b'.size = b.size ∧ Represents b' (S ∪ values.toFinset) := by
  induction values generalizing b S with
  | nil =>
      rw [List.toFinset_nil, Finset.union_empty]
      exact ⟨b, rfl, rfl, h⟩
  | cons v values ih =>
      obtain ⟨next, hinsert, hsize, hnext⟩ := h.insert (hvalues v (by simp))
      obtain ⟨b', hrest, hsize', hb'⟩ := ih hnext fun w hw => hsize.symm ▸ hvalues w (by simp [hw])
      refine ⟨b', ?_, hsize'.trans hsize, ?_⟩
      · rw [List.foldlM_cons, hinsert]
        exact hrest
      · rw [List.toFinset_cons, Finset.union_insert, ← Finset.insert_union]
        exact hb'

/-- **A bit vector built from a range** holds the set of its values. -/
theorem Represents.ofValues (values : List Nat) :
    ∃ b : BitVector T, BitVector.ofValues values = some b ∧ b.size = rangeUpperLimit values ∧
      Represents b values.toFinset := by
  obtain ⟨b, hrun, hsize, hb⟩ := (Represents.ofLimit (T := T) (rangeUpperLimit values)).foldlM_insert
    fun v hv => lt_rangeUpperLimit hv
  rw [Finset.empty_union] at hb
  exact ⟨b, hrun, hsize, hb⟩

/-! ## Iterators -/

theorem skipFrom_eq (left index : Nat) : b.skipFrom left index = some (Walk.firstFrom b.view.contains left index) := by
  induction left generalizing index with
  | zero => rfl
  | succ left ih =>
      rw [skipFrom, contains_eq, Walk.firstFrom, Option.bind_eq_bind, Option.bind_some]
      split
      · rfl
      · exact ih (index + 1)

/-- The iterators skip what is not contained. -/
theorem walk_skipping (b : BitVector T) : b.walk.Skipping b.view.contains b.size where
  stop_eq _ := rfl
  value_eq _ := rfl
  next_eq _ := skipFrom_eq _ _

/-- The members, in increasing order. -/
def members (b : BitVector T) : List Nat := (List.range b.size).filter b.view.contains

theorem mem_members {x : Nat} : x ∈ b.members ↔ b.contains x = some true := by
  rw [members, List.mem_filter, List.mem_range, contains_eq, Option.some_inj]
  apply and_iff_right_of_imp
  intro hx
  rw [BitVectorView.contains_eq T.bits_pos, Bool.and_eq_true] at hx
  exact of_decide_eq_true hx.1

theorem members_sorted (b : BitVector T) : b.members.Pairwise (· < ·) := List.pairwise_lt_range.filter _

/-- **A walk from begin to end yields the members.** -/
theorem yields_members (b : BitVector T) : ∃ first, b.beginIndex = some first ∧ b.walk.Yields first b.members := by
  refine ⟨_, skipFrom_eq b.size 0, ?_⟩
  rw [members, List.range_eq_range']
  exact (walk_skipping b).yields (Nat.zero_add b.size)

/-- Behind the members the iterators go on with the size and all that follows. -/
theorem produces_members (b : BitVector T) (m : Nat) :
    ∃ first, b.beginIndex = some first ∧ b.walk.Produces first (b.members ++ List.range' b.size m) := by
  refine ⟨_, skipFrom_eq b.size 0, ?_⟩
  rw [members, List.range_eq_range']
  exact (walk_skipping b).produces m (Nat.zero_add b.size)

/-- **A bit vector is a finite set**, whatever it is built from and whatever is done to it. No operation leaves the
    storage; `contains` is membership; a walk from begin to end yields the members, each once, in increasing order. -/
theorem refines_set (T : StorageType) (values : List Nat) (ops : List SetOp)
    (hops : ∀ op ∈ ops, op.Below (rangeUpperLimit values)) :
    ∃ b b' : BitVector T, ofValues values = some b ∧ b.size = rangeUpperLimit values ∧
      ops.foldlM BitVector.apply b = some b' ∧
      (∀ x, b'.contains x = some (decide (x ∈ ops.foldl SetOp.onSet values.toFinset))) ∧
      ∃ first l, b'.beginIndex = some first ∧ b'.walk.Yields first l ∧ l.Pairwise (· < ·) ∧
        ∀ x, x ∈ l ↔ x ∈ ops.foldl SetOp.onSet values.toFinset := by
  obtain ⟨b, hbuild, hsize, hb⟩ := Represents.ofValues (T := T) values
  obtain ⟨b', hrun, _, hb'⟩ := hb.foldlM (hsize.symm ▸ hops)
  obtain ⟨first, hbegin, hyields⟩ := yields_members b'
  refine ⟨b, b', hbuild, hsize, hrun, hb'.contains, first, b'.members, hbegin, hyields, members_sorted b', ?_⟩
  intro x
  rw [mem_members, hb'.contains, Option.some_inj, decide_eq_true_iff]

/-- Built from 5 and 2, then 2 erased and 0 inserted. -/
theorem refines_set_example :
    (∀ op ∈ [SetOp.erase 2, SetOp.insert 0], op.Below (rangeUpperLimit [5, 2])) ∧
    ∃ b b' : BitVector .uint8, ofValues [5, 2] = some b ∧ b.size = 6 ∧
      [SetOp.erase 2, SetOp.insert 0].foldlM BitVector.apply b = some b' ∧
      (∀ x, b'.contains x = some (decide (x ∈ [SetOp.erase 2, SetOp.insert 0].foldl SetOp.onSet [5, 2].toFinset))) ∧
      ∃ first l, b'.beginIndex = some first ∧ b'.walk.Yields first l ∧ l.Pairwise (· < ·) ∧
        ∀ x, x ∈ l ↔ x ∈ [SetOp.erase 2, SetOp.insert 0].foldl SetOp.onSet [5, 2].toFinset := by
  have hops : ∀ op ∈ [SetOp.erase 2, SetOp.insert 0], op.Below (rangeUpperLimit [5, 2]) := by
    simp [SetOp.Below, rangeUpperLimit]
  exact ⟨hops, refines_set .uint8 [5, 2] _ hops⟩

/-! ## Comparison -/

/-- **What `==` finds**: whether the members of the first are the first values the iterators of the second produce. -/
theorem equal_eq_members (a b : BitVector T) :
    a.equal b = some (decide (a.members
      = (b.members ++ List.range' b.size a.members.length).take a.members.length)) := by
  obtain ⟨p, hp, hyields⟩ := yields_members a
  obtain ⟨q, hq, hproduces⟩ := produces_members b a.members.length
  have hlength : a.members.length ≤ a.size := (List.length_filter_le _ _).trans_eq List.length_range
  rw [equal, hp, hq]
  apply Walk.equal_eq hyields (hproduces.take _)
  · simp
  · omega

/-- A list against one that goes on with all numbers from `n`: it stops inside the other, or covers it and goes on
    the same way. -/
theorem eq_take_append_iff {A B : List Nat} {n : Nat} :
    A = (B ++ List.range' n A.length).take A.length ↔ A <+: B ∨ ∃ m, A = B ++ List.range' n m := by
  by_cases hle : A.length ≤ B.length
  · rw [List.take_append_of_le_length hle, ← List.prefix_iff_eq_take]
    constructor
    · exact Or.inl
    · rintro (hpre | ⟨m, hm⟩)
      · exact hpre
      · -- the other is covered only if both are the same
        have hlength := congrArg List.length hm
        rw [List.length_append, List.length_range'] at hlength
        obtain rfl : m = 0 := by omega
        exact (show A = B by simpa using hm) ▸ List.prefix_refl A
  · obtain ⟨k, hk⟩ := Nat.exists_eq_add_of_lt (Nat.lt_of_not_le hle)
    have htake : (B ++ List.range' n A.length).take A.length = B ++ List.range' n (k + 1) := by
      rw [List.take_append, List.take_of_length_le (Nat.le_of_not_le hle), hk, Nat.add_assoc, Nat.add_sub_cancel_left,
        Nat.add_comm B.length, ← List.range'_append_1, List.take_left' List.length_range']
    rw [htake]
    constructor
    · exact fun heq => Or.inr ⟨_, heq⟩
    · rintro (hpre | ⟨m, hm⟩)
      · exact absurd hpre.length_le hle
      · have hlength := congrArg List.length hm
        rw [List.length_append, List.length_range'] at hlength
        obtain rfl : m = k + 1 := by omega
        exact hm

/-- Containers with the same values have the same members. -/
theorem members_eq_iff {a b : BitVector T} : (∀ x, a.contains x = b.contains x) ↔ a.members = b.members := by
  constructor
  · intro h
    apply (members_sorted a).eq_of_mem_iff (members_sorted b)
    intro x
    rw [mem_members, mem_members, h x]
  · intro h x
    have hx : a.contains x = some true ↔ b.contains x = some true := by
      rw [← mem_members, h, mem_members]
    rw [contains_eq, contains_eq, Option.some_inj] at hx ⊢
    rw [Option.some_inj] at hx
    exact Bool.eq_iff_iff.mpr hx

/-- **`==` is equality of the sets except in two cases**: the members of the first are a proper initial part of those of
    the second, or they are those of the second followed by its size and the numbers after it. -/
theorem equal_iff_same_values (a b : BitVector T) :
    ∃ r, a.equal b = some r ∧
      ((r = true ↔ ∀ x, a.contains x = b.contains x) ↔
        ¬ (a.members <+: b.members ∧ a.members ≠ b.members) ∧
          ¬ ∃ m, 0 < m ∧ a.members = b.members ++ List.range' b.size m) := by
  refine ⟨_, equal_eq_members a b, ?_⟩
  rw [decide_eq_true_iff, eq_take_append_iff, members_eq_iff]
  constructor
  · intro h
    refine ⟨fun ⟨hpre, hne⟩ => hne (h.mp (.inl hpre)), fun ⟨m, hm, heq⟩ => ?_⟩
    have hlength := congrArg List.length heq
    rw [h.mp (.inr ⟨m, heq⟩), List.length_append, List.length_range'] at hlength
    omega
  · rintro ⟨hpre, hmore⟩
    constructor
    · rintro (h | ⟨m, hm⟩)
      · by_contra hne
        exact hpre ⟨h, hne⟩
      · rcases Nat.eq_zero_or_pos m with rfl | hpos
        · simpa using hm
        · exact absurd ⟨m, hpos, hm⟩ hmore
    · exact fun heq => .inl (heq ▸ List.prefix_refl _)

/-- **`==` is not symmetric**: the empty container is equal to one with the value 1, which is not equal to it. -/
theorem equal_not_symmetric :
    ((ofValues [] : Option (BitVector .uint64)).bind fun a => (ofValues [1]).bind fun b =>
      (a.equal b).bind fun ab => (b.equal a).bind fun ba => some (ab, ba, a.contains 1, b.contains 1))
      = some (true, false, some false, some true) := by
  decide +kernel

end BitVector

end Pnm.Imdb
