import Mathlib.Tactic.Common
import Mathlib.Tactic.Ring

/-!
# `Lib.ByteMem` — byte-addressed memory with little-endian words

A memory is a total map from addresses to bytes; buffers are read and written through byte ranges
(`fill`, `copy`) and through little-endian words of any width (`readLE`, `writeLE`). Each operation comes
with two kinds of lemma: what a word inside the written range reads as, and the frame rule for a word
outside of it. Everything about ranges reduces to `readLE_congr`.
-/

namespace Pnm.Lib

/-- Byte-addressed memory. -/
abbrev Mem := Nat → BitVec 8

namespace Mem

/-- `std::fill_n`. -/
def fill (m : Mem) (a n : Nat) (v : BitVec 8) : Mem := fun x => if a ≤ x ∧ x < a + n then v else m x

/-- `std::copy_n` of `n` bytes from `src + s` to `dst + d`. -/
def copy (dst : Mem) (d : Nat) (src : Mem) (s n : Nat) : Mem :=
  fun x => if d ≤ x ∧ x < d + n then src (s + (x - d)) else dst x

/-- The `n`-byte little-endian word at `a`. -/
def readLE (m : Mem) : Nat → Nat → Nat
  | _, 0     => 0
  | a, n + 1 => (m a).toNat + 256 * readLE m (a + 1) n

/-- Store the low `n` bytes of `v` at `a`. -/
def writeLE (m : Mem) (a n v : Nat) : Mem :=
  fun x => if a ≤ x ∧ x < a + n then BitVec.ofNat 8 (v / 256 ^ (x - a)) else m x

/-- Store consecutive words of `n` bytes. -/
def writeWords (n : Nat) (m : Mem) (a : Nat) : List Nat → Mem
  | []      => m
  | v :: vs => writeWords n (m.writeLE a n v) (a + n) vs

/-! ## Reading back -/

variable {m m' : Mem} {a b n k s d : Nat}

theorem readLE_congr (h : ∀ i < n, m (a + i) = m' (b + i)) : m.readLE a n = m'.readLE b n := by
  induction n generalizing a b with
  | zero => rfl
  | succ n ih =>
      have h0 : m a = m' b := by simpa using h 0 (by omega)
      have hs : m.readLE (a + 1) n = m'.readLE (b + 1) n := by
        refine ih fun i hi => ?_
        rw [show a + 1 + i = a + (i + 1) by omega, show b + 1 + i = b + (i + 1) by omega]
        exact h (i + 1) (by omega)
      rw [readLE, readLE, h0, hs]

/-- A word written is read back, cut to its width. -/
theorem readLE_writeLE (m : Mem) (a n v : Nat) : (m.writeLE a n v).readLE a n = v % 256 ^ n := by
  induction n generalizing m a v with
  | zero => simp [readLE, Nat.mod_one]
  | succ n ih =>
      have hhead : (m.writeLE a (n + 1) v a).toNat = v % 256 := by simp [writeLE]
      -- the remaining bytes are those of `v / 256`, stored one further
      have htail : (m.writeLE a (n + 1) v).readLE (a + 1) n = v / 256 % 256 ^ n := by
        rw [← ih m (a + 1) (v / 256)]
        refine readLE_congr fun i hi => ?_
        have h1 : a ≤ a + 1 + i ∧ a + 1 + i < a + (n + 1) := by omega
        have h2 : a + 1 ≤ a + 1 + i ∧ a + 1 + i < a + 1 + n := by omega
        rw [writeLE, writeLE, if_pos h1, if_pos h2, Nat.div_div_eq_div_mul, ← Nat.pow_succ',
          show a + 1 + i - a = a + 1 + i - (a + 1) + 1 by omega]
      rw [readLE, hhead, htail, Nat.pow_succ', Nat.mod_mul]

theorem readLE_writeLE_disjoint (v : Nat) (h : a + n ≤ b ∨ b + k ≤ a) :
    (m.writeLE a n v).readLE b k = m.readLE b k := by
  refine readLE_congr fun i hi => ?_
  rw [writeLE, if_neg (by omega)]

theorem readLE_fill_zero (h : a ≤ b) (h' : b + k ≤ a + n) : (m.fill a n 0).readLE b k = 0 := by
  induction k generalizing b with
  | zero => rfl
  | succ k ih =>
      rw [readLE, ih (by omega) (by omega), fill, if_pos (by omega)]
      rfl

/-- A word inside the copied range is the word of the source. -/
theorem readLE_copy (h : d ≤ b) (h' : b + k ≤ d + n) :
    (m.copy d m' s n).readLE b k = m'.readLE (s + (b - d)) k := by
  refine readLE_congr fun i hi => ?_
  rw [copy, if_pos (by omega), show s + (b + i - d) = s + (b - d) + i by omega]

theorem readLE_copy_disjoint (h : d + n ≤ b ∨ b + k ≤ d) :
    (m.copy d m' s n).readLE b k = m.readLE b k := by
  refine readLE_congr fun i hi => ?_
  rw [copy, if_neg (by omega)]

theorem readLE_writeWords_lt (vs : List Nat) (h : b + k ≤ a) :
    (writeWords n m a vs).readLE b k = m.readLE b k := by
  induction vs generalizing m a with
  | nil => rfl
  | cons v vs ih => rw [writeWords, ih (by omega), readLE_writeLE_disjoint v (by omega)]

/-- The `i`-th of the words written. -/
theorem readLE_writeWords {vs : List Nat} {i : Nat} (hi : i < vs.length) :
    (writeWords n m a vs).readLE (a + n * i) n = vs[i] % 256 ^ n := by
  induction vs generalizing m a i with
  | nil => simp at hi
  | cons v vs ih =>
      rw [writeWords]
      cases i with
      | zero =>
          simp only [Nat.mul_zero, Nat.add_zero, List.getElem_cons_zero]
          rw [readLE_writeWords_lt vs (by omega), readLE_writeLE]
      | succ i =>
          rw [show a + n * (i + 1) = a + n + n * i by ring]
          exact ih (by simpa using hi)

/-- Words behind words. -/
theorem writeWords_append (n : Nat) (m : Mem) (a : Nat) (vs ws : List Nat) :
    writeWords n m a (vs ++ ws) = writeWords n (writeWords n m a vs) (a + n * vs.length) ws := by
  induction vs generalizing m a with
  | nil => rfl
  | cons v vs ih =>
      rw [List.cons_append, writeWords, ih, writeWords, List.length_cons, Nat.mul_succ, Nat.add_right_comm,
        Nat.add_assoc]

/-- Bytes outside the words are left alone. -/
theorem writeWords_apply_disjoint (vs : List Nat) {x : Nat} (h : x < a ∨ a + n * vs.length ≤ x) :
    writeWords n m a vs x = m x := by
  induction vs generalizing m a with
  | nil => rfl
  | cons v vs ih =>
      rw [List.length_cons, Nat.mul_succ] at h
      rw [writeWords, ih (by omega), writeLE, if_neg (by omega)]

/-! ## 32-bit words -/

/-- The `uint32_t` at `a`. -/
def word (m : Mem) (a : Nat) : BitVec 32 := BitVec.ofNat 32 (m.readLE a 4)

/-- Store a `uint32_t` at `a`. -/
def setWord (m : Mem) (a : Nat) (v : BitVec 32) : Mem := m.writeLE a 4 v.toNat

@[simp] theorem word_setWord_self (m : Mem) (a : Nat) (v : BitVec 32) : (m.setWord a v).word a = v := by
  have hv : v.toNat % 256 ^ 4 = v.toNat := Nat.mod_eq_of_lt v.isLt
  rw [word, setWord, readLE_writeLE, hv, BitVec.ofNat_toNat, BitVec.setWidth_eq]

theorem word_setWord_disjoint (v : BitVec 32) (h : a + 4 ≤ b ∨ b + 4 ≤ a) :
    (m.setWord a v).word b = m.word b := by
  rw [word, setWord, readLE_writeLE_disjoint _ h, word]

theorem word_fill_zero (h : a ≤ b) (h' : b + 4 ≤ a + n) : (m.fill a n 0).word b = 0 := by
  rw [word, readLE_fill_zero h h']
  rfl

theorem word_copy (h : d ≤ b) (h' : b + 4 ≤ d + n) : (m.copy d m' s n).word b = m'.word (s + (b - d)) := by
  rw [word, readLE_copy h h', word]

/-! ## Bits -/

/-- Bit `k` of a word is bit `k % 8` of its byte `k / 8`. -/
theorem testBit_readLE (m : Mem) (a n k : Nat) :
    (m.readLE a n).testBit k = (decide (k < 8 * n) && (m (a + k / 8)).getLsbD (k % 8)) := by
  induction n generalizing a k with
  | zero => simp [readLE]
  | succ n ih =>
      have hsplit := Nat.testBit_two_pow_mul_add (m.readLE (a + 1) n) (show (m a).toNat < 2 ^ 8 from (m a).isLt) k
      rw [readLE, Nat.add_comm, show 256 = 2 ^ 8 from rfl, hsplit]
      by_cases hk : k < 8
      · rw [if_pos hk, Nat.div_eq_of_lt hk, Nat.mod_eq_of_lt hk, decide_eq_true (by omega), Bool.true_and]
        rfl
      · rw [if_neg hk, ih, show a + 1 + (k - 8) / 8 = a + k / 8 by omega, show (k - 8) % 8 = k % 8 by omega]
        congr 1
        rw [decide_eq_decide]
        omega

theorem getLsbD_word (m : Mem) (a k : Nat) :
    (m.word a).getLsbD k = (decide (k < 32) && (m (a + k / 8)).getLsbD (k % 8)) := by
  rw [word, BitVec.getLsbD_ofNat, testBit_readLE]
  by_cases hk : k < 32 <;> simp [hk]

/-! ## Element-wise updates -/

/-- `std::transform(src, src + n, dst, dst, f)` over 32-bit elements. -/
def transform (f : BitVec 32 → BitVec 32 → BitVec 32) (dst : Mem) (d : Nat) (src : Mem) (s n : Nat) : Mem :=
  (List.range n).foldl (fun dst e => dst.setWord (d + 4 * e) (f (src.word (s + 4 * e)) (dst.word (d + 4 * e)))) dst

variable {f : BitVec 32 → BitVec 32 → BitVec 32} {src : Mem}

theorem transform_succ :
    m.transform f d src s (n + 1)
      = (m.transform f d src s n).setWord (d + 4 * n)
          (f (src.word (s + 4 * n)) ((m.transform f d src s n).word (d + 4 * n))) := by
  rw [transform, List.range_succ, List.foldl_append]
  rfl

/-- Bytes outside the destination are left alone. -/
theorem transform_apply_disjoint {x : Nat} (h : x < d ∨ d + 4 * n ≤ x) : m.transform f d src s n x = m x := by
  induction n with
  | zero => rfl
  | succ n ih => rw [transform_succ, setWord, writeLE, if_neg (by omega), ih (by omega)]

/-- A word outside the updated range is left alone. -/
theorem word_transform_disjoint (h : b + 4 ≤ d ∨ d + 4 * n ≤ b) :
    (m.transform f d src s n).word b = m.word b := by
  induction n with
  | zero => rfl
  | succ n ih => rw [transform_succ, word_setWord_disjoint _ (by omega), ih (by omega)]

/-- Every element is updated once. -/
theorem word_transform {e : Nat} (h : e < n) :
    (m.transform f d src s n).word (d + 4 * e) = f (src.word (s + 4 * e)) (m.word (d + 4 * e)) := by
  induction n with
  | zero => omega
  | succ n ih =>
      rw [transform_succ]
      by_cases he : e = n
      · subst he
        rw [word_setWord_self, word_transform_disjoint (by omega)]
      · rw [word_setWord_disjoint _ (by omega), ih (by omega)]

end Mem

end Pnm.Lib
