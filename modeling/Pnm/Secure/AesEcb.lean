import Pnm.Lib.ByteMem
import Pnm.Secure.Pads

/-!
# `Secure.AesEcb` — the pipelined block encryption

The model of `secure/encryption/AES/ni_backend.cpp`, with the round instructions of the processor as any functions.
`AES_ECB_encrypt` reads and writes one memory: four blocks at a time with their rounds interleaved, then one block at a
time, then a block that is filled up with zeros. The buffers are the same or have no byte in common.

**The shape of the argument.** After `i` blocks the memory is the original one with the first `i` encrypted blocks
stored at `out` (`progress`). Nothing that is still to be read has been written (`load_progress`), so a turn of either
loop leads from `progress i` to `progress (i + 4)` or `progress (i + 1)`, and the tail is one more block. At the end
`aesEncrypt_refines` is the link to the pads: what `Secure.Pads` says about lists of blocks is what the backend does to
a buffer that holds them.
-/

namespace Pnm.Secure

open Pnm.Lib

/-- `_mm_aesenc_si128` and `_mm_aesenclast_si128`. -/
structure AesInstructions where
  aesenc : BitVec 128 → BitVec 128 → BitVec 128
  aesenclast : BitVec 128 → BitVec 128 → BitVec 128

/-- `AES_NI_Backend`: the key schedule, block by block, and the number of rounds. -/
structure AesNiBackend where
  instructions : AesInstructions
  keySchedule : Nat → BitVec 128
  encryptionRounds : Nat

/-- `_mm_loadu_si128`. -/
def loadu (m : Mem) (a : Nat) : BitVec 128 := BitVec.ofNat 128 (m.readLE a 16)

/-- `_mm_storeu_si128`. -/
def storeu (m : Mem) (a : Nat) (v : BitVec 128) : Mem := m.writeLE a 16 v.toNat

/-- The size of `length` bytes in whole blocks. -/
def roundUp (length : Nat) : Nat := (length + 15) / 16 * 16

namespace AesNiBackend

variable (b : AesNiBackend)

/-- `aes_simple_rounds`: the encryption of one block. -/
def aesSimpleRounds (data : BitVec 128) : BitVec 128 :=
  let data := data ^^^ b.keySchedule 0
  let data := (List.range' 1 (b.encryptionRounds - 1)).foldl
    (fun data j => b.instructions.aesenc data (b.keySchedule j)) data
  b.instructions.aesenclast data (b.keySchedule b.encryptionRounds)

/-- Turn `i` of the pipelined loop. The block numbers are 32-bit. -/
def pipelineTurn (inp out : Nat) (m : Mem) (i : Nat) : Mem :=
  let index := fun k => (i * 4 + k) % 2 ^ 32
  let tmp := (List.range 4).map fun k => loadu m (inp + 16 * index k)
  let tmp := tmp.map fun v => v ^^^ b.keySchedule 0
  let tmp := (List.range' 1 (b.encryptionRounds - 1)).foldl
    (fun tmp j => tmp.map fun v => b.instructions.aesenc v (b.keySchedule j)) tmp
  let tmp := tmp.map fun v => b.instructions.aesenclast v (b.keySchedule b.encryptionRounds)
  (List.range 4).foldl (fun m k => storeu m (out + 16 * index k) (tmp.getD k 0)) m

/-- Turn `i` of the loop without pipeline. -/
def simpleTurn (inp out : Nat) (m : Mem) (i : Nat) : Mem :=
  storeu m (out + 16 * i) (b.aesSimpleRounds (loadu m (inp + 16 * i)))

/-- `augmented_block`: the last `length % 16` bytes, and zeros. -/
def augmentedBlock (m : Mem) (inp length : Nat) : BitVec 128 :=
  loadu (Mem.copy (fun _ => 0) 0 m (inp + length / 16 * 16) (length % 16)) 0

/-- `AES_ECB_encrypt`, with the memory that it leaves; `none` if the 32-bit counter of the pipelined loop never reaches
    its bound. -/
def aesEcbEncrypt (m : Mem) (inp out length : Nat) : Option (Mem × Nat) :=
  let cipherBlocks := length / 16
  let pipelineMainBlocks := cipherBlocks / 4
  if 2 ^ 32 ≤ pipelineMainBlocks then none
  else
    let m := (List.range pipelineMainBlocks).foldl (b.pipelineTurn inp out) m
    let m := (List.range' (pipelineMainBlocks * 4) (cipherBlocks - pipelineMainBlocks * 4)).foldl
      (b.simpleTurn inp out) m
    if length % 16 ≠ 0 then
      some (storeu m (out + 16 * cipherBlocks) (b.aesSimpleRounds (augmentedBlock m inp length)),
        (length / 16 + 1) * 16)
    else some (m, length)

/-- `AES_NI_Backend::encrypt`: the `int` becomes an `unsigned long`, and the result an `int`. -/
def encrypt (m : Mem) (data : Nat) (length : BitVec 32) (out : Nat) : Option (Mem × BitVec 32) := do
  let (m, count) ← b.aesEcbEncrypt m data out (length.signExtend 64).toNat
  some (m, BitVec.ofNat 32 count)

/-! ## Progress -/

/-- The memory after `i` blocks. -/
def progress (m : Mem) (inp out i : Nat) : Mem :=
  Mem.writeWords 16 m out ((List.range i).map fun j => (b.aesSimpleRounds (loadu m (inp + 16 * j))).toNat)

/-- Rounds interleaved over several blocks are the rounds of each block. -/
theorem foldl_map_eq {α β : Type} (f : α → β → α) (js : List β) (tmp : List α) :
    js.foldl (fun tmp j => tmp.map fun v => f v j) tmp = tmp.map fun v => js.foldl f v := by
  induction js generalizing tmp with
  | nil => simp
  | cons j js ih =>
      rw [List.foldl_cons, ih, List.map_map]
      rfl

/-- Stores of blocks one behind the other. -/
theorem foldl_storeu (m : Mem) (v : Nat → BitVec 128) {place : Nat → Nat} {a n : Nat}
    (hplace : ∀ k < n, place k = a + 16 * k) :
    (List.range n).foldl (fun m k => storeu m (place k) (v k)) m
      = Mem.writeWords 16 m a ((List.range n).map fun k => (v k).toNat) := by
  induction n with
  | zero => rfl
  | succ n ih =>
      rw [List.range_succ, List.foldl_append, ih fun k hk => hplace k (Nat.lt_succ_of_lt hk), List.map_append,
        Mem.writeWords_append, List.length_map, List.length_range, List.foldl_cons, List.foldl_nil,
        hplace n (Nat.lt_succ_self n)]
      rfl

/-- The next blocks are stored behind those that are there. -/
theorem writeWords_progress (m : Mem) (inp out i n : Nat) :
    Mem.writeWords 16 (b.progress m inp out i) (out + 16 * i)
        ((List.range n).map fun k => (b.aesSimpleRounds (loadu m (inp + 16 * (i + k)))).toNat)
      = b.progress m inp out (i + n) := by
  have hlength : ((List.range i).map fun j => (b.aesSimpleRounds (loadu m (inp + 16 * j))).toNat).length = i := by
    rw [List.length_map, List.length_range]
  rw [progress, progress, List.range_add, List.map_append, Mem.writeWords_append, hlength, List.map_map]
  rfl

section Turns

variable {b} {m : Mem} {inp out length : Nat} (hapart : inp = out ∨ inp + length ≤ out ∨ out + roundUp length ≤ inp)
include hapart

/-- What is still to be read has not been written. -/
theorem progress_apply {i x : Nat} (hlow : inp + 16 * i ≤ x) (hhigh : x < inp + length) :
    b.progress m inp out i x = m x := by
  refine Mem.writeWords_apply_disjoint _ ?_
  rw [List.length_map, List.length_range]
  rcases hapart with heq | hbefore | hbehind
  · exact .inr (heq ▸ hlow)
  · exact .inl (hhigh.trans_le hbefore)
  · unfold roundUp at hbehind
    omega

theorem load_progress {i j : Nat} (hij : i ≤ j) (hj : j < length / 16) :
    loadu (b.progress m inp out i) (inp + 16 * j) = loadu m (inp + 16 * j) := by
  refine congrArg (BitVec.ofNat 128) (Mem.readLE_congr fun t ht => ?_)
  exact progress_apply hapart (by omega) (by omega)

/-- **One turn of the loop without pipeline.** -/
theorem simpleTurn_progress {i : Nat} (hi : i < length / 16) :
    b.simpleTurn inp out (b.progress m inp out i) i = b.progress m inp out (i + 1) := by
  rw [simpleTurn, load_progress hapart le_rfl hi, ← writeWords_progress]
  rfl

/-- **One turn of the pipelined loop**: four blocks. -/
theorem pipelineTurn_progress (hlength : length < 2 ^ 31) {i : Nat} (hi : i < length / 16 / 4) :
    b.pipelineTurn inp out (b.progress m inp out (4 * i)) i = b.progress m inp out (4 * (i + 1)) := by
  have hindex : ∀ k < 4, (i * 4 + k) % 2 ^ 32 = 4 * i + k := by
    intro k hk
    rw [Nat.mul_comm i 4]
    exact Nat.mod_eq_of_lt (by omega)
  have hloads : ∀ k ∈ List.range 4, loadu (b.progress m inp out (4 * i)) (inp + 16 * ((i * 4 + k) % 2 ^ 32))
      = loadu m (inp + 16 * (4 * i + k)) := by
    intro k hk
    rw [List.mem_range] at hk
    rw [hindex k hk, load_progress hapart (Nat.le_add_right ..) (by omega)]
  have hplaces : ∀ k < 4, out + 16 * ((i * 4 + k) % 2 ^ 32) = out + 16 * (4 * i) + 16 * k := by
    intro k hk
    rw [hindex k hk, Nat.mul_add, Nat.add_assoc]
  rw [pipelineTurn]
  simp only [foldl_map_eq, List.map_map]
  rw [List.map_congr_left fun k hk => by
      rw [Function.comp_apply, Function.comp_apply, Function.comp_apply, hloads k hk],
    foldl_storeu _ _ hplaces, Nat.mul_succ, ← writeWords_progress]
  congr 1

/-- The pipelined loop. -/
theorem pipeline_loop (hlength : length < 2 ^ 31) {n : Nat} (hn : n ≤ length / 16 / 4) :
    (List.range n).foldl (b.pipelineTurn inp out) m = b.progress m inp out (4 * n) := by
  induction n with
  | zero => rfl
  | succ n ih =>
      rw [List.range_succ, List.foldl_append, ih (Nat.le_of_succ_le hn), List.foldl_cons, List.foldl_nil,
        pipelineTurn_progress hapart hlength hn]

/-- The loop without pipeline. -/
theorem simple_loop {i n : Nat} (hn : i + n ≤ length / 16) :
    (List.range' i n).foldl (b.simpleTurn inp out) (b.progress m inp out i) = b.progress m inp out (i + n) := by
  induction n with
  | zero => rfl
  | succ n ih =>
      rw [List.range'_1_concat, List.foldl_append, ih (Nat.le_of_succ_le hn), List.foldl_cons, List.foldl_nil,
        simpleTurn_progress hapart (show i + n < length / 16 from hn), Nat.add_assoc]

theorem augmentedBlock_progress :
    augmentedBlock (b.progress m inp out (length / 16)) inp length = augmentedBlock m inp length := by
  refine congrArg (BitVec.ofNat 128) (Mem.readLE_congr fun t ht => ?_)
  unfold Mem.copy
  split
  · exact progress_apply hapart (by omega) (by omega)
  · rfl

/-- **What the call does**: all blocks, and the last one filled up. -/
theorem aesEcbEncrypt_eq (hlength : length < 2 ^ 31) :
    b.aesEcbEncrypt m inp out length =
      some (if length % 16 = 0 then b.progress m inp out (length / 16)
        else storeu (b.progress m inp out (length / 16)) (out + 16 * (length / 16))
          (b.aesSimpleRounds (augmentedBlock m inp length)), roundUp length) := by
  have hblocks : length / 16 / 4 * 4 + (length / 16 - length / 16 / 4 * 4) = length / 16 :=
    Nat.add_sub_cancel' (Nat.div_mul_le_self ..)
  have hmain := pipeline_loop (b := b) (m := m) hapart hlength le_rfl
  have hrest := simple_loop (b := b) (m := m) hapart hblocks.le
  rw [hblocks] at hrest
  rw [aesEcbEncrypt, if_neg (by omega)]
  dsimp only
  rw [hmain, Nat.mul_comm 4, hrest, augmentedBlock_progress hapart]
  by_cases hwhole : length % 16 = 0
  · have hround : roundUp length = length := by
      unfold roundUp
      omega
    rw [if_neg (not_not.mpr hwhole), if_pos hwhole, hround]
  · have hround : roundUp length = (length / 16 + 1) * 16 := by
      unfold roundUp
      omega
    rw [if_pos hwhole, if_neg hwhole, hround]

end Turns

/-- A block is 16 bytes. -/
theorem toNat_mod_block (v : BitVec 128) : v.toNat % 256 ^ 16 = v.toNat := Nat.mod_eq_of_lt v.isLt

theorem loadu_storeu (m : Mem) (a : Nat) (v : BitVec 128) : loadu (storeu m a v) a = v := by
  rw [loadu, storeu, Mem.readLE_writeLE, toNat_mod_block, BitVec.ofNat_toNat, BitVec.setWidth_eq]

theorem loadu_storeu_disjoint {m : Mem} {a c : Nat} (v : BitVec 128) (h : a + 16 ≤ c ∨ c + 16 ≤ a) :
    loadu (storeu m a v) c = loadu m c :=
  congrArg (BitVec.ofNat 128) (Mem.readLE_writeLE_disjoint _ h)

theorem loadu_progress {m : Mem} {inp out i j : Nat} (h : j < i) :
    loadu (b.progress m inp out i) (out + 16 * j) = b.aesSimpleRounds (loadu m (inp + 16 * j)) := by
  have hj : j < ((List.range i).map fun j => (b.aesSimpleRounds (loadu m (inp + 16 * j))).toNat).length := by
    rwa [List.length_map, List.length_range]
  rw [loadu, progress, Mem.readLE_writeWords hj, List.getElem_map, List.getElem_range,
    toNat_mod_block, BitVec.ofNat_toNat, BitVec.setWidth_eq]

/-- **`AES_ECB_encrypt` is plain ECB**, for a buffer that is encrypted in place and for buffers without a common
    byte. -/
theorem aes_ecb_encrypt_plain (b : AesNiBackend) (m : Mem) (inp out length : Nat) (hlength : length < 2 ^ 31)
    (hapart : inp = out ∨ inp + length ≤ out ∨ out + roundUp length ≤ inp) :
    ∃ m', b.aesEcbEncrypt m inp out length = some (m', roundUp length) ∧
      (∀ i < length / 16, loadu m' (out + 16 * i) = b.aesSimpleRounds (loadu m (inp + 16 * i))) ∧
      (length % 16 ≠ 0 →
        loadu m' (out + 16 * (length / 16)) = b.aesSimpleRounds (augmentedBlock m inp length)) ∧
      ∀ x, x < out ∨ out + roundUp length ≤ x → m' x = m x := by
  refine ⟨_, aesEcbEncrypt_eq hapart hlength, fun i hi => ?_, fun hpart => ?_, fun x hx => ?_⟩
  · split
    · exact b.loadu_progress hi
    · rw [loadu_storeu_disjoint _ (by omega)]
      exact b.loadu_progress hi
  · rw [if_neg hpart]
    exact loadu_storeu ..
  · have hprogress : b.progress m inp out (length / 16) x = m x := by
      refine Mem.writeWords_apply_disjoint _ ?_
      rw [List.length_map, List.length_range]
      unfold roundUp at hx
      omega
    split
    · exact hprogress
    · rw [storeu, Mem.writeLE, if_neg, hprogress]
      unfold roundUp at hx
      omega

/-- Instructions that xor, a key schedule that counts. -/
def xorBackend : AesNiBackend where
  instructions := { aesenc := fun data key => data ^^^ key, aesenclast := fun data key => data ^^^ key }
  keySchedule := fun j => BitVec.ofNat 128 j
  encryptionRounds := 10

/-- 70 bytes in place: four blocks in the pipeline, and a block with six bytes. -/
theorem aes_ecb_encrypt_in_place :
    ∃ m', xorBackend.aesEcbEncrypt (fun x => BitVec.ofNat 8 x) 0 0 70 = some (m', 80) ∧
      (∀ i < 4, loadu m' (0 + 16 * i) = xorBackend.aesSimpleRounds (loadu (fun x => BitVec.ofNat 8 x) (0 + 16 * i))) ∧
      (70 % 16 ≠ 0 → loadu m' (0 + 16 * 4)
        = xorBackend.aesSimpleRounds (augmentedBlock (fun x => BitVec.ofNat 8 x) 0 70)) ∧
      ∀ x, x < 0 ∨ 0 + 80 ≤ x → m' x = BitVec.ofNat 8 x :=
  aes_ecb_encrypt_plain xorBackend (fun x => BitVec.ofNat 8 x) 0 0 70 (by decide) (.inl rfl)

/-! ## The engine -/

/-- A buffer holds a list of blocks. -/
def BlocksAt (m : Mem) (a : Nat) (blocks : List (BitVec 128)) : Prop :=
  ∀ i < blocks.length, loadu m (a + 16 * i) = blocks.getD i 0

/-- A length that is not negative stays what it is, any other is too large for the loop. -/
theorem encryptedBlocks_cases (count : Nat) :
    (encryptedBlocks count = none ∧ 2 ^ 63 ≤ ((BitVec.ofNat 32 (16 * count)).signExtend 64).toNat) ∨
      ∃ n, encryptedBlocks count = some n ∧ 16 * n < 2 ^ 31 ∧
        ((BitVec.ofNat 32 (16 * count)).signExtend 64).toNat = 16 * n := by
  have hnat : (BitVec.ofNat 32 (16 * count)).toNat = 16 * count % 2 ^ 32 := BitVec.toNat_ofNat ..
  have hint := BitVec.toInt_eq_toNat_cond (BitVec.ofNat 32 (16 * count))
  have hwide := BitVec.toNat_signExtend (BitVec.ofNat 32 (16 * count)) (v := 64)
  rw [BitVec.msb_eq_decide, BitVec.toNat_setWidth, hnat, Nat.mod_eq_of_lt (by omega : 16 * count % 2 ^ 32 < 2 ^ 64)]
    at hwide
  rw [hnat] at hint
  rw [encryptedBlocks, hwide]
  by_cases hneg : 2 ^ 31 ≤ 16 * count % 2 ^ 32
  · refine .inl ⟨if_pos ?_, ?_⟩
    · rw [if_neg (by omega)] at hint
      omega
    · rw [if_pos (decide_eq_true hneg)]
      omega
  · refine .inr ⟨16 * count % 2 ^ 32 / 16, ?_, by omega, ?_⟩
    · rw [if_pos (by omega)] at hint
      rw [hint, if_neg (by omega), Int.toNat_natCast]
    · rw [if_neg (by simpa using hneg)]
      omega

/-- Blocks behind those that are encrypted. -/
theorem loadu_progress_behind {m : Mem} {inp out i j : Nat} (h : i ≤ j) :
    loadu (b.progress m inp out i) (out + 16 * j) = loadu m (out + 16 * j) := by
  refine congrArg (BitVec.ofNat 128) (Mem.readLE_congr fun t ht => Mem.writeWords_apply_disjoint _ (.inr ?_))
  rw [List.length_map, List.length_range]
  omega

/-- **The engine encrypts the blocks that a buffer holds** as `aesEncrypt` says, and does not return when that is
    undefined. -/
theorem aesEncrypt_refines {m : Mem} {a : Nat} {blocks : List (BitVec 128)} (h : BlocksAt m a blocks) :
    match aesEncrypt b.aesSimpleRounds blocks with
    | none           => b.encrypt m a (BitVec.ofNat 32 (16 * blocks.length)) a = none
    | some encrypted => ∃ m' count, b.encrypt m a (BitVec.ofNat 32 (16 * blocks.length)) a = some (m', count) ∧
        BlocksAt m' a encrypted := by
  rcases encryptedBlocks_cases blocks.length with ⟨hnone, hlong⟩ | ⟨n, hn, hshort, hlength⟩
  · rw [aesEncrypt, hnone]
    show b.encrypt m a _ a = none
    rw [encrypt, aesEcbEncrypt, if_pos (by omega)]
    rfl
  · cases hencrypted : aesEncrypt b.aesSimpleRounds blocks with
    | none =>
        rw [aesEncrypt, hn] at hencrypted
        cases hencrypted
    | some encrypted =>
        obtain ⟨n', hn', hcount, hblocks⟩ := getD_aesEncrypt hencrypted
        obtain rfl : n' = n := Option.some.inj (hn'.symm.trans hn)
        refine ⟨b.progress m a a n', BitVec.ofNat 32 (16 * n'), ?_, fun i hi => ?_⟩
        · have hwhole : roundUp (16 * n') = 16 * n' := by
            unfold roundUp
            omega
          rw [encrypt, hlength, aesEcbEncrypt_eq (.inl rfl) hshort, if_pos (Nat.mul_mod_right ..),
            Nat.mul_div_cancel_left _ (by decide), hwhole]
          rfl
        · rw [hcount] at hi
          rw [hblocks i hi, ← h i hi]
          split
          · rename_i hlt
            exact b.loadu_progress hlt
          · rename_i hge
            exact b.loadu_progress_behind (Nat.le_of_not_lt hge)

end AesNiBackend

end Pnm.Secure
