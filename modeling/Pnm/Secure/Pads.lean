import Mathlib.Data.BitVec
import Pnm.Lib.Buffer

/-!
# `Secure.Pads` — one-time pads and their sums

The model of `secure/encryption/AES/sls_extra.h` and `AES/crypto.h`, with the block cipher as any function on 16-byte
blocks. A block is a 128-bit number in the byte order of the host; `wordOf` and `blockAt` go between blocks and the
32-bit elements.

`AES_Engine::encrypt` hands the size of its buffer to a backend that takes an `int`. A size of `2 ^ 31` or more is
either negative there, and the backend runs off the buffer, or too small, and the end of the buffer stays as it is;
`aesEncrypt` keeps both.
-/

namespace Pnm.Secure

open Pnm.Lib

/-- A block cipher. -/
abbrev Cipher := BitVec 128 → BitVec 128

/-- The elements of a buffer. -/
abbrev Words := Nat → BitVec 32

/-- `prepare_otp`: version, address and prefix, from the low bytes on. -/
def seed (pfx version : BitVec 32) (address : BitVec 64) : BitVec 128 := pfx ++ address ++ version

/-- The seed determines its three parts. -/
theorem seed_inj {pfx pfx' version version' : BitVec 32} {address address' : BitVec 64}
    (h : seed pfx version address = seed pfx' version' address') :
    pfx = pfx' ∧ version = version' ∧ address = address' := by
  unfold seed at h
  have hhigh := congrArg (BitVec.extractLsb' 32 96) h
  have hversion := congrArg (BitVec.extractLsb' 0 32) h
  rw [BitVec.extractLsb'_append_eq_left, BitVec.extractLsb'_append_eq_left] at hhigh
  rw [BitVec.extractLsb'_append_eq_right, BitVec.extractLsb'_append_eq_right] at hversion
  have hpfx := congrArg (BitVec.extractLsb' 64 32) hhigh
  have haddress := congrArg (BitVec.extractLsb' 0 64) hhigh
  rw [BitVec.extractLsb'_append_eq_left, BitVec.extractLsb'_append_eq_left] at hpfx
  rw [BitVec.extractLsb'_append_eq_right, BitVec.extractLsb'_append_eq_right] at haddress
  exact ⟨hpfx, hversion, haddress⟩

/-- Element `j` of a block. -/
def wordOf (b : BitVec 128) (j : Nat) : BitVec 32 := b.extractLsb' (32 * j) 32

/-- The block made of the four elements from `a` on. -/
def blockAt (m : Words) (a : Nat) : BitVec 128 := m (a + 3) ++ m (a + 2) ++ m (a + 1) ++ m a

/-- A block read from its elements. -/
theorem blockAt_eq {m : Words} {a : Nat} {b : BitVec 128} (h : ∀ j < 4, m (a + j) = wordOf b j) : blockAt m a = b := by
  have h0 := h 0 (by decide)
  rw [Nat.add_zero] at h0
  unfold blockAt
  rw [h 3 (by decide), h 2 (by decide), h 1 (by decide), h0]
  refine BitVec.eq_of_getLsbD_eq fun k hk => ?_
  simp only [BitVec.getLsbD_append, wordOf, BitVec.getLsbD_extractLsb']
  split
  · rename_i h1
    simp [h1]
  · split
    · rename_i h1 h2
      simp only [h2, decide_true, Bool.true_and]
      congr 1
      omega
    · split
      · rename_i h1 h2 h3
        simp only [h3, decide_true, Bool.true_and]
        congr 1
        omega
      · rename_i h1 h2 h3
        simp only [show k - 32 - 32 - 32 < 32 by omega, decide_true, Bool.true_and]
        congr 1
        omega

/-- A block depends on its four elements only. -/
theorem blockAt_congr {m m' : Words} {a : Nat} (h : ∀ j < 4, m (a + j) = m' (a + j)) : blockAt m a = blockAt m' a := by
  have h0 := h 0 (by decide)
  rw [Nat.add_zero] at h0
  unfold blockAt
  rw [h 3 (by decide), h 2 (by decide), h 1 (by decide), h0]

/-! ## Encrypting a buffer -/

/-- The number of blocks that `AES_NI_Backend::encrypt` encrypts when it is given a buffer of `count` blocks; `none` if
    the length is negative. -/
def encryptedBlocks (count : Nat) : Option Nat :=
  let length := (BitVec.ofNat 32 (16 * count)).toInt
  if length < 0 then none else some (length.toNat / 16)

/-- `AES_Engine::encrypt`, in place. -/
def aesEncrypt (aes : Cipher) (blocks : List (BitVec 128)) : Option (List (BitVec 128)) := do
  let n ← encryptedBlocks blocks.length
  some ((blocks.take n).map aes ++ blocks.drop n)

theorem encryptedBlocks_of_lt {count : Nat} (h : 16 * count < 2 ^ 31) : encryptedBlocks count = some count := by
  have hnat : (BitVec.ofNat 32 (16 * count)).toNat = 16 * count := by
    rw [BitVec.toNat_ofNat, Nat.mod_eq_of_lt (by omega)]
  have hint : (BitVec.ofNat 32 (16 * count)).toInt = (16 * count : Nat) := by
    rw [BitVec.toInt_eq_toNat_of_lt (by omega), hnat]
  rw [encryptedBlocks, hint, if_neg (by omega), Int.toNat_natCast, Nat.mul_div_cancel_left _ (by decide)]

/-- From `2 ^ 31` bytes on not all blocks are encrypted. -/
theorem encryptedBlocks_lt {count n : Nat} (h : 2 ^ 31 ≤ 16 * count) (hn : encryptedBlocks count = some n) :
    n < count := by
  have hcond := BitVec.toInt_eq_toNat_cond (BitVec.ofNat 32 (16 * count))
  rw [BitVec.toNat_ofNat] at hcond
  simp only [encryptedBlocks] at hn
  split at hn
  · exact absurd hn (by simp)
  · obtain rfl := Option.some.inj hn
    split at hcond <;> omega

/-- Block `k` of an encrypted buffer. -/
theorem getD_aesEncrypt {aes : Cipher} {blocks out : List (BitVec 128)} (h : aesEncrypt aes blocks = some out) :
    ∃ n, encryptedBlocks blocks.length = some n ∧ out.length = blocks.length ∧
      ∀ k < blocks.length, out.getD k 0 = if k < n then aes (blocks.getD k 0) else blocks.getD k 0 := by
  unfold aesEncrypt at h
  cases hn : encryptedBlocks blocks.length with
  | none =>
      rw [hn] at h
      exact absurd h (by simp)
  | some n =>
      rw [hn] at h
      obtain rfl := Option.some.inj h
      refine ⟨n, rfl, by simp; omega, fun k hk => ?_⟩
      rw [List.getD_eq_getElem?_getD, List.getD_eq_getElem?_getD]
      split
      · rename_i hkn
        rw [List.getElem?_append_left (by simp; omega)]
        simp [hkn, hk]
      · rename_i hkn
        rw [List.getElem?_append_right (by simp; omega), List.getElem?_drop]
        congr 2
        simp
        omega

theorem aesEncrypt_isSome {aes : Cipher} {blocks : List (BitVec 128)} (h : 16 * blocks.length < 2 ^ 31) :
    ∃ out, aesEncrypt aes blocks = some out := by
  rw [aesEncrypt, encryptedBlocks_of_lt h]
  exact ⟨_, rfl⟩

/-! ## Pads -/

/-- `generate_otp`. -/
def generateOtp (aes : Cipher) (pfx version : BitVec 32) (address : BitVec 64) : BitVec 128 :=
  aes (seed pfx version address)

/-- `generate_otp_vec`: `otpsCount` pads for each address, 16 bytes apart. -/
def generateOtpVec (aes : Cipher) (pfx version : BitVec 32) (addresses : List (BitVec 64)) (otpsCount : Nat) :
    Option (List (BitVec 128)) :=
  aesEncrypt aes (addresses.flatMap fun address =>
    (List.range otpsCount).map fun n => seed pfx version (address + BitVec.ofNat 64 (16 * n)))

/-- The pad that a buffer of pads holds for an address: encrypted if the buffer was encrypted that far. -/
def padBlock (aes : Cipher) (pfx version : BitVec 32) (encrypted : Bool) (address : BitVec 64) : BitVec 128 :=
  if encrypted then generateOtp aes pfx version address else seed pfx version address

/-- **What a buffer of pads holds.** -/
theorem getD_generateOtpVec {aes : Cipher} {pfx version : BitVec 32} {addresses : List (BitVec 64)} {otpsCount : Nat}
    {out : List (BitVec 128)} (h : generateOtpVec aes pfx version addresses otpsCount = some out) :
    ∃ n, encryptedBlocks (addresses.length * otpsCount) = some n ∧ out.length = addresses.length * otpsCount ∧
      ∀ k < addresses.length, ∀ q < otpsCount, out.getD (k * otpsCount + q) 0
        = padBlock aes pfx version (decide (k * otpsCount + q < n))
          (addresses.getD k 0 + BitVec.ofNat 64 (16 * q)) := by
  obtain ⟨n, hn, hlength, hout⟩ := getD_aesEncrypt h
  rw [length_flatMap_range] at hn hlength
  refine ⟨n, hn, hlength, fun k hk q hq => ?_⟩
  rw [hout _ (by rw [length_flatMap_range]; exact row_add_lt hk hq), getD_flatMap_range _ _ _ hk hq 0, padBlock,
    generateOtp]
  simp only [decide_eq_true_iff]

theorem generateOtpVec_isSome (aes : Cipher) (pfx version : BitVec 32) {addresses : List (BitVec 64)} {otpsCount : Nat}
    (h : 16 * (addresses.length * otpsCount) < 2 ^ 31) :
    ∃ out, generateOtpVec aes pfx version addresses otpsCount = some out :=
  aesEncrypt_isSome (by rw [length_flatMap_range]; exact h)

end Pnm.Secure
