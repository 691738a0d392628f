import Mathlib.Tactic.Ring
import Pnm.Lib.Runs
import Pnm.Secure.Pads

/-!
# `Secure.Engines` — encryption, checksums and sums of pads

The model of `sls_engine.h` and `sls_mac.h` for 32-bit elements. Rows are read from buffers; both engines have a key of
their own, hence a cipher of their own. The checksum folds over a row and squares its key on the way: it is the
weighted sum of the row with weights that do not depend on the row (`linearChecksum_eq`), and so is linear as long as
no element wraps.
-/

namespace Pnm.Secure

open Pnm.Lib

/-- What ends a call: an exception of the library, a trap (a division by zero or an access outside a buffer), or
    the bound on the turns of a loop of the model. -/
inductive Fault where
  | invalidArguments (text : String)
  | trap
  | outOfFuel
deriving DecidableEq

/-- A result that is missing is a trap. -/
def orTrap {α : Type} : Option α → Except Fault α
  | some a => .ok a
  | none   => .error .trap

@[simp] theorem orTrap_eq_ok {α : Type} {o : Option α} {a : α} : orTrap o = .ok a ↔ o = some a := by
  cases o <;> simp [orTrap]

/-- `EncryptionEngine`. -/
structure EncryptionEngine where
  version : BitVec 32
  aes : Cipher

namespace EncryptionEngine

variable (g : EncryptionEngine)

/-- Element `e` of the pads from an address on. -/
def padWord (address : BitVec 64) (e : Nat) : BitVec 32 :=
  wordOf (generateOtp g.aes 0x00 g.version (address + BitVec.ofNat 64 (16 * (e / 4)))) (e % 4)

/-- `encrypt`: subtract the pads from `count` elements. The second part of the result is the size in bytes. -/
def encrypt (row : Words) (count : Nat) (offset : BitVec 64) : Except Fault (Words × BitVec 64) :=
  if count % 4 = 0 then .ok (fun e => row e - g.padWord offset e, BitVec.ofNat 64 (16 * (count / 4)))
  else .error (.invalidArguments "The range should contain integral number of OTP.")

/-- `offset_transform_reduce_vec`: add the pads of all addresses to `count` elements. -/
def offsetTransformReduceVec (addresses : List (BitVec 64)) (count : Nat) (init : Words) : Except Fault Words := do
  let buffer ← orTrap (generateOtpVec g.aes 0x00 g.version addresses (count / 4))
  .ok fun e => (List.range addresses.length).foldl
    (fun sum k => sum + wordOf (buffer.getD (k * (count / 4) + e / 4) 0) (e % 4)) (init e)

/-- `decrypt_psum`: add the sums of the pads. -/
def decryptPsum (row otpSum : Words) : Words := fun e => row e + otpSum e

/-- **The sums of pads**: `init` plus a pad for each address, encrypted as far as the buffer was. -/
theorem offsetTransformReduceVec_eq {addresses : List (BitVec 64)} {count : Nat} (hcount : count % 4 = 0)
    {init out : Words} (h : g.offsetTransformReduceVec addresses count init = .ok out) :
    ∃ n, encryptedBlocks (addresses.length * (count / 4)) = some n ∧ ∀ e < count, out e = init e +
      ((List.range addresses.length).map fun k => wordOf (padBlock g.aes 0x00 g.version
        (decide (k * (count / 4) + e / 4 < n)) (addresses.getD k 0 + BitVec.ofNat 64 (16 * (e / 4)))) (e % 4)).sum := by
  obtain ⟨buffer, hbuffer, hout⟩ := bind_eq_ok.mp h
  obtain rfl := Except.ok.inj hout
  obtain ⟨n, hn, -, hpads⟩ := getD_generateOtpVec (orTrap_eq_ok.mp hbuffer)
  refine ⟨n, hn, fun e he => ?_⟩
  show (List.range addresses.length).foldl _ _ = _
  rw [foldl_add_eq]
  congr 2
  refine List.map_congr_left fun k hk => ?_
  rw [hpads k (List.mem_range.mp hk) (e / 4) (by omega)]

/-- The size of a buffer with the pads of `l` addresses, by blocks and by elements. -/
theorem padBytes_eq {count : Nat} (hcount : count % 4 = 0) (l : Nat) : 16 * (l * (count / 4)) = 4 * (l * count) := by
  calc 16 * (l * (count / 4)) = 4 * (l * (4 * (count / 4))) := by ring
    _ = 4 * (l * count) := by rw [Nat.mul_div_cancel' (Nat.dvd_of_mod_eq_zero hcount)]

/-- **With fewer than `2 ^ 31` bytes of pads all of them are encrypted.** -/
theorem offsetTransformReduceVec_of_lt {addresses : List (BitVec 64)} {count : Nat} (hcount : count % 4 = 0)
    (hsize : 4 * (addresses.length * count) < 2 ^ 31) (init : Words) :
    ∃ out, g.offsetTransformReduceVec addresses count init = .ok out ∧
      ∀ e < count, out e = init e + (addresses.map fun address => g.padWord address e).sum := by
  have hblocks : 16 * (addresses.length * (count / 4)) < 2 ^ 31 := (padBytes_eq hcount _).trans_lt hsize
  obtain ⟨buffer, hbuffer⟩ := generateOtpVec_isSome g.aes 0x00 g.version hblocks
  obtain ⟨out, hout⟩ : ∃ out, g.offsetTransformReduceVec addresses count init = .ok out :=
    ⟨_, bind_eq_ok.mpr ⟨buffer, orTrap_eq_ok.mpr hbuffer, rfl⟩⟩
  obtain ⟨n, hn, hsum⟩ := g.offsetTransformReduceVec_eq hcount hout
  rw [encryptedBlocks_of_lt hblocks] at hn
  obtain rfl := Option.some.inj hn
  refine ⟨out, hout, fun e he => ?_⟩
  rw [hsum e he, ← sum_map_range_getD _ addresses 0]
  congr 2
  refine List.map_congr_left fun k hk => ?_
  rw [decide_eq_true (row_add_lt (List.mem_range.mp hk) (by omega)), padBlock, if_pos rfl, padWord]

end EncryptionEngine

/-! ## Checksums and tags -/

/-- `VerificationEngine`. -/
structure VerificationEngine where
  version : BitVec 32
  baseAddress : BitVec 64
  aes : Cipher

namespace VerificationEngine

variable (v : VerificationEngine)

/-- `Q`, the Mersenne number `2 ^ 127 - 1`. -/
def Q : BitVec 128 := (1#128 <<< 127) - 1#128

/-- The key of the checksum. -/
def checksumKey : BitVec 128 := generateOtp v.aes 0x01 v.version v.baseAddress

/-- The body of the fold in `linear_checksum`: the sum so far and the current power of the key. -/
def checksumStep (st : BitVec 128 × BitVec 128) (e : BitVec 32) : BitVec 128 × BitVec 128 :=
  (st.1 + st.2 * e.setWidth 128, (st.2 * st.2) % Q)

/-- `linear_checksum` of `count` elements. -/
def linearChecksum (row : Words) (count : Nat) : BitVec 128 :=
  ((List.range count).foldl (fun st e => checksumStep st (row e)) (0, v.checksumKey)).1

/-- `generate_mac`. -/
def generateMac (row : Words) (count : Nat) (address : BitVec 64) : BitVec 128 :=
  v.linearChecksum row count - generateOtp v.aes 0x10 v.version address

/-- `offset_transform_reduce_vec`: the sum of the tag pads of all addresses. -/
def offsetTransformReduceVec (addresses : List (BitVec 64)) : Except Fault (BitVec 128) := do
  let buffer ← orTrap (generateOtpVec v.aes 0x10 v.version addresses 1)
  .ok (buffer.foldl (fun sum otp => sum + otp) 0)

/-- `validate_psum`. -/
def validatePsum (row : Words) (count : Nat) (computedTagSum generatedTagSum : BitVec 128) : Bool :=
  v.linearChecksum row count == computedTagSum + generatedTagSum

/-- The weight of element `j`: the key, squared and reduced `j` times. -/
def weight : Nat → BitVec 128
  | 0     => v.checksumKey
  | j + 1 => (weight j * weight j) % Q

/-- The sum of `count` numbers with the weights of the checksum. -/
def weighted (count : Nat) (x : Nat → BitVec 128) : BitVec 128 :=
  ((List.range count).map fun j => v.weight j * x j).sum

/-- **The checksum is a weighted sum.** -/
theorem linearChecksum_eq (row : Words) (count : Nat) :
    v.linearChecksum row count = v.weighted count fun j => (row j).setWidth 128 := by
  have hfold : (List.range count).foldl (fun st e => checksumStep st (row e)) (0, v.checksumKey)
      = (v.weighted count fun j => (row j).setWidth 128, v.weight count) := by
    induction count with
    | zero => rfl
    | succ count ih =>
        rw [List.range_succ, List.foldl_append, ih, List.foldl_cons, List.foldl_nil, checksumStep, weighted, weighted,
          List.range_succ, List.map_append, List.sum_append, List.map_singleton, List.sum_singleton, weight]
  rw [linearChecksum, hfold]

/-- The weighted sum is linear. -/
theorem weighted_sum {α : Type} (count : Nat) (rows : List α) (x : α → Nat → BitVec 128) :
    (rows.map fun r => v.weighted count (x r)).sum = v.weighted count fun j => (rows.map fun r => x r j).sum := by
  induction rows with
  | nil => simp [weighted]
  | cons r rows ih =>
      rw [List.map_cons, List.sum_cons, ih, weighted, weighted, weighted, ← List.sum_map_add]
      simp only [List.map_cons, List.sum_cons, mul_add]

theorem weighted_congr {count : Nat} {x y : Nat → BitVec 128} (h : ∀ j < count, x j = y j) :
    v.weighted count x = v.weighted count y := by
  unfold weighted
  congr 1
  exact List.map_congr_left fun j hj => by rw [h j (List.mem_range.mp hj)]

/-- A checksum depends on the elements of the row only. -/
theorem linearChecksum_congr {row row' : Words} {count : Nat} (h : ∀ e < count, row e = row' e) :
    v.linearChecksum row count = v.linearChecksum row' count := by
  rw [v.linearChecksum_eq, v.linearChecksum_eq, v.weighted_congr fun j hj => by rw [h j hj]]

/-- The pads of the tags, encrypted as far as the buffer was. -/
theorem offsetTransformReduceVec_eq {addresses : List (BitVec 64)} {out : BitVec 128}
    (h : v.offsetTransformReduceVec addresses = .ok out) :
    ∃ n, encryptedBlocks addresses.length = some n ∧ out = ((List.range addresses.length).map fun k =>
      padBlock v.aes 0x10 v.version (decide (k < n)) (addresses.getD k 0)).sum := by
  obtain ⟨buffer, hbuffer, hout⟩ := bind_eq_ok.mp h
  obtain rfl := Except.ok.inj hout
  obtain ⟨n, hn, hlength, hpads⟩ := getD_generateOtpVec (orTrap_eq_ok.mp hbuffer)
  rw [Nat.mul_one] at hn hlength
  refine ⟨n, hn, ?_⟩
  rw [foldl_add_eq (fun otp => otp), zero_add, ← sum_map_range_getD _ buffer 0, hlength]
  congr 1
  refine List.map_congr_left fun k hk => ?_
  have hpad := hpads k (List.mem_range.mp hk) 0 (by decide)
  simpa using hpad

/-- With fewer than `2 ^ 31` bytes of pads all of them are encrypted. -/
theorem offsetTransformReduceVec_of_lt {addresses : List (BitVec 64)} (hsize : 16 * addresses.length < 2 ^ 31) :
    v.offsetTransformReduceVec addresses
      = .ok (addresses.map fun address => generateOtp v.aes 0x10 v.version address).sum := by
  obtain ⟨buffer, hbuffer⟩ := generateOtpVec_isSome v.aes 0x10 v.version
    (show 16 * (addresses.length * 1) < 2 ^ 31 by omega)
  obtain ⟨out, hout⟩ : ∃ out, v.offsetTransformReduceVec addresses = .ok out :=
    ⟨_, bind_eq_ok.mpr ⟨buffer, orTrap_eq_ok.mpr hbuffer, rfl⟩⟩
  obtain ⟨n, hn, hsum⟩ := v.offsetTransformReduceVec_eq hout
  rw [encryptedBlocks_of_lt hsize] at hn
  obtain rfl := Option.some.inj hn
  rw [hout, hsum, ← sum_map_range_getD _ addresses 0]
  congr 2
  refine List.map_congr_left fun k hk => ?_
  rw [decide_eq_true (List.mem_range.mp hk), padBlock, if_pos rfl]

end VerificationEngine

end Pnm.Secure
