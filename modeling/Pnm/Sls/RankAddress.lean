import Mathlib.Data.BitVec
import Mathlib.Data.Set.Function
import Mathlib.Data.Set.Lattice
import Mathlib.Logic.Equiv.Basic
import Mathlib.Order.CompletePartialOrder
import Pnm.Lib.BitField
import Pnm.Lib.Interleave

/-!
# `Sls.RankAddress` — from rank addresses to system addresses

The model of `interleaved_address` and `InterleavedPointer` (`core/device/sls/utils/rank_address.h`) with the
interleaving constants of `hw/pnm_sim_addr_constants.h`. Two home agents share the system address space in
blocks of 256 bytes; which of the two comes first in a stripe is hashed with bit 19 of the rank address.

`interleavedAddress_toNat` reads the shifts and masks as an instance of `Lib.Interleave`; what the source
promises about the map (`interleavedAddress_bijective`) is then read off the general lemmas.
-/

namespace Pnm.Sls

open Pnm.Lib

/-- `HA_XOR_BIT`. -/
def haXorBit : Nat := 19

/-- `HA_BIT_POS`. -/
def haBitPos : Nat := 8

/-- `HA_MASK`. -/
def haMask : BitVec 64 := 0b1

/-- `LOW_BIT_MASK` of `interleaved_address`. -/
def lowBitMask : BitVec 64 := (1 <<< haBitPos) - 1

/-- `cunit_to_ha`: even units belong to home agent 0, odd ones to home agent 1. -/
def cunitToHa (cunit : BitVec 8) : BitVec 8 := cunit &&& 0b1

/-- `interleaved_address`. -/
def interleavedAddress (rankAddress : BitVec 64) (ha : BitVec 8) : BitVec 64 :=
  let r16 := (rankAddress >>> haXorBit) &&& haMask
  -- `HA = r16 ^ HA` is converted back to `uint8_t`
  let ha := (r16 ^^^ ha.setWidth 64).setWidth 8
  let lowBits := rankAddress &&& lowBitMask
  let hiBits := rankAddress &&& ~~~lowBitMask
  (hiBits <<< 1) ||| (ha.setWidth 64 <<< haBitPos) ||| lowBits

/-! ## The map as an interleaving -/

/-- Two home agents in blocks of 256 bytes, exchanged where bit 19 of the rank address is set. -/
abbrev homeAgents : Interleaving where
  block := 256
  ways := 2
  block_pos := by decide
  slot q := if q / 2 ^ 11 % 2 = 1 then Equiv.swap 0 1 else Equiv.refl _

theorem homeAgents_slot (q : Nat) (h : Fin 2) :
    (homeAgents.slot q h : Nat) = (q / 2 ^ 11 % 2) ^^^ h := by
  have hbit : q / 2 ^ 11 % 2 = 0 ∨ q / 2 ^ 11 % 2 = 1 := by omega
  unfold homeAgents
  dsimp only
  rcases hbit with hbit | hbit <;> rw [hbit] <;> revert h <;> decide

theorem homeAgents_address (r : Nat) (h : Fin 2) :
    homeAgents.address r h = (2 * (r / 256) + ((r / 2 ^ 19 % 2) ^^^ h)) * 256 + r % 256 := by
  have hslot := homeAgents_slot (r / 256) h
  rw [Nat.div_div_eq_div_mul] at hslot
  unfold Interleaving.address
  exact congrArg (fun s => (2 * (r / 256) + s) * 256 + r % 256) hslot

theorem getLsbD_lowBitMask (j : Nat) : lowBitMask.getLsbD j = decide (j < 8) :=
  Nat.testBit_two_pow_sub_one 8 j

/-- The bits from 8 on, moved up by one place; the topmost one is lost. -/
theorem hiBits_toNat (r : BitVec 64) :
    ((r &&& ~~~lowBitMask) <<< 1).toNat = 2 ^ 9 * (r.toNat % 2 ^ 63 / 256) := by
  refine Nat.eq_of_testBit_eq fun i => ?_
  rw [show 256 = 2 ^ 8 from rfl, Nat.testBit_two_pow_mul, Nat.testBit_div_two_pow, Nat.testBit_mod_two_pow,
    BitVec.testBit_toNat, BitVec.getLsbD_shiftLeft, BitVec.getLsbD_and, BitVec.getLsbD_not, getLsbD_lowBitMask]
  by_cases hi : 9 ≤ i ∧ i < 64
  · have hpos : i - 9 + 8 = i - 1 := by omega
    rw [hpos, BitVec.testBit_toNat]
    simp [hi, show ¬ i < 1 by omega, show i - 1 < 64 by omega, show ¬ i - 1 < 8 by omega, show i - 1 < 63 by omega]
  · by_cases h9 : 9 ≤ i
    · simp [show ¬ i < 64 by omega, show ¬ i - 9 + 8 < 63 by omega]
    · simp [h9, show i - 1 < 8 by omega]

theorem lowBits_toNat (r : BitVec 64) : (r &&& lowBitMask).toNat = r.toNat % 256 :=
  Nat.and_two_pow_sub_one_eq_mod r.toNat 8

/-- The home agent bit after hashing. -/
theorem hashed_toNat (r : BitVec 64) {ha : BitVec 8} (hha : ha.toNat < 2) :
    (((r >>> haXorBit) &&& haMask ^^^ ha.setWidth 64).setWidth 8).toNat = (r.toNat / 2 ^ 19 % 2) ^^^ ha.toNat := by
  have hbit : ((r >>> haXorBit) &&& haMask).toNat = r.toNat / 2 ^ 19 % 2 := bitField_one r.toNat 19
  have hle : (r.toNat / 2 ^ 19 % 2) ^^^ ha.toNat ≤ 1 := xor_le_one (by omega) (by omega)
  have hwide : (ha.setWidth 64).toNat = ha.toNat := BitVec.toNat_setWidth_of_le (by decide)
  rw [BitVec.toNat_setWidth, BitVec.toNat_xor, hbit, hwide, Nat.mod_eq_of_lt (by omega)]

/-- **The shifts and masks compute the interleaving.** Bit 63 of the rank address does not count. -/
theorem interleavedAddress_toNat (r : BitVec 64) {ha : BitVec 8} (hha : ha.toNat < 2) :
    (interleavedAddress r ha).toNat = homeAgents.address (r.toNat % 2 ^ 63) ⟨ha.toNat, hha⟩ := by
  have hhash := hashed_toNat r hha
  have hle : (r.toNat / 2 ^ 19 % 2) ^^^ ha.toNat ≤ 1 := xor_le_one (by omega) (by omega)
  have hmid : ((((r >>> haXorBit) &&& haMask ^^^ ha.setWidth 64).setWidth 8).setWidth 64 <<< haBitPos).toNat
      = 2 ^ 8 * ((r.toNat / 2 ^ 19 % 2) ^^^ ha.toNat) := by
    rw [BitVec.toNat_shiftLeft, BitVec.toNat_setWidth, hhash, Nat.shiftLeft_eq, haBitPos]
    omega
  unfold interleavedAddress
  dsimp only
  rw [BitVec.toNat_or, BitVec.toNat_or, hiBits_toNat, hmid, lowBits_toNat, Nat.lor_assoc,
    ← Nat.two_pow_add_eq_or_of_lt (show r.toNat % 256 < 2 ^ 8 by omega),
    ← Nat.two_pow_add_eq_or_of_lt (by omega), homeAgents_address]
  have hbit : r.toNat % 2 ^ 63 / 2 ^ 19 % 2 = r.toNat / 2 ^ 19 % 2 := by omega
  rw [hbit]
  dsimp only
  omega

/-! ## What the map promises -/

section Promises

variable {r r' : BitVec 64} {ha ha' : BitVec 8}

/-- A system address determines the home agent and, up to bit 63, the rank address. -/
theorem interleavedAddress_inj (hha : ha.toNat < 2) (hha' : ha'.toNat < 2)
    (heq : interleavedAddress r ha = interleavedAddress r' ha') :
    r.toNat % 2 ^ 63 = r'.toNat % 2 ^ 63 ∧ ha = ha' := by
  have hnat := congrArg BitVec.toNat heq
  rw [interleavedAddress_toNat r hha, interleavedAddress_toNat r' hha'] at hnat
  obtain ⟨hr, hh⟩ := Interleaving.address_inj hnat
  exact ⟨hr, BitVec.eq_of_toNat_eq (Fin.mk.inj hh)⟩

/-- Below 2^62 the system addresses stay below 2^63. -/
theorem interleavedAddress_lt_iff (hr : r.toNat < 2 ^ 63) (hha : ha.toNat < 2) :
    (interleavedAddress r ha).toNat < 2 ^ 63 ↔ r.toNat < 2 ^ 62 := by
  rw [interleavedAddress_toNat r hha, Nat.mod_eq_of_lt hr]
  exact Interleaving.address_lt_iff (I := homeAgents) (n := 2 ^ 54)

/-- **Rank addresses inside one block stay contiguous.** -/
theorem interleavedAddress_add {k : Nat} (hk : r.toNat % 256 + k < 256) (hha : ha.toNat < 2) :
    interleavedAddress (r + BitVec.ofNat 64 k) ha = interleavedAddress r ha + BitVec.ofNat 64 k := by
  have hr := r.isLt
  have hsum : (r + BitVec.ofNat 64 k).toNat % 2 ^ 63 = r.toNat % 2 ^ 63 + k := by
    rw [BitVec.toNat_add, BitVec.toNat_ofNat]
    omega
  have hblock : homeAgents.address (r.toNat % 2 ^ 63 + k) ⟨ha.toNat, hha⟩
      = homeAgents.address (r.toNat % 2 ^ 63) ⟨ha.toNat, hha⟩ + k :=
    Interleaving.address_add (I := homeAgents) (show r.toNat % 2 ^ 63 % 256 + k < 256 by omega) _
  -- both sides are the same number below 2^64
  have hlt := (interleavedAddress (r + BitVec.ofNat 64 k) ha).isLt
  refine BitVec.eq_of_toNat_eq ?_
  rw [interleavedAddress_toNat _ hha, hsum, hblock] at hlt ⊢
  rw [BitVec.toNat_add, interleavedAddress_toNat r hha, BitVec.toNat_ofNat, Nat.mod_eq_of_lt (show k < 2 ^ 64 by omega),
    Nat.mod_eq_of_lt hlt]

theorem interleavedAddress_lt (hlt : r.toNat < r'.toNat) (hr' : r'.toNat < 2 ^ 63) (hha : ha.toNat < 2) :
    (interleavedAddress r ha).toNat < (interleavedAddress r' ha).toNat := by
  rw [interleavedAddress_toNat r hha, interleavedAddress_toNat r' hha, Nat.mod_eq_of_lt hr',
    Nat.mod_eq_of_lt (hlt.trans hr')]
  exact Interleaving.address_lt_address hlt _

/-- Every system address below 2^63 comes from a rank address below 2^62. -/
theorem exists_interleavedAddress {a : BitVec 64} (ha : a.toNat < 2 ^ 63) :
    ∃ (r : BitVec 64) (h : BitVec 8), (r.toNat < 2 ^ 62 ∧ h.toNat < 2) ∧ interleavedAddress r h = a := by
  obtain ⟨r, h, hrh⟩ := Interleaving.exists_address (I := homeAgents) (by decide) a.toNat
  have hr : r < 2 ^ 62 := by
    refine (Interleaving.address_lt_iff (I := homeAgents) (h := h) (n := 2 ^ 54)).mp ?_
    rw [hrh]
    exact ha
  have hrNat : (BitVec.ofNat 64 r).toNat = r := Nat.mod_eq_of_lt (by omega)
  have hhlt : h.val < 2 := h.isLt
  have hhNat : (BitVec.ofNat 8 h.val).toNat = h.val := Nat.mod_eq_of_lt (by omega)
  have hh : (BitVec.ofNat 8 h.val).toNat < 2 := by omega
  refine ⟨BitVec.ofNat 64 r, BitVec.ofNat 8 h.val, ⟨by omega, hh⟩, BitVec.eq_of_toNat_eq ?_⟩
  rw [interleavedAddress_toNat _ hh, hrNat, Nat.mod_eq_of_lt (by omega)]
  simpa only [hhNat] using hrh

end Promises

/-- The system addresses of a home agent's rank addresses below 2^62. -/
def systemAddresses (ha : BitVec 8) : Set (BitVec 64) :=
  Set.image (interleavedAddress · ha) {r | r.toNat < 2 ^ 62}

/-- **Rank interleaving is a bijection** from the rank addresses below 2^62 of two home agents onto the system
    addresses below 2^63. The images of the two home agents are disjoint and cover everything; for a fixed home
    agent the map is strictly increasing and keeps every 256-byte block contiguous. -/
theorem interleavedAddress_bijective :
    Set.BijOn (fun p : BitVec 64 × BitVec 8 => interleavedAddress p.1 p.2)
        {p | p.1.toNat < 2 ^ 62 ∧ p.2.toNat < 2} {a | a.toNat < 2 ^ 63} ∧
      Disjoint (systemAddresses 0) (systemAddresses 1) ∧
      systemAddresses 0 ∪ systemAddresses 1 = {a | a.toNat < 2 ^ 63} ∧
      (∀ ha : BitVec 8, ha.toNat < 2 → ∀ r r' : BitVec 64, r.toNat < r'.toNat → r'.toNat < 2 ^ 62 →
        (interleavedAddress r ha).toNat < (interleavedAddress r' ha).toNat) ∧
      (∀ ha : BitVec 8, ha.toNat < 2 → ∀ (r : BitVec 64) (k : Nat), r.toNat < 2 ^ 62 → r.toNat % 256 + k < 256 →
        (interleavedAddress (r + BitVec.ofNat 64 k) ha).toNat = (interleavedAddress r ha).toNat + k) := by
  have h0 : (0 : BitVec 8).toNat < 2 := by decide
  have h1 : (1 : BitVec 8).toNat < 2 := by decide
  refine ⟨⟨?_, ?_, ?_⟩, ?_, ?_, ?_, ?_⟩
  · rintro ⟨r, ha⟩ ⟨hr, hha⟩
    exact (interleavedAddress_lt_iff (by omega) hha).mpr hr
  · rintro ⟨r, ha⟩ ⟨hr, hha⟩ ⟨r', ha'⟩ ⟨hr', hha'⟩ heq
    obtain ⟨hmod, hsame⟩ := interleavedAddress_inj hha hha' heq
    rw [Nat.mod_eq_of_lt (by omega), Nat.mod_eq_of_lt (by omega)] at hmod
    exact Prod.ext (BitVec.eq_of_toNat_eq hmod) hsame
  · intro a ha
    obtain ⟨r, h, hrh, heq⟩ := exists_interleavedAddress ha
    exact ⟨(r, h), hrh, heq⟩
  · rw [Set.disjoint_left]
    rintro _ ⟨r, hr, rfl⟩ ⟨r', hr', heq⟩
    have hne := (interleavedAddress_inj h1 h0 heq).2
    exact absurd hne (by decide)
  · ext a
    constructor
    · rintro (⟨r, hr, rfl⟩ | ⟨r, hr, rfl⟩)
      · exact (interleavedAddress_lt_iff (Nat.lt_trans hr (by decide)) h0).mpr hr
      · exact (interleavedAddress_lt_iff (Nat.lt_trans hr (by decide)) h1).mpr hr
    · intro ha
      obtain ⟨r, h, ⟨hr, hh⟩, rfl⟩ := exists_interleavedAddress ha
      have hcases : h = 0 ∨ h = 1 := by
        rcases (show h.toNat = 0 ∨ h.toNat = 1 by omega) with hh | hh
        · exact Or.inl (BitVec.eq_of_toNat_eq hh)
        · exact Or.inr (BitVec.eq_of_toNat_eq hh)
      rcases hcases with rfl | rfl
      · exact Or.inl ⟨r, hr, rfl⟩
      · exact Or.inr ⟨r, hr, rfl⟩
  · intro ha hha r r' hlt hr'
    exact interleavedAddress_lt hlt (by omega) hha
  · intro ha hha r k hr hk
    have hlt : (interleavedAddress r ha).toNat < 2 ^ 63 := (interleavedAddress_lt_iff (by omega) hha).mpr hr
    rw [interleavedAddress_add hk hha, BitVec.toNat_add, BitVec.toNat_ofNat]
    omega

/-- Bit 19 exchanges the two home agents. -/
example : interleavedAddress 0x80010 0 = 0x100110 ∧ interleavedAddress 0x80010 1 = 0x100010 := by decide

end Pnm.Sls
