import Mathlib.Logic.Equiv.Defs
import Mathlib.Tactic.Common
import Mathlib.Tactic.Ring

/-!
# `Lib.Interleave` — memory interleaved over several ways, block by block

Several units, each with an address space of its own, share one linear address space: block `q` of every unit
goes to stripe `q`, which has one block per unit. Inside a stripe the units may stand in any order, and the
order may change from stripe to stripe (address hashing), which is the permutation `slot q`. Whatever the
permutations are, the map from (unit address, unit) to linear addresses

- is injective (`address_inj`) and reaches every linear address (`exists_address`);
- sends the first `n` blocks of all units onto the first `n` stripes (`address_lt_iff`);
- is strictly increasing for a fixed unit (`address_lt_address`) and keeps a block contiguous (`address_add`).
-/

namespace Pnm.Lib

/-- `ways` units interleaved in blocks of `block` bytes; `slot q` places the units inside stripe `q`. -/
structure Interleaving where
  block : Nat
  ways : Nat
  block_pos : 0 < block
  slot : Nat → Equiv.Perm (Fin ways)

namespace Interleaving

variable (I : Interleaving)

/-- The linear address of address `r` of unit `h`. -/
def address (r : Nat) (h : Fin I.ways) : Nat :=
  (I.ways * (r / I.block) + I.slot (r / I.block) h) * I.block + r % I.block

variable {I} {r r' n k : Nat} {h h' : Fin I.ways}

/-- Block and offset of an address given by them. -/
theorem div_mod_block {q o : Nat} (ho : o < I.block) :
    (q * I.block + o) / I.block = q ∧ (q * I.block + o) % I.block = o := by
  constructor
  · rw [Nat.mul_comm, Nat.mul_add_div I.block_pos, Nat.div_eq_of_lt ho, Nat.add_zero]
  · rw [Nat.mul_comm, Nat.mul_add_mod, Nat.mod_eq_of_lt ho]

theorem address_div : I.address r h / I.block = I.ways * (r / I.block) + I.slot (r / I.block) h :=
  (div_mod_block (Nat.mod_lt r I.block_pos)).1

theorem address_mod : I.address r h % I.block = r % I.block := (div_mod_block (Nat.mod_lt r I.block_pos)).2

/-- The stripe of a linear address is the block of the unit address. -/
theorem address_div_stripe : I.address r h / I.block / I.ways = r / I.block := by
  have hpos : 0 < I.ways := Fin.pos h
  rw [address_div, Nat.mul_add_div hpos, Nat.div_eq_of_lt (Fin.is_lt _), Nat.add_zero]

/-- **Two places never share a linear address.** -/
theorem address_inj (heq : I.address r h = I.address r' h') : r = r' ∧ h = h' := by
  have hblock : r / I.block = r' / I.block := by
    calc r / I.block = I.address r h / I.block / I.ways := address_div_stripe.symm
      _ = r' / I.block := by rw [heq, address_div_stripe]
  have hmod : r % I.block = r' % I.block := by
    calc r % I.block = I.address r h % I.block := address_mod.symm
      _ = r' % I.block := by rw [heq, address_mod]
  have hslot : I.slot (r / I.block) h = I.slot (r / I.block) h' := by
    have hdiv := address_div (r := r) (h := h)
    rw [heq, address_div, ← hblock] at hdiv
    exact Fin.ext (by omega)
  refine ⟨?_, (I.slot _).injective hslot⟩
  rw [← Nat.div_add_mod r I.block, hblock, hmod, Nat.div_add_mod]

/-- **Every linear address is some unit's.** -/
theorem exists_address (hways : 0 < I.ways) (a : Nat) : ∃ r h, I.address r h = a := by
  set q := a / I.block / I.ways
  set s : Fin I.ways := ⟨a / I.block % I.ways, Nat.mod_lt _ hways⟩
  obtain ⟨hdiv, hmod⟩ := div_mod_block (q := q) (Nat.mod_lt a I.block_pos)
  refine ⟨q * I.block + a % I.block, (I.slot q).symm s, ?_⟩
  unfold address
  rw [hdiv, hmod, Equiv.apply_symm_apply, Nat.div_add_mod, Nat.mul_comm, Nat.div_add_mod]

/-- The first `n` blocks of the units fill the first `n` stripes. -/
theorem address_lt_iff : I.address r h < I.ways * n * I.block ↔ r < n * I.block := by
  have hpos : 0 < I.ways := Fin.pos h
  rw [← Nat.div_lt_iff_lt_mul I.block_pos, ← Nat.div_lt_iff_lt_mul I.block_pos, Nat.mul_comm I.ways,
    ← Nat.div_lt_iff_lt_mul hpos, address_div_stripe]

/-- **For a fixed unit the map is strictly increasing.** -/
theorem address_lt_address (hlt : r < r') (h : Fin I.ways) : I.address r h < I.address r' h := by
  have hle : r / I.block ≤ r' / I.block := Nat.div_le_div_right hlt.le
  rcases hle.lt_or_eq with hq | hq
  · -- an earlier stripe
    by_contra hge
    have hstripe := Nat.div_le_div_right (c := I.ways) (Nat.div_le_div_right (c := I.block) (not_lt.mp hge))
    rw [address_div_stripe, address_div_stripe] at hstripe
    omega
  · have hmod : r % I.block < r' % I.block := by
      have h1 := Nat.div_add_mod r I.block
      have h2 := Nat.div_add_mod r' I.block
      rw [hq] at h1
      omega
    unfold address
    rw [hq]
    omega

/-- **Inside a block addresses are contiguous.** -/
theorem address_add (hk : r % I.block + k < I.block) (h : Fin I.ways) :
    I.address (r + k) h = I.address r h + k := by
  obtain ⟨hdiv, hmod⟩ := div_mod_block (q := r / I.block) hk
  have hsum : r / I.block * I.block + (r % I.block + k) = r + k := by
    rw [← Nat.add_assoc, Nat.div_add_mod']
  rw [hsum] at hdiv hmod
  unfold address
  rw [hdiv, hmod, Nat.add_assoc]

end Interleaving

end Pnm.Lib
