import Pnm.Sls.RankAddress
import Pnm.Sls.Topology

/-!
# `Sls.InterleavedCopy` — copying to and from interleaved memory

The model of `InterleavedPointer` and of the two overloads of `memcpy_interleaved`
(`core/device/sls/utils/rank_address.{h,cpp}`). A copy starts with a partial block up to the next multiple of
256 of the rank address and goes on in whole blocks; inside a block the system addresses are contiguous, so
each block is one `std::copy_n`.

Both overloads are the same loop around a different block copy. `memcpyInterleaved_spec` is the rule for that
loop: an invariant indexed by the bytes copied so far, kept by every block that does not cross a multiple of
256, holds at the end. The two invariants are byte-wise: what was copied, and that nothing else changed.

Pointers are 64-bit and wrap; host memory and device memory are separate.
-/

namespace Pnm.Sls

open Pnm.Lib

/-- A 64-bit address space. -/
abbrev Space := BitVec 64 → BitVec 8

/-- `std::copy_n` of `n` bytes from `s` to `d`. -/
def copyN (dst : Space) (d : BitVec 64) (src : Space) (s : BitVec 64) (n : Nat) : Space :=
  fun x => if (x - d).toNat < n then src (s + (x - d)) else dst x

/-- `InterleavedPointer`; `interleaved_` is a function of the other fields (`update`). -/
structure InterleavedPointer where
  base : BitVec 64
  ha : BitVec 8
  rankedAddr : BitVec 64 := 0

namespace InterleavedPointer

/-- `InterleavedPointer::get`. -/
def get (p : InterleavedPointer) : BitVec 64 := p.base + interleavedAddress p.rankedAddr p.ha

/-- `InterleavedPointer::operator+=`. -/
def add (p : InterleavedPointer) (offset : BitVec 64) : InterleavedPointer :=
  { p with rankedAddr := p.rankedAddr + offset }

end InterleavedPointer

/-- `make_interleaved_pointer`. -/
def makeInterleavedPointer (cunit : BitVec 8) (physOffset virtualAddr : BitVec 64) : InterleavedPointer :=
  let ha := cunitToHa cunit
  (InterleavedPointer.mk (virtualAddr - interleavedAddress physOffset ha) ha 0).add physOffset

/-! ## The loop -/

section Loop

variable {σ : Type} (copyBlock : Nat → σ → σ)

/-- The `while` loop of `memcpy_interleaved`. -/
def copyBlocks (bytes copied : Nat) (s : σ) : σ × Nat :=
  if copied < bytes then
    let blockSize := min Topology.rankInterleavingSize (bytes - copied)
    copyBlocks bytes (copied + blockSize) (copyBlock blockSize s)
  else (s, copied)
termination_by bytes - copied
decreasing_by
  have : 0 < Topology.rankInterleavingSize := by decide
  omega

/-- The body both overloads of `memcpy_interleaved` share, around their `memcpy_block`. -/
def memcpyInterleaved (rankedAddress bytes : Nat) (s : σ) : σ × Nat :=
  if rankedAddress % Topology.rankInterleavingSize ≠ 0 then
    let blockSize :=
      min bytes (Topology.rankInterleavingSize - rankedAddress % Topology.rankInterleavingSize)
    copyBlocks copyBlock bytes blockSize (copyBlock blockSize s)
  else copyBlocks copyBlock bytes 0 s

end Loop

/-- The state of a copy to the device. -/
structure ToDevice where
  device : Space
  source : BitVec 64
  dst : InterleavedPointer

/-- `memcpy_block(const uint8_t *&, uint64_t, InterleavedPointer &)`. -/
def memcpyBlockTo (host : Space) (blockSize : Nat) (s : ToDevice) : ToDevice where
  device := copyN s.device s.dst.get host s.source blockSize
  source := s.source + BitVec.ofNat 64 blockSize
  dst := s.dst.add (BitVec.ofNat 64 blockSize)

/-- `memcpy_interleaved(const void *src, uint64_t bytes, InterleavedPointer dst)`. -/
def memcpyToDevice (host : Space) (src : BitVec 64) (bytes : Nat) (dst : InterleavedPointer) (device : Space) :
    Space × Nat :=
  let (s, copied) := memcpyInterleaved (memcpyBlockTo host) dst.rankedAddr.toNat bytes ⟨device, src, dst⟩
  (s.device, copied)

/-- The state of a copy from the device. -/
structure FromDevice where
  host : Space
  source : InterleavedPointer
  dst : BitVec 64

/-- `memcpy_block(InterleavedPointer &, uint64_t, uint8_t *&)`. -/
def memcpyBlockFrom (device : Space) (blockSize : Nat) (s : FromDevice) : FromDevice where
  host := copyN s.host s.dst device s.source.get blockSize
  source := s.source.add (BitVec.ofNat 64 blockSize)
  dst := s.dst + BitVec.ofNat 64 blockSize

/-- `memcpy_interleaved(InterleavedPointer src, uint64_t bytes, void *dst)`. -/
def memcpyFromDevice (device : Space) (src : InterleavedPointer) (bytes : Nat) (dst : BitVec 64) (host : Space) :
    Space × Nat :=
  let (s, copied) := memcpyInterleaved (memcpyBlockFrom device) src.rankedAddr.toNat bytes ⟨host, src, dst⟩
  (s.host, copied)

/-! ## The rule for the loop -/

section Rule

variable {σ : Type} {copyBlock : Nat → σ → σ} {Inv : Nat → σ → Prop} {start bytes : Nat}

/-- A block copy keeps `Inv` when the block ends inside the copy and does not cross a multiple of 256. -/
def KeepsBlock (copyBlock : Nat → σ → σ) (Inv : Nat → σ → Prop) (start bytes : Nat) : Prop :=
  ∀ k b s, Inv k s → k + b ≤ bytes → (start + k) % 256 + b ≤ 256 → Inv (k + b) (copyBlock b s)

/-- Whole blocks, from a multiple of 256 on or with nothing left to copy. -/
theorem copyBlocks_spec (hstep : KeepsBlock copyBlock Inv start bytes) {k : Nat} {s : σ} (hk : k ≤ bytes)
    (halign : k = bytes ∨ (start + k) % 256 = 0) (hinv : Inv k s) :
    ∃ s', copyBlocks copyBlock bytes k s = (s', bytes) ∧ Inv bytes s' := by
  have hsize : Topology.rankInterleavingSize = 256 := rfl
  rw [copyBlocks]
  by_cases hlt : k < bytes
  · rw [if_pos hlt]
    have hzero : (start + k) % 256 = 0 := by omega
    apply copyBlocks_spec hstep
    · omega
    · omega
    · apply hstep k _ s hinv
      · omega
      · omega
  · obtain rfl : k = bytes := by omega
    rw [if_neg hlt]
    exact ⟨s, rfl, hinv⟩
termination_by bytes - k
decreasing_by
  have : 0 < Topology.rankInterleavingSize := by decide
  omega

/-- **The copy rule.** The invariant holds of all bytes at the end, and their number is returned. -/
theorem memcpyInterleaved_spec (hstep : KeepsBlock copyBlock Inv start bytes) {s : σ} (hinv : Inv 0 s) :
    ∃ s', memcpyInterleaved copyBlock start bytes s = (s', bytes) ∧ Inv bytes s' := by
  have hsize : Topology.rankInterleavingSize = 256 := rfl
  unfold memcpyInterleaved
  rw [hsize]
  by_cases hpart : start % 256 ≠ 0
  · rw [if_pos hpart]
    -- the partial first block ends at a multiple of 256, or with the copy
    have hfirst := hstep 0 (min bytes (256 - start % 256)) s hinv (by omega) (by omega)
    rw [Nat.zero_add] at hfirst
    exact copyBlocks_spec hstep (by omega) (by omega) hfirst
  · rw [if_neg hpart]
    exact copyBlocks_spec hstep (Nat.zero_le _) (by omega) hinv

end Rule

/-! ## One block -/

section Block

variable {dst src : Space} {d s x : BitVec 64} {n : Nat}

/-- The offset of an address from the start of a copy. -/
theorem sub_toNat_lt_iff (hn : n ≤ 2 ^ 64) :
    (x - d).toNat < n ↔ ∃ j < n, x = d + BitVec.ofNat 64 j := by
  constructor
  · intro hlt
    refine ⟨(x - d).toNat, hlt, ?_⟩
    rw [BitVec.ofNat_toNat, BitVec.setWidth_eq, BitVec.add_comm, BitVec.sub_add_cancel]
  · rintro ⟨j, hj, rfl⟩
    rw [BitVec.add_comm, BitVec.add_sub_cancel, BitVec.toNat_ofNat, Nat.mod_eq_of_lt (by omega)]
    exact hj

theorem copyN_inside (hn : n ≤ 2 ^ 64) {j : Nat} (hj : j < n) :
    copyN dst d src s n (d + BitVec.ofNat 64 j) = src (s + BitVec.ofNat 64 j) := by
  unfold copyN
  rw [if_pos ((sub_toNat_lt_iff hn).mpr ⟨j, hj, rfl⟩), BitVec.add_comm d, BitVec.add_sub_cancel]

theorem copyN_outside (hn : n ≤ 2 ^ 64) (hx : ∀ j < n, x ≠ d + BitVec.ofNat 64 j) :
    copyN dst d src s n x = dst x := by
  unfold copyN
  rw [if_neg]
  intro hlt
  obtain ⟨j, hj, heq⟩ := (sub_toNat_lt_iff hn).mp hlt
  exact hx j hj heq

end Block

namespace InterleavedPointer

variable {p : InterleavedPointer}

theorem add_add (p : InterleavedPointer) (i j : Nat) :
    (p.add (BitVec.ofNat 64 i)).add (BitVec.ofNat 64 j) = p.add (BitVec.ofNat 64 (i + j)) := by
  unfold add
  dsimp only
  rw [BitVec.ofNat_add, BitVec.add_assoc]

theorem add_zero (p : InterleavedPointer) : p.add (BitVec.ofNat 64 0) = p := by
  unfold add
  rw [show BitVec.ofNat 64 0 = 0#64 from rfl, BitVec.add_zero]

/-- The rank address a pointer has moved to, below the next multiple of 256. -/
theorem rankedAddr_add_mod (p : InterleavedPointer) (k : Nat) :
    (p.add (BitVec.ofNat 64 k)).rankedAddr.toNat % 256 = (p.rankedAddr.toNat + k) % 256 := by
  have hadd : (p.add (BitVec.ofNat 64 k)).rankedAddr.toNat = (p.rankedAddr.toNat + k % 2 ^ 64) % 2 ^ 64 := by
    unfold add
    dsimp only
    rw [BitVec.toNat_add, BitVec.toNat_ofNat]
  rw [hadd]
  omega

/-- Inside a block the pointer moves byte by byte. -/
theorem get_add (hha : p.ha.toNat < 2) {j : Nat} (hj : p.rankedAddr.toNat % 256 + j < 256) :
    (p.add (BitVec.ofNat 64 j)).get = p.get + BitVec.ofNat 64 j := by
  unfold get add
  dsimp only
  rw [interleavedAddress_add hj hha, BitVec.add_assoc]

/-- The bytes of a block that does not cross a multiple of 256, from byte `k` of the copy on. -/
theorem get_add_block (hha : p.ha.toNat < 2) {k b : Nat} (hblock : (p.rankedAddr.toNat + k) % 256 + b ≤ 256)
    {j : Nat} (hj : j < b) :
    (p.add (BitVec.ofNat 64 (k + j))).get = (p.add (BitVec.ofNat 64 k)).get + BitVec.ofNat 64 j := by
  rw [← add_add]
  apply get_add (p := p.add (BitVec.ofNat 64 k)) hha
  rw [rankedAddr_add_mod]
  omega

/-- Up to 2^63 bytes have different addresses. -/
theorem get_add_ne (hha : p.ha.toNat < 2) {i j : Nat} (hij : i < j) (hj : j < i + 2 ^ 63) :
    (p.add (BitVec.ofNat 64 i)).get ≠ (p.add (BitVec.ofNat 64 j)).get := by
  intro heq
  have hinj := (interleavedAddress_inj hha hha ((BitVec.add_right_inj _).mp heq)).1
  unfold add at hinj
  dsimp only at hinj
  rw [BitVec.toNat_add, BitVec.toNat_add, BitVec.toNat_ofNat, BitVec.toNat_ofNat] at hinj
  omega

/-- No address of one home agent is one of the other. -/
theorem get_ne_of_ha_ne {q : InterleavedPointer} (hp : p.ha.toNat < 2) (hq : q.ha.toNat < 2)
    (hbase : p.base = q.base) (hne : p.ha ≠ q.ha) : p.get ≠ q.get := by
  intro heq
  unfold get at heq
  rw [hbase] at heq
  exact hne (interleavedAddress_inj hp hq ((BitVec.add_right_inj _).mp heq)).2

end InterleavedPointer

/-! ## Copying to the device -/

section Copy

variable {p : InterleavedPointer} (hha : p.ha.toNat < 2) {bytes : Nat} (hbytes : bytes ≤ 2 ^ 63)

/-- After `k` bytes of a copy to the device: both pointers have moved by `k`, the first `k` source bytes are in
    place and no other byte has changed. -/
structure CopiedTo (host : Space) (src : BitVec 64) (p : InterleavedPointer) (device : Space) (k : Nat)
    (s : ToDevice) : Prop where
  source : s.source = src + BitVec.ofNat 64 k
  dst : s.dst = p.add (BitVec.ofNat 64 k)
  written : ∀ i < k, s.device (p.add (BitVec.ofNat 64 i)).get = host (src + BitVec.ofNat 64 i)
  frame : ∀ x, (∀ i < k, x ≠ (p.add (BitVec.ofNat 64 i)).get) → s.device x = device x

include hha hbytes

theorem memcpyBlockTo_keeps (host : Space) (src : BitVec 64) (device : Space) :
    KeepsBlock (memcpyBlockTo host) (CopiedTo host src p device) p.rankedAddr.toNat bytes := by
  intro k b s hs hkb hblock
  have hb : b ≤ 2 ^ 64 := by omega
  -- the block is contiguous and starts where byte `k` goes
  have hplace : ∀ j < b, (p.add (BitVec.ofNat 64 (k + j))).get = s.dst.get + BitVec.ofNat 64 j := by
    intro j hj
    rw [hs.dst, InterleavedPointer.get_add_block hha hblock hj]
  constructor
  · show s.source + BitVec.ofNat 64 b = src + BitVec.ofNat 64 (k + b)
    rw [hs.source, BitVec.ofNat_add, BitVec.add_assoc]
  · show s.dst.add (BitVec.ofNat 64 b) = p.add (BitVec.ofNat 64 (k + b))
    rw [hs.dst, InterleavedPointer.add_add]
  · intro i hi
    show copyN s.device s.dst.get host s.source b _ = _
    by_cases hik : i < k
    · rw [copyN_outside hb, hs.written i hik]
      intro j hj
      rw [← hplace j hj]
      exact InterleavedPointer.get_add_ne hha (by omega) (by omega)
    · obtain ⟨j, rfl⟩ : ∃ j, i = k + j := ⟨i - k, by omega⟩
      rw [hplace j (by omega), copyN_inside hb (by omega), hs.source, BitVec.ofNat_add, BitVec.add_assoc]
  · intro x hx
    show copyN s.device s.dst.get host s.source b x = _
    rw [copyN_outside hb, hs.frame x fun i hi => hx i (by omega)]
    intro j hj
    rw [← hplace j hj]
    exact hx (k + j) (by omega)

/-- **Copying to the device** puts every byte in place, changes no other byte and returns the length. -/
theorem memcpyToDevice_spec (host : Space) (src : BitVec 64) (device : Space) :
    (memcpyToDevice host src bytes p device).2 = bytes ∧
      (∀ i < bytes, (memcpyToDevice host src bytes p device).1 (p.add (BitVec.ofNat 64 i)).get
        = host (src + BitVec.ofNat 64 i)) ∧
      (∀ x, (∀ i < bytes, x ≠ (p.add (BitVec.ofNat 64 i)).get) →
        (memcpyToDevice host src bytes p device).1 x = device x) := by
  have hstart : CopiedTo host src p device 0 ⟨device, src, p⟩ := by
    refine ⟨?_, (InterleavedPointer.add_zero p).symm, fun i hi => absurd hi (Nat.not_lt_zero i), fun x _ => rfl⟩
    show src = src + 0#64
    rw [BitVec.add_zero]
  obtain ⟨s, heq, hs⟩ := memcpyInterleaved_spec (memcpyBlockTo_keeps hha hbytes host src device) hstart
  unfold memcpyToDevice
  rw [heq]
  exact ⟨rfl, hs.written, hs.frame⟩

/-! ## Copying back -/

omit hha hbytes in
/-- After `k` bytes of a copy from the device. -/
structure CopiedFrom (device : Space) (p : InterleavedPointer) (out : BitVec 64) (host : Space) (k : Nat)
    (s : FromDevice) : Prop where
  source : s.source = p.add (BitVec.ofNat 64 k)
  dst : s.dst = out + BitVec.ofNat 64 k
  read : ∀ i < k, s.host (out + BitVec.ofNat 64 i) = device (p.add (BitVec.ofNat 64 i)).get
  frame : ∀ x, (∀ i < k, x ≠ out + BitVec.ofNat 64 i) → s.host x = host x

theorem memcpyBlockFrom_keeps (device : Space) (out : BitVec 64) (host : Space) :
    KeepsBlock (memcpyBlockFrom device) (CopiedFrom device p out host) p.rankedAddr.toNat bytes := by
  intro k b s hs hkb hblock
  have hb : b ≤ 2 ^ 64 := by omega
  have hplace : ∀ j < b, (p.add (BitVec.ofNat 64 (k + j))).get = s.source.get + BitVec.ofNat 64 j := by
    intro j hj
    rw [hs.source, InterleavedPointer.get_add_block hha hblock hj]
  have hout : ∀ j, out + BitVec.ofNat 64 (k + j) = s.dst + BitVec.ofNat 64 j := by
    intro j
    rw [hs.dst, BitVec.ofNat_add, BitVec.add_assoc]
  constructor
  · show s.source.add (BitVec.ofNat 64 b) = p.add (BitVec.ofNat 64 (k + b))
    rw [hs.source, InterleavedPointer.add_add]
  · exact (hout b).symm
  · intro i hi
    show copyN s.host s.dst device s.source.get b _ = _
    by_cases hik : i < k
    · rw [copyN_outside hb, hs.read i hik]
      intro j hj
      rw [← hout j, ne_eq, BitVec.add_right_inj]
      intro heq
      have := congrArg BitVec.toNat heq
      rw [BitVec.toNat_ofNat, BitVec.toNat_ofNat] at this
      omega
    · obtain ⟨j, rfl⟩ : ∃ j, i = k + j := ⟨i - k, by omega⟩
      rw [hout, copyN_inside hb (by omega), hplace j (by omega)]
  · intro x hx
    show copyN s.host s.dst device s.source.get b x = _
    rw [copyN_outside hb, hs.frame x fun i hi => hx i (by omega)]
    intro j hj
    rw [← hout j]
    exact hx (k + j) (by omega)

/-- **Copying from the device** reads every byte from its place, changes no other byte and returns the length. -/
theorem memcpyFromDevice_spec (device : Space) (out : BitVec 64) (host : Space) :
    (memcpyFromDevice device p bytes out host).2 = bytes ∧
      (∀ i < bytes, (memcpyFromDevice device p bytes out host).1 (out + BitVec.ofNat 64 i)
        = device (p.add (BitVec.ofNat 64 i)).get) ∧
      (∀ x, (∀ i < bytes, x ≠ out + BitVec.ofNat 64 i) →
        (memcpyFromDevice device p bytes out host).1 x = host x) := by
  have hstart : CopiedFrom device p out host 0 ⟨host, p, out⟩ := by
    refine ⟨(InterleavedPointer.add_zero p).symm, ?_, fun i hi => absurd hi (Nat.not_lt_zero i), fun x _ => rfl⟩
    show out = out + 0#64
    rw [BitVec.add_zero]
  obtain ⟨s, heq, hs⟩ := memcpyInterleaved_spec (memcpyBlockFrom_keeps hha hbytes device out host) hstart
  unfold memcpyFromDevice
  rw [heq]
  exact ⟨rfl, hs.read, hs.frame⟩

end Copy

/-! ## Byte-wise copy -/

/-- A pointer made for a unit points at the virtual address it was made for, and its home agent is 0 or 1. -/
theorem makeInterleavedPointer_spec (cunit : BitVec 8) (physOffset virtualAddr : BitVec 64) :
    (makeInterleavedPointer cunit physOffset virtualAddr).get = virtualAddr ∧
      (makeInterleavedPointer cunit physOffset virtualAddr).ha.toNat < 2 := by
  constructor
  · unfold makeInterleavedPointer InterleavedPointer.add InterleavedPointer.get
    dsimp only
    rw [show (0 : BitVec 64) + physOffset = physOffset from BitVec.zero_add _, BitVec.sub_add_cancel]
  · have hand : (cunitToHa cunit).toNat ≤ 1 := Nat.and_le_right
    exact Nat.lt_succ_of_le hand

/-- **Interleaved copy equals a byte-wise copy.** For every start rank address, home agent, length and data, the
    copy to the device writes source byte `k` to the system address of rank address `start + k`, changes no other
    byte and in particular none of the other home agent, and returns the length; copying back from the same
    pointer returns the original bytes. -/
theorem memcpyInterleaved_bytewise (host : Space) (src : BitVec 64) (bytes : Nat) (base start : BitVec 64)
    (ha : BitVec 8) (device : Space) (hbytes : bytes ≤ 2 ^ 63) (hha : ha.toNat < 2) :
    let dst : InterleavedPointer := ⟨base, ha, start⟩
    let after := memcpyToDevice host src bytes dst device
    after.2 = bytes ∧
      (∀ k < bytes, after.1 (base + interleavedAddress (start + BitVec.ofNat 64 k) ha)
        = host (src + BitVec.ofNat 64 k)) ∧
      (∀ x, (∀ k < bytes, x ≠ base + interleavedAddress (start + BitVec.ofNat 64 k) ha) →
        after.1 x = device x) ∧
      (∀ (r : BitVec 64) (ha' : BitVec 8), ha'.toNat < 2 → ha' ≠ ha →
        after.1 (base + interleavedAddress r ha') = device (base + interleavedAddress r ha')) ∧
      (∀ (out : BitVec 64) (host' : Space),
        (memcpyFromDevice after.1 dst bytes out host').2 = bytes ∧
          ∀ k < bytes, (memcpyFromDevice after.1 dst bytes out host').1 (out + BitVec.ofNat 64 k)
            = host (src + BitVec.ofNat 64 k)) := by
  intro dst after
  obtain ⟨hret, hwritten, hframe⟩ := memcpyToDevice_spec (p := dst) hha hbytes host src device
  refine ⟨hret, hwritten, hframe, ?_, ?_⟩
  · intro r ha' hha' hne
    apply hframe
    intro k _
    exact InterleavedPointer.get_ne_of_ha_ne (p := ⟨base, ha', r⟩) (q := dst.add (BitVec.ofNat 64 k))
      hha' hha rfl hne
  · intro out host'
    obtain ⟨hret', hread, -⟩ := memcpyFromDevice_spec (p := dst) hha hbytes after.1 out host'
    refine ⟨hret', fun k hk => ?_⟩
    rw [hread k hk]
    exact hwritten k hk

/-- 300 bytes from rank address `0x7ff80` on: byte 128 lands behind the boundary where the home agents change
    places. -/
theorem memcpyInterleaved_bytewise_hashed :
    (memcpyToDevice (fun x => x.setWidth 8) 0x1000 300 ⟨0x40000000, 1, 0x7ff80⟩ (fun _ => 0)).2 = 300 ∧
      (memcpyToDevice (fun x => x.setWidth 8) 0x1000 300 ⟨0x40000000, 1, 0x7ff80⟩ (fun _ => 0)).1 0x40100000
        = 128 := by
  have h := memcpyInterleaved_bytewise (fun x => x.setWidth 8) 0x1000 300 0x40000000 0x7ff80 1 (fun _ => 0)
    (by decide) (by decide)
  have haddr : (0x40000000 : BitVec 64) + interleavedAddress (0x7ff80 + BitVec.ofNat 64 128) 1 = 0x40100000 := by
    decide
  have hbyte := h.2.1 128 (by decide)
  rw [haddr] at hbyte
  exact ⟨h.1, hbyte⟩

end Pnm.Sls
