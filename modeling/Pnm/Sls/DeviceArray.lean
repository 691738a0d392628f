import Pnm.Lib.Buffer
import Pnm.Lib.ReplicatedArray
import Pnm.Sls.ReplicaStore

/-!
# `Sls.DeviceArray` — a region of device memory as an array of elements

`Accessor<T>` (`include/pnmlib/core/accessor.h`) offers a region as an array of its elements, whatever `T` is. With the
replicas as the copies this is an instance of `Lib.ReplicatedArray` (`SlsAccessorCore.elements`).

Stores are those of an array as soon as every replica is mapped as a whole. Reads are not: an element that crosses a
multiple of 256 bytes is stored to two blocks of its unit but read from one block of the unit and the next one in the
device file. A region starts with a page, so the first block is never followed by the second, and the region is an
array exactly if it fits a block or the element size divides 256 (`device_array_iff`).
-/

namespace Pnm.Sls

open Pnm.Lib

/-- Elements whose size divides the block size do not cross blocks. -/
theorem mod_add_le_of_dvd {s b : Nat} (h : s ∣ b) (hb : 0 < b) (i : Nat) : i * s % b + s ≤ b := by
  obtain ⟨c, rfl⟩ := h
  have hc : 0 < c := Nat.pos_of_mul_pos_left hb
  rw [Nat.mul_comm i, Nat.mul_mod_mul_left]
  calc s * (i % c) + s = s * (i % c + 1) := rfl
    _ ≤ s * c := Nat.mul_le_mul_left s (Nat.mod_lt i hc)

/-- The elements of a region: `Accessor<T>` with `sizeof(T) = s`, the replicas as the copies, and the bytes of the
    device that belong to no replica. -/
def SlsAccessorCore.elements (core : SlsAccessorCore) (mapOffset : BitVec 8 → BitVec 64) (s : Nat) :
    ArrayImpl Space AccessorError (Fin (core.dataSize.toNat / s)) Replica (Fin s → BitVec 8)
      ({offset // ∀ p ∈ core.located, ∀ k < core.dataSize.toNat, offset ≠ p.place mapOffset k} → BitVec 8) where
  store i v := core.store v i
  read i := core.access s i
  copies := core.located
  cell p i device := fun j => device (p.place mapOffset (i * s + j))
  rest device := fun offset => device offset.1

namespace SlsAccessorCore

section Elements

variable {layout : AxdimmLayout} {size : BitVec 64} {core : SlsAccessorCore} (hready : core.Ready layout size)
  {s : Nat} (hs : 0 < s) (hwhole : size.toNat % s = 0)

include hready

/-- When a replica is mapped as a whole. -/
theorem covered_iff {p : Replica} (hp : p ∈ core.located) :
    core.Covered size.toNat 0 p ↔ ¬ FallsShort p.2 p.1.start.toNat size.toNat := by
  have hlt := hready.size_lt
  have hmaps := (hready.mapped p hp).maps_iff (hready.start p hp) (layout.mapOffset_page p.2)
  rw [hready.size_eq p hp] at hmaps
  unfold Covered pointer
  simp only [Nat.zero_add]
  rw [hmaps]
  exact and_iff_right (by omega)

include hwhole

theorem element_le (i : Fin (core.dataSize.toNat / s)) : i * s + s ≤ size.toNat := by
  have hi : (i : Nat) + 1 ≤ size.toNat / s := hready.dataSize ▸ i.isLt
  calc i * s + s = (i + 1) * s := (Nat.succ_mul _ _).symm
    _ ≤ size.toNat / s * s := Nat.mul_le_mul_right _ hi
    _ = size.toNat := Nat.div_mul_cancel (Nat.dvd_of_mod_eq_zero hwhole)

/-- Every byte belongs to an element. -/
theorem index_lt {k : Nat} (hk : k < size.toNat) : k / s < core.dataSize.toNat / s := by
  rw [hready.dataSize_toNat]
  exact Nat.div_lt_div_of_lt_of_dvd (Nat.dvd_of_mod_eq_zero hwhole) hk

/-- **A store is a store to an array** if the replicas are mapped. -/
theorem storesOne (hcovered : ∀ p ∈ core.located, core.Covered size.toNat 0 p)
    (i : Fin (core.dataSize.toNat / s)) (value : Fin s → BitVec 8) (device : Space) :
    (core.elements layout.mapOffset s).StoresOne i value device := by
  have hle := element_le hready hwhole i
  have hcov : ∀ p ∈ core.located, core.Covered s (i * s) p := fun p hp => (hcovered p hp).part hle
  obtain ⟨device', hstore, hstored⟩ := foldlM_storeReplica hready hle (fun _ hp => hp) hcov value device
  refine ⟨device', hstore, ?_, ?_⟩
  · intro p hp i'
    funext e
    show device' (p.place layout.mapOffset (i' * s + e))
      = (if i = i' then value else fun j => device (p.place layout.mapOffset (i' * s + j))) e
    by_cases hii : i = i'
    · rw [if_pos hii, ← hii]
      exact hstored.written p hp e
    · rw [if_neg hii]
      apply hstored.frame
      intro q hq j hj heq
      have hle' := element_le hready hwhole i'
      have he := e.isLt
      have hbyte := (hready.place_inj hp hq (by omega) (by omega) heq).2
      have hapart : i' * s + e < i * s ∨ i * s + s ≤ i' * s + e :=
        row_disjoint (fun h => hii (Fin.ext h.symm)) he (Nat.le_refl s)
      omega
  · funext offset
    show device' offset.1 = device offset.1
    apply hstored.frame
    intro p hp j hj
    have hdata := hready.dataSize_toNat
    exact offset.2 p hp _ (by omega)

include hs

/-- If all elements can be stored, the replicas are mapped. -/
theorem covered_of_stores (hstores : ∀ i value device, (core.elements layout.mapOffset s).StoresOne i value device)
    {p : Replica} (hp : p ∈ core.located) : core.Covered size.toNat 0 p := by
  intro k hk
  obtain ⟨device', hstore, -⟩ := hstores ⟨k / s, index_lt hready hwhole hk⟩ (fun _ => 0) (fun _ => 0)
  have hcov := covered_of_store hstore hp (k % s) (Nat.mod_lt k hs)
  rw [Nat.div_add_mod'] at hcov
  rw [Nat.zero_add]
  exact hcov

/-- **No element of an array crosses the end of the first block** of the first replica. -/
theorem dvd_of_reads (hreads : (core.elements layout.mapOffset s).ReadsFirst) (hlong : 256 < size.toNat) :
    s ∣ 256 := by
  obtain ⟨p, ps, hlocated⟩ := List.exists_cons_of_ne_nil hready.nonempty
  have hp := first_mem hlocated
  have hfirst : p ∈ (core.elements layout.mapOffset s).copies.head? := by
    show p ∈ core.located.head?
    rw [hlocated]
    exact rfl
  by_contra hdvd
  have hpos : 0 < 256 % s := Nat.pos_of_ne_zero fun h => hdvd (Nat.dvd_of_mod_eq_zero h)
  have hsplit : 256 / s * s + 256 % s = 256 := Nat.div_add_mod' 256 s
  -- byte 256 is read behind the bytes of its element that end the first block
  have hcontiguous := contiguous_of_access hready hlocated (hreads p hfirst ⟨256 / s, index_lt hready hwhole hlong⟩)
  have hbyte := hcontiguous (256 % s) (Nat.mod_lt 256 hs)
  have hinside := contiguous_of_block hready hp (show 0 % 256 + 256 ≤ 256 by decide) (256 / s * s) (by omega)
  rw [Nat.zero_add] at hinside
  rw [hsplit, hinside] at hbyte
  refine place_second_block hready hp (hbyte.trans ?_)
  rw [BitVec.add_assoc, ← BitVec.ofNat_add, hsplit]

omit hs in
/-- Elements that do not cross a block are read as they are stored. -/
theorem readsFirst (hcovered : ∀ p ∈ core.located, core.Covered size.toNat 0 p)
    (hinside : size.toNat ≤ 256 ∨ s ∣ 256) : (core.elements layout.mapOffset s).ReadsFirst := by
  intro p hfirst i device
  obtain ⟨ps, hlocated⟩ : ∃ ps, core.located = p :: ps := List.head?_eq_some_iff.mp hfirst
  have hp := first_mem hlocated
  have hle := element_le hready hwhole i
  have hblock : i * s % 256 + s ≤ 256 := by
    rcases hinside with hshort | hdvd
    · omega
    · exact mod_add_le_of_dvd hdvd (by decide) i
  exact access_of_contiguous hready hlocated ((hcovered p hp).part hle) (contiguous_of_block hready hp hblock) device

end Elements

/-- **Device memory is an array of elements** exactly if the region fits a block, or the element size divides 256 and
    no replica is of the kind whose end is not mapped. For every layout of the device, every region that holds a whole
    number of elements, and all contents of the device: every sequence of stores and reads succeeds, each read returns
    the value most recently stored at its index or the initial contents, and each store reaches every replica and
    changes nothing else. -/
theorem device_array_iff (layout : AxdimmLayout) (region : AxdimmRegion layout) (mmap : Mmap) (core : SlsAccessorCore)
    (hcore : create mmap layout.mapOffset region.regions = .ok core) (s : Nat) (hs : 0 < s)
    (hwhole : region.size.toNat % s = 0) :
    (core.elements layout.mapOffset s).Behaves ↔
      region.size.toNat ≤ 256 ∨
        (s ∣ 256 ∧ ∀ p ∈ core.located, ¬ FallsShort p.2 p.1.start.toNat region.size.toNat) := by
  have hready := create_ready region hcore
  rw [ArrayImpl.behaves_iff (A := core.elements layout.mapOffset s) hready.nonempty]
  constructor
  · rintro ⟨hstores, hreads⟩
    by_cases hshort : region.size.toNat ≤ 256
    · exact Or.inl hshort
    · refine Or.inr ⟨dvd_of_reads hready hs hwhole hreads (by omega), fun p hp => ?_⟩
      exact (covered_iff hready hp).mp (covered_of_stores hready hs hwhole hstores hp)
  · intro hcond
    have hcovered : ∀ p ∈ core.located, core.Covered region.size.toNat 0 p := by
      intro p hp
      rw [covered_iff hready hp]
      rcases hcond with hshort | ⟨-, hgood⟩
      · exact not_fallsShort_of_le (by have := hready.start p hp; omega) hshort
      · exact hgood p hp
    exact ⟨storesOne hready hwhole hcovered, readsFirst hready hwhole hcovered (hcond.imp_right And.left)⟩

/-! ## An AXDIMM -/

/-- The blocks of a chip select of 32 GiB, of which the base block takes 31 GiB. -/
def axdimm : AxdimmLayout where
  baseSize := 0x7c0000000
  otherSize := 0x40000000
  base_aligned := by decide
  page_aligned := by decide
  fits := by decide

/-- 512 bytes, once on each of two units. -/
def twoReplicas : AxdimmRegion axdimm where
  regions := [⟨0x1000, 512, some 0⟩, ⟨0x3000, 512, some 1⟩]
  size := 512
  location
    | 0, _, _, rfl, rfl => rfl
    | 1, _, _, rfl, rfl => rfl
  replica := by decide
  nonempty := ⟨_, List.mem_cons_self, rfl⟩

/-- Elements of 64 bytes on two units. -/
theorem device_array_iff_two :
    ∃ core, create (mmapAt 0x10000000) axdimm.mapOffset twoReplicas.regions = .ok core ∧
      (core.elements axdimm.mapOffset 64).Behaves := by
  refine ⟨_, rfl, ?_⟩
  exact (device_array_iff axdimm twoReplicas (mmapAt 0x10000000) _ rfl 64 (by decide) (by decide)).mpr
    (Or.inr ⟨by decide, by decide⟩)

/-- 11 elements of 24 bytes on unit 0. -/
def oneReplica : AxdimmRegion axdimm where
  regions := [⟨0, 264, some 0⟩]
  size := 264
  location
    | 0, _, _, rfl, rfl => rfl
  replica := by decide
  nonempty := ⟨_, List.mem_cons_self, rfl⟩

/-- The accessor of these elements. -/
def oneReplicaCore : SlsAccessorCore where
  regions := oneReplica.regions
  dataSize := 264
  vregion := [(⟨0x10000000, 0x1000, 0⟩, ⟨0x10000000, 0x10000208⟩)]

theorem create_oneReplica : create (mmapAt 0x10000000) axdimm.mapOffset oneReplica.regions = .ok oneReplicaCore := rfl

/-- **A stored element is not read back.** Element 10 of 24 bytes crosses byte 256 of the region. The store puts its
    last 8 bytes into the second block of unit 0; the read takes them from the first block of unit 1. -/
theorem device_array_reads_other_unit :
    create (mmapAt 0x10000000) axdimm.mapOffset oneReplica.regions = .ok oneReplicaCore ∧
      ∃ device value, oneReplicaCore.store (fun _ : Fin 24 => 1) 10 (fun _ => 0) = .ok device ∧
        oneReplicaCore.access 24 10 device = .ok value ∧ value 15 = 1 ∧ value 16 = 0 := by
  have hready := create_ready oneReplica create_oneReplica
  have hlocated : oneReplicaCore.located = [(⟨0, 264, some 0⟩, 0)] := rfl
  have hp : ((⟨0, 264, some 0⟩, 0) : Replica) ∈ oneReplicaCore.located := List.mem_cons_self
  have hcovered : ∀ p ∈ oneReplicaCore.located, oneReplicaCore.Covered oneReplica.size.toNat 0 p := by
    intro p hp
    rw [covered_iff hready hp, List.mem_singleton.mp hp]
    decide
  obtain ⟨device, hstore, hcells, hrest⟩ :=
    storesOne hready (show oneReplica.size.toNat % 24 = 0 by decide) hcovered ⟨10, by decide⟩ (fun _ => 1) fun _ => 0
  -- the first block of unit 1 belongs to no replica
  have hother : ∀ p ∈ oneReplicaCore.located, ∀ k < oneReplicaCore.dataSize.toNat,
      (256 : BitVec 64) ≠ p.place axdimm.mapOffset k := by
    intro p hp k hk
    have hunit : (256 : BitVec 64) = axdimm.mapOffset 1 + interleavedAddress 0 (cunitToHa 1) := by decide
    obtain ⟨hrank, hlt⟩ := hready.rank_lt hp hk
    rw [hunit]
    refine axdimm.separate ?_ (by decide) (hrank ▸ hlt)
    rw [List.mem_singleton.mp hp]
    decide
  refine ⟨create_oneReplica, device, _, hstore, (access_cons hlocated device).trans (if_pos (by decide)), ?_, ?_⟩
  · rw [view_pointer hready hp]
    exact congrFun (hcells _ hp ⟨10, by decide⟩) 15
  · rw [view_pointer hready hp]
    exact congrFun hrest ⟨256, hother⟩

end SlsAccessorCore

end Pnm.Sls
