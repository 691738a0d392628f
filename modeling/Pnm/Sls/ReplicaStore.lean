import Pnm.Lib.Runs
import Pnm.Sls.Accessor

/-!
# `Sls.ReplicaStore` — stores and reads of replicated device memory

The model of `SlsAccessorCore` (`core/memory/sls/accessor.cpp`) under `AccessorCore::access` and `AccessorCore::store`
(`include/pnmlib/core/accessor.h`): a store copies the element to every replica with `memcpy_interleaved`, a read is a
plain reference to the first byte of the element in the first replica. The elements are byte strings of `sizeof(T)`
bytes. A pointer is only good inside the mapping it was made from; any other address is a `fault`.

The units of an AXDIMM come in pairs that share a chip select, interleaved over its base block (`AxdimmLayout`, from
`sls_create_mem_info` and `make_cunit_info` of the driver). So two replicas have no byte in common
(`Ready.place_inj`), and stores can be followed byte by byte (`foldlM_storeReplica`). A read follows the device file
instead, where behind a block there is a block of the other home agent: it returns the element whatever the device
holds exactly if the element is `Contiguous`.
-/

namespace Pnm.Sls

open Pnm.Lib

/-! ## The model -/

/-- The AXDIMM blocks of one chip select: the base block, which two units share, and the blocks behind it. -/
structure AxdimmLayout where
  baseSize : Nat
  otherSize : Nat
  base_aligned : baseSize % 512 = 0
  page_aligned : (baseSize + otherSize) % 4096 = 0
  fits : 128 * (baseSize + otherSize) ≤ 2 ^ 62

namespace AxdimmLayout

variable (layout : AxdimmLayout)

/-- `map_offset` of the base block of a unit: `map_range.start` of the chip select `cunit / NR_CUNITS_PER_CS`. -/
def mapOffset (cunit : BitVec 8) : BitVec 64 :=
  BitVec.ofNat 64 (cunit.toNat / 2 * (layout.baseSize + layout.otherSize))

/-- The bytes of the base block that belong to one unit. -/
def rankSize : Nat := layout.baseSize / 2

end AxdimmLayout

/-- A `RankedRegion` on an AXDIMM: sub-region `i` is on unit `i` if it is located at all, the replicas have one size
    and start with a page of the unit's memory (the granule of the driver's pools), and there is at least one. -/
structure AxdimmRegion (layout : AxdimmLayout) where
  regions : List SequentialRegion
  size : BitVec 64
  location : ∀ (i : Nat) (r : SequentialRegion) (u : BitVec 8),
    regions[i]? = some r → r.location = some u → u.toNat = i
  replica : ∀ r ∈ regions, r.location.isSome →
    r.size = size ∧ r.start.toNat % 4096 = 0 ∧ r.start.toNat + size.toNat ≤ layout.rankSize
  nonempty : ∃ r ∈ regions, r.location.isSome

/-- A located sub-region and its unit. -/
abbrev Replica := SequentialRegion × BitVec 8

/-- `SlsAccessorCore`, with `vregion_data_` and `vregion_` side by side. -/
structure SlsAccessorCore where
  regions : List SequentialRegion
  dataSize : BitVec 64
  vregion : List (MappedData × View)

/-- The loop of `init_virtual_region`. -/
def initVirtualRegion (mmap : Mmap) (mapOffset : BitVec 8 → BitVec 64) :
    Nat → List SequentialRegion → Except AccessorError (List (MappedData × View))
  | _, []           => .ok []
  | i, sreg :: rest => do
    let entry ← initSubRegion mmap mapOffset i sreg
    let entries ← initVirtualRegion mmap mapOffset (i + 1) rest
    return entry :: entries

/-- `data_size_` after that loop. -/
def dataSizeOf (regions : List SequentialRegion) : BitVec 64 :=
  regions.foldl (fun dataSize sreg => if sreg.location.isSome ∧ dataSize = 0 then sreg.size else dataSize) 0

namespace MappedData

variable (m : MappedData)

/-- The device as it is seen through the mapping. -/
def view (device : Space) : Space := fun addr => device (m.offset + (addr - m.data))

/-- The device of which the mapping shows `seen`. -/
def unview (seen : Space) : Space := fun offset => seen (m.data + (offset - m.offset))

end MappedData

/-- The bytes of a value, at address 0 of a memory of its own. -/
def valueBytes {s : Nat} (value : Fin s → BitVec 8) : Space :=
  fun addr => if h : addr.toNat < s then value ⟨addr.toNat, h⟩ else 0

namespace SlsAccessorCore

/-- The constructor. -/
def create (mmap : Mmap) (mapOffset : BitVec 8 → BitVec 64) (regions : List SequentialRegion) :
    Except AccessorError SlsAccessorCore := do
  let vregion ← initVirtualRegion mmap mapOffset 0 regions
  return ⟨regions, dataSizeOf regions, vregion⟩

variable (core : SlsAccessorCore)

/-- The sub-regions the loops over `region_.regions` do not skip. -/
def located : List Replica := core.regions.filterMap fun r => r.location.map (r, ·)

/-- `vregion_data_[location]` and `vregion_[location]`. -/
def entry (location : BitVec 8) : MappedData × View := (core.vregion[location.toNat]?).getD ({}, {})

/-- The pointer to a byte of a replica. -/
def pointer (p : Replica) (byteOffset : BitVec 64) : InterleavedPointer :=
  (makeInterleavedPointer p.2 p.1.start (core.entry p.2).2.first).add byteOffset

/-- `access_impl`: the mapping of the first replica and the address in it. -/
def accessImpl (byteOffset : BitVec 64) : Except AccessorError (MappedData × BitVec 64) :=
  match core.located with
  | []     => .error (.invalidArguments "Access an empty region.")
  | p :: _ => .ok ((core.entry p.2).1, (core.pointer p byteOffset).get)

/-- `AccessorCore::access`, with the reference read. -/
def access (s index : Nat) (device : Space) : Except AccessorError (Fin s → BitVec 8) := do
  let (m, addr) ← core.accessImpl (BitVec.ofNat 64 (index * s))
  if ∀ j < s, m.Maps (addr + BitVec.ofNat 64 j) then
    return fun j => m.view device (addr + BitVec.ofNat 64 j)
  else throw (.fault addr)

/-- One turn of the loop of `store_impl`. -/
def storeReplica {s : Nat} (value : Fin s → BitVec 8) (byteOffset : BitVec 64) (device : Space) (p : Replica) :
    Except AccessorError Space :=
  let m := (core.entry p.2).1
  let iptr := core.pointer p byteOffset
  if ∀ j < s, m.Maps (iptr.add (BitVec.ofNat 64 j)).get then
    .ok (m.unview (memcpyToDevice (valueBytes value) 0 s iptr (m.view device)).1)
  else .error (.fault iptr.get)

/-- `AccessorCore::store`. -/
def store {s : Nat} (value : Fin s → BitVec 8) (index : Nat) (device : Space) : Except AccessorError Space :=
  core.located.foldlM (core.storeReplica value (BitVec.ofNat 64 (index * s))) device

end SlsAccessorCore

theorem valueBytes_byte {s : Nat} (value : Fin s → BitVec 8) (hs : s ≤ 2 ^ 63) (j : Fin s) :
    valueBytes value (0 + BitVec.ofNat 64 j) = value j := by
  have hj := j.isLt
  have hnat : (0 + BitVec.ofNat 64 j : BitVec 64).toNat = j := by
    rw [show (0 : BitVec 64) + BitVec.ofNat 64 j = BitVec.ofNat 64 j from BitVec.zero_add _, BitVec.toNat_ofNat]
    exact Nat.mod_eq_of_lt (by omega)
  unfold valueBytes
  rw [dif_pos (by rw [hnat]; exact hj)]
  exact congrArg value (Fin.ext hnat)

/-- Where byte `k` of a replica lies in the device file. -/
def Replica.place (mapOffset : BitVec 8 → BitVec 64) (p : Replica) (k : Nat) : BitVec 64 :=
  mapOffset p.2 + interleavedAddress (p.1.start + BitVec.ofNat 64 k) (cunitToHa p.2)

/-! ## The layout of an AXDIMM -/

namespace AxdimmLayout

variable (layout : AxdimmLayout)

theorem mapOffset_toNat (cunit : BitVec 8) :
    (layout.mapOffset cunit).toNat = cunit.toNat / 2 * (layout.baseSize + layout.otherSize) := by
  have hu := cunit.isLt
  have hfits := layout.fits
  have hle : cunit.toNat / 2 * (layout.baseSize + layout.otherSize) ≤ 128 * (layout.baseSize + layout.otherSize) :=
    Nat.mul_le_mul_right _ (by omega)
  exact Nat.mod_eq_of_lt (by omega)

theorem rankSize_lt : layout.rankSize < 2 ^ 62 := by
  have hfits := layout.fits
  have hle : layout.rankSize ≤ layout.baseSize := Nat.div_le_self _ _
  omega

theorem mapOffset_page (cunit : BitVec 8) : (layout.mapOffset cunit).toNat % 4096 = 0 := by
  rw [mapOffset_toNat, Nat.mul_mod, layout.page_aligned, Nat.mul_zero, Nat.zero_mod]

/-- The system addresses of a unit stay inside the base block. -/
theorem interleavedAddress_lt_base {r : BitVec 64} (hr : r.toNat < layout.rankSize) (cunit : BitVec 8) :
    (interleavedAddress r (cunitToHa cunit)).toNat < layout.baseSize := by
  have hfits := layout.fits
  have hal := layout.base_aligned
  unfold rankSize at hr
  rw [interleavedAddress_toNat r (cunitToHa_lt cunit), Nat.mod_eq_of_lt (by omega)]
  have hlt : homeAgents.address r.toNat ⟨(cunitToHa cunit).toNat, cunitToHa_lt cunit⟩
      < 2 * (layout.baseSize / 512) * 256 :=
    Interleaving.address_lt_iff.mpr (show r.toNat < layout.baseSize / 512 * 256 by omega)
  omega

/-- Units of different chip selects: the base block of the first ends before that of the second begins. -/
theorem base_lt {u v : BitVec 8} (huv : u.toNat / 2 < v.toNat / 2) {x : Nat} (hx : x < layout.baseSize) :
    (layout.mapOffset u).toNat + x < (layout.mapOffset v).toNat := by
  have hstep : (u.toNat / 2 + 1) * (layout.baseSize + layout.otherSize)
      ≤ v.toNat / 2 * (layout.baseSize + layout.otherSize) := Nat.mul_le_mul_right _ huv
  rw [Nat.succ_mul] at hstep
  rw [mapOffset_toNat, mapOffset_toNat]
  omega

theorem place_toNat {r : BitVec 64} (hr : r.toNat < layout.rankSize) (cunit : BitVec 8) :
    (layout.mapOffset cunit + interleavedAddress r (cunitToHa cunit)).toNat
      = (layout.mapOffset cunit).toNat + (interleavedAddress r (cunitToHa cunit)).toNat := by
  have hlt := layout.interleavedAddress_lt_base hr cunit
  have hu := cunit.isLt
  have hfits := layout.fits
  have hle : cunit.toNat / 2 * (layout.baseSize + layout.otherSize) ≤ 128 * (layout.baseSize + layout.otherSize) :=
    Nat.mul_le_mul_right _ (by omega)
  rw [BitVec.toNat_add, mapOffset_toNat]
  exact Nat.mod_eq_of_lt (by omega)

/-- **Two units have no byte in common.** -/
theorem separate {u v : BitVec 8} {r r' : BitVec 64} (huv : u ≠ v) (hr : r.toNat < layout.rankSize)
    (hr' : r'.toNat < layout.rankSize) :
    layout.mapOffset u + interleavedAddress r (cunitToHa u) ≠
      layout.mapOffset v + interleavedAddress r' (cunitToHa v) := by
  intro heq
  by_cases hpair : u.toNat / 2 = v.toNat / 2
  · -- one chip select: the home agents differ
    have hsame : layout.mapOffset u = layout.mapOffset v := by
      unfold mapOffset
      rw [hpair]
    rw [hsame] at heq
    have hha := (interleavedAddress_inj (cunitToHa_lt u) (cunitToHa_lt v) ((BitVec.add_right_inj _).mp heq)).2
    have hmod := congrArg BitVec.toNat hha
    rw [cunitToHa_toNat, cunitToHa_toNat] at hmod
    exact huv (BitVec.eq_of_toNat_eq (by omega))
  · have hnat := congrArg BitVec.toNat heq
    rw [layout.place_toNat hr, layout.place_toNat hr'] at hnat
    rcases Nat.lt_or_gt_of_ne hpair with hlt | hlt
    · have := layout.base_lt hlt (layout.interleavedAddress_lt_base hr u)
      omega
    · have := layout.base_lt hlt (layout.interleavedAddress_lt_base hr' v)
      omega

end AxdimmLayout

/-! ## The accessor of a region -/

theorem initVirtualRegion_entry {mmap : Mmap} {mapOffset : BitVec 8 → BitVec 64} {i : Nat}
    {regions : List SequentialRegion} {entries : List (MappedData × View)}
    (h : initVirtualRegion mmap mapOffset i regions = .ok entries) {k : Nat} {r : SequentialRegion}
    (hk : regions[k]? = some r) :
    ∃ entry, entries[k]? = some entry ∧ initSubRegion mmap mapOffset (i + k) r = .ok entry := by
  induction regions generalizing i entries k with
  | nil => exact absurd hk (by simp)
  | cons sreg rest ih =>
    rw [initVirtualRegion] at h
    obtain ⟨entry, hentry, h⟩ := bind_eq_ok.mp h
    obtain ⟨entries', hentries, h⟩ := bind_eq_ok.mp h
    cases h
    cases k with
    | zero =>
      cases hk
      exact ⟨entry, rfl, hentry⟩
    | succ k =>
      obtain ⟨e, he, hinit⟩ := ih hentries hk
      refine ⟨e, he, ?_⟩
      rw [← hinit, Nat.add_assoc, Nat.add_comm 1 k]

section DataSize

variable {regions : List SequentialRegion} {size : BitVec 64}

/-- A data size that is set stays. -/
theorem foldl_dataSize (hsize : ∀ r ∈ regions, r.location.isSome → r.size = size) :
    regions.foldl (fun dataSize sreg => if sreg.location.isSome ∧ dataSize = 0 then sreg.size else dataSize) size
      = size := by
  induction regions with
  | nil => rfl
  | cons r rest ih =>
    have hrest := ih fun r' hr' => hsize r' (List.mem_cons_of_mem r hr')
    rw [List.foldl_cons]
    by_cases hset : r.location.isSome ∧ size = 0
    · rw [if_pos hset, hsize r List.mem_cons_self hset.1]
      exact hrest
    · rw [if_neg hset]
      exact hrest

/-- All located sub-regions have one size, which is the size of the data. -/
theorem dataSizeOf_eq (hsize : ∀ r ∈ regions, r.location.isSome → r.size = size)
    (hne : ∃ r ∈ regions, r.location.isSome) : dataSizeOf regions = size := by
  unfold dataSizeOf
  induction regions with
  | nil =>
    obtain ⟨r, hr, -⟩ := hne
    exact absurd hr (by simp)
  | cons r rest ih =>
    have hsize' : ∀ r' ∈ rest, r'.location.isSome → r'.size = size :=
      fun r' hr' => hsize r' (List.mem_cons_of_mem r hr')
    rw [List.foldl_cons]
    by_cases hloc : r.location.isSome
    · rw [if_pos ⟨hloc, rfl⟩, hsize r List.mem_cons_self hloc]
      exact foldl_dataSize hsize'
    · obtain ⟨r', hr', hloc'⟩ := hne
      rw [if_neg fun h => hloc h.1]
      refine ih hsize' ⟨r', ?_, hloc'⟩
      rcases List.mem_cons.mp hr' with rfl | hr'
      · exact absurd hloc' hloc
      · exact hr'

end DataSize

namespace SlsAccessorCore

/-- What a new accessor of an AXDIMM region has: the size of the data, a mapping for every replica, and different
    units for different replicas. -/
structure Ready (layout : AxdimmLayout) (size : BitVec 64) (core : SlsAccessorCore) : Prop where
  dataSize : core.dataSize = size
  nonempty : core.located ≠ []
  size_eq : ∀ p ∈ core.located, p.1.size = size
  start : ∀ p ∈ core.located, p.1.start.toNat % 4096 = 0
  fits : ∀ p ∈ core.located, p.1.start.toNat + size.toNat ≤ layout.rankSize
  mapped : ∀ p ∈ core.located, Initialised layout.mapOffset p.1 p.2 (core.entry p.2).1 (core.entry p.2).2
  units : ∀ p ∈ core.located, ∀ q ∈ core.located, p.2 = q.2 → p = q

theorem mem_located {core : SlsAccessorCore} {p : Replica} :
    p ∈ core.located ↔ p.1 ∈ core.regions ∧ p.1.location = some p.2 := by
  unfold located
  rw [List.mem_filterMap]
  constructor
  · rintro ⟨r, hr, hp⟩
    obtain ⟨u, hu, rfl⟩ := Option.map_eq_some_iff.mp hp
    exact ⟨hr, hu⟩
  · rintro ⟨hr, hu⟩
    refine ⟨p.1, hr, ?_⟩
    rw [hu]
    rfl

theorem create_ready {mmap : Mmap} {layout : AxdimmLayout} (region : AxdimmRegion layout) {core : SlsAccessorCore}
    (h : create mmap layout.mapOffset region.regions = .ok core) : core.Ready layout region.size := by
  unfold create at h
  obtain ⟨vregion, hvregion, h⟩ := bind_eq_ok.mp h
  cases h
  -- sub-region `i` is on unit `i`
  have hindex (p : Replica) (hp : p ∈ located ⟨region.regions, dataSizeOf region.regions, vregion⟩) :
      region.regions[p.2.toNat]? = some p.1 := by
    obtain ⟨hmem, hloc⟩ := mem_located.mp hp
    obtain ⟨k, hk⟩ := List.mem_iff_getElem?.mp hmem
    rw [region.location k p.1 p.2 hk hloc]
    exact hk
  have hreplica (p : Replica) (hp : p ∈ located ⟨region.regions, dataSizeOf region.regions, vregion⟩) :
      p.1.size = region.size ∧ p.1.start.toNat % 4096 = 0
        ∧ p.1.start.toNat + region.size.toNat ≤ layout.rankSize := by
    obtain ⟨hmem, hloc⟩ := mem_located.mp hp
    exact region.replica p.1 hmem (by rw [hloc]; rfl)
  constructor
  · exact dataSizeOf_eq (fun r hr hloc => (region.replica r hr hloc).1) region.nonempty
  · obtain ⟨r, hr, hloc⟩ := region.nonempty
    obtain ⟨u, hu⟩ := Option.isSome_iff_exists.mp hloc
    exact List.ne_nil_of_mem (mem_located.mpr ⟨hr, hu⟩ : (r, u) ∈ _)
  · intro p hp
    exact (hreplica p hp).1
  · intro p hp
    exact (hreplica p hp).2.1
  · intro p hp
    exact (hreplica p hp).2.2
  · intro p hp
    obtain ⟨⟨m, v⟩, hentry, hinit⟩ := initVirtualRegion_entry hvregion (hindex p hp)
    unfold entry
    dsimp only
    rw [hentry, Option.getD_some]
    exact initSubRegion_some (mem_located.mp hp).2 hinit
  · intro p hp q hq hpq
    have hsame := hindex p hp
    rw [hpq, hindex q hq] at hsame
    exact Prod.ext (Option.some.inj hsame).symm hpq

/-! ## Stores, byte by byte -/

namespace Ready

variable {layout : AxdimmLayout} {size : BitVec 64} {core : SlsAccessorCore} (hready : core.Ready layout size)

include hready

theorem size_lt : size.toNat < 2 ^ 62 := by
  obtain ⟨p, hp⟩ := List.exists_mem_of_ne_nil _ hready.nonempty
  have hfits := hready.fits p hp
  have hrank := layout.rankSize_lt
  omega

theorem dataSize_toNat : core.dataSize.toNat = size.toNat := congrArg BitVec.toNat hready.dataSize

theorem rank_lt {p : Replica} (hp : p ∈ core.located) {k : Nat} (hk : k < size.toNat) :
    (p.1.start + BitVec.ofNat 64 k).toNat = p.1.start.toNat + k ∧ p.1.start.toNat + k < layout.rankSize := by
  have hfits := hready.fits p hp
  have hrank := layout.rankSize_lt
  rw [BitVec.toNat_add, BitVec.toNat_ofNat]
  omega

/-- **The bytes of the replicas lie in different places.** -/
theorem place_inj {p q : Replica} (hp : p ∈ core.located) (hq : q ∈ core.located) {k k' : Nat} (hk : k < size.toNat)
    (hk' : k' < size.toNat) (heq : p.place layout.mapOffset k = q.place layout.mapOffset k') : p = q ∧ k = k' := by
  obtain ⟨hr, hlt⟩ := hready.rank_lt hp hk
  obtain ⟨hr', hlt'⟩ := hready.rank_lt hq hk'
  unfold Replica.place at heq
  by_cases hunit : p.2 = q.2
  · obtain rfl := hready.units p hp q hq hunit
    have hrank := (interleavedAddress_inj (cunitToHa_lt p.2) (cunitToHa_lt p.2) ((BitVec.add_right_inj _).mp heq)).1
    have hlast := layout.rankSize_lt
    rw [hr, hr'] at hrank
    exact ⟨rfl, by omega⟩
  · exact absurd heq (layout.separate hunit (hr ▸ hlt) (hr' ▸ hlt'))

/-- The mapping of a replica shows byte `k` at its pointer. -/
theorem place_eq {p : Replica} (hp : p ∈ core.located) (k : Nat) :
    (core.entry p.2).1.data + (p.place layout.mapOffset k - (core.entry p.2).1.offset)
      = (core.pointer p (BitVec.ofNat 64 k)).get := by
  have hshows := (hready.mapped p hp).shows k
  unfold Replica.place pointer
  linear_combination -hshows

end Ready

section Store

variable {layout : AxdimmLayout} {size : BitVec 64} {core : SlsAccessorCore} {s base : Nat}

/-- After a store of the `s` bytes from byte `base` on to the replicas `ps`. -/
structure Stored (mapOffset : BitVec 8 → BitVec 64) (value : Fin s → BitVec 8) (base : Nat) (ps : List Replica)
    (device device' : Space) : Prop where
  written : ∀ p ∈ ps, ∀ j : Fin s, device' (p.place mapOffset (base + j)) = value j
  frame : ∀ offset, (∀ p ∈ ps, ∀ j < s, offset ≠ p.place mapOffset (base + j)) → device' offset = device offset

/-- All bytes from `base` on are mapped for the replica. -/
def Covered (core : SlsAccessorCore) (s base : Nat) (p : Replica) : Prop :=
  ∀ j < s, (core.entry p.2).1.Maps (core.pointer p (BitVec.ofNat 64 (base + j))).get

theorem Covered.part {n : Nat} {p : Replica} (h : core.Covered n 0 p) (hbase : base + s ≤ n) :
    core.Covered s base p := by
  intro j hj
  have hbyte := h (base + j) (by omega)
  rw [Nat.zero_add] at hbyte
  exact hbyte

theorem pointer_add (p : Replica) (base j : Nat) :
    (core.pointer p (BitVec.ofNat 64 base)).add (BitVec.ofNat 64 j)
      = core.pointer p (BitVec.ofNat 64 (base + j)) := by
  unfold pointer
  exact InterleavedPointer.add_add _ base j

/-- **A store to one replica.** -/
theorem storeReplica_spec (hready : core.Ready layout size) {p : Replica} (hp : p ∈ core.located)
    (hcovered : core.Covered s base p) (hs : s ≤ 2 ^ 63) (value : Fin s → BitVec 8) (device : Space) :
    ∃ device', core.storeReplica value (BitVec.ofNat 64 base) device p = .ok device' ∧
      Stored layout.mapOffset value base [p] device device' := by
  have hha : (core.pointer p (BitVec.ofNat 64 base)).ha.toNat < 2 :=
    (makeInterleavedPointer_spec p.2 p.1.start (core.entry p.2).2.first).2
  obtain ⟨-, hwritten, hframe⟩ := memcpyToDevice_spec hha hs (valueBytes value) 0
    ((core.entry p.2).1.view device)
  unfold storeReplica
  dsimp only
  refine ⟨_, if_pos fun j hj => ?_, ?_, ?_⟩
  · rw [pointer_add]
    exact hcovered j hj
  · intro q hq j
    obtain rfl := List.mem_singleton.mp hq
    unfold MappedData.unview
    rw [hready.place_eq hp, ← pointer_add, hwritten j j.isLt]
    exact valueBytes_byte value hs j
  · intro offset hoffset
    unfold MappedData.unview
    rw [hframe]
    · unfold MappedData.view
      apply congrArg device
      ring
    · intro j hj heq
      rw [pointer_add, ← hready.place_eq hp] at heq
      exact hoffset p (List.mem_singleton_self p) j hj (by linear_combination heq)

/-- **A store to several replicas.** -/
theorem foldlM_storeReplica (hready : core.Ready layout size) (hbase : base + s ≤ size.toNat) {ps : List Replica}
    (hps : ∀ p ∈ ps, p ∈ core.located) (hcovered : ∀ p ∈ ps, core.Covered s base p) (value : Fin s → BitVec 8)
    (device : Space) :
    ∃ device', ps.foldlM (core.storeReplica value (BitVec.ofNat 64 base)) device = .ok device' ∧
      Stored layout.mapOffset value base ps device device' := by
  have hsize := hready.size_lt
  induction ps generalizing device with
  | nil => exact ⟨device, rfl, fun p hp => absurd hp (by simp), fun _ _ => rfl⟩
  | cons p ps ih =>
    obtain ⟨d₁, hstep, hfirst⟩ := storeReplica_spec hready (hps p List.mem_cons_self)
      (hcovered p List.mem_cons_self) (by omega) value device
    obtain ⟨device', hrest, hlater⟩ := ih (fun q hq => hps q (List.mem_cons_of_mem p hq))
      (fun q hq => hcovered q (List.mem_cons_of_mem p hq)) d₁
    refine ⟨device', ?_, ?_, ?_⟩
    · rw [List.foldlM_cons]
      exact bind_eq_ok.mpr ⟨d₁, hstep, hrest⟩
    · intro q hq j
      by_cases hmem : q ∈ ps
      · exact hlater.written q hmem j
      · -- the later stores go elsewhere
        obtain rfl : q = p := by
          rcases List.mem_cons.mp hq with h | h
          · exact h
          · exact absurd h hmem
        rw [hlater.frame, hfirst.written q (List.mem_singleton_self q) j]
        intro q' hq' j' hj' heq
        have hsame := (hready.place_inj (hps q hq) (hps q' (List.mem_cons_of_mem q hq')) (by omega) (by omega) heq).1
        exact hmem (hsame ▸ hq')
    · intro offset hoffset
      rw [hlater.frame offset fun q hq => hoffset q (List.mem_cons_of_mem p hq)]
      apply hfirst.frame
      intro q hq
      rw [List.mem_singleton.mp hq]
      exact hoffset p List.mem_cons_self

/-- A store that succeeds has touched mapped bytes only. -/
theorem covered_of_store {value : Fin s → BitVec 8} {index : Nat} {device device' : Space}
    (h : core.store value index device = .ok device')
    {p : Replica} (hp : p ∈ core.located) : core.Covered s (index * s) p := by
  unfold store at h
  obtain ⟨d, d', hstep⟩ := exists_of_foldlM_mem h hp
  unfold storeReplica at hstep
  dsimp only at hstep
  intro j hj
  by_cases hmaps : ∀ j < s, (core.entry p.2).1.Maps
      ((core.pointer p (BitVec.ofNat 64 (index * s))).add (BitVec.ofNat 64 j)).get
  · rw [← pointer_add]
    exact hmaps j hj
  · rw [if_neg hmaps] at hstep
    cases hstep

end Store

/-! ## Reads, byte by byte -/

section Read

variable {layout : AxdimmLayout} {size : BitVec 64} {core : SlsAccessorCore} (hready : core.Ready layout size)
  {s index : Nat} {p : Replica} {ps : List Replica}

/-- The bytes of an element are one behind the other in the device file. -/
def Contiguous (mapOffset : BitVec 8 → BitVec 64) (s base : Nat) (p : Replica) : Prop :=
  ∀ j < s, p.place mapOffset (base + j) = p.place mapOffset base + BitVec.ofNat 64 j

theorem first_mem (hlocated : core.located = p :: ps) : p ∈ core.located := by
  rw [hlocated]
  exact List.mem_cons_self

theorem access_cons (hlocated : core.located = p :: ps) (device : Space) :
    core.access s index device =
      if ∀ j < s, (core.entry p.2).1.Maps
          ((core.pointer p (BitVec.ofNat 64 (index * s))).get + BitVec.ofNat 64 j) then
        .ok fun j => (core.entry p.2).1.view device
          ((core.pointer p (BitVec.ofNat 64 (index * s))).get + BitVec.ofNat 64 j)
      else .error (.fault (core.pointer p (BitVec.ofNat 64 (index * s))).get) := by
  unfold access accessImpl
  rw [hlocated]
  rfl

include hready

/-- A read goes through the device file byte by byte from the first byte of the element on. -/
theorem view_pointer (hp : p ∈ core.located) (device : Space) (base j : Nat) :
    (core.entry p.2).1.view device ((core.pointer p (BitVec.ofNat 64 base)).get + BitVec.ofNat 64 j)
      = device (p.place layout.mapOffset base + BitVec.ofNat 64 j) := by
  unfold MappedData.view
  rw [← hready.place_eq hp]
  apply congrArg device
  ring

theorem access_of_contiguous (hlocated : core.located = p :: ps) (hcovered : core.Covered s (index * s) p)
    (hcontiguous : Contiguous layout.mapOffset s (index * s) p) (device : Space) :
    core.access s index device = .ok fun j => device (p.place layout.mapOffset (index * s + j)) := by
  have hp := first_mem hlocated
  have hnext (j : Nat) (hj : j < s) : (core.pointer p (BitVec.ofNat 64 (index * s))).get + BitVec.ofNat 64 j
      = (core.pointer p (BitVec.ofNat 64 (index * s + j))).get := by
    rw [← hready.place_eq hp, ← hready.place_eq hp, hcontiguous j hj]
    ring
  rw [access_cons hlocated, if_pos]
  · apply congrArg Except.ok
    funext j
    rw [view_pointer hready hp, hcontiguous j j.isLt]
  · intro j hj
    rw [hnext j hj]
    exact hcovered j hj

/-- **Only contiguous elements are read** whatever the device holds. -/
theorem contiguous_of_access (hlocated : core.located = p :: ps)
    (h : ∀ device, core.access s index device = .ok fun j => device (p.place layout.mapOffset (index * s + j))) :
    Contiguous layout.mapOffset s (index * s) p := by
  intro j hj
  have hp := first_mem hlocated
  -- a device that differs in the place of byte `j` only
  have hread := h fun offset => if offset = p.place layout.mapOffset (index * s + j) then 1 else 0
  rw [access_cons hlocated] at hread
  split at hread
  · have hbyte := congrFun (Except.ok.inj hread) ⟨j, hj⟩
    rw [view_pointer hready hp, if_pos rfl] at hbyte
    by_contra hne
    rw [if_neg fun heq => hne heq.symm] at hbyte
    exact absurd hbyte (by decide)
  · cases hread

/-- An element inside a block is contiguous. -/
theorem contiguous_of_block (hp : p ∈ core.located) {base : Nat} (hblock : base % 256 + s ≤ 256) :
    Contiguous layout.mapOffset s base p := by
  intro j hj
  have hstart := hready.start p hp
  have hmod : (p.1.start + BitVec.ofNat 64 base).toNat % 256 = base % 256 := by
    rw [BitVec.toNat_add, BitVec.toNat_ofNat]
    omega
  unfold Replica.place
  rw [BitVec.ofNat_add, ← BitVec.add_assoc, interleavedAddress_add (by omega) (cunitToHa_lt p.2), BitVec.add_assoc]

/-- The second block of a replica does not follow the first. -/
theorem place_second_block (hp : p ∈ core.located) :
    p.place layout.mapOffset 256 ≠ p.place layout.mapOffset 0 + BitVec.ofNat 64 256 := by
  intro heq
  have hstart := hready.start p hp
  have hblock : p.1.start.toNat % 256 = 0 := by omega
  have hslot : slotOf p.2 (p.1.start.toNat + 256) = slotOf p.2 p.1.start.toNat := by
    have hpage : (p.1.start.toNat + 256) / 2 ^ 19 = p.1.start.toNat / 2 ^ 19 := by omega
    unfold slotOf
    rw [hpage]
  have hfirst := interleavedAddress_stripeOffset p.2 hblock 0
  have hsecond := interleavedAddress_stripeOffset p.2 hblock 256
  have hsum : interleavedAddress (p.1.start + BitVec.ofNat 64 256) (cunitToHa p.2)
      = interleavedAddress (p.1.start + BitVec.ofNat 64 0) (cunitToHa p.2) + BitVec.ofNat 64 256 := by
    unfold Replica.place at heq
    rw [BitVec.add_assoc] at heq
    exact (BitVec.add_right_inj _).mp heq
  rw [hsum, BitVec.toNat_add, hfirst, stripeOffset_zero] at hsecond
  unfold stripeOffset at hsecond
  rw [hslot, BitVec.toNat_ofNat] at hsecond
  omega

end Read

end SlsAccessorCore

end Pnm.Sls
