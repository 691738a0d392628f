import Pnm.Sls.LoadedTables

/-!
# `Sls.BufferContents` — the contents of buffers on the device

The model of `copy_from_device` on both buses, and of a device on which buffers are copied to and fro.

A copy to a buffer writes all its replicas, a copy from it reads the first one. What a user wants to know is that a
buffer holds what was last copied to it, whatever is copied to other buffers meanwhile, through whatever mappings. The
abstract store is the last copy to each buffer (`lastOffload`); `HoldsLastCopies` relates it to the device, every copy
keeps the relation (`HoldsLastCopies.offload`), and a copy from the device reads it off.
-/

namespace Pnm.Sls

open Pnm.Lib
open Pnm.Core (PnmAllocation)
open Pnm.Core.RankedAllocator (memoryOf memoryOfTables)

/-! ## The model -/

/-- The loop of `ChannelTransferManager::copy_from_device_impl`: it stops at the first channel that is not empty. -/
def copyFromChannel (device : Space) (dst : BitVec 64) (host : Space) :
    List (MappedData × View) → Except AccessorError (Space × Nat)
  | []                    => .ok (host, 0)
  | (m, vchannel) :: rest =>
    if vchannel.first = vchannel.last then copyFromChannel device dst host rest
    else if ∀ j < (vchannel.last - vchannel.first).toNat, m.Maps (vchannel.first + BitVec.ofNat 64 j) then
      .ok (copyN host dst (m.view device) vchannel.first (vchannel.last - vchannel.first).toNat,
        (vchannel.last - vchannel.first).toNat)
    else .error (.fault vchannel.first)

/-- The loop of `AxdimmTransferManager::copy_from_device_impl`. -/
def copyFromRank (device : Space) (dst : BitVec 64) (n : Nat) (host : Space) :
    List (SequentialRegion × MappedData × View) → Except AccessorError (Space × Nat)
  | []                            => .ok (host, 0)
  | (pregion, m, vregion) :: rest =>
    match pregion.location with
    | none          => copyFromRank device dst n host rest
    | some location =>
      if vregion.first = vregion.last then copyFromRank device dst n host rest
      else
        let ipointer := makeInterleavedPointer location pregion.start vregion.first
        if ∀ j < n, m.Maps (ipointer.add (BitVec.ofNat 64 j)).get then
          .ok (memcpyFromDevice (m.view device) ipointer n dst host)
        else .error (.fault ipointer.get)

/-- The buses, each with the blocks of its device. -/
inductive Bus where
  | cxl (layout : CxlLayout)
  | axdimm (layout : AxdimmLayout)

namespace Bus

/-- The bytes of a unit. -/
def capacity : Bus → Nat
  | cxl layout    => layout.baseSize
  | axdimm layout => layout.rankSize

/-- The place of a byte of a unit. -/
def place : Bus → Nat → Nat → BitVec 64
  | cxl layout    => layout.place
  | axdimm layout => layout.place

/-- `direct_access` and `copy_to_device`. -/
def copyToDevice (bus : Bus) (mmap : Mmap) : Transfer :=
  match bus with
  | cxl layout    => copyToChannels mmap layout.mapOffset
  | axdimm layout => copyToRanks mmap layout.mapOffset

/-- `direct_access` and `copy_from_device`, of a region to `n` bytes of the host at `dst`. -/
def copyFromDevice (bus : Bus) (mmap : Mmap) (regions : List SequentialRegion) (device : Space) (dst : BitVec 64)
    (n : Nat) (host : Space) : Except AccessorError (Space × Nat) :=
  match bus with
  | cxl layout    => do
    let entries ← initEach (initChannel mmap layout.mapOffset) 0 regions
    copyFromChannel device dst host entries
  | axdimm layout => do
    let core ← SlsAccessorCore.create mmap layout.mapOffset regions
    copyFromRank device dst n host (regions.zip core.vregion)

end Bus

/-- A copy to a buffer: which one, how its region gets mapped, and the user's data. -/
structure Offload where
  buffer : Nat
  mmap : Mmap
  host : Space
  src : BitVec 64

/-- `copy_to_device` of one of these buffers. -/
def Bus.offload (bus : Bus) (all : List (BitVec 64 × List Core.SequentialRegion)) (device : Space) (o : Offload) :
    Except AccessorError Space :=
  match all[o.buffer]? with
  | none       => .ok device
  | some table => bus.copyToDevice o.mmap (tableRegions table) o.host o.src table.1.toNat device

/-- The last copy to each buffer. -/
def lastOffload (offloads : List Offload) : Nat → Option Offload :=
  offloads.foldl (fun last o => Function.update last o.buffer (some o)) fun _ => none

/-! ## Reading -/

/-- All bytes of one of the replicas have come to the host, and nothing else has changed. -/
def ReadFrom (place : Nat → Nat → BitVec 64) (regions : List SequentialRegion) (device : Space) (dst : BitVec 64)
    (n : Nat) (host : Space) (result : Space × Nat) : Prop :=
  result.2 = n ∧ ∃ r ∈ regions, ∃ u, r.location = some u ∧
    (∀ k < n, result.1 (dst + BitVec.ofNat 64 k) = device (place u.toNat (r.start.toNat + k))) ∧
    ∀ x, (∀ k < n, x ≠ dst + BitVec.ofNat 64 k) → result.1 x = host x

section Read

variable {mmap : Mmap} {size : BitVec 64} {regions : List SequentialRegion} {device host : Space}
  {dst : BitVec 64} {result : Space × Nat}

theorem ReadFrom.mono {place : Nat → Nat → BitVec 64} {n : Nat} {r : SequentialRegion}
    (h : ReadFrom place regions device dst n host result) : ReadFrom place (r :: regions) device dst n host result := by
  obtain ⟨hcopied, r', hr', hread⟩ := h
  exact ⟨hcopied, r', List.mem_cons_of_mem _ hr', hread⟩

/-- An empty region is not the one that is located. -/
theorem located_of_cons {r : SequentialRegion} (hloc : r.location = none)
    (h : ∃ q ∈ r :: regions, q.location ≠ none) : ∃ q ∈ regions, q.location ≠ none := by
  obtain ⟨q, hq, hne⟩ := h
  rcases List.mem_cons.mp hq with rfl | hq
  · exact absurd hloc hne
  · exact ⟨q, hq, hne⟩

theorem ChannelMapped.length {mapOffset : BitVec 8 → BitVec 64} {r : SequentialRegion} {u : BitVec 8} {m : MappedData}
    {v : View} (h : ChannelMapped mapOffset r u m v) : v.last - v.first = r.size := by
  rw [h.first, h.last, BitVec.add_comm, BitVec.add_sub_cancel]

theorem copyFromChannel_reads {layout : CxlLayout} {entries : List (MappedData × View)}
    (hR : List.Forall₂ (fun r e => ∃ i, initChannel mmap layout.mapOffset i r = .ok e) regions entries)
    (hsizes : ∀ r ∈ regions, ∀ u, r.location = some u → r.size = size) (hsize : size ≠ 0)
    (hlocated : ∃ r ∈ regions, r.location ≠ none) (h : copyFromChannel device dst host entries = .ok result) :
    ReadFrom layout.place regions device dst size.toNat host result := by
  induction hR with
  | nil =>
      obtain ⟨r, hr, -⟩ := hlocated
      cases hr
  | @cons r e regions entries hre _ ih =>
      obtain ⟨i, hinit⟩ := hre
      obtain ⟨m, v⟩ := e
      cases hloc : r.location with
      | none =>
          -- an empty view, so the loop goes on
          obtain ⟨rfl, rfl⟩ := Prod.mk.inj (initChannel_none hloc hinit)
          rw [copyFromChannel, if_pos rfl] at h
          exact (ih (fun r' hr' => hsizes r' (List.mem_cons_of_mem _ hr')) (located_of_cons hloc hlocated) h).mono
      | some u =>
          have hmapped := initChannel_some hloc hinit
          have hlen : v.last - v.first = size := hmapped.length.trans (hsizes r List.mem_cons_self u hloc)
          have hne : v.first ≠ v.last := by
            intro heq
            rw [heq, BitVec.sub_self] at hlen
            exact hsize hlen.symm
          have hle : size.toNat ≤ 2 ^ 64 := Nat.le_of_lt size.isLt
          rw [copyFromChannel, if_neg hne, hlen] at h
          split at h
          · cases h
            refine ⟨rfl, r, List.mem_cons_self, u, hloc, fun k hk => ?_, fun x hx => copyN_outside hle hx⟩
            dsimp only
            rw [copyN_inside hle hk, CxlLayout.place_of_unit, MappedData.view, hmapped.first, hmapped.offset]
            exact congrArg device (by ring)
          · cases h

theorem copyFromRank_reads {layout : AxdimmLayout} {entries : List (SequentialRegion × MappedData × View)}
    (hR : List.Forall₂ (fun r (e : SequentialRegion × MappedData × View) => e.1 = r ∧
      ∃ i, initSubRegion mmap layout.mapOffset i r = .ok e.2) regions entries)
    (hsizes : ∀ r ∈ regions, ∀ u, r.location = some u → r.size = size) (hsize : size ≠ 0)
    (hlt : size.toNat < 2 ^ 63) (hlocated : ∃ r ∈ regions, r.location ≠ none)
    (h : copyFromRank device dst size.toNat host entries = .ok result) :
    ReadFrom layout.place regions device dst size.toNat host result := by
  induction hR with
  | nil =>
      obtain ⟨r, hr, -⟩ := hlocated
      cases hr
  | @cons r e regions entries hre _ ih =>
      obtain ⟨r', m, v⟩ := e
      obtain ⟨hsame, i, hinit⟩ := hre
      obtain rfl : r' = r := hsame
      rw [copyFromRank] at h
      cases hloc : r'.location with
      | none =>
          rw [hloc] at h
          exact (ih (fun r' hr' => hsizes r' (List.mem_cons_of_mem _ hr')) (located_of_cons hloc hlocated) h).mono
      | some u =>
          have hrsize := hsizes r' List.mem_cons_self u hloc
          have hne : v.first ≠ v.last := by
            intro heq
            exact hsize (hrsize.symm.trans (size_of_empty_view (hrsize ▸ hlt) hloc hinit heq))
          rw [hloc] at h
          dsimp only at h
          rw [if_neg hne] at h
          split at h
          · cases h
            have hshows := (initSubRegion_some hloc hinit).shows
            obtain ⟨hcopied, hread, hframe⟩ := memcpyFromDevice_spec
              (makeInterleavedPointer_spec u r'.start v.first).2 (Nat.le_of_lt hlt) (m.view device) dst host
            refine ⟨hcopied, r', List.mem_cons_self, u, hloc, fun k hk => ?_, hframe⟩
            rw [hread k hk, AxdimmLayout.place_of_unit, ← hshows k, MappedData.view]
          · cases h

/-- What was written through a mapping can be read through it. -/
theorem exists_copyFromChannel {layout : CxlLayout} {entries : List (MappedData × View)}
    (hR : List.Forall₂ (fun r e => ∃ i, initChannel mmap layout.mapOffset i r = .ok e) regions entries)
    (hsizes : ∀ r ∈ regions, ∀ u, r.location = some u → r.size = size) {src : BitVec 64} {user d d' : Space}
    (h : entries.foldlM (copyToChannel user src size.toNat) d = .ok d') (device host : Space) (dst : BitVec 64) :
    ∃ result, copyFromChannel device dst host entries = .ok result := by
  induction hR generalizing d with
  | nil => exact ⟨_, rfl⟩
  | @cons r e regions entries hre _ ih =>
      obtain ⟨i, hinit⟩ := hre
      obtain ⟨m, v⟩ := e
      rw [List.foldlM_cons] at h
      obtain ⟨d₁, hstep, hrest⟩ := bind_eq_ok.mp h
      rw [copyFromChannel]
      -- both loops pass over the same channels, and check the same bytes of the first that is left
      by_cases hempty : v.first = v.last
      · rw [if_pos hempty]
        exact ih (fun r' hr' => hsizes r' (List.mem_cons_of_mem _ hr')) hrest
      cases hloc : r.location with
      | none =>
          obtain ⟨rfl, rfl⟩ := Prod.mk.inj (initChannel_none hloc hinit)
          exact absurd rfl hempty
      | some u =>
          have hlen : v.last - v.first = size :=
            (initChannel_some hloc hinit).length.trans (hsizes r List.mem_cons_self u hloc)
          rw [copyToChannel, if_neg hempty] at hstep
          rw [if_neg hempty, hlen]
          split at hstep
          · next hmaps => exact ⟨_, if_pos hmaps⟩
          · cases hstep

theorem exists_copyFromRank {n : Nat} {src : BitVec 64} {user d d' : Space}
    {entries : List (SequentialRegion × MappedData × View)} (h : entries.foldlM (copyToRank user src n) d = .ok d')
    (device host : Space) (dst : BitVec 64) : ∃ result, copyFromRank device dst n host entries = .ok result := by
  induction entries generalizing d with
  | nil => exact ⟨_, rfl⟩
  | cons e entries ih =>
      obtain ⟨r, m, v⟩ := e
      rw [List.foldlM_cons] at h
      obtain ⟨d₁, hstep, hrest⟩ := bind_eq_ok.mp h
      rw [copyFromRank]
      rw [copyToRank] at hstep
      cases hloc : r.location with
      | none => exact ih hrest
      | some u =>
          rw [hloc] at hstep
          dsimp only at hstep ⊢
          by_cases hempty : v.first = v.last
          · rw [if_pos hempty]
            exact ih hrest
          rw [if_neg hempty] at hstep ⊢
          split at hstep
          · next hmaps => exact ⟨_, if_pos hmaps⟩
          · cases hstep

end Read

/-! ## One buffer -/

namespace Bus

variable {units : Nat} {all : List (BitVec 64 × List Core.SequentialRegion)}
  {table : BitVec 64 × List Core.SequentialRegion}

theorem places (bus : Bus) (hunits : units ≤ 256) : Places units bus.capacity bus.place := by
  cases bus with
  | cxl layout => exact layout.places hunits
  | axdimm layout => exact layout.places hunits

theorem copyToDevice_copied (bus : Bus) (hunits : units ≤ 256) (hroom : HasRoom units bus.capacity all)
    (htable : table ∈ all) {mmap : Mmap} {host : Space} {src : BitVec 64} {d d' : Space}
    (h : bus.copyToDevice mmap (tableRegions table) host src table.1.toNat d = .ok d') :
    Copied bus.place (tableRegions table) host src table.1.toNat d d' := by
  cases bus with
  | cxl layout => exact copiesTables_channels hunits layout hroom mmap host table htable src d d' h
  | axdimm layout => exact copiesTables_ranks hunits layout hroom mmap host table htable src d d' h

theorem copyFromDevice_reads (bus : Bus) (hroom : HasRoom units bus.capacity all) (htable : table ∈ all)
    (hlocated : ∃ r ∈ tableRegions table, r.location ≠ none) {mmap : Mmap} {device host : Space} {dst : BitVec 64}
    {result : Space × Nat}
    (h : bus.copyFromDevice mmap (tableRegions table) device dst table.1.toNat host = .ok result) :
    ReadFrom bus.place (tableRegions table) device dst table.1.toNat host result := by
  have hsizes := (hroom.replicated htable).size_eq
  have hsize := hroom.size_ne htable
  cases bus with
  | cxl layout =>
      obtain ⟨entries, hentries, hread⟩ := bind_eq_ok.mp h
      exact copyFromChannel_reads (initEach_forall₂ hentries) hsizes hsize hlocated hread
  | axdimm layout =>
      obtain ⟨core, hcore, hread⟩ := bind_eq_ok.mp h
      have hlt : table.1.toNat < 2 ^ 63 := by
        obtain ⟨r, hr, hloc⟩ := hlocated
        obtain ⟨u, hu⟩ := Option.ne_none_iff_exists'.mp hloc
        have hin := (hroom.insideUnits htable r hr u hu).2
        have hrank := layout.rankSize_lt
        simp only [capacity] at hin
        omega
      exact copyFromRank_reads (create_forall₂ hcore) hsizes hsize hlt hlocated hread

theorem exists_copyFromDevice (bus : Bus) (hroom : HasRoom units bus.capacity all) (htable : table ∈ all)
    {mmap : Mmap} {user : Space} {src : BitVec 64} {d d' : Space}
    (h : bus.copyToDevice mmap (tableRegions table) user src table.1.toNat d = .ok d') (device host : Space)
    (dst : BitVec 64) :
    ∃ result, bus.copyFromDevice mmap (tableRegions table) device dst table.1.toNat host = .ok result := by
  cases bus with
  | cxl layout =>
      obtain ⟨entries, hentries, hfold⟩ := bind_eq_ok.mp h
      obtain ⟨result, hread⟩ := exists_copyFromChannel (initEach_forall₂ hentries)
        (hroom.replicated htable).size_eq hfold device host dst
      exact ⟨result, bind_eq_ok.mpr ⟨entries, hentries, hread⟩⟩
  | axdimm layout =>
      obtain ⟨core, hcore, hfold⟩ := bind_eq_ok.mp h
      obtain ⟨result, hread⟩ := exists_copyFromRank hfold device host dst
      exact ⟨result, bind_eq_ok.mpr ⟨core, hcore, hread⟩⟩

end Bus

/-! ## All buffers -/

section Buffers

variable {units capacity : Nat} {all : List (BitVec 64 × List Core.SequentialRegion)}
  {table table' : BitVec 64 × List Core.SequentialRegion} {i j : Nat}

/-- Two buffers have no memory in common. -/
theorem HasRoom.buffers_apart (hroom : HasRoom units capacity all) (hij : i ≠ j) (hi : all[i]? = some table)
    (hj : all[j]? = some table') {m m' : PnmAllocation} (hm : m ∈ memoryOf table.2) (hm' : m' ∈ memoryOf table'.2) :
    m.Apart m' := by
  have hpairs := (List.pairwise_flatMap.mp hroom.apart).2
  obtain ⟨hilt, rfl⟩ := List.getElem?_eq_some_iff.mp hi
  obtain ⟨hjlt, rfl⟩ := List.getElem?_eq_some_iff.mp hj
  rcases Nat.lt_or_gt_of_ne hij with hlt | hgt
  · exact List.pairwise_iff_getElem.mp hpairs i j hilt hjlt hlt m hm m' hm'
  · intro hpool
    exact (List.pairwise_iff_getElem.mp hpairs j i hjlt hilt hgt m' hm' m hm hpool.symm).symm

/-- So no byte of one is a byte of the other. -/
theorem HasRoom.place_ne {place : Nat → Nat → BitVec 64} (hplaces : Places units capacity place)
    (hroom : HasRoom units capacity all) (hij : i ≠ j) (hi : all[i]? = some table) (hj : all[j]? = some table')
    {r r' : SequentialRegion} (hr : r ∈ tableRegions table) (hr' : r' ∈ tableRegions table') {u u' : BitVec 8}
    (hu : r.location = some u) (hu' : r'.location = some u') {k k' : Nat} (hk : k < table.1.toNat)
    (hk' : k' < table'.1.toNat) : place u.toNat (r.start.toNat + k) ≠ place u'.toNat (r'.start.toNat + k') := by
  obtain ⟨q, hq, rfl⟩ := List.mem_map.mp hr
  obtain ⟨q', hq', rfl⟩ := List.mem_map.mp hr'
  obtain ⟨m, hm, hpool, haddr, hsize, -, hlt, hin⟩ := hroom.replica (List.mem_of_getElem? hi) hq hu
  obtain ⟨m', hm', hpool', haddr', hsize', -, hlt', hin'⟩ := hroom.replica (List.mem_of_getElem? hj) hq' hu'
  intro heq
  change place u.toNat (q.start.toNat + k) = place u'.toNat (q'.start.toNat + k') at heq
  obtain ⟨hunit, hbyte⟩ := hplaces hlt hlt' (by omega) (by omega) heq
  have hapart := hroom.buffers_apart hij hi hj hm hm' (by rw [hpool, hpool']; exact BitVec.eq_of_toNat_eq hunit)
  rw [haddr, haddr', hsize, hsize'] at hapart
  omega

/-- The device holds these copies: each was made, and its data is in all replicas of its buffer. -/
def HoldsLastCopies (bus : Bus) (all : List (BitVec 64 × List Core.SequentialRegion)) (last : Nat → Option Offload)
    (device : Space) : Prop :=
  ∀ j table o, all[j]? = some table → last j = some o →
    (∃ d d', bus.copyToDevice o.mmap (tableRegions table) o.host o.src table.1.toNat d = .ok d') ∧
      ∀ r ∈ tableRegions table, ∀ u, r.location = some u → ∀ k < table.1.toNat,
        device (bus.place u.toNat (r.start.toNat + k)) = o.host (o.src + BitVec.ofNat 64 k)

variable {bus : Bus} {last : Nat → Option Offload} {device device' : Space}

/-- **One copy** replaces the contents of its buffer, and of no other. -/
theorem HoldsLastCopies.offload (hunits : units ≤ 256) (hroom : HasRoom units bus.capacity all) {o : Offload}
    (h : HoldsLastCopies bus all last device) (hstep : bus.offload all device o = .ok device') :
    HoldsLastCopies bus all (Function.update last o.buffer (some o)) device' := by
  intro j table o' hj ho'
  rw [Bus.offload] at hstep
  by_cases hsame : j = o.buffer
  · subst hsame
    rw [Function.update_self] at ho'
    obtain rfl := Option.some.inj ho'
    rw [hj] at hstep
    have hcopied := bus.copyToDevice_copied hunits hroom (List.mem_of_getElem? hj) hstep
    exact ⟨⟨_, _, hstep⟩, hcopied.written⟩
  rw [Function.update_of_ne hsame] at ho'
  obtain ⟨hmade, hbytes⟩ := h j table o' hj ho'
  refine ⟨hmade, fun r hr u hu k hk => ?_⟩
  cases hbuffer : all[o.buffer]? with
  | none =>
      rw [hbuffer] at hstep
      cases hstep
      exact hbytes r hr u hu k hk
  | some other =>
      rw [hbuffer] at hstep
      have hcopied := bus.copyToDevice_copied hunits hroom (List.mem_of_getElem? hbuffer) hstep
      rw [hcopied.frame, hbytes r hr u hu k hk]
      intro r' hr' u' hu' k' hk'
      exact hroom.place_ne (bus.places hunits) hsame hj hbuffer hr hr' hu hu' hk hk'

/-- Any number of copies. -/
theorem HoldsLastCopies.foldlM (hunits : units ≤ 256) (hroom : HasRoom units bus.capacity all) {offloads : List Offload}
    (h : HoldsLastCopies bus all last device) (hrun : offloads.foldlM (bus.offload all) device = .ok device') :
    HoldsLastCopies bus all (offloads.foldl (fun last o => Function.update last o.buffer (some o)) last) device' := by
  induction offloads generalizing last device with
  | nil =>
      cases hrun
      exact h
  | cons o offloads ih =>
      rw [List.foldlM_cons] at hrun
      obtain ⟨d, hstep, hrest⟩ := bind_eq_ok.mp hrun
      exact ih (h.offload hunits hroom hstep) hrest

theorem holdsLastCopies_lastOffload (hunits : units ≤ 256) (hroom : HasRoom units bus.capacity all)
    {offloads : List Offload}
    (hrun : offloads.foldlM (bus.offload all) device = .ok device') :
    HoldsLastCopies bus all (lastOffload offloads) device' := by
  refine HoldsLastCopies.foldlM hunits hroom (fun j table o _ hnone => ?_) hrun
  cases hnone

end Buffers

/-- **A buffer holds what was last copied to it**, on either bus and whatever is copied to other buffers. It can be read
    through the mapping of that copy; through any mapping, what is read is all of its data, and no other byte of the
    host changes. -/
theorem buffer_holds_last_copy (bus : Bus) {units : Nat} (hunits : units ≤ 256)
    {all : List (BitVec 64 × List Core.SequentialRegion)} (hroom : HasRoom units bus.capacity all)
    {offloads : List Offload} {device device' : Space} (hrun : offloads.foldlM (bus.offload all) device = .ok device')
    {j : Nat} {table : BitVec 64 × List Core.SequentialRegion} (hj : all[j]? = some table) {o : Offload}
    (hlast : lastOffload offloads j = some o) (dst : BitVec 64) (host : Space) :
    (∃ result, bus.copyFromDevice o.mmap (tableRegions table) device' dst table.1.toNat host = .ok result) ∧
      ∀ mmap host' copied,
        bus.copyFromDevice mmap (tableRegions table) device' dst table.1.toNat host = .ok (host', copied) →
          copied = table.1.toNat ∧
          (∀ k < table.1.toNat, host' (dst + BitVec.ofNat 64 k) = o.host (o.src + BitVec.ofNat 64 k)) ∧
          ∀ x, (∀ k < table.1.toNat, x ≠ dst + BitVec.ofNat 64 k) → host' x = host x := by
  have htable := List.mem_of_getElem? hj
  obtain ⟨⟨d, d', hmade⟩, hbytes⟩ := holdsLastCopies_lastOffload hunits hroom hrun j table o hj hlast
  refine ⟨bus.exists_copyFromDevice hroom htable hmade device' host dst, fun mmap host' copied hread => ?_⟩
  have hlocated : ∃ r ∈ tableRegions table, r.location ≠ none := by
    obtain ⟨r, hr, hne⟩ := (hroom.onUnits table htable).located
    exact ⟨.ofCore r, List.mem_map_of_mem hr, hne⟩
  obtain ⟨hcopied, r, hr, u, hu, hsame, hframe⟩ := bus.copyFromDevice_reads hroom htable hlocated hread
  exact ⟨hcopied, fun k hk => (hsame k hk).trans (hbytes r hr u hu k hk), hframe⟩

/-- A buffer of 64 bytes at `start` of both units. -/
def onBothUnits (start : BitVec 64) : BitVec 64 × List Core.SequentialRegion :=
  (64, [⟨start, 64, some 0, 0⟩, ⟨start, 64, some 1, 0⟩])

theorem onBothUnits_onUnits (start : BitVec 64) : Core.OnUnits 2 64 (onBothUnits start).2 where
  length := rfl
  placed i region hi := by
    rcases i with _ | _ | i
    · obtain rfl := Option.some.inj hi
      exact .inr ⟨0, rfl, rfl, rfl⟩
    · obtain rfl := Option.some.inj hi
      exact .inr ⟨1, rfl, rfl, rfl⟩
    · cases hi
  located := ⟨_, List.mem_cons_self, Option.some_ne_none _⟩
  pos := by decide

theorem twoBuffers_hasRoom : HasRoom 2 (Bus.cxl twoChannels).capacity [onBothUnits 0, onBothUnits 4096] where
  onUnits table htable := by
    rcases List.mem_pair.mp htable with rfl | rfl
    · exact onBothUnits_onUnits 0
    · exact onBothUnits_onUnits 4096
  inside := by decide
  apart := by unfold PnmAllocation.Apart; decide

/-- The first of two buffers is filled, then the second, then the first once more. -/
theorem buffer_holds_last_copy_two_buffers :
    ∃ device' host', [⟨0, mmapAtZero, fun _ => 1, 0⟩, ⟨1, mmapAtZero, fun _ => 2, 0⟩,
        ⟨0, mmapAtZero, fun _ => 3, 0⟩].foldlM
          ((Bus.cxl twoChannels).offload [onBothUnits 0, onBothUnits 4096]) (fun _ => 0) = .ok device' ∧
      (Bus.cxl twoChannels).copyFromDevice mmapAtZero (tableRegions (onBothUnits 0)) device' 8 64 (fun _ => 7)
          = .ok (host', 64) ∧
      host' 8 = 3 ∧ host' 0 = 7 := by
  have hstep : ∀ (d : Space) (o : Offload), o.buffer < 2 → o.mmap = mmapAtZero →
      ∃ d', (Bus.cxl twoChannels).offload [onBothUnits 0, onBothUnits 4096] d o = .ok d' := by
    rintro d ⟨b, mmap, user, src⟩ hb rfl
    obtain ⟨table, htable⟩ : ∃ table, [onBothUnits 0, onBothUnits 4096][b]? = some table :=
      ⟨_, List.getElem?_eq_getElem hb⟩
    rw [Bus.offload, htable]
    exact exists_channel_copy twoChannels twoBuffers_hasRoom mmapAtZero_ne_none user (List.mem_of_getElem? htable) src
      d
  obtain ⟨d₁, h₁⟩ := hstep (fun _ => 0) ⟨0, mmapAtZero, fun _ => 1, 0⟩ (by decide) rfl
  obtain ⟨d₂, h₂⟩ := hstep d₁ ⟨1, mmapAtZero, fun _ => 2, 0⟩ (by decide) rfl
  obtain ⟨d₃, h₃⟩ := hstep d₂ ⟨0, mmapAtZero, fun _ => 3, 0⟩ (by decide) rfl
  have hrun : [⟨0, mmapAtZero, fun _ => 1, 0⟩, ⟨1, mmapAtZero, fun _ => 2, 0⟩,
      ⟨0, mmapAtZero, fun _ => 3, 0⟩].foldlM ((Bus.cxl twoChannels).offload [onBothUnits 0, onBothUnits 4096])
        (fun _ => 0) = .ok d₃ :=
    bind_eq_ok.mpr ⟨d₁, h₁, bind_eq_ok.mpr ⟨d₂, h₂, bind_eq_ok.mpr ⟨d₃, h₃, rfl⟩⟩⟩
  obtain ⟨⟨⟨host', copied⟩, hread⟩, hall⟩ := buffer_holds_last_copy (.cxl twoChannels) (by decide) twoBuffers_hasRoom
    hrun (j := 0) rfl rfl 8 fun _ => 7
  obtain ⟨hcopied, hbytes, hframe⟩ := hall mmapAtZero host' copied hread
  obtain rfl : copied = 64 := hcopied
  exact ⟨d₃, host', hrun, hread, hbytes 0 (by decide), hframe 0 (by decide)⟩

end Pnm.Sls
