import Pnm.Core.EmbeddingTables
import Pnm.Lib.ByteMem
import Pnm.Sls.ReplicaStore

/-!
# `Sls.TableTransfer` — copying tables to the units

The model of `EmbeddingTables::transfer_data`, and under it of the two ways to reach the units: through a mapping of
the channel's memory (`ChannelAccessorCore` and `ChannelTransferManager`, CXL), and through a mapping of the base block
that two units share (`SlsAccessorCore` and `AxdimmTransferManager`).

On both, byte `x` of unit `c` has a place of its own in the device file (`Places`), and a copy of a table puts the
bytes at the places of all its replicas and leaves the other places alone (`Copied`). The tables have memory of their
own, so no copy spoils an earlier one (`transferData_written`).
-/

namespace Pnm.Sls

open Pnm.Lib

/-! ## The model -/

/-- `fast_align_up`. -/
def fastAlignUp (value alignment : BitVec 64) : BitVec 64 := (value + alignment - 1) &&& ~~~(alignment - 1)

/-- `page_size` of the channel accessor: DAX uses huge pages. -/
def channelPageSize : BitVec 64 := 2 <<< 20

/-- A region of the library, as the accessors read it. -/
def SequentialRegion.ofCore (region : Core.SequentialRegion) : SequentialRegion :=
  { start := region.start, size := region.size, location := region.location }

/-- One turn of the loop in the constructor of `ChannelAccessorCore`. -/
def initChannel (mmap : Mmap) (baseOffsets : BitVec 8 → BitVec 64) (i : Nat) (sreg : SequentialRegion) :
    Except AccessorError (MappedData × View) :=
  match sreg.location with
  | none          => .ok ({}, {})
  | some location => do
    let data ← MappedData.create mmap i (fastAlignUp sreg.size channelPageSize) "device"
      (sreg.start + baseOffsets location)
    return (data, ⟨data.data, data.data + sreg.size⟩)

/-- The loop in the constructor of an accessor, from sub-region `i` on. -/
def initEach (init : Nat → SequentialRegion → Except AccessorError (MappedData × View)) :
    Nat → List SequentialRegion → Except AccessorError (List (MappedData × View))
  | _, []           => .ok []
  | i, sreg :: rest => do
    let entry ← init i sreg
    let entries ← initEach init (i + 1) rest
    return entry :: entries

/-- One turn of the loop of `ChannelTransferManager::copy_to_device_impl`. -/
def copyToChannel (host : Space) (src : BitVec 64) (n : Nat) (device : Space) (entry : MappedData × View) :
    Except AccessorError Space :=
  let (m, vchannel) := entry
  if vchannel.first = vchannel.last then .ok device
  else if ∀ j < n, m.Maps (vchannel.first + BitVec.ofNat 64 j) then
    .ok (m.unview (copyN (m.view device) vchannel.first host src n))
  else .error (.fault vchannel.first)

/-- One turn of the loop of `AxdimmTransferManager::copy_to_device_impl`. -/
def copyToRank (host : Space) (src : BitVec 64) (n : Nat) (device : Space)
    (entry : SequentialRegion × MappedData × View) : Except AccessorError Space :=
  let (pregion, m, vregion) := entry
  match pregion.location with
  | none          => .ok device
  | some location =>
    if vregion.first = vregion.last then .ok device
    else
      let ipointer := makeInterleavedPointer location pregion.start vregion.first
      if ∀ j < n, m.Maps (ipointer.add (BitVec.ofNat 64 j)).get then
        .ok (m.unview (memcpyToDevice host src n ipointer (m.view device)).1)
      else .error (.fault ipointer.get)

/-- A copy of `n` bytes at an address of the host to a region, on the device file. -/
abbrev Transfer := List SequentialRegion → Space → BitVec 64 → Nat → Space → Except AccessorError Space

/-- `direct_access` and `copy_to_device` on a CXL device. -/
def copyToChannels (mmap : Mmap) (baseOffsets : BitVec 8 → BitVec 64) : Transfer := fun regions host src n device => do
  let entries ← initEach (initChannel mmap baseOffsets) 0 regions
  entries.foldlM (copyToChannel host src n) device

/-- `direct_access` and `copy_to_device` on an AXDIMM. -/
def copyToRanks (mmap : Mmap) (mapOffset : BitVec 8 → BitVec 64) : Transfer := fun regions host src n device => do
  let core ← SlsAccessorCore.create mmap mapOffset regions
  (regions.zip core.vregion).foldlM (copyToRank host src n) device

/-- What `transfer_data` can throw. -/
inductive TransferError where
  | accessor (e : AccessorError)
  | invalidArguments (message : String)
  | badVariantAccess

/-- `Buffer::bind_user_region` with as many bytes as the buffer has, and `Buffer::copy_to_device`. -/
def copyBuffer (copy : Transfer) (host : Space) (first : BitVec 64) (buffer : Core.RegionBuffer) (device : Space) :
    Except TransferError Space :=
  match buffer.devRegion.value with
  | .sequential _   => .error .badVariantAccess
  | .ranked regions =>
    if buffer.size = 0 then .error (.invalidArguments "Unable to offload empty user region.")
    else (copy (regions.map .ofCore) host first buffer.size.toNat device).mapError .accessor

/-- The loop of `transfer_data`. -/
def transferData (copy : Transfer) (host : Space) :
    BitVec 64 → List Core.RegionBuffer → Space → Except TransferError Space
  | _, [], device                   => .ok device
  | first, buffer :: buffers, device => do
    let device ← copyBuffer copy host first buffer device
    transferData copy host (first + buffer.size) buffers device

/-! ## Places -/

/-- The place of byte `x < capacity` of unit `c < units` is that of no other byte. -/
def Places (units capacity : Nat) (place : Nat → Nat → BitVec 64) : Prop :=
  ∀ {c c' x x'}, c < units → c' < units → x < capacity → x' < capacity → place c x = place c' x' → c = c' ∧ x = x'

/-- The memory of unit `c`. -/
def unitMem (place : Nat → Nat → BitVec 64) (device : Space) (c : Nat) : Mem := fun x => device (place c x)

/-- Bytes from `src` on are at the start of each replica, and nothing else has changed. -/
structure Copied (place : Nat → Nat → BitVec 64) (regions : List SequentialRegion) (host : Space) (src : BitVec 64)
    (n : Nat) (device device' : Space) : Prop where
  written : ∀ r ∈ regions, ∀ u, r.location = some u → ∀ k < n,
    device' (place u.toNat (r.start.toNat + k)) = host (src + BitVec.ofNat 64 k)
  frame : ∀ x, (∀ r ∈ regions, ∀ u, r.location = some u → ∀ k < n, x ≠ place u.toNat (r.start.toNat + k)) →
    device' x = device x

/-- The replicas lie inside their units. -/
def Inside (units capacity n : Nat) (regions : List SequentialRegion) : Prop :=
  ∀ r ∈ regions, ∀ u, r.location = some u → u.toNat < units ∧ r.start.toNat + n ≤ capacity

section Fold

variable {β : Type} {step : Space → β → Except AccessorError Space} {R : SequentialRegion → β → Prop}
  {units capacity n : Nat} {place : Nat → Nat → BitVec 64} {regions : List SequentialRegion} {entries : List β}
  {host : Space} {src : BitVec 64} {device device' : Space}

theorem copied_nil : Copied place [] host src n device device where
  written _ h := nomatch h
  frame _ _ := rfl

/-- Copies of one replica after the other. -/
theorem Copied.cons (hplaces : Places units capacity place) {r : SequentialRegion} {device₁ : Space}
    (hinside : Inside units capacity n (r :: regions))
    (happart : ∀ r' ∈ regions, ∀ u, r.location = some u → r'.location ≠ some u)
    (hfirst : Copied place [r] host src n device device₁) (hrest : Copied place regions host src n device₁ device') :
    Copied place (r :: regions) host src n device device' := by
  refine ⟨fun r' hr' u hu k hk => ?_, fun x hx => ?_⟩
  · rcases List.mem_cons.mp hr' with rfl | hr'
    · rw [hrest.frame, hfirst.written r' (List.mem_singleton_self r') u hu k hk]
      -- the later replicas are on other units
      intro q hq v hv j hj heq
      obtain ⟨hlt, hin⟩ := hinside r' List.mem_cons_self u hu
      obtain ⟨hlt', hin'⟩ := hinside q (List.mem_cons_of_mem _ hq) v hv
      have hunit := (hplaces hlt hlt' (by omega) (by omega) heq).1
      exact happart q hq u hu (hv.trans (congrArg some (BitVec.eq_of_toNat_eq hunit.symm)))
    · exact hrest.written r' hr' u hu k hk
  · rw [hrest.frame x fun q hq => hx q (List.mem_cons_of_mem _ hq)]
    refine hfirst.frame x fun q hq => ?_
    rw [List.mem_singleton.mp hq]
    exact hx r List.mem_cons_self

/-- **The loop over the replicas.** -/
theorem copied_of_foldlM (hplaces : Places units capacity place) (hinside : Inside units capacity n regions)
    (happart : regions.Pairwise fun r r' => ∀ u, r.location = some u → r'.location ≠ some u)
    (hR : List.Forall₂ R regions entries)
    (hstep : ∀ r ∈ regions, ∀ e d d', R r e → step d e = .ok d' → Copied place [r] host src n d d')
    (h : entries.foldlM step device = .ok device') : Copied place regions host src n device device' := by
  induction hR generalizing device with
  | nil =>
      cases h
      exact copied_nil
  | @cons r e regions entries hre _ ih =>
      rw [List.foldlM_cons] at h
      obtain ⟨device₁, hfirst, hrest⟩ := bind_eq_ok.mp h
      obtain ⟨hhead, htail⟩ := List.pairwise_cons.mp happart
      exact .cons hplaces hinside hhead (hstep r List.mem_cons_self e device device₁ hre hfirst)
        (ih (fun r' hr' => hinside r' (List.mem_cons_of_mem _ hr')) htail
          (fun r' hr' => hstep r' (List.mem_cons_of_mem _ hr')) hrest)

theorem exists_foldlM_ok (hR : List.Forall₂ R regions entries)
    (hstep : ∀ r ∈ regions, ∀ e d, R r e → ∃ d', step d e = .ok d') (device : Space) :
    ∃ device', entries.foldlM step device = .ok device' := by
  induction hR generalizing device with
  | nil => exact ⟨device, rfl⟩
  | @cons r e regions entries hre _ ih =>
      obtain ⟨device₁, hfirst⟩ := hstep r List.mem_cons_self e device hre
      obtain ⟨device', hrest⟩ := ih (fun r' hr' => hstep r' (List.mem_cons_of_mem _ hr')) device₁
      refine ⟨device', ?_⟩
      rw [List.foldlM_cons]
      exact bind_eq_ok.mpr ⟨device₁, hfirst, hrest⟩

end Fold

theorem initEach_forall₂ {init : Nat → SequentialRegion → Except AccessorError (MappedData × View)} {i : Nat}
    {regions : List SequentialRegion} {entries : List (MappedData × View)} (h : initEach init i regions = .ok entries) :
    List.Forall₂ (fun r e => ∃ i, init i r = .ok e) regions entries := by
  induction regions generalizing i entries with
  | nil =>
      cases h
      exact .nil
  | cons r regions ih =>
      rw [initEach] at h
      obtain ⟨entry, hentry, h⟩ := bind_eq_ok.mp h
      obtain ⟨rest, hrest, h⟩ := bind_eq_ok.mp h
      cases h
      exact .cons ⟨i, hentry⟩ (ih hrest)

theorem exists_initEach {init : Nat → SequentialRegion → Except AccessorError (MappedData × View)}
    {regions : List SequentialRegion} (h : ∀ r ∈ regions, ∀ i, ∃ entry, init i r = .ok entry) (i : Nat) :
    ∃ entries, initEach init i regions = .ok entries := by
  induction regions generalizing i with
  | nil => exact ⟨[], rfl⟩
  | cons r regions ih =>
      obtain ⟨entry, hentry⟩ := h r List.mem_cons_self i
      obtain ⟨entries, hentries⟩ := ih (fun r' hr' => h r' (List.mem_cons_of_mem _ hr')) (i + 1)
      exact ⟨entry :: entries, bind_eq_ok.mpr ⟨entry, hentry, bind_eq_ok.mpr ⟨entries, hentries, rfl⟩⟩⟩

/-! ## Channels -/

/-- The blocks of a CXL channel: the base block and the blocks behind it. -/
structure CxlLayout where
  baseSize : Nat
  otherSize : Nat
  fits : 256 * (baseSize + otherSize) ≤ 2 ^ 62

namespace CxlLayout

variable (layout : CxlLayout)

/-- `map_offset` of the base block of a channel. -/
def mapOffset (cunit : BitVec 8) : BitVec 64 := BitVec.ofNat 64 (cunit.toNat * (layout.baseSize + layout.otherSize))

/-- The place of byte `x` of channel `c`. -/
def place (c x : Nat) : BitVec 64 := layout.mapOffset (BitVec.ofNat 8 c) + BitVec.ofNat 64 x

theorem place_toNat {c x : Nat} (hc : c < 256) (hx : x < layout.baseSize) :
    (layout.place c x).toNat = c * (layout.baseSize + layout.otherSize) + x := by
  have hfits := layout.fits
  have hle : (c + 1) * (layout.baseSize + layout.otherSize) ≤ 256 * (layout.baseSize + layout.otherSize) :=
    Nat.mul_le_mul_right _ hc
  rw [Nat.succ_mul] at hle
  rw [place, mapOffset, BitVec.toNat_add, BitVec.toNat_ofNat, BitVec.toNat_ofNat, BitVec.toNat_ofNat,
    Nat.mod_eq_of_lt (show c < 2 ^ 8 from hc), Nat.mod_eq_of_lt (show x < 2 ^ 64 by omega), Nat.mod_eq_of_lt (by omega),
    Nat.mod_eq_of_lt (by omega)]

/-- **No two channels share a byte.** -/
theorem places {units : Nat} (hunits : units ≤ 256) : Places units layout.baseSize layout.place := by
  intro c c' x x' hc hc' hx hx' heq
  have hnat := congrArg BitVec.toNat heq
  rw [layout.place_toNat (by omega) hx, layout.place_toNat (by omega) hx'] at hnat
  have hsame : c = c' := by
    rcases Nat.lt_trichotomy c c' with hlt | heq | hgt
    · have hle : (c + 1) * (layout.baseSize + layout.otherSize) ≤ c' * (layout.baseSize + layout.otherSize) :=
        Nat.mul_le_mul_right _ hlt
      rw [Nat.succ_mul] at hle
      omega
    · exact heq
    · have hle : (c' + 1) * (layout.baseSize + layout.otherSize) ≤ c * (layout.baseSize + layout.otherSize) :=
        Nat.mul_le_mul_right _ hgt
      rw [Nat.succ_mul] at hle
      omega
  subst hsame
  exact ⟨rfl, by omega⟩

end CxlLayout

section Channel

variable {mmap : Mmap} {baseOffsets : BitVec 8 → BitVec 64} {i : Nat} {sreg : SequentialRegion} {cunit : BitVec 8}
  {m : MappedData} {v : View}

theorem and_not_pageMask_toNat (y : BitVec 64) :
    (y &&& ~~~(channelPageSize - 1)).toNat = y.toNat / 2 ^ 21 * 2 ^ 21 := by
  have hsplit : y &&& ~~~(channelPageSize - 1) = y >>> 21 <<< 21 := by
    rw [show channelPageSize - 1 = BitVec.ofNat 64 (2 ^ 21 - 1) from rfl]
    apply BitVec.eq_of_getLsbD_eq
    intro j hj
    rw [BitVec.getLsbD_and, BitVec.getLsbD_not, BitVec.getLsbD_ofNat, BitVec.getLsbD_shiftLeft,
      BitVec.getLsbD_ushiftRight, Nat.testBit_two_pow_sub_one]
    by_cases hlow : j < 21
    · simp [hj, hlow]
    · simp [hj, hlow, Nat.add_sub_cancel' (Nat.le_of_not_lt hlow)]
  have hlt := y.isLt
  rw [hsplit, BitVec.toNat_shiftLeft, BitVec.toNat_ushiftRight, Nat.shiftRight_eq_div_pow, Nat.shiftLeft_eq,
    Nat.mod_eq_of_lt (by omega)]

theorem fastAlignUp_toNat (size : BitVec 64) :
    (fastAlignUp size channelPageSize).toNat = (size.toNat + (2 ^ 21 - 1)) % 2 ^ 64 / 2 ^ 21 * 2 ^ 21 := by
  have hadd : size + channelPageSize - 1 = size + BitVec.ofNat 64 (2 ^ 21 - 1) := by
    rw [BitVec.sub_eq_add_neg, BitVec.add_assoc]
    rfl
  rw [fastAlignUp, and_not_pageMask_toNat, hadd, BitVec.toNat_add, BitVec.toNat_ofNat]
  rfl

/-- The mapping of a channel is long enough, unless its length is 0. -/
theorem le_fastAlignUp {size : BitVec 64} (h : fastAlignUp size channelPageSize ≠ 0) :
    size.toNat ≤ (fastAlignUp size channelPageSize).toNat := by
  have hsize := size.isLt
  have hne : (fastAlignUp size channelPageSize).toNat ≠ 0 := fun hzero => h (BitVec.eq_of_toNat_eq hzero)
  rw [fastAlignUp_toNat] at hne ⊢
  omega

theorem fastAlignUp_ne_zero {size : BitVec 64} (hpos : 0 < size.toNat) (hlt : size.toNat < 2 ^ 63) :
    fastAlignUp size channelPageSize ≠ 0 := by
  intro hzero
  have htoNat : (fastAlignUp size channelPageSize).toNat = 0 := congrArg BitVec.toNat hzero
  rw [fastAlignUp_toNat] at htoNat
  omega

/-- What a successful turn of the loop leaves behind. -/
structure ChannelMapped (baseOffsets : BitVec 8 → BitVec 64) (sreg : SequentialRegion) (cunit : BitVec 8)
    (m : MappedData) (v : View) : Prop where
  offset : m.offset = sreg.start + baseOffsets cunit
  first : v.first = m.data
  last : v.last = m.data + sreg.size
  len : sreg.size.toNat ≤ m.len.toNat

theorem initChannel_some (hloc : sreg.location = some cunit) (h : initChannel mmap baseOffsets i sreg = .ok (m, v)) :
    ChannelMapped baseOffsets sreg cunit m v := by
  unfold initChannel MappedData.create at h
  rw [hloc] at h
  dsimp only at h
  split at h
  · cases h
  · rename_i data hdata
    cases h
    refine ⟨rfl, rfl, rfl, le_fastAlignUp fun hzero => ?_⟩
    rw [hzero, mmap.map_zero] at hdata
    cases hdata

variable {layout : CxlLayout} {host : Space} {src : BitVec 64} {device device' : Space}

theorem CxlLayout.place_of_unit (cunit : BitVec 8) (start : BitVec 64) (k : Nat) :
    layout.place cunit.toNat (start.toNat + k) = layout.mapOffset cunit + (start + BitVec.ofNat 64 k) := by
  rw [place, BitVec.ofNat_toNat, BitVec.setWidth_eq, BitVec.ofNat_add, BitVec.ofNat_toNat, BitVec.setWidth_eq]

/-- **A copy through the mapping of a channel.** -/
theorem copyToChannel_copied (hmapped : ChannelMapped layout.mapOffset sreg cunit m v)
    (hloc : sreg.location = some cunit)
    (h : copyToChannel host src sreg.size.toNat device (m, v) = .ok device') :
    Copied layout.place [sreg] host src sreg.size.toNat device device' := by
  have hsize : sreg.size.toNat ≤ 2 ^ 64 := Nat.le_of_lt sreg.size.isLt
  have hplace : ∀ k, layout.place cunit.toNat (sreg.start.toNat + k) = m.offset + BitVec.ofNat 64 k := by
    intro k
    rw [CxlLayout.place_of_unit, hmapped.offset]
    ring
  unfold copyToChannel at h
  dsimp only at h
  split at h
  · -- an empty view is that of an empty region
    rename_i hempty
    have hzero : sreg.size = 0 := by
      rw [hmapped.first, hmapped.last] at hempty
      exact BitVec.add_right_eq_self.mp hempty.symm
    cases h
    rw [hzero]
    exact ⟨fun _ _ _ _ k hk => absurd hk (Nat.not_lt_zero k), fun _ _ => rfl⟩
  split at h
  · cases h
    refine ⟨fun r hr u hu k hk => ?_, fun x hx => ?_⟩
    · rw [List.mem_singleton.mp hr] at hu ⊢
      obtain rfl := Option.some.inj (hloc.symm.trans hu)
      rw [hplace, MappedData.unview, hmapped.first,
        show m.data + (m.offset + BitVec.ofNat 64 k - m.offset) = m.data + BitVec.ofNat 64 k by ring]
      exact copyN_inside hsize hk
    · rw [MappedData.unview, copyN_outside hsize]
      · rw [MappedData.view]
        exact congrArg device (by ring)
      · intro j hj heq
        rw [hmapped.first] at heq
        refine hx sreg (List.mem_singleton_self sreg) cunit hloc j hj ?_
        rw [hplace]
        linear_combination heq
  · cases h

/-- The mapping has every byte. -/
theorem exists_copyToChannel (hmapped : ChannelMapped layout.mapOffset sreg cunit m v) (host : Space) (src : BitVec 64)
    (device : Space) : ∃ device', copyToChannel host src sreg.size.toNat device (m, v) = .ok device' := by
  unfold copyToChannel
  dsimp only
  split
  · exact ⟨device, rfl⟩
  · refine ⟨_, if_pos fun j hj => ?_⟩
    have hlt := sreg.size.isLt
    rw [MappedData.Maps, hmapped.first, BitVec.add_comm, BitVec.add_sub_cancel, BitVec.toNat_ofNat,
      Nat.mod_eq_of_lt (by omega)]
    exact hj.trans_le hmapped.len

/-- What a turn makes of a sub-region without location. -/
theorem initChannel_none (hloc : sreg.location = none) {entry : MappedData × View}
    (h : initChannel mmap baseOffsets i sreg = .ok entry) : entry = ({}, {}) := by
  unfold initChannel at h
  rw [hloc] at h
  exact (Except.ok.inj h).symm

/-- A sub-region of a sensible size can be mapped, unless `mmap` fails. -/
theorem exists_initChannel (hmmap : ∀ i len offset, len ≠ 0 → mmap.map i len offset ≠ none)
    (hsize : ∀ u, sreg.location = some u → 0 < sreg.size.toNat ∧ sreg.size.toNat < 2 ^ 63) (i : Nat) :
    ∃ entry, initChannel mmap baseOffsets i sreg = .ok entry := by
  cases hloc : sreg.location with
  | none =>
      refine ⟨({}, {}), ?_⟩
      rw [initChannel, hloc]
  | some u =>
      obtain ⟨hpos, hlt⟩ := hsize u hloc
      obtain ⟨data, hdata⟩ := Option.ne_none_iff_exists'.mp
        (hmmap i (fastAlignUp sreg.size channelPageSize) (sreg.start + baseOffsets u) (fastAlignUp_ne_zero hpos hlt))
      refine ⟨(⟨data, fastAlignUp sreg.size channelPageSize, sreg.start + baseOffsets u⟩, ⟨data, data + sreg.size⟩), ?_⟩
      rw [initChannel, hloc]
      dsimp only
      rw [MappedData.create, hdata]
      rfl

end Channel

/-- Replicas of one size, on different units. -/
structure Replicated (size : BitVec 64) (regions : List SequentialRegion) : Prop where
  size_eq : ∀ r ∈ regions, ∀ u, r.location = some u → r.size = size
  apart : regions.Pairwise fun r r' => ∀ u, r.location = some u → r'.location ≠ some u

section Transfers

variable {mmap : Mmap} {size : BitVec 64} {regions : List SequentialRegion} {units : Nat} {host : Space}
  {src : BitVec 64} {device device' : Space}

theorem copied_none {place : Nat → Nat → BitVec 64} {r : SequentialRegion} (hloc : r.location = none) {n : Nat} :
    Copied place [r] host src n device device where
  written r' hr' u hu := by
    rw [List.mem_singleton.mp hr', hloc] at hu
    cases hu
  frame _ _ := rfl

/-- **Copying a table to channels.** -/
theorem copyToChannels_copied {layout : CxlLayout} (hunits : units ≤ 256) (hregions : Replicated size regions)
    (hinside : Inside units layout.baseSize size.toNat regions)
    (h : copyToChannels mmap layout.mapOffset regions host src size.toNat device = .ok device') :
    Copied layout.place regions host src size.toNat device device' := by
  obtain ⟨entries, hentries, hfold⟩ := bind_eq_ok.mp h
  refine copied_of_foldlM (layout.places hunits) hinside hregions.apart (initEach_forall₂ hentries) ?_ hfold
  rintro r hr e d d' ⟨i, hinit⟩ hstep
  cases hloc : r.location with
  | none =>
      rw [initChannel_none hloc hinit] at hstep
      cases hstep
      exact copied_none hloc
  | some u =>
      rw [← hregions.size_eq r hr u hloc] at hstep ⊢
      exact copyToChannel_copied (initChannel_some hloc hinit) hloc hstep

/-- It fails only if the device file cannot be mapped. -/
theorem exists_copyToChannels {layout : CxlLayout} (hregions : Replicated size regions)
    {entries : List (MappedData × View)}
    (hentries : initEach (initChannel mmap layout.mapOffset) 0 regions = .ok entries) (host : Space) (src : BitVec 64)
    (device : Space) :
    ∃ device', copyToChannels mmap layout.mapOffset regions host src size.toNat device = .ok device' := by
  have hstep : ∀ r ∈ regions, ∀ (e : MappedData × View) (d : Space),
      (∃ i, initChannel mmap layout.mapOffset i r = .ok e) → ∃ d', copyToChannel host src size.toNat d e = .ok d' := by
    rintro r hr e d ⟨i, hinit⟩
    cases hloc : r.location with
    | none =>
        rw [initChannel_none hloc hinit]
        exact ⟨d, rfl⟩
    | some u =>
        rw [← hregions.size_eq r hr u hloc]
        exact exists_copyToChannel (initChannel_some hloc hinit) host src d
  obtain ⟨device', hfold⟩ := exists_foldlM_ok (initEach_forall₂ hentries) hstep device
  exact ⟨device', bind_eq_ok.mpr ⟨entries, hentries, hfold⟩⟩

end Transfers

/-! ## Ranks -/

namespace AxdimmLayout

variable (layout : AxdimmLayout)

/-- The place of byte `x` of rank `c`. -/
def place (c x : Nat) : BitVec 64 :=
  layout.mapOffset (BitVec.ofNat 8 c) + interleavedAddress (BitVec.ofNat 64 x) (cunitToHa (BitVec.ofNat 8 c))

theorem place_of_unit (cunit : BitVec 8) (start : BitVec 64) (k : Nat) :
    layout.place cunit.toNat (start.toNat + k)
      = layout.mapOffset cunit + interleavedAddress (start + BitVec.ofNat 64 k) (cunitToHa cunit) := by
  rw [place, BitVec.ofNat_toNat, BitVec.setWidth_eq, BitVec.ofNat_add, BitVec.ofNat_toNat, BitVec.setWidth_eq]

/-- **No two ranks share a byte.** -/
theorem places {units : Nat} (hunits : units ≤ 256) : Places units layout.rankSize layout.place := by
  intro c c' x x' hc hc' hx hx' heq
  have hrank := layout.rankSize_lt
  have hnat : ∀ {y}, y < layout.rankSize → (BitVec.ofNat 64 y).toNat = y := fun hy => by
    rw [BitVec.toNat_ofNat, Nat.mod_eq_of_lt (by omega)]
  by_cases hunit : BitVec.ofNat 8 c = BitVec.ofNat 8 c'
  · have hcc := congrArg BitVec.toNat hunit
    rw [BitVec.toNat_ofNat, BitVec.toNat_ofNat, Nat.mod_eq_of_lt (by omega), Nat.mod_eq_of_lt (by omega)] at hcc
    subst hcc
    have hxx := (interleavedAddress_inj (cunitToHa_lt _) (cunitToHa_lt _) ((BitVec.add_right_inj _).mp heq)).1
    rw [hnat hx, hnat hx'] at hxx
    exact ⟨rfl, by omega⟩
  · exact absurd heq (layout.separate hunit ((hnat hx).symm ▸ hx) ((hnat hx').symm ▸ hx'))

end AxdimmLayout

section Rank

variable {mmap : Mmap} {layout : AxdimmLayout} {i : Nat} {sreg : SequentialRegion} {cunit : BitVec 8}
  {m : MappedData} {v : View} {host : Space} {src : BitVec 64} {device device' : Space}

/-- `init_virtual_region` is such a loop. -/
theorem initVirtualRegion_eq (mmap : Mmap) (mapOffset : BitVec 8 → BitVec 64) (i : Nat)
    (regions : List SequentialRegion) :
    initVirtualRegion mmap mapOffset i regions = initEach (initSubRegion mmap mapOffset) i regions := by
  induction regions generalizing i with
  | nil => rfl
  | cons r regions ih => rw [initVirtualRegion, initEach, ih]

theorem copyToRank_none {entry : SequentialRegion × MappedData × View} (hloc : entry.1.location = none) {n : Nat} :
    copyToRank host src n device entry = .ok device := by
  obtain ⟨r, m, v⟩ := entry
  unfold copyToRank
  dsimp only at hloc ⊢
  rw [hloc]

/-- The view of a sub-region with a size is not empty. -/
theorem size_of_empty_view (hsize : sreg.size.toNat < 2 ^ 63) (hloc : sreg.location = some cunit)
    {mapOffset : BitVec 8 → BitVec 64} (h : initSubRegion mmap mapOffset i sreg = .ok (m, v))
    (hempty : v.first = v.last) : sreg.size = 0 := by
  unfold initSubRegion MappedData.create at h
  rw [hloc] at h
  dsimp only at h
  split at h
  · cases h
  · cases h
    have hsame := sub_eq_zero.mp (BitVec.add_right_eq_self.mp hempty.symm)
    have hstart := (interleavedAddress_inj (cunitToHa_lt cunit) (cunitToHa_lt cunit) hsame).1
    refine BitVec.eq_of_toNat_eq (show sreg.size.toNat = 0 from ?_)
    rw [BitVec.toNat_add] at hstart
    omega

/-- **A copy through the mapping of a rank.** -/
theorem copyToRank_copied (hsize : sreg.size.toNat < 2 ^ 63) (hloc : sreg.location = some cunit)
    (hinit : initSubRegion mmap layout.mapOffset i sreg = .ok (m, v))
    (h : copyToRank host src sreg.size.toNat device (sreg, m, v) = .ok device') :
    Copied layout.place [sreg] host src sreg.size.toNat device device' := by
  unfold copyToRank at h
  dsimp only at h
  rw [hloc] at h
  dsimp only at h
  split at h
  · rename_i hempty
    cases h
    rw [size_of_empty_view hsize hloc hinit hempty]
    exact ⟨fun _ _ _ _ k hk => absurd hk (Nat.not_lt_zero k), fun _ _ => rfl⟩
  split at h
  · cases h
    have hshows := (initSubRegion_some hloc hinit).shows
    obtain ⟨-, hwritten, hframe⟩ := memcpyToDevice_spec
      (makeInterleavedPointer_spec cunit sreg.start v.first).2 (Nat.le_of_lt hsize) host src (m.view device)
    refine ⟨fun r hr u hu k hk => ?_, fun x hx => ?_⟩
    · rw [List.mem_singleton.mp hr] at hu ⊢
      obtain rfl := Option.some.inj (hloc.symm.trans hu)
      rw [AxdimmLayout.place_of_unit, ← hshows k, MappedData.unview, ← hwritten k hk]
      exact congrArg _ (by ring)
    · rw [MappedData.unview, hframe]
      · rw [MappedData.view]
        exact congrArg device (by ring)
      · intro j hj heq
        refine hx sreg (List.mem_singleton_self sreg) cunit hloc j hj ?_
        rw [AxdimmLayout.place_of_unit, ← hshows j]
        linear_combination heq
  · cases h

/-- The mapping has every byte, unless it falls short. -/
theorem exists_copyToRank (hsize : sreg.size.toNat < 2 ^ 63) (hstart : sreg.start.toNat % 4096 = 0)
    (hloc : sreg.location = some cunit) (hinit : initSubRegion mmap layout.mapOffset i sreg = .ok (m, v))
    (hgood : ¬ FallsShort cunit sreg.start.toNat sreg.size.toNat) (host : Space) (src : BitVec 64) (device : Space) :
    ∃ device', copyToRank host src sreg.size.toNat device (sreg, m, v) = .ok device' := by
  unfold copyToRank
  dsimp only
  rw [hloc]
  dsimp only
  split
  · exact ⟨device, rfl⟩
  · exact ⟨_, if_pos (((initSubRegion_some hloc hinit).maps_iff hstart (layout.mapOffset_page cunit)).mpr
      ⟨hsize, hgood⟩)⟩

end Rank

section RankTransfers

variable {mmap : Mmap} {layout : AxdimmLayout} {size : BitVec 64} {regions : List SequentialRegion} {units : Nat}
  {host : Space} {src : BitVec 64} {device device' : Space} {core : SlsAccessorCore}

theorem create_forall₂ (h : SlsAccessorCore.create mmap layout.mapOffset regions = .ok core) :
    List.Forall₂ (fun r (e : SequentialRegion × MappedData × View) => e.1 = r ∧
      ∃ i, initSubRegion mmap layout.mapOffset i r = .ok e.2) regions (regions.zip core.vregion) := by
  unfold SlsAccessorCore.create at h
  obtain ⟨vregion, hvregion, h⟩ := bind_eq_ok.mp h
  cases h
  rw [initVirtualRegion_eq] at hvregion
  have hentries := initEach_forall₂ hvregion
  dsimp only
  clear hvregion h
  induction hentries with
  | nil => exact .nil
  | cons hre _ ih => exact .cons ⟨rfl, hre⟩ ih

/-- **Copying a table to ranks.** -/
theorem copyToRanks_copied (hunits : units ≤ 256) (hregions : Replicated size regions)
    (hinside : Inside units layout.rankSize size.toNat regions)
    (h : copyToRanks mmap layout.mapOffset regions host src size.toNat device = .ok device') :
    Copied layout.place regions host src size.toNat device device' := by
  obtain ⟨core, hcore, hfold⟩ := bind_eq_ok.mp h
  have hrank := layout.rankSize_lt
  refine copied_of_foldlM (layout.places hunits) hinside hregions.apart (create_forall₂ hcore) ?_ hfold
  rintro r hr ⟨r', m, v⟩ d d' ⟨hsame, i, hinit⟩ hstep
  obtain rfl : r' = r := hsame
  cases hloc : r'.location with
  | none =>
      obtain rfl := Except.ok.inj ((copyToRank_none hloc).symm.trans hstep)
      exact copied_none hloc
  | some u =>
      have hin := (hinside r' hr u hloc).2
      rw [← hregions.size_eq r' hr u hloc] at hstep hin ⊢
      exact copyToRank_copied (by omega) hloc hinit hstep

/-- It fails only if the device file cannot be mapped, or if a mapping falls short. -/
theorem exists_copyToRanks (hregions : Replicated size regions)
    (hinside : Inside units layout.rankSize size.toNat regions) (hstart : ∀ r ∈ regions, r.start.toNat % 4096 = 0)
    (hgood : ∀ r ∈ regions, ∀ u, r.location = some u → ¬ FallsShort u r.start.toNat size.toNat)
    (hcore : SlsAccessorCore.create mmap layout.mapOffset regions = .ok core) (host : Space) (src : BitVec 64)
    (device : Space) :
    ∃ device', copyToRanks mmap layout.mapOffset regions host src size.toNat device = .ok device' := by
  have hrank := layout.rankSize_lt
  have hstep : ∀ r ∈ regions, ∀ (e : SequentialRegion × MappedData × View) (d : Space),
      (e.1 = r ∧ ∃ i, initSubRegion mmap layout.mapOffset i r = .ok e.2) →
        ∃ d', copyToRank host src size.toNat d e = .ok d' := by
    rintro r hr ⟨r', m, v⟩ d ⟨hsame, i, hinit⟩
    obtain rfl : r' = r := hsame
    cases hloc : r'.location with
    | none => exact ⟨d, copyToRank_none hloc⟩
    | some u =>
        have hin := (hinside r' hr u hloc).2
        have hshort := hgood r' hr u hloc
        rw [← hregions.size_eq r' hr u hloc] at hin hshort ⊢
        exact exists_copyToRank (by omega) (hstart r' hr) hloc hinit hshort host src d
  obtain ⟨device', hfold⟩ := exists_foldlM_ok (create_forall₂ hcore) hstep device
  exact ⟨device', bind_eq_ok.mpr ⟨core, hcore, hfold⟩⟩

end RankTransfers

/-! ## All tables -/

section Tables

open Pnm.Core (tableBuffer OnUnits PnmAllocation)
open Pnm.Core.RankedAllocator (memoryOf memoryOfTables)

variable {copy : Transfer} {place : Nat → Nat → BitVec 64} {units capacity : Nat} {host : Space}
  {tables : List (BitVec 64 × List Core.SequentialRegion)}

/-- The region of a table, as the accessors read it. -/
def tableRegions (table : BitVec 64 × List Core.SequentialRegion) : List SequentialRegion := table.2.map .ofCore

/-- `copy` works for these tables. -/
def CopiesTables (copy : Transfer) (place : Nat → Nat → BitVec 64) (host : Space)
    (tables : List (BitVec 64 × List Core.SequentialRegion)) : Prop :=
  ∀ table ∈ tables, ∀ src d d', copy (tableRegions table) host src table.1.toNat d = .ok d' →
    Copied place (tableRegions table) host src table.1.toNat d d'

/-- The memory of tables: inside the units, and no byte twice. -/
structure HasRoom (units capacity : Nat) (tables : List (BitVec 64 × List Core.SequentialRegion)) : Prop where
  onUnits : ∀ table ∈ tables, OnUnits units table.1 table.2
  inside : ∀ m ∈ memoryOfTables tables, m.addr.toNat + m.size.toNat ≤ capacity
  apart : (memoryOfTables tables).Pairwise PnmAllocation.Apart

theorem HasRoom.tail {table : BitVec 64 × List Core.SequentialRegion} (h : HasRoom units capacity (table :: tables)) :
    HasRoom units capacity tables where
  onUnits t ht := h.onUnits t (List.mem_cons_of_mem _ ht)
  inside m hm := h.inside m (List.mem_append_right _ hm)
  apart := (List.pairwise_append.mp h.apart).2.1

/-- The memory of a replica. -/
theorem HasRoom.replica (h : HasRoom units capacity tables) {table : BitVec 64 × List Core.SequentialRegion}
    (htable : table ∈ tables) {r : Core.SequentialRegion} (hr : r ∈ table.2) {u : BitVec 8}
    (hu : r.location = some u) :
    ∃ m ∈ memoryOf table.2, m.memoryPool = u ∧ m.addr = r.start ∧ m.size = table.1 ∧ r.size = table.1 ∧
      u.toNat < units ∧ r.start.toNat + table.1.toNat ≤ capacity := by
  have hon := h.onUnits table htable
  obtain ⟨i, hi⟩ := List.getElem?_of_mem hr
  obtain ⟨hindex, hsize⟩ := hon.placed.index_of_location hi hu
  have hmem : (⟨r.start, r.size, u, r.isGlobal⟩ : PnmAllocation) ∈ memoryOf table.2 :=
    List.mem_filterMap.mpr ⟨r, hr, Core.SequentialRegion.request_eq_some hu⟩
  refine ⟨⟨r.start, r.size, u, r.isGlobal⟩, hmem, rfl, rfl, hsize, hsize, ?_, ?_⟩
  · rw [hindex, ← hon.length]
    exact (List.getElem?_eq_some_iff.mp hi).1
  · rw [← hsize]
    exact h.inside _ (List.mem_flatMap.mpr ⟨table, htable, hmem⟩)

theorem HasRoom.size_ne (h : HasRoom units capacity tables) {table : BitVec 64 × List Core.SequentialRegion}
    (htable : table ∈ tables) : table.1 ≠ 0 := by
  intro hzero
  have hpos := (h.onUnits table htable).pos
  rw [hzero] at hpos
  exact absurd hpos (by decide)

theorem copyBuffer_tableBuffer (pid : Int) {table : BitVec 64 × List Core.SequentialRegion} (hsize : table.1 ≠ 0)
    {first : BitVec 64} {device : Space} : copyBuffer copy host first (tableBuffer pid table) device
      = (copy (tableRegions table) host first table.1.toNat device).mapError .accessor := if_neg hsize

/-- **Copying the tables**, one after the other: each is there in the end, on all its units, and no other byte of the
    device has changed. -/
theorem transferData_written (hplaces : Places units capacity place) (hroom : HasRoom units capacity tables)
    (hcopy : CopiesTables copy place host tables) (pid : Int) {first : BitVec 64} {device device' : Space}
    (h : transferData copy host first (tables.map (tableBuffer pid)) device = .ok device') :
    (∀ j table, tables[j]? = some table → ∀ r ∈ table.2, ∀ u, r.location = some u → ∀ k < table.1.toNat,
      device' (place u.toNat (r.start.toNat + k))
        = host (first + BitVec.ofNat 64 (((tables.take j).map fun t => t.1.toNat).sum + k))) ∧
    ∀ x, (∀ table ∈ tables, ∀ r ∈ table.2, ∀ u, r.location = some u → ∀ k < table.1.toNat,
      x ≠ place u.toNat (r.start.toNat + k)) → device' x = device x := by
  induction tables generalizing first device with
  | nil =>
      cases h
      exact ⟨fun j table hj => by simp at hj, fun _ _ => rfl⟩
  | cons table tables ih =>
      rw [List.map_cons, transferData] at h
      obtain ⟨device₁, hfirst, hrest⟩ := bind_eq_ok.mp h
      obtain ⟨hwritten, hframe⟩ := ih hroom.tail (fun t ht => hcopy t (List.mem_cons_of_mem _ ht)) hrest
      have hcopied : Copied place (tableRegions table) host first table.1.toNat device device₁ := by
        refine hcopy table List.mem_cons_self first device device₁ ?_
        rw [copyBuffer_tableBuffer _ (hroom.size_ne List.mem_cons_self)] at hfirst
        cases hok : copy (tableRegions table) host first table.1.toNat device with
        | error e =>
            rw [hok] at hfirst
            cases hfirst
        | ok d =>
            rw [hok] at hfirst
            exact congrArg Except.ok (Except.ok.inj hfirst)
      refine ⟨?_, fun x hx => ?_⟩
      · rintro (_ | j) t ht r hr u hu k hk
        · obtain rfl := Option.some.inj ht
          rw [hframe, List.take_zero, List.map_nil, List.sum_nil, Nat.zero_add]
          · exact hcopied.written (.ofCore r) (List.mem_map_of_mem hr) u hu k hk
          · -- the later tables have other memory
            intro t' ht' r' hr' u' hu' k' hk' heq
            obtain ⟨m, hm, hpool, haddr, hsize, -, hlt, hin⟩ := hroom.replica List.mem_cons_self hr hu
            obtain ⟨m', hm', hpool', haddr', hsize', -, hlt', hin'⟩ :=
              hroom.replica (List.mem_cons_of_mem _ ht') hr' hu'
            obtain ⟨hunit, hbyte⟩ := hplaces hlt hlt' (by omega) (by omega) heq
            have happart := (List.pairwise_append.mp hroom.apart).2.2 m hm m'
              (List.mem_flatMap.mpr ⟨t', ht', hm'⟩)
              (by rw [hpool, hpool']; exact BitVec.eq_of_toNat_eq hunit)
            rw [haddr, haddr', hsize, hsize'] at happart
            omega
        · rw [hwritten j t ht r hr u hu k hk]
          refine congrArg host ?_
          rw [List.take_succ_cons, List.map_cons, List.sum_cons, Nat.add_assoc, BitVec.ofNat_add table.1.toNat,
            BitVec.ofNat_toNat, BitVec.setWidth_eq, ← BitVec.add_assoc]
          rfl
      · rw [hframe x fun t ht => hx t (List.mem_cons_of_mem _ ht)]
        refine hcopied.frame x fun r hr u hu k hk => ?_
        obtain ⟨r', hr', rfl⟩ := List.mem_map.mp hr
        exact hx table List.mem_cons_self r' hr' u hu k hk

/-- It succeeds if every copy does. -/
theorem exists_transferData (hroom : HasRoom units capacity tables)
    (hcopy : ∀ table ∈ tables, ∀ src d, ∃ d', copy (tableRegions table) host src table.1.toNat d = .ok d') (pid : Int)
    (first : BitVec 64) (device : Space) :
    ∃ device', transferData copy host first (tables.map (tableBuffer pid)) device = .ok device' := by
  induction tables generalizing first device with
  | nil => exact ⟨device, rfl⟩
  | cons table tables ih =>
      obtain ⟨device₁, hfirst⟩ := hcopy table List.mem_cons_self first device
      obtain ⟨device', hrest⟩ :=
        ih hroom.tail (fun t ht => hcopy t (List.mem_cons_of_mem _ ht)) (first + table.1) device₁
      refine ⟨device', bind_eq_ok.mpr ⟨device₁, ?_, hrest⟩⟩
      rw [copyBuffer_tableBuffer _ (hroom.size_ne List.mem_cons_self), hfirst]
      rfl

end Tables

end Pnm.Sls
