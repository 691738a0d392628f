import Pnm.Core.BufferSize
import Pnm.Core.DeviceMemory
import Pnm.Sls.Plan

/-!
# `Core.EmbeddingTables` — tables on the device

The model of `EmbeddingTables` (`sls/operation/api/embedding_tables.cpp`): one buffer for each table, replicated on all
units or on one unit that the kernel chooses, and the layout that SLS operations read, which lists each table under the
mask of the units that have it. If an allocation throws, the buffers so far are destroyed with the vector.

`embedding_tables_lifecycle` follows the object from its constructor to its destructor on any lawful device that keeps
memory apart. The tables get memory of their own, the layout says where it is and names each table once, and in
the end all of it, and nothing else, is given back; a constructor that throws leaves nothing behind.
-/

namespace Pnm.Core

open Pnm.Lib
open Pnm.Sls (Topology MemoryObject PacksToObjects)

/-- The exceptions that derive from `pnm::error::Base`. -/
def Error.isBase : Error → Bool
  | .badVariantAccess | .badOptionalAccess => false
  | _                                      => true

/-- `EmbeddingTables`. -/
structure EmbeddingTables where
  buffers : List RegionBuffer
  layout : PacksToObjects

/-- The properties that `init_buffers` allocates with. -/
def tableProps : UserPreferences → Except Error PropertiesList
  | .replicateAll | .auto => .ok { allocPolicy := some 1 }
  | .distributeAll        => .ok {}
  | .single               => .error (.invalidArguments "Unknown memory policy.")

/-! ## The layout -/

/-- `mask |= (1 << *subaddr.location)` and `set_offset`, if the sub-region is located. -/
def addSubRegion (acc : Nat × MemoryObject) (subaddr : SequentialRegion) : Nat × MemoryObject :=
  match subaddr.location with
  | none          => acc
  | some location =>
      (acc.1 ||| 1 <<< location.toNat,
        { acc.2 with offset := Function.update acc.2.offset location.toNat subaddr.start.toNat })

/-- The mask and the object of one table; nothing if no sub-region is located, which the code asserts. -/
def memoryObject (tableId : Nat) (regions : List SequentialRegion) : Option (Nat × MemoryObject) :=
  (regions.find? (·.location.isSome)).map fun validRegion =>
    regions.foldl addSubRegion (0, { id := tableId, sizeBytes := validRegion.size.toNat, offset := fun _ => 0 })

/-- The loop of `construct_layout` from table `tableId` on; nothing if the assertion fails. -/
def constructLayout : (tableId : Nat) → PacksToObjects → List RegionBuffer → Except Error (Option PacksToObjects)
  | _, layout, []                     => .ok (some layout)
  | tableId, layout, buffer :: buffers =>
      match buffer.devRegion.value with
      | .sequential _   => .error .badVariantAccess
      | .ranked regions =>
          match memoryObject tableId regions with
          | none           => .ok none
          | some (mask, o) => constructLayout (tableId + 1) (Function.update layout mask (layout mask ++ [o])) buffers

namespace RankedAllocator

variable {σ : Type} (a : RankedAllocator σ)

/-- `Buffer::release`: exceptions of the library stay inside, any other one ends the process. -/
def releaseBuffer (b : RegionBuffer) : Call Error σ Unit :=
  tryCatch (a.deallocateImpl b.devRegion.value) fun e => if e.isBase then pure () else throw e

/-- `~Buffer` in process `pid`. -/
def destroyBuffer (pid : Int) (b : RegionBuffer) : Call Error σ Unit :=
  if (b.devRegion.owned && b.devRegion.ownerProcessId == pid) || b.devRegion.isGlobal then a.releaseBuffer b
  else pure ()

/-- The destructor of `buffers_`. -/
def destroyBuffers (pid : Int) (buffers : List RegionBuffer) : Call Error σ Unit := buffers.forM (a.destroyBuffer pid)

/-- The loop of `init_buffers`, behind `buffers`. -/
def initBuffers (pid : Int) (turns : Nat) (rowBytes : BitVec 64) (props : PropertiesList) :
    List (BitVec 32) → List RegionBuffer → Call Error σ (Option (List RegionBuffer))
  | [], buffers                 => pure (some buffers)
  | size :: tableSizes, buffers => do
      let buffer ← tryCatch (a.bufferOfSize pid turns (size.setWidth 64 * rowBytes) 1 props) fun e => do
        a.destroyBuffers pid buffers
        throw e
      match buffer with
      | none        => pure none
      | some buffer => initBuffers pid turns rowBytes props tableSizes (buffers ++ [buffer])

/-- The constructor of `EmbeddingTables`; nothing if the turns of an allocation are not enough. -/
def createTables (pid : Int) (turns : Nat) (tableSizes : List (BitVec 32)) (rowSize : BitVec 64)
    (option : UserPreferences) : Call Error σ (Option EmbeddingTables) := do
  let props ← (match tableProps option with
    | .error e => throw e
    | .ok props => pure props : Call Error σ PropertiesList)
  let buffers ← a.initBuffers pid turns rowSize props tableSizes []
  match buffers with
  | none         => pure none
  | some buffers =>
      match constructLayout 0 (fun _ => []) buffers with
      | .error e => do
          a.destroyBuffers pid buffers
          throw e
      | .ok layout => pure (layout.map fun layout => { buffers := buffers, layout := layout })

/-- The destructor of `EmbeddingTables`. -/
def destroyTables (pid : Int) (tables : EmbeddingTables) : Call Error σ Unit := a.destroyBuffers pid tables.buffers

end RankedAllocator

/-- The buffer of a table: its bytes, and its region. -/
def tableBuffer (pid : Int) (table : BitVec 64 × List SequentialRegion) : RegionBuffer :=
  { size := table.1
    devRegion := { value := .ranked table.2, ownerProcessId := pid, owned := true, isGlobal := false } }

/-! ## One table -/

/-- The region of a table on `n` units: `size` bytes on at least one of them. -/
structure OnUnits (n : Nat) (size : BitVec 64) (regions : List SequentialRegion) : Prop where
  length : regions.length = n
  placed : Placed size regions
  located : ∃ region ∈ regions, region.location ≠ none
  pos : 0 < size

/-- On which units: all of them, or one. -/
def Spread : UserPreferences → List SequentialRegion → Prop
  | .replicateAll, regions | .auto, regions => ∀ region ∈ regions, region.location ≠ none
  | _, regions                              => ∃ unit, ∀ region ∈ regions, ∀ u, region.location = some u → u = unit

section OneTable

variable {n : Nat} {size : BitVec 64} {regions : List SequentialRegion}

theorem Placed.index_of_location (h : Placed size regions) {i : Nat} {region : SequentialRegion} {unit : BitVec 8}
    (hi : regions[i]? = some region) (hunit : region.location = some unit) : unit.toNat = i ∧ region.size = size := by
  rcases h i region hi with ⟨hnone, -⟩ | ⟨unit', hsome, hindex, hsize⟩
  · rw [hnone] at hunit
    cases hunit
  · rw [hsome, Option.some.injEq] at hunit
    exact ⟨hunit ▸ hindex, hsize⟩

/-- No memory is named twice. -/
theorem Placed.nodup_memoryOf (h : Placed size regions) : (RankedAllocator.memoryOf regions).Nodup := by
  refine (h.pairwise_apart.filterMap SequentialRegion.request fun r r' happart m hm m' hm' => ?_)
  rintro rfl
  exact happart _ (SequentialRegion.location_of_request hm) (SequentialRegion.location_of_request hm')

/-- All memory of the region has a size. -/
theorem OnUnits.held_eq (h : OnUnits n size regions) :
    RankedAllocator.held regions = RankedAllocator.memoryOf regions := by
  rw [RankedAllocator.held, RankedAllocator.memoryOf, List.filterMap_filter]
  refine List.filterMap_congr fun region hregion => ?_
  obtain ⟨i, hi⟩ := List.getElem?_of_mem hregion
  cases hlocation : region.location with
  | none =>
      rw [SequentialRegion.request_eq_none hlocation]
      exact ite_self _
  | some unit =>
      obtain ⟨-, hsize⟩ := h.placed.index_of_location hi hlocation
      exact if_pos (decide_eq_true (hsize ▸ h.pos))

theorem OnUnits.returnable (h : OnUnits n size regions) {live : Set PnmAllocation}
    (hlive : ∀ m ∈ RankedAllocator.memoryOf regions, m ∈ live) : RankedAllocator.Returnable live regions := by
  refine ⟨fun region hregion hpos hnone => ?_, ?_, ?_⟩
  · obtain ⟨i, hi⟩ := List.getElem?_of_mem hregion
    rcases h.placed i region hi with ⟨-, -, hzero⟩ | ⟨unit, hsome, -⟩
    · rw [hzero] at hpos
      exact absurd hpos (by decide)
    · exact nomatch hnone.symm.trans hsome
  · rw [h.held_eq]
    exact h.placed.nodup_memoryOf
  · rw [h.held_eq]
    exact hlive

end OneTable

namespace RankedAllocator

variable {σ : Type} {a : RankedAllocator σ} {s t : σ} {size : BitVec 64}

/-- A region that was allocated since `s`. -/
structure Obtained (Inv : σ → Prop) (live : σ → Set PnmAllocation) (n : Nat) (option : UserPreferences)
    (size : BitVec 64) (s : σ) (regions : List SequentialRegion) (t : σ) : Prop where
  inv : Inv t
  onUnits : OnUnits n size regions
  spread : Spread option regions
  fresh : ∀ m ∈ memoryOf regions, m ∉ live s
  live_iff : ∀ m, m ∈ live t ↔ m ∈ live s ∨ m ∈ memoryOf regions

/-- One slot of `n` is filled. -/
theorem fillSlot_emptySlots {n : Nat} {region : SequentialRegion} {unit : BitVec 8}
    (hunit : region.location = some unit) (hlt : unit.toNat < n) :
    fillSlot (emptySlots n) region = emptySlots unit.toNat ++ region :: emptySlots (n - (unit.toNat + 1)) := by
  rw [fillSlot, hunit]
  dsimp only
  rw [List.set_eq_take_append_cons_drop, if_pos (by simpa [emptySlots] using hlt), emptySlots, List.take_replicate,
    List.drop_replicate, Nat.min_eq_left (Nat.le_of_lt hlt)]
  rfl

theorem memoryOf_emptySlots (n : Nat) : memoryOf (emptySlots n) = [] := by
  rw [memoryOf, List.filterMap_eq_nil_iff]
  intro region hregion
  obtain rfl := List.eq_of_mem_replicate hregion
  rfl

section Lawful

variable {Inv : σ → Prop} {live : σ → Set PnmAllocation} {gran capacity : Nat}

/-- Memory of all units. -/
theorem Filled.obtained {all : List SequentialRegion} (h : Filled Inv live size s all t) (hsize : 0 < size)
    (hlength : all.length = a.regionsCount) (hpos : 0 < a.regionsCount) (hcount : a.regionsCount ≤ 255)
    {option : UserPreferences} (hoption : option = .replicateAll ∨ option = .auto) :
    Obtained Inv live a.regionsCount option size s all t := by
  have hheld := h.held_eq hsize
  refine ⟨h.inv, ⟨hlength, fun i region hi => .inr ?_, ?_, hsize⟩, ?_, hheld ▸ h.fresh, hheld ▸ h.live_iff⟩
  · obtain ⟨hregion, hunit⟩ := h.onUnit i region hi
    have hlt : i < all.length := (List.getElem?_eq_some_iff.mp hi).1
    exact ⟨_, hunit, by rw [BitVec.toNat_ofNat]; exact Nat.mod_eq_of_lt (by omega), hregion⟩
  · exact ⟨all[0], List.getElem_mem _, h.location_ne_none (List.getElem_mem (by omega))⟩
  · rcases hoption with rfl | rfl
    · exact fun region hregion => h.location_ne_none hregion
    · exact fun region hregion => h.location_ne_none hregion

variable (hlaw : a.device.Lawful a.regionsCount Inv live) (hsep : ∀ s, Inv s → Separated gran capacity (live s))

include hlaw hsep

/-- Nobody gets memory without a size. -/
theorem allocateIoctl_zero (hs : Inv s) (cunit : Option (BitVec 8)) :
    (a.allocateIoctl 0 cunit).Ends s (fun _ _ => False) fun _ t => Inv t ∧ live t = live s := by
  refine (allocateIoctl_ends hlaw hs 0 cunit).mono (fun region t h => ?_) fun _ _ => id
  obtain ⟨request, hrequest, hzero, -, -, ht, -, hlive⟩ := h
  have hpos := (hsep t ht).pos request (hlive ▸ Set.mem_insert _ _)
  have hsize : request.size = region.size := by
    obtain ⟨unit, -, rfl⟩ := Option.map_eq_some_iff.mp hrequest
    rfl
  rw [hsize, hzero] at hpos
  exact absurd hpos (Nat.lt_irrefl 0)

/-- **Replicating allocation.** -/
theorem allocateReplicateAll_obtained (hpos : 0 < a.regionsCount) (hcount : a.regionsCount ≤ 255) {turns : Nat}
    (hturns : a.regionsCount < turns) {props : PropertiesList} (hprops : props.cuRegion = none)
    {option : UserPreferences} (hoption : option = .replicateAll ∨ option = .auto) (hs : Inv s) :
    (a.allocateReplicateAll turns size props (emptySlots a.regionsCount)).Ends s
      (fun regions t => ∃ all, regions = some all ∧ Obtained Inv live a.regionsCount option size s all t)
      fun _ t => Inv t ∧ live t = live s := by
  rw [allocateReplicateAll, hprops, if_neg (by decide)]
  by_cases hsize : 0 < size
  · refine (allocateOnRanks_ends_inv hlaw hsize hcount (filled_nil hs) (Nat.zero_add _) hturns).mono ?_ fun _ _ => id
    rintro regions t ⟨all, rfl, hlength, hall⟩
    exact ⟨all, rfl, hall.obtained hsize hlength hpos hcount hoption⟩
  · -- the first unit refuses, and there is nothing to give back
    obtain rfl : size = 0 := BitVec.le_zero_iff.mp (BitVec.not_lt.mp hsize)
    obtain ⟨turns, rfl⟩ := Nat.exists_eq_add_one.mpr (Nat.zero_lt_of_lt hturns)
    rw [allocateOnRanks, if_pos (show (0 : BitVec 8).toNat < a.regionsCount from hpos)]
    refine Call.Ends.bind (Q := fun _ _ => False) ?_ fun _ _ h => h.elim
    refine Call.Ends.tryCatch ((allocateIoctl_zero hlaw hsep hs (some 0)).bind fun _ _ h => h.elim) ?_
    rintro e t ⟨ht, hlive⟩
    have hreturnable : Returnable (live t) (emptySlots a.regionsCount) := by
      refine ⟨fun region hregion hpos => ?_, by rw [held_emptySlots]; exact List.nodup_nil, ?_⟩
      · obtain rfl := List.eq_of_mem_replicate hregion
        exact absurd hpos (by decide)
      · rw [held_emptySlots]
        exact fun m hm => absurd hm List.not_mem_nil
    refine Call.Ends.bind ((deallocateImpl_ends hlaw ht hreturnable).mono (fun _ _ => id) fun _ _ => False.elim) ?_
    rintro - u ⟨hu, hback⟩
    refine Call.ends_throw ⟨hu, Set.ext fun m => ?_⟩
    rw [hback, hlive, held_emptySlots]
    simp

/-- **Allocation on one unit**, which the kernel chooses. -/
theorem allocateSingle_obtained {props : PropertiesList} {option : UserPreferences}
    (hoption : option ≠ .replicateAll ∧ option ≠ .auto) (hs : Inv s) :
    (a.allocateSingle size props (emptySlots a.regionsCount)).Ends s
      (fun regions t => Obtained Inv live a.regionsCount option size s regions t)
      fun _ t => Inv t ∧ live t = live s := by
  rw [allocateSingle]
  refine (allocateIoctl_ends hlaw hs size _).bind fun region t h => Call.ends_pure ?_
  obtain ⟨request, hrequest, hsize, -, hlt, ht, hnew, hlive⟩ := h
  have hunit := SequentialRegion.location_of_request hrequest
  have hslots := fillSlot_emptySlots hunit hlt
  have hmemory : memoryOf (fillSlot (emptySlots a.regionsCount) region) = [request] := by
    rw [hslots, memoryOf, List.filterMap_append, List.filterMap_cons_some hrequest]
    change memoryOf _ ++ request :: memoryOf _ = [request]
    rw [memoryOf_emptySlots, memoryOf_emptySlots]
    rfl
  have hpos : 0 < size := by
    have hpos := (hsep t ht).pos request (hlive ▸ Set.mem_insert _ _)
    obtain ⟨unit, -, rfl⟩ := Option.map_eq_some_iff.mp hrequest
    rw [← hsize]
    exact hpos
  refine ⟨ht, ⟨?_, (placed_emptySlots size _).fillSlot hsize, ⟨region, ?_, ?_⟩, hpos⟩, ?_, ?_, ?_⟩
  · rw [fillSlot, hunit, List.length_set, emptySlots, List.length_replicate]
  · rw [hslots]
    exact List.mem_append_right _ List.mem_cons_self
  · rw [hunit]
    exact Option.some_ne_none _
  · have hone : ∃ unit, ∀ r ∈ fillSlot (emptySlots a.regionsCount) region, ∀ u, r.location = some u → u = unit := by
      refine ⟨request.memoryPool, fun r hr u hu => ?_⟩
      rw [hslots, List.mem_append, List.mem_cons] at hr
      rcases hr with hr | rfl | hr
      · obtain rfl := List.eq_of_mem_replicate hr
        cases hu
      · exact Option.some.inj (hu.symm.trans hunit)
      · obtain rfl := List.eq_of_mem_replicate hr
        cases hu
    cases option with
    | replicateAll => exact absurd rfl hoption.1
    | auto => exact absurd rfl hoption.2
    | distributeAll => exact hone
    | single => exact hone
  · rw [hmemory]
    intro m hm
    rw [List.mem_singleton.mp hm]
    exact hnew
  · intro m
    rw [hmemory, hlive, Set.mem_insert_iff, List.mem_singleton, or_comm]

/-- **The constructor of a table's buffer.** -/
theorem bufferOfSize_obtained (hpos : 0 < a.regionsCount) (hcount : a.regionsCount ≤ 255) {turns : Nat}
    (hturns : a.regionsCount < turns) (pid : Int) {option : UserPreferences} {props : PropertiesList}
    (hprops : tableProps option = .ok props) (hs : Inv s) :
    (a.bufferOfSize pid turns size 1 props).Ends s
      (fun b t => ∃ regions, b = some (tableBuffer pid (size, regions)) ∧
        Obtained Inv live a.regionsCount option size s regions t)
      fun _ t => Inv t ∧ live t = live s := by
  have hbytes : size * (1 : BitVec 64) = size := BitVec.mul_one size
  rw [bufferOfSize, hbytes]
  refine Call.Ends.bind (Q := fun region t => ∃ regions, region = some (.ranked regions) ∧
    Obtained Inv live a.regionsCount option size s regions t) ?_ ?_
  · have hreplicate : ∀ {option : UserPreferences}, option = .replicateAll ∨ option = .auto →
        (a.allocateImpl turns size { allocPolicy := some 1 }).Ends s
          (fun region t => ∃ regions, region = some (.ranked regions) ∧
            Obtained Inv live a.regionsCount option size s regions t)
          fun _ t => Inv t ∧ live t = live s := by
      intro option hoption
      refine (allocateReplicateAll_obtained hlaw hsep hpos hcount hturns rfl hoption hs).bind ?_
      rintro _ t ⟨all, rfl, hall⟩
      exact Call.ends_pure ⟨all, rfl, hall⟩
    cases option with
    | replicateAll =>
        cases hprops
        exact hreplicate (.inl rfl)
    | auto =>
        cases hprops
        exact hreplicate (.inr rfl)
    | distributeAll =>
        cases hprops
        have hone : UserPreferences.distributeAll ≠ .replicateAll ∧ UserPreferences.distributeAll ≠ .auto := by decide
        refine (allocateSingle_obtained hlaw hsep hone hs).bind ?_
        exact fun regions t h => Call.ends_pure ⟨regions, rfl, h⟩
    | single => cases hprops
  · rintro _ t ⟨regions, rfl, h⟩
    exact Call.ends_pure ⟨regions, rfl, h⟩

end Lawful

/-! ## All tables -/

/-- The memory of tables. -/
def memoryOfTables (tables : List (BitVec 64 × List SequentialRegion)) : List PnmAllocation :=
  tables.flatMap fun table => memoryOf table.2

@[simp] theorem memoryOfTables_append (tables more : List (BitVec 64 × List SequentialRegion)) :
    memoryOfTables (tables ++ more) = memoryOfTables tables ++ memoryOfTables more := List.flatMap_append

@[simp] theorem memoryOfTables_singleton (table : BitVec 64 × List SequentialRegion) :
    memoryOfTables [table] = memoryOf table.2 := List.flatMap_singleton _ _

/-- The tables that have been allocated since `s`. -/
structure HasTables (Inv : σ → Prop) (live : σ → Set PnmAllocation) (n : Nat) (option : UserPreferences) (s : σ)
    (tables : List (BitVec 64 × List SequentialRegion)) (t : σ) : Prop where
  inv : Inv t
  onUnits : ∀ table ∈ tables, OnUnits n table.1 table.2
  spread : ∀ table ∈ tables, Spread option table.2
  nodup : (memoryOfTables tables).Nodup
  fresh : ∀ m ∈ memoryOfTables tables, m ∉ live s
  live_iff : ∀ m, m ∈ live t ↔ m ∈ live s ∨ m ∈ memoryOfTables tables

section Lawful

variable {Inv : σ → Prop} {live : σ → Set PnmAllocation} {gran capacity n : Nat} {option : UserPreferences}
  {tables : List (BitVec 64 × List SequentialRegion)}

theorem hasTables_nil (hs : Inv s) : HasTables Inv live n option s [] s where
  inv := hs
  onUnits _ h := nomatch h
  spread _ h := nomatch h
  nodup := List.nodup_nil
  fresh _ h := nomatch h
  live_iff _ := by simp [memoryOfTables]

/-- One table more. -/
theorem HasTables.snoc (h : HasTables Inv live n option s tables t) {u : σ} {regions : List SequentialRegion}
    (hnew : Obtained Inv live n option size t regions u) :
    HasTables Inv live n option s (tables ++ [(size, regions)]) u := by
  have hold : ∀ m ∈ memoryOf regions, m ∉ live s ∧ m ∉ memoryOfTables tables := fun m hm =>
    not_or.mp fun hlive => hnew.fresh m hm ((h.live_iff m).mpr hlive)
  refine ⟨hnew.inv, ?_, ?_, ?_, ?_, fun m => ?_⟩
  · intro table htable
    rcases List.mem_append.mp htable with htable | htable
    · exact h.onUnits table htable
    · rw [List.mem_singleton.mp htable]
      exact hnew.onUnits
  · intro table htable
    rcases List.mem_append.mp htable with htable | htable
    · exact h.spread table htable
    · rw [List.mem_singleton.mp htable]
      exact hnew.spread
  · rw [memoryOfTables_append, memoryOfTables_singleton, List.nodup_append]
    refine ⟨h.nodup, hnew.onUnits.placed.nodup_memoryOf, ?_⟩
    rintro m hm _ hm' rfl
    exact (hold m hm').2 hm
  · rw [memoryOfTables_append, memoryOfTables_singleton]
    intro m hm
    rcases List.mem_append.mp hm with hm | hm
    · exact h.fresh m hm
    · exact (hold m hm).1
  · rw [hnew.live_iff, h.live_iff, memoryOfTables_append, memoryOfTables_singleton, List.mem_append, or_assoc]

variable (hlaw : a.device.Lawful a.regionsCount Inv live)

include hlaw

/-- **Destroying tables** frees their memory and nothing else, at any time. -/
theorem destroyBuffers_ends (pid : Int) (honUnits : ∀ table ∈ tables, OnUnits n table.1 table.2)
    (hnodup : (memoryOfTables tables).Nodup) (hs : Inv s) (hlive : ∀ m ∈ memoryOfTables tables, m ∈ live s) :
    (a.destroyBuffers pid (tables.map (tableBuffer pid))).Ends s
      (fun _ t => Inv t ∧ ∀ m, m ∈ live t ↔ m ∈ live s ∧ m ∉ memoryOfTables tables) fun _ _ => False := by
  induction tables generalizing s with
  | nil => exact Call.ends_pure ⟨hs, fun m => by simp [memoryOfTables]⟩
  | cons table tables ih =>
      have hcons : memoryOfTables (table :: tables) = memoryOf table.2 ++ memoryOfTables tables := rfl
      rw [hcons] at hnodup hlive ⊢
      obtain ⟨-, hrest, hdisjoint⟩ := List.nodup_append.mp hnodup
      have hreturnable : Returnable (live s) table.2 := (honUnits table List.mem_cons_self).returnable fun m hm =>
        hlive m (List.mem_append_left _ hm)
      have hheld := (honUnits table List.mem_cons_self).held_eq
      have hfirst : (a.destroyBuffer pid (tableBuffer pid table)).Ends s
          (fun _ t => Inv t ∧ ∀ m, m ∈ live t ↔ m ∈ live s ∧ m ∉ memoryOf table.2) fun _ _ => False := by
        have howned : ((tableBuffer pid table).devRegion.owned &&
            (tableBuffer pid table).devRegion.ownerProcessId == pid ||
              (tableBuffer pid table).devRegion.isGlobal) = true := by simp [tableBuffer]
        rw [destroyBuffer, if_pos howned]
        refine Call.Ends.tryCatch (E := fun _ _ => False) ?_ fun _ _ h => h.elim
        rw [← hheld]
        exact deallocateImpl_ends hlaw hs hreturnable
      refine hfirst.bind fun _ t ht => ?_
      refine (ih (fun table htable => honUnits table (List.mem_cons_of_mem _ htable)) hrest ht.1 fun m hm => ?_).mono
        (fun _ u hu => ⟨hu.1, fun m => ?_⟩) fun _ _ => id
      · exact (ht.2 m).mpr ⟨hlive m (List.mem_append_right _ hm), fun hm' => hdisjoint m hm' m hm rfl⟩
      · rw [hu.2, ht.2, List.mem_append, not_or, and_assoc]

variable (hsep : ∀ s, Inv s → Separated gran capacity (live s))

include hsep

/-- **The loop of the constructor.** All tables have their memory, or none has any since the start. -/
theorem initBuffers_ends (hpos : 0 < a.regionsCount) (hcount : a.regionsCount ≤ 255) {turns : Nat}
    (hturns : a.regionsCount < turns) (pid : Int) {props : PropertiesList} (hprops : tableProps option = .ok props)
    (rowBytes : BitVec 64) {tableSizes : List (BitVec 32)} (h : HasTables Inv live a.regionsCount option s tables t) :
    (a.initBuffers pid turns rowBytes props tableSizes (tables.map (tableBuffer pid))).Ends t
      (fun buffers u => ∃ all, buffers = some (all.map (tableBuffer pid)) ∧
        all.map Prod.fst = tables.map Prod.fst ++ tableSizes.map (fun size => size.setWidth 64 * rowBytes) ∧
        HasTables Inv live a.regionsCount option s all u)
      fun _ u => Inv u ∧ live u = live s := by
  induction tableSizes generalizing tables t with
  | nil => exact Call.ends_pure ⟨tables, rfl, by rw [List.map_nil, List.append_nil], h⟩
  | cons size tableSizes ih =>
      rw [initBuffers]
      generalize hbytes : size.setWidth 64 * rowBytes = bytes
      refine Call.Ends.bind (Q := fun b u => ∃ regions, b = some (tableBuffer pid (bytes, regions)) ∧
        Obtained Inv live a.regionsCount option bytes t regions u) ?_ ?_
      · refine Call.Ends.tryCatch (bufferOfSize_obtained hlaw hsep hpos hcount hturns pid hprops h.inv) ?_
        rintro e u ⟨hu, hlive⟩
        have hmem : ∀ m ∈ memoryOfTables tables, m ∈ live u := fun m hm => hlive ▸ (h.live_iff m).mpr (.inr hm)
        refine ((destroyBuffers_ends hlaw pid h.onUnits h.nodup hu hmem).mono (fun _ _ => id) fun _ _ =>
          False.elim).bind ?_
        rintro - v ⟨hv, hback⟩
        refine Call.ends_throw ⟨hv, Set.ext fun m => ?_⟩
        rw [hback, hlive, h.live_iff]
        exact ⟨fun hm => hm.1.resolve_right hm.2, fun hm => ⟨.inl hm, fun hnew => h.fresh m hnew hm⟩⟩
      · rintro _ u ⟨regions, rfl, hnew⟩
        have hnext := ih (h.snoc hnew)
        rw [List.map_append, List.map_append] at hnext
        refine hnext.mono (fun buffers v => ?_) fun _ _ => id
        rintro ⟨all, rfl, hall, hv⟩
        refine ⟨all, rfl, ?_, hv⟩
        rw [hall, List.append_assoc, ← hbytes]
        rfl

end Lawful

end RankedAllocator

/-! ## The layout that is constructed -/

section Layout

variable {n : Nat} {size : BitVec 64} {regions : List SequentialRegion}

/-- The mask has the bits of the located sub-regions. -/
theorem testBit_foldl_addSubRegion (acc : Nat × MemoryObject) (regions : List SequentialRegion) (c : Nat) :
    (regions.foldl addSubRegion acc).1.testBit c = true ↔
      acc.1.testBit c = true ∨ ∃ region ∈ regions, ∃ unit, region.location = some unit ∧ unit.toNat = c := by
  induction regions generalizing acc with
  | nil => simp
  | cons region regions ih =>
      rw [List.foldl_cons, ih, List.exists_mem_cons_iff, ← or_assoc]
      refine or_congr_left ?_
      rw [addSubRegion]
      cases hlocation : region.location with
      | none => simp
      | some unit =>
          dsimp only
          rw [Nat.testBit_or, Bool.or_eq_true, Nat.one_shiftLeft, Nat.testBit_two_pow, decide_eq_true_eq]
          simp

/-- What the loop leaves of the object besides the offsets. -/
theorem foldl_addSubRegion_id (acc : Nat × MemoryObject) (regions : List SequentialRegion) :
    (regions.foldl addSubRegion acc).2.id = acc.2.id ∧
      (regions.foldl addSubRegion acc).2.sizeBytes = acc.2.sizeBytes := by
  induction regions generalizing acc with
  | nil => exact ⟨rfl, rfl⟩
  | cons region regions ih =>
      rw [List.foldl_cons, (ih _).1, (ih _).2, addSubRegion]
      split <;> exact ⟨rfl, rfl⟩

theorem foldl_addSubRegion_offset_of_not {acc : Nat × MemoryObject} {c : Nat}
    (h : ∀ region ∈ regions, ∀ unit, region.location = some unit → unit.toNat ≠ c) :
    (regions.foldl addSubRegion acc).2.offset c = acc.2.offset c := by
  induction regions generalizing acc with
  | nil => rfl
  | cons region regions ih =>
      rw [List.foldl_cons, ih fun r hr => h r (List.mem_cons_of_mem _ hr), addSubRegion]
      cases hlocation : region.location with
      | none => rfl
      | some unit => exact Function.update_of_ne (h region List.mem_cons_self unit hlocation).symm _ _

/-- The offset on a unit is the start of the sub-region there. -/
theorem foldl_addSubRegion_offset (happart : regions.Pairwise Apart) {acc : Nat × MemoryObject}
    {region : SequentialRegion} (hregion : region ∈ regions) {unit : BitVec 8} (hunit : region.location = some unit) :
    (regions.foldl addSubRegion acc).2.offset unit.toNat = region.start.toNat := by
  induction regions generalizing acc with
  | nil => cases hregion
  | cons first regions ih =>
      obtain ⟨hfirst, hrest⟩ := List.pairwise_cons.mp happart
      rw [List.foldl_cons]
      rcases List.mem_cons.mp hregion with rfl | hregion
      · rw [foldl_addSubRegion_offset_of_not fun r hr u hu heq =>
          hfirst r hr unit hunit (hu.trans (congrArg some (BitVec.eq_of_toNat_eq heq))), addSubRegion, hunit]
        exact Function.update_self _ _ _
      · exact ih hrest hregion

/-- The object of a table on units, under its mask: the units that have it, and where they have it. -/
structure Describes (regions : List SequentialRegion) (mask : Nat) (o : MemoryObject) : Prop where
  testBit : ∀ c, mask.testBit c = true ↔ ∃ region ∈ regions, ∃ unit, region.location = some unit ∧ unit.toNat = c
  offset : ∀ region ∈ regions, ∀ unit, region.location = some unit → o.offset unit.toNat = region.start.toNat

theorem memoryObject_describes (h : OnUnits n size regions) (tableId : Nat) :
    ∃ mask o, memoryObject tableId regions = some (mask, o) ∧ o.id = tableId ∧ o.sizeBytes = size.toNat ∧
      Describes regions mask o := by
  obtain ⟨region, hregion, hlocated⟩ := h.located
  obtain ⟨valid, hvalid⟩ : ∃ valid, regions.find? (·.location.isSome) = some valid := by
    rw [← Option.isSome_iff_exists, List.find?_isSome]
    exact ⟨region, hregion, Option.isSome_iff_ne_none.mpr hlocated⟩
  have hsize : valid.size = size := by
    have hsome : valid.location.isSome = true :=
      List.find?_some (p := fun r : SequentialRegion => r.location.isSome) hvalid
    obtain ⟨unit, hunit⟩ := Option.isSome_iff_exists.mp hsome
    obtain ⟨i, hi⟩ := List.getElem?_of_mem (List.mem_of_find?_eq_some hvalid)
    exact (h.placed.index_of_location hi hunit).2
  refine ⟨_, _, by rw [memoryObject, hvalid]; rfl, (foldl_addSubRegion_id _ _).1, ?_, fun c => ?_,
    fun r hr unit hunit => foldl_addSubRegion_offset h.placed.pairwise_apart hr hunit⟩
  · rw [(foldl_addSubRegion_id _ _).2, hsize]
  · rw [testBit_foldl_addSubRegion, Nat.zero_testBit]
    simp

/-- A mask of units is a pack. -/
theorem Describes.mem_packIdentifiers {topo : Topology} {mask : Nat} {o : MemoryObject}
    (hd : Describes regions mask o) (h : OnUnits topo.numOfCUnits size regions) : mask ∈ topo.packIdentifiers := by
  rw [Topology.mem_packIdentifiers, Topology.numOfPack, Nat.one_shiftLeft]
  constructor
  · obtain ⟨region, hregion, hlocated⟩ := h.located
    obtain ⟨unit, hunit⟩ := Option.ne_none_iff_exists'.mp hlocated
    refine Nat.pos_of_ne_zero fun hzero => ?_
    have hbit := (hd.testBit unit.toNat).mpr ⟨region, hregion, unit, hunit, rfl⟩
    rw [hzero, Nat.zero_testBit] at hbit
    cases hbit
  · refine Nat.lt_pow_two_of_testBit mask fun c hc => ?_
    rw [← Bool.not_eq_true, hd.testBit]
    rintro ⟨region, hregion, unit, hunit, rfl⟩
    obtain ⟨i, hi⟩ := List.getElem?_of_mem hregion
    have hindex := (h.placed.index_of_location hi hunit).1
    have hlt := (List.getElem?_eq_some_iff.mp hi).1
    have hlength := h.length
    omega

/-- `layout` lists, under each mask, the objects that go with it. -/
def listed (objects : List (Nat × MemoryObject)) : PacksToObjects :=
  fun p => (objects.filter (·.1 = p)).map Prod.snd

theorem update_listed (objects : List (Nat × MemoryObject)) (mask : Nat) (o : MemoryObject) :
    Function.update (listed objects) mask (listed objects mask ++ [o]) = listed (objects ++ [(mask, o)]) := by
  funext p
  by_cases hp : p = mask
  · subst hp
    simp [listed, List.filter_append]
  · rw [Function.update_of_ne hp]
    simp [listed, List.filter_append, Ne.symm hp]

/-- Objects `i` and up are those of the tables. -/
def ObjectsOf (tables : List (BitVec 64 × List SequentialRegion)) (i : Nat) (objects : List (Nat × MemoryObject)) :
    Prop :=
  ∀ j table object, tables[j]? = some table → objects[j]? = some object →
    object.2.id = i + j ∧ object.2.sizeBytes = table.1.toNat ∧ Describes table.2 object.1 object.2

/-- **The loop of `construct_layout`** lists every table under its mask. -/
theorem constructLayout_eq {tables : List (BitVec 64 × List SequentialRegion)} (pid : Int)
    (h : ∀ table ∈ tables, OnUnits n table.1 table.2) (tableId : Nat) (before : List (Nat × MemoryObject)) :
    ∃ objects, constructLayout tableId (listed before) (tables.map (tableBuffer pid))
        = .ok (some (listed (before ++ objects))) ∧
      objects.length = tables.length ∧ ObjectsOf tables tableId objects := by
  induction tables generalizing tableId before with
  | nil => exact ⟨[], by rw [List.append_nil]; rfl, rfl, fun j _ _ hj => nomatch hj⟩
  | cons table tables ih =>
      obtain ⟨mask, o, hobject, hid, hbytes, hdescribes⟩ :=
        memoryObject_describes (h table List.mem_cons_self) tableId
      obtain ⟨objects, hlayout, hlength, hobjects⟩ :=
        ih (fun t ht => h t (List.mem_cons_of_mem _ ht)) (tableId + 1) (before ++ [(mask, o)])
      refine ⟨(mask, o) :: objects, ?_, by rw [List.length_cons, hlength, List.length_cons], ?_⟩
      · rw [List.map_cons, constructLayout, show (tableBuffer pid table).devRegion.value = .ranked table.2 from rfl]
        dsimp only
        rw [hobject]
        dsimp only
        rw [update_listed, hlayout, List.append_assoc]
        rfl
      · rintro (_ | j) t object ht hobj
        · obtain rfl := Option.some.inj ht
          obtain rfl := Option.some.inj hobj
          exact ⟨hid, hbytes, hdescribes⟩
        · obtain ⟨hid', hrest⟩ := hobjects j t object ht hobj
          exact ⟨by rw [hid']; omega, hrest⟩

/-- Objects under masks of a list without repetition, taken mask by mask. -/
theorem flatMap_listed_perm {α : Type} (g : MemoryObject → α) {packs : List Nat} (hnodup : packs.Nodup)
    {objects : List (Nat × MemoryObject)} (h : ∀ object ∈ objects, object.1 ∈ packs) :
    (packs.flatMap fun p => (listed objects p).map g).Perm (objects.map fun object => g object.2) := by
  induction objects with
  | nil => simp [listed]
  | cons object objects ih =>
      have hone : packs.flatMap (fun p => if object.1 = p then [g object.2] else []) = [g object.2] := by
        have hmem : object.1 ∈ packs := h object List.mem_cons_self
        clear h ih
        induction packs with
        | nil => cases hmem
        | cons p packs ih =>
            obtain ⟨hnot, hnodup⟩ := List.nodup_cons.mp hnodup
            rw [List.flatMap_cons]
            by_cases hp : object.1 = p
            · have hrest : packs.flatMap (fun q => if object.1 = q then [g object.2] else []) = [] := by
                rw [List.flatMap_eq_nil_iff]
                intro q hq
                refine if_neg fun heq => hnot ?_
                rwa [← hp, heq]
              rw [if_pos hp, hrest]
              rfl
            · rw [if_neg hp, List.nil_append]
              exact ih hnodup ((List.mem_cons.mp hmem).resolve_left hp)
      have hcons : (fun p => (listed (object :: objects) p).map g)
          = fun p => (if object.1 = p then [g object.2] else []) ++ (listed objects p).map g := by
        funext p
        rw [listed, List.filter_cons]
        by_cases hp : object.1 = p
        · rw [if_pos (decide_eq_true hp), if_pos hp]
          rfl
        · rw [if_neg (by simpa using hp), if_neg hp]
          rfl
      rw [hcons, List.map_cons]
      refine (List.flatMap_append_perm _ _ _).symm.trans ?_
      rw [hone]
      exact (ih fun o ho => h o (List.mem_cons_of_mem _ ho)).cons _

end Layout

/-! ## From the constructor to the destructor -/

namespace EmbeddingTables

/-- The memory of the tables. -/
def memory (tables : EmbeddingTables) : List PnmAllocation := tables.buffers.flatMap (·.devRegion.value.memory)

/-- The units of a pack: all, or one. -/
def PackOf (topo : Topology) : UserPreferences → Nat → Prop
  | .replicateAll, p | .auto, p => p = topo.numOfPack - 1
  | _, p                        => ∃ c, p = 2 ^ c

/-- **What the layout tells an SLS operation** about tables of these many bytes: each has its place, under the mask of
    its units, and on each of them it has memory, of its own, at the offset of its object. -/
structure Lies (topo : Topology) (option : UserPreferences) (bytes : List (BitVec 64)) (tables : EmbeddingTables) :
    Prop where
  sizes : tables.buffers.map RegionBuffer.size = bytes
  placed : Sls.Placed topo tables.layout bytes.length
  pack : ∀ p ∈ topo.packIdentifiers, tables.layout p ≠ [] → PackOf topo option p
  memory : ∀ p ∈ topo.packIdentifiers, ∀ o ∈ tables.layout p, ∀ c, p.testBit c = true →
    ∃ b, tables.buffers[o.id]? = some b ∧ ∃ m ∈ b.devRegion.value.memory,
      m.memoryPool.toNat = c ∧ m.addr.toNat = o.offset c ∧ m.size = b.size

end EmbeddingTables

section Lies

open RankedAllocator

variable {topo : Topology} {option : UserPreferences} {tables : List (BitVec 64 × List SequentialRegion)}

theorem memory_tableBuffers (pid : Int) (layout : PacksToObjects) :
    EmbeddingTables.memory { buffers := tables.map (tableBuffer pid), layout := layout } = memoryOfTables tables := by
  rw [EmbeddingTables.memory, List.flatMap_map]
  rfl

/-- All units, or one. -/
theorem Describes.packOf {size : BitVec 64} {regions : List SequentialRegion} {mask : Nat} {o : MemoryObject}
    (hd : Describes regions mask o) (h : OnUnits topo.numOfCUnits size regions) (hspread : Spread option regions) :
    EmbeddingTables.PackOf topo option mask := by
  have hall : (∀ region ∈ regions, region.location ≠ none) → mask = topo.numOfPack - 1 := by
    intro hlocated
    refine Nat.eq_of_testBit_eq fun c => ?_
    rw [Topology.numOfPack, Nat.one_shiftLeft, Nat.testBit_two_pow_sub_one, Bool.eq_iff_iff, hd.testBit,
      decide_eq_true_eq]
    constructor
    · rintro ⟨region, hregion, unit, hunit, rfl⟩
      obtain ⟨i, hi⟩ := List.getElem?_of_mem hregion
      rw [(h.placed.index_of_location hi hunit).1, ← h.length]
      exact (List.getElem?_eq_some_iff.mp hi).1
    · intro hc
      rw [← h.length] at hc
      obtain ⟨unit, hunit⟩ := Option.ne_none_iff_exists'.mp (hlocated _ (List.getElem_mem hc))
      exact ⟨_, List.getElem_mem hc, unit, hunit,
        (h.placed.index_of_location (List.getElem?_eq_getElem hc) hunit).1⟩
  have hone : (∃ unit, ∀ region ∈ regions, ∀ u, region.location = some u → u = unit) → ∃ c, mask = 2 ^ c := by
    rintro ⟨unit, hunit⟩
    refine ⟨unit.toNat, Nat.eq_of_testBit_eq fun c => ?_⟩
    rw [Nat.testBit_two_pow, Bool.eq_iff_iff, hd.testBit, decide_eq_true_eq]
    constructor
    · rintro ⟨region, hregion, u, hu, rfl⟩
      rw [hunit region hregion u hu]
    · rintro rfl
      obtain ⟨region, hregion, hlocated⟩ := h.located
      obtain ⟨u, hu⟩ := Option.ne_none_iff_exists'.mp hlocated
      exact ⟨region, hregion, u, hu, by rw [hunit region hregion u hu]⟩
  cases option with
  | replicateAll => exact hall hspread
  | auto => exact hall hspread
  | distributeAll => exact hone hspread
  | single => exact hone hspread

theorem mem_listed {objects : List (Nat × MemoryObject)} {p : Nat} {o : MemoryObject} :
    o ∈ listed objects p ↔ (p, o) ∈ objects := by
  simp [listed]

/-- An object is that of its table. -/
theorem ObjectsOf.exists_table {objects : List (Nat × MemoryObject)} (hobjects : ObjectsOf tables 0 objects)
    (hlength : objects.length = tables.length) {object : Nat × MemoryObject} (hobject : object ∈ objects) :
    ∃ table ∈ tables, tables[object.2.id]? = some table ∧ Describes table.2 object.1 object.2 := by
  obtain ⟨j, hj⟩ := List.getElem?_of_mem hobject
  have hlt : j < tables.length := hlength ▸ (List.getElem?_eq_some_iff.mp hj).1
  have htable := List.getElem?_eq_getElem hlt
  obtain ⟨hid, -, hdescribes⟩ := hobjects j _ object htable hj
  refine ⟨_, List.getElem_mem hlt, ?_, hdescribes⟩
  rw [hid, Nat.zero_add, htable]

/-- The layout of tables that are on the units. -/
theorem lies_of_objects (pid : Int) {objects : List (Nat × MemoryObject)} (hlength : objects.length = tables.length)
    (hobjects : ObjectsOf tables 0 objects) (honUnits : ∀ table ∈ tables, OnUnits topo.numOfCUnits table.1 table.2)
    (hspread : ∀ table ∈ tables, Spread option table.2) :
    EmbeddingTables.Lies topo option (tables.map Prod.fst)
      { buffers := tables.map (tableBuffer pid), layout := listed objects } := by
  have hpacks : ∀ object ∈ objects, object.1 ∈ topo.packIdentifiers := by
    intro object hobject
    obtain ⟨table, hmem, -, hdescribes⟩ := hobjects.exists_table hlength hobject
    exact hdescribes.mem_packIdentifiers (honUnits table hmem)
  refine ⟨?_, ?_, ?_, ?_⟩
  · rw [List.map_map]
    rfl
  · have hids : objects.map (fun object => object.2.id) = List.range tables.length := by
      refine List.ext_getElem (by rw [List.length_map, List.length_range, hlength]) fun j hj hj' => ?_
      rw [List.length_map] at hj
      obtain ⟨hid, -⟩ := hobjects j _ _ (List.getElem?_eq_getElem (hlength ▸ hj)) (List.getElem?_eq_getElem hj)
      rw [List.getElem_map, List.getElem_range, hid, Nat.zero_add]
    rw [Sls.Placed, List.length_map, ← hids]
    exact flatMap_listed_perm (·.id) Topology.nodup_packIdentifiers hpacks
  · rintro p - hne
    obtain ⟨o, ho⟩ := List.exists_mem_of_ne_nil _ hne
    obtain ⟨table, hmem, -, hdescribes⟩ := hobjects.exists_table hlength (mem_listed.mp ho)
    exact hdescribes.packOf (honUnits table hmem) (hspread table hmem)
  · rintro p - o ho c hc
    obtain ⟨table, hmem, htable, hdescribes⟩ := hobjects.exists_table hlength (mem_listed.mp ho)
    obtain ⟨region, hregion, unit, hunit, rfl⟩ := (hdescribes.testBit c).mp hc
    obtain ⟨i, hi⟩ := List.getElem?_of_mem hregion
    refine ⟨tableBuffer pid table, ?_, ⟨region.start, region.size, unit, region.isGlobal⟩,
      List.mem_filterMap.mpr ⟨region, hregion, SequentialRegion.request_eq_some hunit⟩, rfl,
      (hdescribes.offset region hregion unit hunit).symm,
      ((honUnits table hmem).placed.index_of_location hi hunit).2⟩
    rw [List.getElem?_map, htable]
    rfl

end Lies

/-- **The constructor**: the tables have their memory and are listed, or nothing is left. -/
theorem RankedAllocator.createTables_ends {σ : Type} {a : RankedAllocator σ} {Inv : σ → Prop}
    {live : σ → Set PnmAllocation} {gran capacity : Nat} (hlaw : a.device.Lawful a.regionsCount Inv live)
    (hsep : ∀ s, Inv s → Separated gran capacity (live s)) (hpos : 0 < a.regionsCount) (hcount : a.regionsCount ≤ 255)
    (pid : Int) {turns : Nat} (hturns : a.regionsCount < turns) (tableSizes : List (BitVec 32)) (rowSize : BitVec 64)
    (option : UserPreferences) {s : σ} (hs : Inv s) :
    (a.createTables pid turns tableSizes rowSize option).Ends s
      (fun result t => ∃ all objects,
        result = some { buffers := all.map (tableBuffer pid), layout := listed objects } ∧
        all.map Prod.fst = tableSizes.map (fun size => size.setWidth 64 * rowSize) ∧
        HasTables Inv live a.regionsCount option s all t ∧ objects.length = all.length ∧ ObjectsOf all 0 objects)
      fun _ t => Inv t ∧ live t = live s := by
  have hnil : HasTables Inv live a.regionsCount option s [] s := hasTables_nil hs
  rw [createTables]
  cases hprops : tableProps option with
  | error e => exact Call.Ends.bind (Q := fun _ _ => False) (Call.ends_throw ⟨hs, rfl⟩) fun _ _ h => h.elim
  | ok props =>
      refine Call.Ends.bind (Q := fun props' t => props' = props ∧ t = s) (Call.ends_pure ⟨rfl, rfl⟩) ?_
      rintro _ _ ⟨rfl, rfl⟩
      refine (initBuffers_ends hlaw hsep hpos hcount hturns pid hprops rowSize hnil).bind ?_
      rintro _ t ⟨all, rfl, hsizes, hall⟩
      obtain ⟨objects, hlayout, hlength, hobjects⟩ := constructLayout_eq pid hall.onUnits 0 []
      dsimp only
      rw [show (fun _ => []) = listed [] from rfl, hlayout]
      exact Call.ends_pure ⟨all, objects, rfl, hsizes, hall, hlength, hobjects⟩

/-- **The life of embedding tables.** On a lawful device that keeps memory apart, for any policy, any sizes and any
    replies of the kernel: the constructor throws and the file holds what it held before, or the tables have new
    memory, and nothing else is new, that the layout tells. At any later time at which the file still holds that
    memory, the destructor frees it and no other. -/
theorem embedding_tables_lifecycle {σ : Type} (a : RankedAllocator σ) (topo : Topology)
    (hunits : a.regionsCount = topo.numOfCUnits) (hpos : 0 < topo.numOfCUnits) {Inv : σ → Prop}
    {live : σ → Set PnmAllocation} {gran capacity : Nat} (hlaw : a.device.Lawful a.regionsCount Inv live)
    (hsep : ∀ s, Inv s → Separated gran capacity (live s)) (pid : Int) {turns : Nat} (hturns : a.regionsCount < turns)
    (tableSizes : List (BitVec 32)) (rowSize : BitVec 64) (option : UserPreferences) {s : σ} (hs : Inv s) :
    (a.createTables pid turns tableSizes rowSize option).Ends s
      (fun result t => ∃ tables, result = some tables ∧ Inv t ∧
        tables.Lies topo option (tableSizes.map fun size => size.setWidth 64 * rowSize) ∧
        tables.memory.Nodup ∧ (∀ m ∈ tables.memory, m ∉ live s) ∧
        (∀ m, m ∈ live t ↔ m ∈ live s ∨ m ∈ tables.memory) ∧
        ∀ u, Inv u → (∀ m ∈ tables.memory, m ∈ live u) →
          (a.destroyTables pid tables).Ends u
            (fun _ v => Inv v ∧ ∀ m, m ∈ live v ↔ m ∈ live u ∧ m ∉ tables.memory) fun _ _ => False)
      fun _ t => Inv t ∧ live t = live s := by
  have hle := topo.numOfCUnits_le
  have hcreate := RankedAllocator.createTables_ends hlaw hsep (by omega) (by omega) pid hturns tableSizes rowSize
    option hs
  refine hcreate.mono ?_ fun _ _ => id
  rintro _ t ⟨all, objects, rfl, hsizes, hall, hlength, hobjects⟩
  have hlies := lies_of_objects pid hlength hobjects (hunits ▸ hall.onUnits) hall.spread
  rw [hsizes] at hlies
  refine ⟨_, rfl, hall.inv, hlies, ?_⟩
  rw [memory_tableBuffers]
  exact ⟨hall.nodup, hall.fresh, hall.live_iff, fun u hu hlive =>
    RankedAllocator.destroyBuffers_ends hlaw pid hall.onUnits hall.nodup hu hlive⟩

/-- Two units of 16 pages, of which the kernel gives the first one that is free. -/
def twoUnitsDevice : Device (Kernel.Allocator × Nat) :=
  .ofKernel (slsPools 12 2 65536) 0 (fun n => ⟨0, some (n / 2), true, 0⟩) fun _ => "error"

def twoUnits : RankedAllocator (Kernel.Allocator × Nat) := { device := twoUnitsDevice, regionsCount := 2 }

theorem twoUnitsDevice_lawful :
    twoUnitsDevice.Lawful 2 (Device.FileInv (slsPools 12 2 65536) 0) (Device.heldBy 0) :=
  Device.ofKernel_lawful_separated (show 2 ≤ 256 by decide) _ _

theorem twoUnits_separated (s : Kernel.Allocator × Nat) (hs : Device.FileInv (slsPools 12 2 65536) 0 s) :
    Separated (2 ^ 12) 65536 (Device.heldBy 0 s) := Device.FileInv.separated hs

/-- Two tables on both units: the constructor returns, and they have four pages. -/
theorem embedding_tables_lifecycle_two_units :
    ∃ tables t, (twoUnits.createTables 7 3 [2, 3] 64 .auto).exec (.init, 0) = (.ok (some tables), t) ∧
      Sls.Placed .cxl tables.layout 2 ∧ tables.memory.length = 4 ∧
      (twoUnits.destroyTables 7 tables).Ends t (fun _ v => Device.heldBy 0 v ⊆ Device.heldBy 0 (.init, 0))
        fun _ _ => False := by
  have hinit : Device.FileInv (slsPools 12 2 65536) 0 (.init, 0) := Device.fileInv_init _ _
  have hends := embedding_tables_lifecycle twoUnits .cxl rfl (by decide) twoUnitsDevice_lawful twoUnits_separated 7
    (show 2 < 3 by decide) [2, 3] 64 .auto hinit
  obtain ⟨tables, t, hexec, hlength⟩ : ∃ tables t, (twoUnits.createTables 7 3 [2, 3] 64 .auto).exec (.init, 0)
      = (.ok (some tables), t) ∧ tables.memory.length = 4 := ⟨_, _, rfl, rfl⟩
  rw [Call.ends_of_ok hexec] at hends
  obtain ⟨_, hsome, ht, hlies, -, -, hlive, hdestroy⟩ := hends
  obtain rfl := Option.some.inj hsome
  refine ⟨tables, t, hexec, hlies.placed, hlength, ?_⟩
  refine (hdestroy t ht fun m hm => (hlive m).mpr (.inr hm)).mono (fun _ v hv m hm => ?_) fun _ _ => id
  obtain ⟨hm, hnot⟩ := (hv.2 m).mp hm
  exact ((hlive m).mp hm).resolve_right hnot

end Pnm.Core
