import Pnm.Core.Device
import Pnm.Core.SharedRegion
import Pnm.Lib.Calls

/-!
# `Core.RankedAllocator` — allocation on all compute units

The model of `core/memory/ranked_allocator.cpp` over any device. The replicating allocation asks for memory unit by
unit; if a unit refuses, what the earlier units gave is returned, and which of the slots that is, is read off their
sizes. `allocate_replicated_ends` says that on a lawful device this leaves no trace, and that a region that is
returned has memory on every unit and gives back exactly that.

The loop counts the units in a byte. With 256 units or more it does not end of itself, so it has a number of turns as
an argument and returns nothing if they are not enough.
-/

namespace Pnm.Core

open Pnm.Lib

/-- `enum sls_user_preferences`. -/
inductive UserPreferences where
  | auto
  | replicateAll
  | distributeAll
  | single
deriving DecidableEq

/-- The enumerators by value. -/
def UserPreferences.ofValue (value : BitVec 32) : Option UserPreferences :=
  [.auto, .replicateAll, .distributeAll, .single][value.toNat]?

/-- The properties that allocators read. -/
structure PropertiesList where
  allocPolicy : Option (BitVec 32) := none
  cuRegion : Option (BitVec 32) := none

/-- `RankedAllocator`. -/
structure RankedAllocator (σ : Type) where
  device : Device σ
  regionsCount : Nat

/-- `throw_from_errno`. -/
def errorFromErrno (err : Nat) (message : String) : Error :=
  if err = 22 then .invalidArguments message
  else if err = 12 then .outOfMemory message
  else if err = 5 then .io message
  else .failure message

/-- The request that names the memory of a region. -/
def SequentialRegion.request (region : SequentialRegion) : Option PnmAllocation :=
  region.location.map fun location =>
    { addr := region.start, size := region.size, memoryPool := location, isGlobal := region.isGlobal }

/-- The region of a request that was copied back. -/
def SequentialRegion.ofReply (size : BitVec 64) (request : PnmAllocation) : SequentialRegion :=
  { start := request.addr, size := size, location := some request.memoryPool, isGlobal := request.isGlobal }

/-- `std::vector<SequentialRegion>(n, SequentialRegion{})`. -/
def emptySlots (n : Nat) : List SequentialRegion := List.replicate n {}

/-- `region.regions[*seq_region.location] = seq_region`. -/
def fillSlot (regions : List SequentialRegion) (seqRegion : SequentialRegion) : List SequentialRegion :=
  match seqRegion.location with
  | some location => regions.set location.toNat seqRegion
  | none          => regions

namespace SequentialRegion

variable {region : SequentialRegion}

theorem request_eq_none (h : region.location = none) : region.request = none := by
  rw [request, h, Option.map_none]

theorem request_eq_some {unit : BitVec 8} (h : region.location = some unit) :
    region.request = some ⟨region.start, region.size, unit, region.isGlobal⟩ := by
  rw [request, h, Option.map_some]

theorem location_of_request {request : PnmAllocation} (h : region.request = some request) :
    region.location = some request.memoryPool := by
  obtain ⟨unit, hunit, rfl⟩ := Option.map_eq_some_iff.mp h
  exact hunit

end SequentialRegion

namespace RankedAllocator

variable {σ : Type} (a : RankedAllocator σ)

/-- An ioctl, with the exception of its `errno`. -/
def ioctl (cmd : MemoryCommand) (request : PnmAllocation) (what : String) : Call Error σ PnmAllocation :=
  .ofExec fun s =>
    match a.device.ioctl cmd request s with
    | (.ok reply, t)  => (.ok reply, t)
    | (.error err, t) => (.error (errorFromErrno err (what ++ ": \"" ++ a.device.strerror err ++ "\"")), t)

/-- `allocate_ioctl`. -/
def allocateIoctl (size : BitVec 64) (cunit : Option (BitVec 8)) : Call Error σ SequentialRegion := do
  let request ← a.ioctl .allocateMemory { addr := 0, size := size, memoryPool := cunit.getD 255, isGlobal := 0 } "Error"
  pure (.ofReply size request)

/-- `deallocate_ioctl`. -/
def deallocateIoctl (seqRegion : SequentialRegion) : Call Error σ Unit :=
  match seqRegion.request with
  | none         => throw .badOptionalAccess
  | some request => do
      let _ ← a.ioctl .deallocateMemory request "Ioctl error"
      pure ()

/-- `deallocate_impl`. -/
def deallocateImpl : DeviceRegion → Call Error σ Unit
  | .sequential _   => throw .badVariantAccess
  | .ranked regions => regions.forM fun seqRegion => if 0 < seqRegion.size then a.deallocateIoctl seqRegion else pure ()

/-- `allocate_single`. -/
def allocateSingle (size : BitVec 64) (props : PropertiesList) (regions : List SequentialRegion) :
    Call Error σ (List SequentialRegion) := do
  let seqRegion ← a.allocateIoctl size (props.cuRegion.map (·.setWidth 8))
  pure (fillSlot regions seqRegion)

/-- One turn of the loop of `allocate_replicate_all`. -/
def allocateOnRank (size : BitVec 64) (rank : BitVec 8) (regions : List SequentialRegion) :
    Call Error σ (List SequentialRegion) :=
  tryCatch
    (do
      let seqRegion ← a.allocateIoctl size (some rank)
      pure (fillSlot regions seqRegion))
    fun e => do
      a.deallocateImpl (.ranked regions)
      throw e

/-- The loop of `allocate_replicate_all`, for at most `turns` turns. -/
def allocateOnRanks (size : BitVec 64) : (turns : Nat) → (rank : BitVec 8) → List SequentialRegion →
    Call Error σ (Option (List SequentialRegion))
  | 0, _, _ => pure none
  | turns + 1, rank, regions =>
      if rank.toNat < a.regionsCount then do
        let regions ← a.allocateOnRank size rank regions
        allocateOnRanks size turns (rank + 1) regions
      else pure (some regions)

/-- `allocate_replicate_all`. -/
def allocateReplicateAll (turns : Nat) (size : BitVec 64) (props : PropertiesList) (regions : List SequentialRegion) :
    Call Error σ (Option (List SequentialRegion)) :=
  if props.cuRegion.isSome then
    throw (.invalidArguments "Cannot specify CURegion with SLS_ALLOC_REPLICATE_ALL.")
  else a.allocateOnRanks size turns 0 regions

/-- `allocate_impl`; nothing is returned if the turns are not enough. -/
def allocateImpl (turns : Nat) (size : BitVec 64) (props : PropertiesList) : Call Error σ (Option DeviceRegion) := do
  let regions := emptySlots a.regionsCount
  let policy := props.allocPolicy.getD 0
  match UserPreferences.ofValue policy with
  | some .auto | some .single => do
      let regions ← a.allocateSingle size props regions
      pure (some (.ranked regions))
  | some .replicateAll => do
      let regions ← a.allocateReplicateAll turns size props regions
      pure (regions.map .ranked)
  | some .distributeAll => throw (.notSupported "SLS_ALLOC_DISTRIBUTE_ALL policy unimplemented.")
  | none => throw (.invalidArguments ("Unknown AllocPolicy. Got = " ++ toString policy.toNat ++ "."))

/-! ## Single ioctls -/

variable {a} {s t : σ}

theorem ioctl_ends {cmd : MemoryCommand} {request : PnmAllocation} {what : String} {Q : PnmAllocation → σ → Prop}
    {E : σ → Prop} (hok : ∀ reply t, a.device.ioctl cmd request s = (.ok reply, t) → Q reply t)
    (herror : ∀ err t, a.device.ioctl cmd request s = (.error err, t) → E t) :
    (a.ioctl cmd request what).Ends s Q fun _ => E := by
  rw [Call.Ends, ioctl, Call.exec_ofExec]
  rcases h : a.device.ioctl cmd request s with ⟨err | reply, t⟩
  · exact herror err t h
  · exact hok reply t h

section Lawful

variable {Inv : σ → Prop} {live : σ → Set PnmAllocation} (hlaw : a.device.Lawful a.regionsCount Inv live)

include hlaw

/-- The memory that an allocation gives is new, and is that of the unit. -/
theorem allocateIoctl_ends (hs : Inv s) (size : BitVec 64) (cunit : Option (BitVec 8)) :
    (a.allocateIoctl size cunit).Ends s
      (fun region t => ∃ request, region.request = some request ∧ region.size = size ∧
        (∀ c, cunit = some c → c ≠ 255 → request.memoryPool = c) ∧ request.memoryPool.toNat < a.regionsCount ∧
        Inv t ∧ request ∉ live s ∧ live t = insert request (live s))
      (fun _ t => Inv t ∧ live t = live s) := by
  refine Call.Ends.bind (ioctl_ends (fun reply t h => ?_) fun err t h => hlaw.allocate_error hs h)
    (Q := fun request t => request.size = size ∧ (∀ c, cunit = some c → c ≠ 255 → request.memoryPool = c) ∧
      request.memoryPool.toNat < a.regionsCount ∧ Inv t ∧ request ∉ live s ∧ live t = insert request (live s)) ?_
  · obtain ⟨hsize, -, hpool, hlt, ht, hnew, hlive⟩ := hlaw.allocate_ok hs rfl h
    refine ⟨hsize, ?_, hlt, ht, hnew, hlive⟩
    rintro c rfl hc
    exact hpool hc
  · rintro request t ⟨rfl, hrest⟩
    exact Call.ends_pure ⟨request, rfl, rfl, hrest⟩

theorem deallocateIoctl_ends (hs : Inv s) {region : SequentialRegion} {request : PnmAllocation}
    (hrequest : region.request = some request) (hlive : request ∈ live s) :
    (a.deallocateIoctl region).Ends s (fun _ t => Inv t ∧ live t = live s \ {request}) (fun _ _ => False) := by
  obtain ⟨reply, t, hioctl, ht⟩ := hlaw.deallocate_ok hs hlive
  simp only [deallocateIoctl, hrequest]
  refine Call.Ends.bind (ioctl_ends (fun reply' t' h => ?_) fun err t' h => ?_) fun _ _ h => Call.ends_pure h
  · obtain rfl := (Prod.mk.inj (hioctl.symm.trans h)).2
    exact ht
  · cases (Prod.mk.inj (hioctl.symm.trans h)).1

end Lawful

/-! ## Giving back -/

/-- The memory of the slots that have a size. -/
def held (regions : List SequentialRegion) : List PnmAllocation :=
  (regions.filter fun region => 0 < region.size).filterMap SequentialRegion.request

theorem held_append (regions rest : List SequentialRegion) : held (regions ++ rest) = held regions ++ held rest := by
  rw [held, List.filter_append, List.filterMap_append]
  rfl

theorem held_emptySlots (n : Nat) : held (emptySlots n) = [] := by
  rw [held, emptySlots, List.filter_replicate_of_neg (by decide)]
  rfl

theorem held_cons_of_pos {region : SequentialRegion} {request : PnmAllocation} (hsize : 0 < region.size)
    (hrequest : region.request = some request) (rest : List SequentialRegion) :
    held (region :: rest) = request :: held rest := by
  have hpos : decide (0 < region.size) = true := decide_eq_true hsize
  rw [held, List.filter_cons, if_pos hpos, List.filterMap_cons_some hrequest]
  rfl

theorem held_cons_of_not {region : SequentialRegion} (hsize : ¬ 0 < region.size) (rest : List SequentialRegion) :
    held (region :: rest) = held rest := by
  have hneg : ¬ decide (0 < region.size) = true := fun h => hsize (of_decide_eq_true h)
  rw [held, List.filter_cons, if_neg hneg]
  rfl

/-- The memory of all slots. -/
def memoryOf (regions : List SequentialRegion) : List PnmAllocation := regions.filterMap SequentialRegion.request

/-- A region whose memory can be given back: it has a unit, it is live, and no memory is named twice. -/
structure Returnable (live : Set PnmAllocation) (regions : List SequentialRegion) : Prop where
  located : ∀ region ∈ regions, 0 < region.size → region.location ≠ none
  nodup : (held regions).Nodup
  held_live : ∀ request ∈ held regions, request ∈ live

section Lawful

variable {Inv : σ → Prop} {live : σ → Set PnmAllocation} (hlaw : a.device.Lawful a.regionsCount Inv live)

include hlaw

/-- **Giving back** a region frees its memory and nothing else. -/
theorem deallocateImpl_ends (hs : Inv s) {regions : List SequentialRegion} (h : Returnable (live s) regions) :
    (a.deallocateImpl (.ranked regions)).Ends s
      (fun _ t => Inv t ∧ ∀ request, request ∈ live t ↔ request ∈ live s ∧ request ∉ held regions)
      (fun _ _ => False) := by
  -- what is live and not still to be freed stays the same from turn to turn
  refine (Call.Ends.forM (I := fun rest t => Inv t ∧ Returnable (live t) rest ∧ ∀ request,
    (request ∈ live t ∧ request ∉ held rest) ↔ request ∈ live s ∧ request ∉ held regions) ?_
    ⟨hs, h, fun _ => Iff.rfl⟩).mono ?_ fun _ _ => id
  · rintro region rest t ⟨ht, hreturnable, hsame⟩
    by_cases hsize : 0 < region.size
    · rw [if_pos hsize]
      obtain ⟨location, hlocation⟩ :=
        Option.ne_none_iff_exists'.mp (hreturnable.located region List.mem_cons_self hsize)
      have hrequest := SequentialRegion.request_eq_some hlocation
      generalize PnmAllocation.mk region.start region.size location region.isGlobal = request at hrequest
      have hheld := held_cons_of_pos hsize hrequest rest
      have hnodup := hreturnable.nodup
      rw [hheld, List.nodup_cons] at hnodup
      refine (deallocateIoctl_ends hlaw ht hrequest (hreturnable.held_live request (by simp [hheld]))).mono ?_
        fun _ _ => id
      rintro - u ⟨hu, hlive⟩
      refine ⟨hu, ⟨fun r hr => hreturnable.located r (List.mem_cons_of_mem _ hr), hnodup.2, fun r hr => ?_⟩,
        fun r => ?_⟩
      · rw [hlive]
        exact ⟨hreturnable.held_live r (by simp [hheld, hr]), fun heq => hnodup.1 (heq ▸ hr)⟩
      · rw [← hsame r, hheld, hlive, List.mem_cons, not_or]
        exact and_assoc
    · rw [if_neg hsize]
      have hheld := held_cons_of_not hsize rest
      refine Call.ends_pure ⟨ht, ⟨fun r hr => hreturnable.located r (List.mem_cons_of_mem _ hr), ?_, ?_⟩, fun r => ?_⟩
      · exact hheld ▸ hreturnable.nodup
      · exact hheld ▸ hreturnable.held_live
      · rw [← hsame r, hheld]
  · rintro - t ⟨ht, -, hsame⟩
    exact ⟨ht, fun r => by simpa [held] using hsame r⟩

end Lawful

/-! ## Allocating on all units -/

/-- The units so far: unit `i` has memory of the requested size, all of it new since `s`, and nothing else is new. -/
structure Filled (Inv : σ → Prop) (live : σ → Set PnmAllocation) (size : BitVec 64) (s : σ)
    (filled : List SequentialRegion) (t : σ) : Prop where
  inv : Inv t
  onUnit : ∀ i region, filled[i]? = some region → region.size = size ∧ region.location = some (BitVec.ofNat 8 i)
  nodup : (held filled).Nodup
  fresh : ∀ request ∈ held filled, request ∉ live s
  live_iff : ∀ request, request ∈ live t ↔ request ∈ live s ∨ request ∈ held filled

section Lawful

variable {Inv : σ → Prop} {live : σ → Set PnmAllocation} {size : BitVec 64} {filled : List SequentialRegion}

theorem filled_nil (hs : Inv s) : Filled Inv live size s [] s where
  inv := hs
  onUnit _ _ h := nomatch h
  nodup := List.nodup_nil
  fresh _ h := nomatch h
  live_iff _ := by simp [held]

theorem Filled.location_ne_none (h : Filled Inv live size s filled t) {region : SequentialRegion}
    (hregion : region ∈ filled) : region.location ≠ none := by
  obtain ⟨i, hi⟩ := List.getElem?_of_mem hregion
  rw [(h.onUnit i region hi).2]
  exact Option.some_ne_none _

/-- What is there can be given back, at any time. -/
theorem Filled.returnable (h : Filled Inv live size s filled t) {now : Set PnmAllocation}
    (hnow : ∀ request ∈ held filled, request ∈ now) (n : Nat) :
    Returnable now (filled ++ emptySlots n) := by
  have hheld : held (filled ++ emptySlots n) = held filled := by
    rw [held_append, held_emptySlots, List.append_nil]
  refine ⟨fun region hregion hpos => ?_, hheld ▸ h.nodup, hheld ▸ hnow⟩
  rcases List.mem_append.mp hregion with hfilled | hempty
  · exact h.location_ne_none hfilled
  · obtain rfl := List.eq_of_mem_replicate hempty
    exact absurd hpos (by decide)

/-- One unit more. -/
theorem Filled.snoc (h : Filled Inv live size s filled t) (hsize : 0 < size) {region : SequentialRegion}
    {request : PnmAllocation} {u : σ} (hrequest : region.request = some request) (hregion : region.size = size)
    (hpool : request.memoryPool = BitVec.ofNat 8 filled.length) (hu : Inv u) (hnew : request ∉ live t)
    (hlive : live u = insert request (live t)) : Filled Inv live size s (filled ++ [region]) u := by
  have hheld : held (filled ++ [region]) = held filled ++ [request] := by
    rw [held_append, held_cons_of_pos (hregion ▸ hsize) hrequest]
    rfl
  have hlocation := SequentialRegion.location_of_request hrequest
  rw [h.live_iff, not_or] at hnew
  refine ⟨hu, fun i r hi => ?_, ?_, fun r hr => ?_, fun r => ?_⟩
  · rcases Nat.lt_trichotomy i filled.length with hlt | rfl | hgt
    · rw [List.getElem?_append_left hlt] at hi
      exact h.onUnit i r hi
    · rw [List.getElem?_concat_length] at hi
      obtain rfl := Option.some.inj hi
      exact ⟨hregion, hpool ▸ hlocation⟩
    · rw [List.getElem?_eq_none (by rw [List.length_append]; exact hgt)] at hi
      cases hi
  · rw [hheld, ← List.concat_eq_append]
    exact List.Nodup.concat hnew.2 h.nodup
  · rw [hheld, List.mem_append, List.mem_singleton] at hr
    rcases hr with hr | rfl
    · exact h.fresh r hr
    · exact hnew.1
  · rw [hlive, Set.mem_insert_iff, h.live_iff, hheld, List.mem_append, List.mem_singleton, or_comm, or_assoc]

theorem Filled.held_eq (h : Filled Inv live size s filled t) (hsize : 0 < size) : held filled = memoryOf filled := by
  rw [held, memoryOf, List.filter_eq_self.mpr]
  intro region hregion
  obtain ⟨i, hi⟩ := List.getElem?_of_mem hregion
  exact decide_eq_true ((h.onUnit i region hi).1 ▸ hsize)

/-- Each unit has its memory. -/
theorem Filled.exists_request (h : Filled Inv live size s filled t) (hsize : 0 < size) {i : Nat}
    (hi : i < filled.length) : ∃ region request, filled[i]? = some region ∧ region.request = some request ∧
      request.memoryPool = BitVec.ofNat 8 i ∧ request.size = size ∧ request ∈ live t := by
  have hget : filled[i]? = some filled[i] := List.getElem?_eq_getElem hi
  obtain ⟨hregion, hlocation⟩ := h.onUnit i _ hget
  have hrequest := SequentialRegion.request_eq_some hlocation
  refine ⟨_, _, hget, hrequest, rfl, hregion, (h.live_iff _).mpr (.inr ?_)⟩
  rw [h.held_eq hsize]
  exact List.mem_filterMap.mpr ⟨_, List.getElem_mem hi, hrequest⟩

/-- The slot of the next unit is filled. -/
theorem fillSlot_next (filled : List SequentialRegion) (n : Nat) {region : SequentialRegion}
    (hlocation : region.location = some (BitVec.ofNat 8 filled.length)) (hlt : filled.length < 256) :
    fillSlot (filled ++ emptySlots (n + 1)) region = (filled ++ [region]) ++ emptySlots n := by
  rw [fillSlot, hlocation]
  dsimp only
  rw [BitVec.toNat_ofNat, Nat.mod_eq_of_lt hlt, List.set_append_right _ _ (Nat.le_refl _), Nat.sub_self, emptySlots,
    List.replicate_succ, List.set_cons_zero, List.append_assoc]
  rfl

variable (hlaw : a.device.Lawful a.regionsCount Inv live)

include hlaw

/-- **One turn**: one unit more has memory, or none has any since the start. -/
theorem allocateOnRank_ends (hsize : 0 < size) (h : Filled Inv live size s filled t) (hlt : filled.length < 255)
    (n : Nat) :
    (a.allocateOnRank size (BitVec.ofNat 8 filled.length) (filled ++ emptySlots (n + 1))).Ends t
      (fun regions u => ∃ region, regions = (filled ++ [region]) ++ emptySlots n ∧
        Filled Inv live size s (filled ++ [region]) u)
      (fun _ u => Inv u ∧ live u = live s) := by
  have hrank : (BitVec.ofNat 8 filled.length) ≠ 255 := by
    rw [ne_eq, ← BitVec.toNat_inj, BitVec.toNat_ofNat, Nat.mod_eq_of_lt (by omega)]
    exact ne_of_lt hlt
  refine Call.Ends.tryCatch (Call.Ends.bind (allocateIoctl_ends hlaw h.inv size _) ?_) ?_
    (E := fun _ u => Inv u ∧ live u = live t)
  · rintro region u ⟨request, hrequest, hregion, hpool, -, hu, hnew, hlive⟩
    have hpool' := hpool _ rfl hrank
    have hlocation : region.location = some (BitVec.ofNat 8 filled.length) := by
      rw [SequentialRegion.location_of_request hrequest, hpool']
    exact Call.ends_pure ⟨region, fillSlot_next filled n hlocation (by omega),
      h.snoc hsize hrequest hregion hpool' hu hnew hlive⟩
  · rintro e u ⟨hu, hlive⟩
    -- the slots that are filled are those with a size
    have hreturnable : Returnable (live u) (filled ++ emptySlots (n + 1)) :=
      h.returnable (fun request hrequest => hlive ▸ (h.live_iff request).mpr (.inr hrequest)) (n + 1)
    refine Call.Ends.bind ((deallocateImpl_ends hlaw hu hreturnable).mono (fun _ _ => id) fun _ _ => False.elim) ?_
    rintro - v ⟨hv, hback⟩
    refine Call.ends_throw ⟨hv, Set.ext fun request => ?_⟩
    rw [hback, hlive, h.live_iff, held_append, held_emptySlots, List.append_nil]
    exact ⟨fun hr => hr.1.resolve_right hr.2, fun hr => ⟨.inl hr, fun hheld => h.fresh request hheld hr⟩⟩

/-- **The loop**: all units have memory, or none has any since the start. -/
theorem allocateOnRanks_ends_inv (hsize : 0 < size) (hcount : a.regionsCount ≤ 255) {n turns : Nat}
    (h : Filled Inv live size s filled t) (hlength : filled.length + n = a.regionsCount) (hturns : n < turns) :
    (a.allocateOnRanks size turns (BitVec.ofNat 8 filled.length) (filled ++ emptySlots n)).Ends t
      (fun regions u => ∃ all, regions = some all ∧ all.length = a.regionsCount ∧ Filled Inv live size s all u)
      (fun _ u => Inv u ∧ live u = live s) := by
  induction n generalizing filled t turns with
  | zero =>
      obtain ⟨turns, rfl⟩ := Nat.exists_eq_add_one.mpr hturns
      rw [allocateOnRanks, BitVec.toNat_ofNat, Nat.mod_eq_of_lt (by omega), if_neg (by omega)]
      exact Call.ends_pure ⟨filled, by simp [emptySlots], hlength, h⟩
  | succ n ih =>
      obtain ⟨turns, rfl⟩ := Nat.exists_eq_add_one.mpr (Nat.zero_lt_of_lt hturns)
      rw [allocateOnRanks, BitVec.toNat_ofNat, Nat.mod_eq_of_lt (by omega), if_pos (by omega)]
      have hturn := allocateOnRank_ends hlaw hsize h (show filled.length < 255 by omega) n
      refine Call.Ends.bind hturn ?_
      rintro regions u ⟨region, rfl, hu⟩
      have hnext : BitVec.ofNat 8 filled.length + 1 = BitVec.ofNat 8 (filled ++ [region]).length := by
        rw [List.length_append, BitVec.ofNat_add]
        rfl
      rw [hnext]
      exact ih hu (by rw [List.length_append]; simp only [List.length_singleton]; omega) (by omega)

theorem allocateOnRanks_ends (hsize : 0 < size) (hcount : a.regionsCount ≤ 255) {n turns : Nat}
    (h : Filled Inv live size s filled t) (hlength : filled.length + n = a.regionsCount) (hturns : n < turns) :
    (a.allocateOnRanks size turns (BitVec.ofNat 8 filled.length) (filled ++ emptySlots n)).Ends t
      (fun regions u => ∃ all, regions = some all ∧ all.length = a.regionsCount ∧ Filled Inv live size s all u)
      (fun _ u => live u = live s) :=
  (allocateOnRanks_ends_inv hlaw hsize hcount h hlength hturns).mono (fun _ _ => id) fun _ _ => And.right

/-- **All or nothing.** The replicating allocation returns a region in which every unit has memory of the requested
    size, or throws and the file holds what it held before. At any later time, giving the region back frees its memory
    and no other. -/
theorem allocate_replicated_ends (hcount : a.regionsCount ≤ 255) {size : BitVec 64} (hsize : 0 < size)
    {props : PropertiesList} (hpolicy : props.allocPolicy.bind UserPreferences.ofValue = some .replicateAll)
    {turns : Nat} (hturns : a.regionsCount < turns) (hs : Inv s) :
    (a.allocateImpl turns size props).Ends s
      (fun region t => ∃ regions, region = some (.ranked regions) ∧ regions.length = a.regionsCount ∧
        (∀ i < a.regionsCount, ∃ slot request, regions[i]? = some slot ∧ slot.request = some request ∧
          request.memoryPool = BitVec.ofNat 8 i ∧ request.size = size ∧ request ∈ live t) ∧
        (∀ request, request ∈ live t ↔ request ∈ live s ∨ request ∈ memoryOf regions) ∧
        (∀ request ∈ memoryOf regions, request ∉ live s) ∧
        ∀ u, Inv u → (∀ request ∈ memoryOf regions, request ∈ live u) →
          (a.deallocateImpl (.ranked regions)).Ends u
            (fun _ v => ∀ request, request ∈ live v ↔ request ∈ live u ∧ request ∉ memoryOf regions)
            fun _ _ => False)
      (fun _ t => live t = live s) := by
  obtain ⟨value, hvalue, hreplicate⟩ := Option.bind_eq_some_iff.mp hpolicy
  simp only [allocateImpl, hvalue, Option.getD_some, hreplicate, allocateReplicateAll]
  refine Call.Ends.bind (Q := fun regions t => ∃ all, regions = some all ∧ all.length = a.regionsCount ∧
    Filled Inv live size s all t) ?_ ?_
  · split
    · exact Call.ends_throw rfl
    · exact allocateOnRanks_ends hlaw hsize hcount (filled_nil hs) (Nat.zero_add _) hturns
  · rintro regions t ⟨all, rfl, hlength, hall⟩
    have hheld := hall.held_eq hsize
    refine Call.ends_pure ⟨all, rfl, hlength, fun i hi => hall.exists_request hsize (hlength ▸ hi),
      hheld ▸ hall.live_iff, hheld ▸ hall.fresh, fun u hu hlive => ?_⟩
    have hreturnable := hall.returnable (hheld ▸ hlive) 0
    rw [emptySlots, List.replicate_zero, List.append_nil] at hreturnable
    refine (deallocateImpl_ends hlaw hu hreturnable).mono (fun _ v hv => ?_) fun _ _ => id
    exact hheld ▸ hv.2

end Lawful

/-- The device of a kernel with one pool, whose first granule is free. -/
def onePoolDevice : Device (Kernel.Allocator × Nat) :=
  .ofKernel Kernel.onePool 0 (fun _ => ⟨0, some 0, true, 0⟩) fun _ => "error"

end RankedAllocator

/-- Two pools whose first granules are free. -/
def twoPoolDevice : Device (Kernel.Allocator × Nat) :=
  .ofKernel { Kernel.onePool with nrPools := 2 } 0 (fun _ => ⟨0, some 0, true, 0⟩) fun _ => "error"

/-- Two pools of which the second has no granule for the second ioctl. -/
def fullPoolDevice : Device (Kernel.Allocator × Nat) :=
  .ofKernel { Kernel.onePool with nrPools := 2 } 0 (fun n => ⟨0, if n = 1 then none else some 0, true, 0⟩)
    fun _ => "error"

theorem twoPoolDevice_lawful :
    twoPoolDevice.Lawful 2 (Device.KernelInv { Kernel.onePool with nrPools := 2 } 0) (Device.heldBy 0) :=
  Device.ofKernel_lawful (show 2 ≤ 256 by decide) _ _

theorem fullPoolDevice_lawful :
    fullPoolDevice.Lawful 2 (Device.KernelInv { Kernel.onePool with nrPools := 2 } 0) (Device.heldBy 0) :=
  Device.ofKernel_lawful (show 2 ≤ 256 by decide) _ _

/-- A page on both units, and what happens if the second ioctl fails: the third gives the first page back. -/
theorem allocate_replicated_two_pools :
    (∃ t, (RankedAllocator.mk twoPoolDevice 2 |>.allocateImpl 3 4096 { allocPolicy := some 1 }).exec (.init, 0)
        = (.ok (some (.ranked [⟨0, 4096, some 0, 0⟩, ⟨0, 4096, some 1, 0⟩])), t) ∧
      (∀ request, request ∈ Device.heldBy 0 t ↔ request = ⟨0, 4096, 0, 0⟩ ∨ request = ⟨0, 4096, 1, 0⟩) ∧
      (RankedAllocator.mk twoPoolDevice 2 |>.deallocateImpl
        (.ranked [⟨0, 4096, some 0, 0⟩, ⟨0, 4096, some 1, 0⟩])).Ends t
          (fun _ v => Device.heldBy 0 v = ∅) fun _ _ => False) ∧
    ∃ e s, (RankedAllocator.mk fullPoolDevice 2 |>.allocateImpl 3 4096 { allocPolicy := some 1 }).exec (.init, 0)
        = (.error e, (s, 3)) ∧ Device.heldBy 0 (s, 3) = ∅ := by
  have hsize : (0 : BitVec 64) < 4096 := by decide
  have hpolicy : ({ allocPolicy := some 1 } : PropertiesList).allocPolicy.bind UserPreferences.ofValue
      = some .replicateAll := by decide
  have hinit := Device.kernelInv_init { Kernel.onePool with nrPools := 2 } 0
  have hnothing : ∀ request, request ∉ Device.heldBy 0 (.init, 0) := fun _ h => List.not_mem_nil h.2
  constructor
  · have hends := RankedAllocator.allocate_replicated_ends (a := .mk twoPoolDevice 2) twoPoolDevice_lawful (by decide)
      hsize hpolicy (Nat.lt_succ_self 2) hinit
    have hloop := RankedAllocator.allocateOnRanks_ends_inv (a := .mk twoPoolDevice 2) twoPoolDevice_lawful hsize
      (by decide) (RankedAllocator.filled_nil hinit) (n := 2) rfl (Nat.lt_succ_self 2)
    obtain ⟨t, hexec, hloopExec⟩ : ∃ t, (RankedAllocator.mk twoPoolDevice 2 |>.allocateImpl 3 4096
        { allocPolicy := some 1 }).exec (.init, 0)
          = (.ok (some (.ranked [⟨0, 4096, some 0, 0⟩, ⟨0, 4096, some 1, 0⟩])), t) ∧
        (RankedAllocator.mk twoPoolDevice 2 |>.allocateOnRanks 4096 3 0 (emptySlots 2)).exec (.init, 0)
          = (.ok (some [⟨0, 4096, some 0, 0⟩, ⟨0, 4096, some 1, 0⟩]), t) := ⟨_, rfl, rfl⟩
    rw [Call.ends_of_ok hexec] at hends
    obtain ⟨_, hregions, -, -, hlive, -, hback⟩ := hends
    cases hregions
    have hheld : ∀ request, request ∈ Device.heldBy 0 t ↔ request = ⟨0, 4096, 0, 0⟩ ∨ request = ⟨0, 4096, 1, 0⟩ := by
      intro request
      rw [hlive, or_iff_right (hnothing request)]
      simp [RankedAllocator.memoryOf, SequentialRegion.request]
    have hinv : Device.KernelInv { Kernel.onePool with nrPools := 2 } 0 t := by
      obtain ⟨_, -, -, hfilled⟩ := (Call.ends_of_ok hloopExec).mp hloop
      exact hfilled.inv
    refine ⟨t, hexec, hheld, (hback t hinv ?_).mono (fun _ v hv => ?_) fun _ _ => id⟩
    · intro request hrequest
      exact (hlive request).mpr (.inr hrequest)
    · refine Set.eq_empty_of_forall_notMem fun request hrequest => ?_
      obtain ⟨hin, hnot⟩ := (hv request).mp hrequest
      exact ((hlive request).mp hin).elim (hnothing request) hnot
  · have hends := RankedAllocator.allocate_replicated_ends (a := .mk fullPoolDevice 2) fullPoolDevice_lawful (by decide)
      hsize hpolicy (Nat.lt_succ_self 2) hinit
    obtain ⟨e, s, hexec⟩ : ∃ e s, (RankedAllocator.mk fullPoolDevice 2 |>.allocateImpl 3 4096
        { allocPolicy := some 1 }).exec (.init, 0) = (.error e, (s, 3)) := ⟨_, _, rfl⟩
    rw [Call.ends_of_error hexec] at hends
    exact ⟨e, s, hexec, hends.trans (Set.eq_empty_of_forall_notMem hnothing)⟩

end Pnm.Core
