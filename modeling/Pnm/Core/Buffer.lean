import Pnm.Lib.Ledger
import Pnm.Lib.Runs

/-!
# `Core.Buffer` — ownership of device regions

The model of the lifetime of `pnm::memory::Buffer` (`include/pnmlib/core/buffer.h`): its constructors, its moves and
its destructor, over all `Buffer` objects of a process. A `Buffer` with a context deallocates its region in `release`.
The destructor calls `release` under a condition on the flags of the region; the move assignment calls it always.

`Sound` is what ownership should mean. A process stays sound exactly as long as its operations are `Careful`: no move
assignment goes to a `Buffer` that only wraps its region, or to itself, and no constructor fails behind its
allocation (`ownership_sound_iff`). Careful operations are moves of a `Ledger`.
-/

namespace Pnm.Core

open Pnm.Lib

variable {ρ : Type}

/-- `DeviceRegionWrapper`. -/
structure DeviceRegionWrapper (ρ : Type) where
  value : ρ
  ownerProcessId : Int
  owned : Bool
  isGlobal : Bool

/-- `Buffer`, without the data that its lifetime does not depend on; `context` says whether `context_` is set. -/
structure Buffer (ρ : Type) where
  context : Bool
  devRegion : DeviceRegionWrapper ρ

/-- A call of `deallocate`, with the ownership flag of the `Buffer` that made it. -/
structure Deallocation (ρ : Type) where
  region : ρ
  owned : Bool

namespace Buffer

/-- The constructors that allocate. -/
def ofAllocation (pid : Int) (region : ρ) : Buffer ρ :=
  { context := true, devRegion := { value := region, ownerProcessId := pid, owned := true, isGlobal := false } }

/-- The constructor from a `DeviceRegion`. -/
def ofRegion (region : ρ) (context : Bool) : Buffer ρ :=
  { context := context, devRegion := { value := region, ownerProcessId := -1, owned := false, isGlobal := false } }

/-- What `std::exchange` leaves of a `Buffer` that is moved from. -/
def movedFrom [Inhabited ρ] (pid : Int) : Buffer ρ :=
  { context := false, devRegion := { value := default, ownerProcessId := pid, owned := true, isGlobal := false } }

/-- `release`. -/
def release (b : Buffer ρ) : List (Deallocation ρ) :=
  if b.context then [{ region := b.devRegion.value, owned := b.devRegion.owned }] else []

/-- `~Buffer`. -/
def destructor (pid : Int) (b : Buffer ρ) : List (Deallocation ρ) :=
  if (b.devRegion.owned && b.devRegion.ownerProcessId == pid) || b.devRegion.isGlobal then b.release else []

/-- The region that a `Buffer` owns. -/
def owns (b : Buffer ρ) : Option ρ := if b.context && b.devRegion.owned then some b.devRegion.value else none

end Buffer

/-- The `Buffer` objects of a process that are alive, the regions that were allocated, and the calls of
    `deallocate`. -/
structure Process (ρ : Type) where
  objects : Nat → Option (Buffer ρ)
  allocated : List ρ
  freed : List (Deallocation ρ)

/-- The operations on objects. -/
inductive Op (ρ : Type) where
  | allocate (x : Nat) (region : ρ) (copyFails : Bool)
  | wrap (x : Nat) (region : ρ) (context : Bool)
  | moveConstruct (x y : Nat)
  | moveAssign (x y : Nat)
  | destroy (x : Nat)

namespace Process

/-- No objects yet. -/
def start : Process ρ := { objects := fun _ => none, allocated := [], freed := [] }

section Operations

variable [DecidableEq ρ] [Inhabited ρ] (pid : Int) (s : Process ρ)

/-- One operation; `none` if it is not possible. The allocator hands out fresh regions. If the copy to the device
    throws in the constructor, there is no object and no destructor. -/
def step : Op ρ → Option (Process ρ)
  | .allocate x region copyFails =>
      if (s.objects x).isNone ∧ region ∉ s.allocated then
        some { s with
          objects := if copyFails then s.objects else Function.update s.objects x (some (.ofAllocation pid region))
          allocated := region :: s.allocated }
      else none
  | .wrap x region context =>
      if (s.objects x).isNone then
        some { s with objects := Function.update s.objects x (some (.ofRegion region context)) }
      else none
  | .moveConstruct x y =>
      match s.objects x, s.objects y with
      | none, some b =>
          some { s with objects := Function.update (Function.update s.objects y (some (.movedFrom pid))) x (some b) }
      | _, _ => none
  | .moveAssign x y =>
      match s.objects x, s.objects y with
      | some a, some b =>
          -- each member is exchanged before it is assigned, so an object that is assigned to itself keeps its members
          some { s with
            objects := Function.update (Function.update s.objects y (some (.movedFrom pid))) x (some b)
            freed := s.freed ++ a.release }
      | _, _ => none
  | .destroy x =>
      match s.objects x with
      | some b => some { s with objects := Function.update s.objects x none, freed := s.freed ++ b.destructor pid }
      | none   => none

end Operations

/-! ## Soundness -/

/-- The region that object `x` owns. -/
def owner (s : Process ρ) (x : Nat) : Option ρ := (s.objects x).bind Buffer.owns

/-- The regions that were deallocated. -/
def freedRegions (s : Process ρ) : List ρ := s.freed.map Deallocation.region

/-- Operations that keep to what the class can do. -/
def Careful (s : Process ρ) : Op ρ → Prop
  | .allocate _ _ copyFails => copyFails = false
  | .moveAssign x y         => ∀ a, s.objects x = some a → a.context = true → a.devRegion.owned = true ∧ x ≠ y
  | _                       => True

section Soundness

variable [DecidableEq ρ]

/-- Regions are deallocated by their owners only, at most once, not while they are owned, and none is lost: when
    there are no objects left, each allocated region has been deallocated exactly once. -/
structure Sound (s : Process ρ) : Prop where
  byOwner : ∀ d ∈ s.freed, d.owned = true
  atMostOnce : ∀ r ∈ s.allocated, s.freedRegions.count r ≤ 1
  notWhileOwned : ∀ x r, s.owner x = some r → r ∉ s.freedRegions
  notLost : ∀ r ∈ s.allocated, r ∈ s.freedRegions ∨ ∃ x, s.owner x = some r
  exactlyOnce : (∀ x, s.objects x = none) → ∀ r ∈ s.allocated, s.freedRegions.count r = 1

end Soundness

/-! ## Processes as ledgers -/

section Ledgers

variable (pid : Int) (s : Process ρ)

/-- Who owns what. -/
def ledger : Ledger Nat ρ := { holder := s.owner, allocated := s.allocated, freed := s.freedRegions }

/-- What careful operations keep: the flags are those of the constructors, and the ledger is valid. -/
structure Inv : Prop where
  flags : ∀ x b, s.objects x = some b →
    b.devRegion.isGlobal = false ∧ (b.devRegion.owned = true → b.devRegion.ownerProcessId = pid)
  byOwner : ∀ d ∈ s.freed, d.owned = true
  valid : s.ledger.Valid

variable {pid s}

theorem inv_start : Inv pid (start : Process ρ) :=
  ⟨fun _ _ h => (nomatch h), fun d hd => (nomatch (show d ∈ [] from hd)), Ledger.valid_empty⟩

/-- An object that is written owns what its new value owns. -/
theorem owner_update (f : Nat → Option (Buffer ρ)) (x : Nat) (o : Option (Buffer ρ)) :
    (fun z => (Function.update f x o z).bind Buffer.owns)
      = Function.update (fun z => (f z).bind Buffer.owns) x (o.bind Buffer.owns) := by
  funext z
  by_cases hz : z = x
  · subst hz
    rw [Function.update_self, Function.update_self]
  · rw [Function.update_of_ne hz, Function.update_of_ne hz]

theorem flags_update {f : Nat → Option (Buffer ρ)} {P : Buffer ρ → Prop} (h : ∀ x b, f x = some b → P b) {x : Nat}
    {o : Option (Buffer ρ)} (ho : ∀ b, o = some b → P b) : ∀ z b, Function.update f x o z = some b → P b := by
  intro z b hz
  by_cases hzx : z = x
  · subst hzx
    rw [Function.update_self] at hz
    exact ho b hz
  · rw [Function.update_of_ne hzx] at hz
    exact h z b hz

/-- With the flags of the constructors, the destructor deallocates what the object owns. -/
theorem destructor_eq {b : Buffer ρ} (hglobal : b.devRegion.isGlobal = false)
    (hpid : b.devRegion.owned = true → b.devRegion.ownerProcessId = pid) :
    b.destructor pid = b.owns.toList.map fun r => .mk r true := by
  cases howned : b.devRegion.owned with
  | false => simp [Buffer.destructor, Buffer.owns, howned, hglobal]
  | true =>
      cases hcontext : b.context with
      | false => simp [Buffer.destructor, Buffer.owns, Buffer.release, howned, hcontext]
      | true => simp [Buffer.destructor, Buffer.owns, Buffer.release, howned, hcontext, hpid howned]

/-- `release`, of an object that owns its region or has no context. -/
theorem release_eq {b : Buffer ρ} (h : b.context = true → b.devRegion.owned = true) :
    b.release = b.owns.toList.map fun r => .mk r true := by
  cases hcontext : b.context with
  | false => simp [Buffer.release, Buffer.owns, hcontext]
  | true => simp [Buffer.release, Buffer.owns, hcontext, h hcontext]

theorem owner_of_none {x : Nat} (h : s.objects x = none) : s.owner x = none := by rw [owner, h, Option.bind_none]

theorem owner_of_some {x : Nat} {b : Buffer ρ} (h : s.objects x = some b) : s.owner x = b.owns := by
  rw [owner, h, Option.bind_some]

/-- The ledger of a process whose owners are known. -/
theorem ledger_eq (t : Process ρ) {f : Nat → Option ρ} (h : (fun z => (t.objects z).bind Buffer.owns) = f) :
    t.ledger = { holder := f, allocated := t.allocated, freed := t.freedRegions } := by
  rw [← h]
  rfl

/-- The owners after a move. -/
theorem owner_moved [Inhabited ρ] {x y : Nat} {b : Buffer ρ} (hy : s.objects y = some b) :
    (fun z => (Function.update (Function.update s.objects y (some (.movedFrom pid))) x (some b) z).bind Buffer.owns)
      = Function.update (Function.update s.owner y none) x (s.owner y) := by
  rw [owner_update, owner_update, owner_of_some hy]
  rfl

/-- A move to an object that gave up what it had, in the terms of the ledger. -/
theorem moved_eq_transfer {f : Nat → Option ρ} {x y : Nat} (hself : x = y → f y = none) :
    Function.update (Function.update f y none) x (f y)
      = Function.update (Function.update (Function.update f x none) y none) x (Function.update f x none y) := by
  have hy : Function.update f x none y = f y := by
    by_cases hyx : y = x
    · rw [hyx, Function.update_self, ← hyx, hself hyx.symm]
    · rw [Function.update_of_ne hyx]
  rw [hy]
  funext z
  by_cases hzx : z = x
  · rw [hzx, Function.update_self, Function.update_self]
  · rw [Function.update_of_ne hzx, Function.update_of_ne hzx]
    by_cases hzy : z = y
    · rw [hzy, Function.update_self, Function.update_self]
    · rw [Function.update_of_ne hzy, Function.update_of_ne hzy, Function.update_of_ne hzx]

theorem flags_moved [Inhabited ρ] {x y : Nat} {b : Buffer ρ}
    (h : ∀ x b, s.objects x = some b →
      b.devRegion.isGlobal = false ∧ (b.devRegion.owned = true → b.devRegion.ownerProcessId = pid))
    (hy : s.objects y = some b) :
    ∀ z c, Function.update (Function.update s.objects y (some (.movedFrom pid))) x (some b) z = some c →
      c.devRegion.isGlobal = false ∧ (c.devRegion.owned = true → c.devRegion.ownerProcessId = pid) := by
  refine flags_update (flags_update h fun c hc => ?_) fun c hc => ?_
  · obtain rfl := Option.some.inj hc
    exact ⟨rfl, fun _ => rfl⟩
  · obtain rfl := Option.some.inj hc
    exact h y _ hy

/-- The log after the regions of an owner were deallocated. -/
theorem byOwner_append {o : Option ρ} (h : ∀ d ∈ s.freed, d.owned = true) :
    ∀ d ∈ s.freed ++ o.toList.map (fun r => Deallocation.mk r true), d.owned = true := by
  intro d hd
  rcases List.mem_append.mp hd with hd | hd
  · exact h d hd
  · obtain ⟨r, -, rfl⟩ := List.mem_map.mp hd
    rfl

theorem freedRegions_append (o : Option ρ) :
    (s.freed ++ o.toList.map (fun r => Deallocation.mk r true)).map Deallocation.region
      = s.freedRegions ++ o.toList := by
  rw [List.map_append, List.map_map]
  congr 1
  exact List.map_id _

end Ledgers

section Runs

variable [DecidableEq ρ] {pid : Int} {s t : Process ρ}

theorem Inv.sound (h : Inv pid s) : s.Sound := by
  have hcount : ∀ r, s.freedRegions.count r ≤ 1 := List.nodup_iff_count_le_one.mp h.valid.freed_once
  refine ⟨h.byOwner, fun r _ => hcount r, h.valid.held_notFreed, h.valid.accounted, fun hnone r hr => ?_⟩
  have hfreed : r ∈ s.freedRegions := by
    rcases h.valid.accounted r hr with hfreed | ⟨x, hx⟩
    · exact hfreed
    · change (s.objects x).bind Buffer.owns = some r at hx
      rw [hnone x] at hx
      exact nomatch hx
  exact Nat.le_antisymm (hcount r) (List.count_pos_iff.mpr hfreed)

variable [Inhabited ρ]

/-- **Careful operations are moves of the ledger.** -/
theorem Inv.step {op : Op ρ} (h : Inv pid s) (hstep : s.step pid op = some t) (hcareful : s.Careful op) :
    Inv pid t := by
  cases op with
  | allocate x region copyFails =>
      obtain ⟨⟨hx, hfresh⟩, rfl⟩ := of_guarded hstep
      obtain rfl : copyFails = false := hcareful
      refine ⟨flags_update h.flags fun b hb => ?_, h.byOwner, ?_⟩
      · obtain rfl := Option.some.inj hb
        exact ⟨rfl, fun _ => rfl⟩
      · rw [ledger_eq _ (owner_update _ _ _)]
        exact h.valid.acquire (owner_of_none (Option.isNone_iff_eq_none.mp hx)) hfresh
  | wrap x region context =>
      obtain ⟨hx, rfl⟩ := of_guarded hstep
      refine ⟨flags_update h.flags fun b hb => ?_, h.byOwner, ?_⟩
      · obtain rfl := Option.some.inj hb
        exact ⟨rfl, fun hfalse => nomatch hfalse⟩
      · -- the new object owns nothing, and the old one was none
        have hnone : (some (Buffer.ofRegion region context)).bind Buffer.owns = s.owner x := by
          rw [owner_of_none (Option.isNone_iff_eq_none.mp hx)]
          cases context <;> rfl
        rw [ledger_eq _ (owner_update _ _ _), hnone]
        have hsame : Function.update s.owner x (s.owner x) = s.owner := Function.update_eq_self x s.owner
        exact (congrArg (fun f => Ledger.Valid ⟨f, s.allocated, s.freedRegions⟩) hsame).mpr h.valid
  | moveConstruct x y =>
      rw [Process.step] at hstep
      split at hstep
      · rename_i b hx hy
        obtain rfl := Option.some.inj hstep
        refine ⟨flags_moved h.flags hy, h.byOwner, ?_⟩
        rw [ledger_eq _ (owner_moved hy)]
        exact h.valid.transfer (owner_of_none hx)
      · exact nomatch hstep
  | moveAssign x y =>
      rw [Process.step] at hstep
      split at hstep
      · rename_i a b hx hy
        obtain rfl := Option.some.inj hstep
        have hrelease := release_eq fun hcontext => (hcareful a hx hcontext).1
        refine ⟨flags_moved h.flags hy, ?_, ?_⟩
        · show ∀ d ∈ s.freed ++ a.release, _
          rw [hrelease]
          exact byOwner_append h.byOwner
        · have hself : x = y → s.owner y = none := by
            rintro rfl
            cases hcontext : a.context with
            | false => rw [owner_of_some hx, Buffer.owns, hcontext, Bool.false_and, if_neg (by decide)]
            | true => exact absurd rfl (hcareful a hx hcontext).2
          rw [ledger_eq _ (owner_moved hy)]
          show Ledger.Valid ⟨_, _, (s.freed ++ a.release).map Deallocation.region⟩
          rw [hrelease, freedRegions_append, ← owner_of_some hx, moved_eq_transfer hself]
          exact (h.valid.free x).transfer (Function.update_self ..)
      · exact nomatch hstep
  | destroy x =>
      rw [Process.step] at hstep
      split at hstep
      · rename_i b hx
        obtain rfl := Option.some.inj hstep
        obtain ⟨hglobal, hpid⟩ := h.flags x b hx
        have hdestructor := destructor_eq hglobal hpid
        refine ⟨flags_update h.flags fun b hb => (nomatch hb), ?_, ?_⟩
        · show ∀ d ∈ s.freed ++ b.destructor pid, _
          rw [hdestructor]
          exact byOwner_append h.byOwner
        · rw [ledger_eq _ (owner_update _ _ _)]
          show Ledger.Valid ⟨_, _, (s.freed ++ b.destructor pid).map Deallocation.region⟩
          rw [hdestructor, freedRegions_append, ← owner_of_some hx]
          exact h.valid.free x
      · exact nomatch hstep

/-- **An operation that is not careful shows at once**: a region is lost, or deallocated by an object that does not own
    it, or still owned by the object that deallocated it. -/
theorem careful_of_sound {op : Op ρ} (h : Inv pid s) (hstep : s.step pid op = some t) (hsound : t.Sound) :
    s.Careful op := by
  cases op with
  | allocate x region copyFails =>
      obtain ⟨⟨-, hfresh⟩, rfl⟩ := of_guarded hstep
      cases copyFails with
      | false => rfl
      | true =>
          rcases hsound.notLost region List.mem_cons_self with hfreed | ⟨z, hz⟩
          · exact absurd (h.valid.freed_allocated region hfreed) hfresh
          · exact absurd (h.valid.held_allocated z region hz) hfresh
  | moveAssign x y =>
      intro a ha hcontext
      rw [Process.step, ha] at hstep
      split at hstep
      · rename_i a' b hx hy
        obtain rfl := Option.some.inj hx
        obtain rfl := Option.some.inj hstep
        have hrelease : a.release = [⟨a.devRegion.value, a.devRegion.owned⟩] := if_pos hcontext
        have howned : a.devRegion.owned = true := by
          refine hsound.byOwner ⟨a.devRegion.value, a.devRegion.owned⟩ ?_
          show _ ∈ s.freed ++ a.release
          rw [hrelease]
          exact List.mem_append_right _ List.mem_cons_self
        refine ⟨howned, ?_⟩
        rintro rfl
        -- assigned to itself: the object has what it has just deallocated
        obtain rfl : a = b := Option.some.inj (ha.symm.trans hy)
        have howner : (Function.update (Function.update s.objects x (some (.movedFrom pid))) x (some a) x).bind
            Buffer.owns = some a.devRegion.value := by
          rw [Function.update_self, Option.bind_some, Buffer.owns, hcontext, howned]
          rfl
        refine hsound.notWhileOwned x _ howner ?_
        show _ ∈ (s.freed ++ a.release).map Deallocation.region
        rw [hrelease, List.map_append]
        exact List.mem_append_right _ List.mem_cons_self
      · exact nomatch hstep
  | wrap x region context => trivial
  | moveConstruct x y => trivial
  | destroy x => trivial

/-- **Runs.** As long as the operations are careful the invariant holds, and the first that is not breaks soundness. -/
theorem along_sound_iff {ops : List (Op ρ)} (h : Inv pid s) :
    Along (step pid) Sound s ops ↔ Allowed (step pid) Careful s ops :=
  along_iff_allowed (fun _ _ _ => Inv.step) (fun _ => Inv.sound) (fun _ _ _ => careful_of_sound) h

/-- **Ownership.** In every state of a process each region is deallocated by its owner only, once, not while it is
    owned, and in the end exactly once, exactly if no move assignment goes to a non-owning `Buffer` or to itself and
    no constructor fails behind its allocation. -/
theorem ownership_sound_iff (pid : Int) (ops : List (Op ρ)) :
    Along (step pid) Sound (start : Process ρ) ops ↔ Allowed (step pid) Careful start ops := along_sound_iff inv_start

/-- A `Buffer` that wraps the region of another is assigned to; and a `Buffer` is assigned to itself. -/
theorem move_assign_unsound :
    ¬ Along (step 1) Sound (start : Process Nat)
      [.allocate 0 7 false, .wrap 1 7 true, .allocate 2 8 false, .moveAssign 1 2] ∧
    ¬ Along (step 1) Sound (start : Process Nat) [.allocate 0 7 false, .moveAssign 0 0] := by
  constructor
  · rw [along_sound_iff inv_start]
    intro h
    obtain ⟨hcareful, -⟩ := (((h _ rfl).2 _ rfl).2 _ rfl).2 _ rfl
    exact nomatch (hcareful _ rfl rfl).1
  · rw [along_sound_iff inv_start]
    intro h
    obtain ⟨hcareful, -⟩ := (h _ rfl).2 _ rfl
    exact (hcareful _ rfl rfl).2 rfl

end Runs

end Process

end Pnm.Core
