import Mathlib.Data.List.Nodup
import Mathlib.Tactic.Common

/-!
# `Sls.Topology` — device constants, packs and placed objects

`topo()` is read once from sysfs (`common/topology_constants.h`); the values come from the two default
topologies of the kernel driver (`topo/axdimm.h`, `topo/cxl.h`). A *pack* is a bit mask over the compute
units (`RankMemory`): an object of pack `p` is stored on, and may be processed by, every unit whose bit is
set in `p`. Masks travel through the library as `uint8_t`, so a topology has at most eight units.
-/

namespace Pnm.Sls

/-- `topology::Constants`, the fields the modelled code reads. -/
structure Topology where
  numOfCUnits : Nat
  bufSize : Nat
  numOfPSumBuf : Nat
  numOfTagsBuf : Nat
  numOfInstBuf : Nat
  instructionSize : Nat
  alignedTagSize : Nat
  dataSize : Nat
  numOfCUnits_le : numOfCUnits ≤ 8

namespace Topology

/-- `RankInterleavingSize = 1 << HA_BIT_POS`. -/
def rankInterleavingSize : Nat := 1 <<< 8

variable (t : Topology)

def psumSingleBufSize : Nat := t.bufSize / t.numOfPSumBuf

def tagsSingleBufSize : Nat := t.bufSize / t.numOfTagsBuf

def instSingleBufSize : Nat := t.bufSize / t.numOfInstBuf

def instPerSingleBuf : Nat := t.instSingleBufSize / t.instructionSize

def traceHeaderSize : Nat := t.instructionSize

def instPerSingleBufNoHeader : Nat := (t.instSingleBufSize - t.traceHeaderSize) / t.instructionSize

/-- `RankMemory::num_of_pack`: one mask per set of units. -/
def numOfPack : Nat := 1 <<< t.numOfCUnits

/-- `RankMemory::pack_identifiers`: every mask but the empty one, in increasing order. -/
def packIdentifiers : List Nat := (List.range (t.numOfPack - 1)).map (· + 1)

/-- `axdimm_default_sls_topology`. -/
def axdimm : Topology where
  numOfCUnits := 4
  bufSize := 262144
  numOfPSumBuf := 2
  numOfTagsBuf := 2
  numOfInstBuf := 1
  instructionSize := 8
  alignedTagSize := 64
  dataSize := 4
  numOfCUnits_le := by decide

/-- `cxl_default_sls_topology`. -/
def cxl : Topology where
  numOfCUnits := 2
  bufSize := 262144 - 64
  numOfPSumBuf := 1
  numOfTagsBuf := 0
  numOfInstBuf := 1
  instructionSize := 8
  alignedTagSize := 64
  dataSize := 4
  numOfCUnits_le := by decide

variable {t}

theorem numOfPack_le : t.numOfPack ≤ 256 := by
  have h : 2 ^ t.numOfCUnits ≤ 2 ^ 8 := Nat.pow_le_pow_right (by omega) t.numOfCUnits_le
  simpa [numOfPack, Nat.one_shiftLeft] using h

theorem mem_packIdentifiers {p : Nat} : p ∈ t.packIdentifiers ↔ 0 < p ∧ p < t.numOfPack := by
  simp only [packIdentifiers, List.mem_map, List.mem_range]
  constructor
  · rintro ⟨k, hk, rfl⟩
    omega
  · rintro ⟨h0, hp⟩
    exact ⟨p - 1, by omega, by omega⟩

/-- A pack id survives the conversion to `uint8_t`. -/
theorem pack_mod {p : Nat} (h : p ∈ t.packIdentifiers) : p % 256 = p := by
  have h1 := (mem_packIdentifiers.mp h).2
  have h2 := t.numOfPack_le
  exact Nat.mod_eq_of_lt (by omega)

/-- Every pack has a unit. -/
theorem exists_unit {p : Nat} (h : p ∈ t.packIdentifiers) : ∃ c < t.numOfCUnits, p.testBit c = true := by
  obtain ⟨hpos, hlt⟩ := mem_packIdentifiers.mp h
  obtain ⟨c, hc⟩ := Nat.exists_testBit_of_ne_zero (Nat.pos_iff_ne_zero.mp hpos)
  refine ⟨c, ?_, hc⟩
  rw [numOfPack, Nat.one_shiftLeft] at hlt
  exact (Nat.pow_lt_pow_iff_right Nat.one_lt_two).mp (Nat.lt_of_le_of_lt (Nat.ge_two_pow_of_testBit hc) hlt)

theorem nodup_packIdentifiers : t.packIdentifiers.Nodup :=
  List.Nodup.map (fun _ _ h => by simpa using h) List.nodup_range

end Topology

/-- `memory::MemoryObject`: a table's id and its offset on each compute unit that holds it. -/
structure MemoryObject where
  id : Nat
  sizeBytes : Nat
  offset : Nat → Nat

/-- `RankMemory::packs_to_objects`: the objects of each pack. -/
abbrev PacksToObjects := Nat → List MemoryObject

end Pnm.Sls
