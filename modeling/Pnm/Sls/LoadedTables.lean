import Mathlib.Algebra.BigOperators.Ring.List
import Pnm.Sls.AxdimmRun
import Pnm.Sls.CxlRun
import Pnm.Sls.TableTransfer

/-!
# `Sls.LoadedTables` — from the user's tables to the user's sums

Bridges the three finished layers: the constructor of `EmbeddingTables` finds memory for the tables and lists it
(`Core.EmbeddingTables`), `transfer_data` copies the user's rows there (`Sls.TableTransfer`), and an operation reads the
listed memory on the units (`Sls.CxlRun`, `Sls.AxdimmRun`).

The runs ask for a layout in which every table has its place, with offsets that fit an instruction, and for units that
have the tables loaded. Here neither is assumed: `onDevice_of_transfer` derives both from the allocation and the copies,
for any bus that gives each byte of a unit a place of its own.
-/

namespace Pnm.Sls

open Pnm.Lib
open Pnm.Core (Separated tableBuffer listed ObjectsOf Spread)
open Pnm.Core.RankedAllocator (HasTables)

/-- **What a user promises about an operation**, on tables that are not on the device yet. -/
structure SlsOperation.Requested (op : SlsOperation) (topo : Topology) : Prop where
  feature : op.sparseFeatureSize = 16 ∨ op.sparseFeatureSize = 32 ∨ op.sparseFeatureSize = 64
  minibatch : 0 < op.minibatchSize
  tables : op.tablesSizes ≠ []
  consistent : op.Consistent
  lengths : ∀ l ∈ op.lengths, 1 ≤ l ∧ l ≤ topo.instPerSingleBufNoHeader
  sums : op.SumsFit
  indices : ∀ id < op.tablesSizes.length, ∀ i < op.minibatchSize, ∀ r ∈ op.lookups (id, i),
    r < op.tablesSizes.getD id 0
  small : ∀ id < op.tablesSizes.length, op.tablesSizes.getD id 0 * (op.sparseFeatureSize * 4) < 2 ^ 32

/-- The user's memory from `first` on. -/
def hostMem (host : Space) (first : BitVec 64) : Mem := fun a => host (first + BitVec.ofNat 64 a)

/-- The user's tables, as elements. -/
def hostTable (host : Space) (first : BitVec 64) (i : Nat) : BitVec 32 := (hostMem host first).word (4 * i)

/-- **The tables are on the device**: each has its place in the layout, and the units that the layout gives it hold its
    elements, at offsets that instructions can reach. -/
structure OnDevice (op : SlsOperation) (topo : Topology) (layout : PacksToObjects) (base : Nat → Mem)
    (table : Nat → BitVec 32) : Prop where
  placed : Placed topo layout op.tablesSizes.length
  aligned : ∀ p ∈ topo.packIdentifiers, ∀ o ∈ layout p, ∀ c, p.testBit c = true →
    o.offset c % 8 = 0 ∧ o.offset c + op.tablesSizes.getD o.id 0 * (op.sparseFeatureSize * 4) ≤ 2 ^ 34
  loaded : ∀ p ∈ topo.packIdentifiers, ∀ o ∈ layout p, ∀ c, p.testBit c = true →
    ∀ x < op.tablesSizes.getD o.id 0 * op.sparseFeatureSize,
      (base c).word (o.offset c + x * 4) = table ((op.tablesSizes.take o.id).sum * op.sparseFeatureSize + x)

/-! ## Bytes of the tables -/

section Sizes

variable {op : SlsOperation} {topo : Topology} {tableSizes : List (BitVec 32)}
  {all : List (BitVec 64 × List Core.SequentialRegion)}

/-- The bytes of a table do not wrap. -/
theorem SlsOperation.Requested.bytes_eq (h : op.Requested topo)
    (hsizes : op.tablesSizes = tableSizes.map BitVec.toNat)
    (hall : all.map Prod.fst
      = tableSizes.map fun size => size.setWidth 64 * BitVec.ofNat 64 (op.sparseFeatureSize * 4)) :
    all.map (fun t => t.1.toNat) = op.tablesSizes.map (· * (op.sparseFeatureSize * 4)) := by
  have hbytes : all.map (fun t => t.1.toNat) = (all.map Prod.fst).map BitVec.toNat := by
    rw [List.map_map]
    rfl
  rw [hbytes, hall, hsizes, List.map_map, List.map_map]
  refine List.map_congr_left fun size hsize => ?_
  have hmem : size.toNat ∈ op.tablesSizes := hsizes ▸ List.mem_map_of_mem hsize
  obtain ⟨id, hid, heq⟩ := List.getElem_of_mem hmem
  have hsmall := h.small id hid
  rw [List.getD_eq_getElem _ _ hid, heq] at hsmall
  have hfeature : op.sparseFeatureSize * 4 < 2 ^ 64 := by
    rcases h.feature with hf | hf | hf <;> rw [hf] <;> decide
  show (size.setWidth 64 * BitVec.ofNat 64 (op.sparseFeatureSize * 4)).toNat = size.toNat * (op.sparseFeatureSize * 4)
  rw [BitVec.toNat_mul, BitVec.toNat_setWidth, BitVec.toNat_ofNat, Nat.mod_eq_of_lt hfeature,
    Nat.mod_eq_of_lt (show size.toNat < 2 ^ 64 by omega), Nat.mod_eq_of_lt (by omega)]

/-- Where a table begins in the user's memory. -/
theorem sum_take_bytes (hbytes : all.map (fun t => t.1.toNat) = op.tablesSizes.map (· * (op.sparseFeatureSize * 4)))
    (j : Nat) :
    ((all.take j).map fun t => t.1.toNat).sum = (op.tablesSizes.take j).sum * (op.sparseFeatureSize * 4) := by
  rw [List.map_take, hbytes, ← List.map_take, List.sum_map_mul_right, List.map_id']

/-- The bytes of table `j`. -/
theorem bytes_of_table (hbytes : all.map (fun t => t.1.toNat) = op.tablesSizes.map (· * (op.sparseFeatureSize * 4)))
    {j : Nat} {table : BitVec 64 × List Core.SequentialRegion} (hj : all[j]? = some table) :
    table.1.toNat = op.tablesSizes.getD j 0 * (op.sparseFeatureSize * 4) := by
  have hmap := congrArg (·[j]?) hbytes
  simp only [List.getElem?_map, hj, Option.map_some] at hmap
  cases hsize : op.tablesSizes[j]? with
  | none =>
      rw [hsize] at hmap
      cases hmap
  | some rows =>
      rw [hsize] at hmap
      rw [List.getD_eq_getElem?_getD, hsize]
      exact Option.some.inj hmap

end Sizes

/-! ## From the allocation and the copies -/

section Transfer

variable {σ : Type} {Inv : σ → Prop} {live : σ → Set Core.PnmAllocation} {gran capacity units : Nat}
  {option : Core.UserPreferences} {s t : σ} {all : List (BitVec 64 × List Core.SequentialRegion)}

/-- Memory that the device keeps apart. -/
theorem hasRoom_of_hasTables (hsep : ∀ s, Inv s → Separated gran capacity (live s))
    (h : HasTables Inv live units option s all t) : HasRoom units capacity all where
  onUnits := h.onUnits
  inside m hm := (hsep t h.inv).inside m ((h.live_iff m).mpr (.inr hm))
  apart := by
    refine h.nodup.pairwise_of_forall_ne fun m hm m' hm' hne => ?_
    exact (hsep t h.inv).apart m ((h.live_iff m).mpr (.inr hm)) m' ((h.live_iff m').mpr (.inr hm')) hne

/-- The region of a table, as an accessor wants it. -/
theorem HasRoom.replicated (h : HasRoom units capacity all) {table : BitVec 64 × List Core.SequentialRegion}
    (htable : table ∈ all) : Replicated table.1 (tableRegions table) where
  size_eq r hr u hu := by
    obtain ⟨r', hr', rfl⟩ := List.mem_map.mp hr
    obtain ⟨m, -, -, -, -, hsize, -⟩ := h.replica htable hr' hu
    exact hsize
  apart := List.pairwise_map.mpr ((h.onUnits table htable).placed.pairwise_apart.imp fun hapart u hu hu' =>
    hapart u hu hu')

theorem HasRoom.insideUnits (h : HasRoom units capacity all) {table : BitVec 64 × List Core.SequentialRegion}
    (htable : table ∈ all) : Inside units capacity table.1.toNat (tableRegions table) := by
  intro r hr u hu
  obtain ⟨r', hr', rfl⟩ := List.mem_map.mp hr
  obtain ⟨m, -, -, -, -, -, hlt, hin⟩ := h.replica htable hr' hu
  exact ⟨hlt, hin⟩

/-- **The tables are on the device** once they are allocated, listed and copied. -/
theorem onDevice_of_transfer {op : SlsOperation} {topo : Topology} {copy : Transfer}
    {place : Nat → Nat → BitVec 64} {host : Space} {first : BitVec 64} {device device' : Space}
    {objects : List (Nat × MemoryObject)} (hsep : ∀ s, Inv s → Separated gran capacity (live s))
    (hgran : gran % 8 = 0) (hcapacity : capacity ≤ 2 ^ 34)
    (hbytes : all.map (fun t => t.1.toNat) = op.tablesSizes.map (· * (op.sparseFeatureSize * 4)))
    (hall : HasTables Inv live topo.numOfCUnits option s all t) (hlength : objects.length = all.length)
    (hobjects : ObjectsOf all 0 objects) (hplaces : Places topo.numOfCUnits capacity place)
    (hcopy : CopiesTables copy place host all) (pid : Int)
    (h : transferData copy host first (all.map (tableBuffer pid)) device = .ok device') :
    OnDevice op topo (listed objects) (unitMem place device') (hostTable host first) := by
  have hroom := hasRoom_of_hasTables hsep hall
  obtain ⟨hwritten, -⟩ := transferData_written hplaces hroom hcopy pid h
  have hlies := Core.lies_of_objects pid hlength hobjects hall.onUnits hall.spread
  have htables : (all.map Prod.fst).length = op.tablesSizes.length := by
    have hlen := congrArg List.length hbytes
    rw [List.length_map, List.length_map] at hlen
    rw [List.length_map, hlen]
  -- the replica that an object names on one of its units
  have hreplica : ∀ p, ∀ o ∈ listed objects p, ∀ c, p.testBit c = true → ∃ table ∈ all, all[o.id]? = some table ∧
      ∃ r ∈ table.2, ∃ u, r.location = some u ∧ u.toNat = c ∧ o.offset c = r.start.toNat := by
    intro p o ho c hc
    obtain ⟨table, hmem, htable, hdescribes⟩ := hobjects.exists_table hlength (Core.mem_listed.mp ho)
    obtain ⟨r, hr, u, hu, rfl⟩ := (hdescribes.testBit c).mp hc
    exact ⟨table, hmem, htable, r, hr, u, hu, rfl, hdescribes.offset r hr u hu⟩
  refine ⟨htables ▸ hlies.placed, ?_, ?_⟩
  · intro p _ o ho c hc
    obtain ⟨table, hmem, htable, r, hr, u, hu, -, hoffset⟩ := hreplica p o ho c hc
    obtain ⟨m, hm, -, haddr, -, -, -, hin⟩ := hroom.replica hmem hr hu
    have hlive : m ∈ live t := (hall.live_iff m).mpr (.inr (List.mem_flatMap.mpr ⟨table, hmem, hm⟩))
    have hon := (hsep t hall.inv).onGranule m hlive
    rw [haddr] at hon
    rw [hoffset, ← bytes_of_table hbytes htable]
    exact ⟨Nat.mod_eq_zero_of_dvd ((Nat.dvd_of_mod_eq_zero hgran).trans (Nat.dvd_of_mod_eq_zero hon)), by omega⟩
  · intro p _ o ho c hc x hx
    obtain ⟨table, hmem, htable, r, hr, u, hu, rfl, hoffset⟩ := hreplica p o ho c hc
    have hsize := bytes_of_table hbytes htable
    refine congrArg (BitVec.ofNat 32) (Mem.readLE_congr fun i hi => ?_)
    have hlt : x * 4 + i < table.1.toNat := by
      rw [hsize, ← Nat.mul_assoc]
      omega
    have hbyte := hwritten o.id table htable r hr u hu (x * 4 + i) hlt
    rw [sum_take_bytes hbytes] at hbyte
    rw [unitMem, hoffset, Nat.add_assoc, hbyte, hostMem]
    refine congrArg (fun a => host (first + BitVec.ofNat 64 a)) ?_
    ring

/-- **The constructor and the copies**, on a bus that copies tables with room to places of their own. -/
theorem createTables_onDevice {a : Core.RankedAllocator σ} {topo : Topology} {copy : Transfer}
    {place : Nat → Nat → BitVec 64} {host : Space} (hunits : a.regionsCount = topo.numOfCUnits)
    (hpos : 0 < topo.numOfCUnits) (hlaw : a.device.Lawful a.regionsCount Inv live)
    (hsep : ∀ s, Inv s → Separated gran capacity (live s)) (hgran : gran % 8 = 0) (hcapacity : capacity ≤ 2 ^ 34)
    (hplaces : Places topo.numOfCUnits capacity place)
    (hcopies : ∀ all, HasRoom topo.numOfCUnits capacity all → CopiesTables copy place host all) (pid : Int)
    {turns : Nat} (hturns : a.regionsCount < turns) (option : Core.UserPreferences) (hs : Inv s) {op : SlsOperation}
    (hop : op.Requested topo) {tableSizes : List (BitVec 32)} (hsizes : op.tablesSizes = tableSizes.map BitVec.toNat)
    (first : BitVec 64) (device : Space) :
    (a.createTables pid turns tableSizes (BitVec.ofNat 64 (op.sparseFeatureSize * 4)) option).Ends s
      (fun result t => ∃ all layout, result = some ⟨all.map (tableBuffer pid), layout⟩ ∧
        HasTables Inv live topo.numOfCUnits option s all t ∧
        ∀ device', transferData copy host first (all.map (tableBuffer pid)) device = .ok device' →
          OnDevice op topo layout (unitMem place device') (hostTable host first))
      fun _ t => Inv t ∧ live t = live s := by
  have hle := topo.numOfCUnits_le
  have hcreate := Core.RankedAllocator.createTables_ends hlaw hsep (by omega) (by omega) pid hturns tableSizes
    (BitVec.ofNat 64 (op.sparseFeatureSize * 4)) option hs
  refine hcreate.mono ?_ fun _ _ => id
  rintro _ t ⟨all, objects, rfl, hbytes, hall, hlength, hobjects⟩
  rw [hunits] at hall
  refine ⟨all, listed objects, rfl, hall, fun device' htransfer => ?_⟩
  exact onDevice_of_transfer hsep hgran hcapacity (hop.bytes_eq hsizes hbytes) hall hlength hobjects hplaces
    (hcopies all (hasRoom_of_hasTables hsep hall)) pid htransfer

end Transfer

/-- An element of a row. -/
theorem OnDevice.element {op : SlsOperation} {topo : Topology} {layout : PacksToObjects} {base : Nat → Mem}
    {table : Nat → BitVec 32} (h : OnDevice op topo layout base table) {p c : Nat} (hp : p ∈ topo.packIdentifiers)
    {o : MemoryObject} (ho : o ∈ layout p) (hc : p.testBit c = true) {r k : Nat}
    (hr : r < op.tablesSizes.getD o.id 0) (hk : k < op.sparseFeatureSize) :
    (base c).word (o.offset c + (r * op.sparseFeatureSize + k) * 4)
      = table ((op.tablesSizes.take o.id).sum * op.sparseFeatureSize + r * op.sparseFeatureSize + k) := by
  have hlt : r * op.sparseFeatureSize + k < op.tablesSizes.getD o.id 0 * op.sparseFeatureSize :=
    calc r * op.sparseFeatureSize + k < (r + 1) * op.sparseFeatureSize := by rw [Nat.succ_mul]; omega
      _ ≤ op.tablesSizes.getD o.id 0 * op.sparseFeatureSize := Nat.mul_le_mul_right _ hr
  rw [h.loaded p hp o ho c hc _ hlt, Nat.add_assoc]

/-! ## CXL -/

namespace CxlSetup

variable {S : CxlSetup} {base : Nat → Mem}

theorem valid_of_onDevice (hop : S.op.Requested .cxl) (htype : S.op.opType = .uint32)
    (h : OnDevice S.op .cxl S.layout base S.table) : S.Valid where
  opType := htype
  feature := hop.feature
  minibatch := hop.minibatch
  tables := hop.tables
  placed := h.placed
  consistent := hop.consistent
  lengths := hop.lengths
  sums := hop.sums
  indices := hop.indices
  small := hop.small
  aligned p hp o ho c hc := h.aligned p hp o ho c hc.2

theorem allLoaded_of_onDevice {units : Nat → CxlUnit}
    (hbase : ∀ c < Topology.cxl.numOfCUnits, (units c).base = base c)
    (h : OnDevice S.op .cxl S.layout base S.table) : S.AllLoaded units := by
  intro p hp c hc o ho r hr k hk
  rw [hbase c hc.1]
  exact h.element hp ho hc.2 hr hk

/-- **The operation comes to its end, and leaves the sums of the looked-up rows** in the user's psum: from any contents
    of the psum, with any interleaving of the packs, and without getting stuck. -/
def ComputesSums (S : CxlSetup) (units : Nat → CxlUnit) : Prop :=
  ∀ psum, Terminates S.Step (S.start units psum) ∧ ∀ s, Run S.Step (S.start units psum) s →
    (Stuck S.Step s → s.Finished) ∧
    (s.Finished → ∀ t < S.op.tablesSizes.length, ∀ i < S.op.minibatchSize, ∀ k < S.op.sparseFeatureSize,
      s.psum.word (4 * ((t * S.op.minibatchSize + i) * S.op.sparseFeatureSize + k))
        = ((S.op.lookups (t, i)).map fun r => S.table
            ((S.op.tablesSizes.take t).sum * S.op.sparseFeatureSize + (r * S.op.sparseFeatureSize + k))).sum)

theorem computesSums_of_onDevice {units : Nat → CxlUnit} (hop : S.op.Requested .cxl) (htype : S.op.opType = .uint32)
    (h : OnDevice S.op .cxl S.layout base S.table)
    (hbase : ∀ c < Topology.cxl.numOfCUnits, (units c).base = base c) : S.ComputesSums units := by
  intro psum
  have hv := valid_of_onDevice hop htype h
  have hinit := Inv.start units psum hv (allLoaded_of_onDevice hbase h)
  have hstep : ∀ a b, S.Inv a → S.Step a b → S.Inv b := fun _ _ ha hab => ha.step hv hab
  refine ⟨terminates_of_measure S.left hstep (fun _ _ _ hab => hab.left_lt) hinit, fun s hrun => ?_⟩
  have hinv : S.Inv s := Run.invariant hstep hinit hrun
  refine ⟨hinv.finished_of_stuck hv, fun hfin t ht i hi k hk => ?_⟩
  have hin : S.InPsum s.psum (t, i) := hinv.inPsum_of_finished hv hfin ht hi
  have haddr : 4 * ((t * S.op.minibatchSize + i) * S.op.sparseFeatureSize + k)
      = S.op.keyAddr .cxl (t, i) + 4 * k := by
    rw [SlsOperation.keyAddr, sparseFtDataNb_eq]
    ring
  rw [haddr, hin k hk, expected, Reduction.rowsSum_eq_sum, tableBegin]
  simp only [Nat.add_assoc]

end CxlSetup

/-- Copies through channels work for tables that have room. -/
theorem copiesTables_channels {all : List (BitVec 64 × List Core.SequentialRegion)} {units : Nat} (hunits : units ≤ 256)
    (layout : CxlLayout) (hroom : HasRoom units layout.baseSize all) (mmap : Mmap) (host : Space) :
    CopiesTables (copyToChannels mmap layout.mapOffset) layout.place host all := by
  intro table htable src d d' h
  exact copyToChannels_copied hunits (hroom.replicated htable) (hroom.insideUnits htable) h

theorem exists_channel_copy {all : List (BitVec 64 × List Core.SequentialRegion)} {units : Nat} (layout : CxlLayout)
    (hroom : HasRoom units layout.baseSize all) {mmap : Mmap}
    (hmmap : ∀ i len offset, len ≠ 0 → mmap.map i len offset ≠ none) (host : Space)
    {table : BitVec 64 × List Core.SequentialRegion} (htable : table ∈ all) (src : BitVec 64) (d : Space) :
    ∃ d', copyToChannels mmap layout.mapOffset (tableRegions table) host src table.1.toNat d = .ok d' := by
  have hfits := layout.fits
  have hpos := (hroom.onUnits table htable).pos
  obtain ⟨entries, hentries⟩ : ∃ entries, initEach (initChannel mmap layout.mapOffset) 0 (tableRegions table)
      = .ok entries := by
    refine exists_initEach (fun r hr i => exists_initChannel hmmap (fun u hu => ?_) i) 0
    have hin := (hroom.insideUnits htable r hr u hu).2
    rw [(hroom.replicated htable).size_eq r hr u hu]
    exact ⟨hpos, by omega⟩
  exact exists_copyToChannels (hroom.replicated htable) hentries host src d

/-- **The constructor and the copies, through channels.** -/
theorem createTables_onChannels {σ : Type} {a : Core.RankedAllocator σ}
    (hunits : a.regionsCount = Topology.cxl.numOfCUnits) {Inv : σ → Prop} {live : σ → Set Core.PnmAllocation}
    {gran : Nat} (layout : CxlLayout) (hlaw : a.device.Lawful a.regionsCount Inv live)
    (hsep : ∀ s, Inv s → Separated gran layout.baseSize (live s)) (hgran : gran % 8 = 0)
    (hcapacity : layout.baseSize ≤ 2 ^ 34) (pid : Int) {turns : Nat} (hturns : a.regionsCount < turns)
    (option : Core.UserPreferences) {s : σ} (hs : Inv s) {op : SlsOperation} (hop : op.Requested .cxl)
    {tableSizes : List (BitVec 32)} (hsizes : op.tablesSizes = tableSizes.map BitVec.toNat) (mmap : Mmap) (host : Space)
    (first : BitVec 64) (device : Space) :
    (a.createTables pid turns tableSizes (BitVec.ofNat 64 (op.sparseFeatureSize * 4)) option).Ends s
      (fun result _ => ∃ tables, result = some tables ∧
        ((∀ i len offset, len ≠ 0 → mmap.map i len offset ≠ none) →
          ∃ device',
            transferData (copyToChannels mmap layout.mapOffset) host first tables.buffers device = .ok device') ∧
        ∀ device', transferData (copyToChannels mmap layout.mapOffset) host first tables.buffers device = .ok device' →
          OnDevice op .cxl tables.layout (unitMem layout.place device') (hostTable host first))
      fun _ t => Inv t ∧ live t = live s := by
  have hcreate := createTables_onDevice hunits (by decide) hlaw hsep hgran hcapacity (layout.places (by decide))
    (fun all hroom => copiesTables_channels (by decide) layout hroom mmap host) pid hturns option hs hop hsizes first
    device
  refine hcreate.mono ?_ fun _ _ => id
  rintro _ t ⟨all, lists, rfl, hall, honDevice⟩
  have hroom := hasRoom_of_hasTables hsep hall
  refine ⟨_, rfl, fun hmmap => ?_, honDevice⟩
  exact exists_transferData hroom (fun table htable => exists_channel_copy layout hroom hmmap host htable) pid first
    device

/-- **From the user's tables to the user's sums, on a CXL device.** On any lawful device that keeps memory apart, for
    any policy, any replies of the kernel and any addresses that `mmap` gives: the constructor throws and the file holds
    what it held before, or the tables can be copied unless `mmap` fails, and then every operation on them, on units
    that are otherwise in any state, leaves in the user's psum the sums of the rows of the user's memory. -/
theorem cxl_sls_from_host {σ : Type} (a : Core.RankedAllocator σ) (hunits : a.regionsCount = Topology.cxl.numOfCUnits)
    {Inv : σ → Prop} {live : σ → Set Core.PnmAllocation} {gran : Nat} (layout : CxlLayout)
    (hlaw : a.device.Lawful a.regionsCount Inv live) (hsep : ∀ s, Inv s → Separated gran layout.baseSize (live s))
    (hgran : gran % 8 = 0) (hcapacity : layout.baseSize ≤ 2 ^ 34) (pid : Int) {turns : Nat}
    (hturns : a.regionsCount < turns) (option : Core.UserPreferences) {s : σ} (hs : Inv s) (op : SlsOperation)
    (hop : op.Requested .cxl) (htype : op.opType = .uint32) (tableSizes : List (BitVec 32))
    (hsizes : op.tablesSizes = tableSizes.map BitVec.toNat) (env : Option BufDivider)
    (addF32 : BitVec 32 → BitVec 32 → BitVec 32) (mmap : Mmap) (host : Space) (first : BitVec 64) (device : Space) :
    (a.createTables pid turns tableSizes (BitVec.ofNat 64 (op.sparseFeatureSize * 4)) option).Ends s
      (fun result _ => ∃ tables, result = some tables ∧
        ((∀ i len offset, len ≠ 0 → mmap.map i len offset ≠ none) →
          ∃ device',
            transferData (copyToChannels mmap layout.mapOffset) host first tables.buffers device = .ok device') ∧
        ∀ device', transferData (copyToChannels mmap layout.mapOffset) host first tables.buffers device = .ok device' →
          ∀ units : Nat → CxlUnit,
            (∀ c < Topology.cxl.numOfCUnits, (units c).base = unitMem layout.place device' c) →
            CxlSetup.ComputesSums ⟨op, tables.layout, env, hostTable host first, addF32⟩ units)
      fun _ t => Inv t ∧ live t = live s := by
  have hcreate := createTables_onChannels hunits layout hlaw hsep hgran hcapacity pid hturns option hs hop hsizes mmap
    host first device
  refine hcreate.mono ?_ fun _ _ => id
  rintro _ t ⟨tables, rfl, htransfer, honDevice⟩
  refine ⟨tables, rfl, htransfer, fun device' hdevice units hbase => ?_⟩
  exact CxlSetup.computesSums_of_onDevice hop htype (honDevice device' hdevice) hbase

/-- Two channels of 16 pages. -/
def twoChannels : CxlLayout where
  baseSize := 65536
  otherSize := 0
  fits := by decide

/-- Every mapping begins at the address 0. -/
def mmapAtZero : Mmap where
  map _ len _ := if len = 0 then none else some 0
  map_zero _ _ := rfl

theorem mmapAtZero_ne_none (i : Nat) (len offset : BitVec 64) (hlen : len ≠ 0) :
    mmapAtZero.map i len offset ≠ none := by
  rw [mmapAtZero]
  dsimp only
  rw [if_neg hlen]
  exact Option.some_ne_none _

theorem cxlSample_requested : cxlSample.op.Requested .cxl where
  feature := Or.inl rfl
  minibatch := by decide
  tables := by decide
  consistent := ⟨by decide, by decide⟩
  lengths := by decide
  sums := by unfold SlsOperation.SumsFit; decide
  indices := by decide
  small := by decide

theorem hostTable_ones (first : BitVec 64) (i : Nat) : hostTable (fun _ => 1) first i = 0x01010101 := by
  simp [hostTable, hostMem, Mem.word, Mem.readLE]

/-- Two tables full of ones, of which the second batch of the first one looks up two rows. -/
theorem cxl_sls_from_host_two_units :
    ∃ tables t device',
      (Core.twoUnits.createTables 7 3 [2, 1] (BitVec.ofNat 64 (cxlSample.op.sparseFeatureSize * 4)) .auto).exec
          (.init, 0) = (.ok (some tables), t) ∧
      transferData (copyToChannels mmapAtZero twoChannels.mapOffset) (fun _ => 1) 0 tables.buffers (fun _ => 0)
          = .ok device' ∧
      let S : CxlSetup := ⟨cxlSample.op, tables.layout, none, hostTable (fun _ => 1) 0, fun a _ => a⟩
      let units : Nat → CxlUnit := fun c => { unitOfOnes with base := unitMem twoChannels.place device' c }
      Terminates S.Step (S.start units fun _ => 7) ∧
        ∀ s, Run S.Step (S.start units fun _ => 7) s → s.Finished → s.psum.word 64 = 0x02020202 := by
  have hinit : Core.Device.FileInv (Core.slsPools 12 2 65536) 0 (.init, 0) := Core.Device.fileInv_init _ _
  have hends := cxl_sls_from_host Core.twoUnits rfl twoChannels Core.twoUnitsDevice_lawful Core.twoUnits_separated
    (by decide) (by decide) 7 (show 2 < 3 by decide) .auto hinit cxlSample.op cxlSample_requested rfl [2, 1] rfl none
    (fun a _ => a) mmapAtZero (fun _ => 1) 0 fun _ => 0
  obtain ⟨tables, t, hexec⟩ : ∃ tables t,
      (Core.twoUnits.createTables 7 3 [2, 1] (BitVec.ofNat 64 (cxlSample.op.sparseFeatureSize * 4)) .auto).exec
        (.init, 0) = (.ok (some tables), t) := ⟨_, _, rfl⟩
  rw [Call.ends_of_ok hexec] at hends
  obtain ⟨_, hsome, htransfer, hcorrect⟩ := hends
  obtain rfl := Option.some.inj hsome
  obtain ⟨device', hdevice⟩ := htransfer mmapAtZero_ne_none
  refine ⟨tables, t, device', hexec, hdevice, ?_⟩
  obtain ⟨hterminates, hrun⟩ := hcorrect device' hdevice
    (fun c => { unitOfOnes with base := unitMem twoChannels.place device' c }) (fun c _ => rfl) fun _ => 7
  refine ⟨hterminates, fun s hs hfin => ?_⟩
  have ht : 0 < cxlSample.op.tablesSizes.length := by decide
  have hi : 1 < cxlSample.op.minibatchSize := by decide
  have hk : 0 < cxlSample.op.sparseFeatureSize := by decide
  refine ((hrun s hs).2 hfin 0 ht 1 hi 0 hk).trans ?_
  simp only [hostTable_ones]
  decide

/-! ## AXDIMM -/

namespace AxdimmSetup

variable {S : AxdimmSetup} {base : Nat → Mem}

/-- No execution needs the row that the dummy trace spoils. -/
def SparesDummy (S : AxdimmSetup) : Prop :=
  ∀ p ∈ Topology.axdimm.packIdentifiers, ∀ e ∈ S.execs p, e.psumSize ≤ AxdimmSim.dummyOffset

theorem valid_of_onDevice (hop : S.op.Requested .axdimm) (htype : S.op.opType ≠ .uint32Tagged)
    (hspares : S.SparesDummy) (h : OnDevice S.op .axdimm S.layout base S.table) : S.Valid where
  untagged := htype
  feature := hop.feature
  minibatch := hop.minibatch
  tables := hop.tables
  placed := h.placed
  consistent := hop.consistent
  lengths := hop.lengths
  sums := hop.sums
  indices := hop.indices
  small := hop.small
  aligned p hp o ho c hc := h.aligned p hp o ho c hc.2
  room := hspares

theorem allLoaded_of_onDevice {units : Nat → Axdimm.UnitState}
    (hbase : ∀ c < Topology.axdimm.numOfCUnits, (units c).unit.base = base c)
    (h : OnDevice S.op .axdimm S.layout base S.table) : S.AllLoaded units := by
  intro p hp c hc o ho r hr k hk
  rw [hbase c hc.1]
  exact h.element hp ho hc.2 hr hk

/-- **The operation comes to its end, and leaves what the reference computes** in the user's psum: from any contents of
    the psum, with any interleaving of the packs and the workers, and without getting stuck. The units are ready for the
    next operation. -/
def ComputesSums (S : AxdimmSetup) (units : Nat → Axdimm.UnitState) : Prop :=
  ∀ psum cpsum, Terminates S.Step (S.start units psum) ∧ ∀ s, Run S.Step (S.start units psum) s →
    (Stuck S.Step s → s.Finished) ∧
    (s.Finished →
      (∀ t < S.op.tablesSizes.length, ∀ i < S.op.minibatchSize, ∀ k < S.op.sparseFeatureSize,
        s.psum.word (4 * ((t * S.op.minibatchSize + i) * S.op.sparseFeatureSize + k))
          = S.compute cpsum ((t * S.op.minibatchSize + i) * S.op.sparseFeatureSize + k)) ∧
      S.AllLoaded s.units ∧ ∀ c, Idle (s.units c))

theorem computesSums_of_onDevice {units : Nat → Axdimm.UnitState} (hop : S.op.Requested .axdimm)
    (htype : S.op.opType ≠ .uint32Tagged) (hspares : S.SparesDummy)
    (h : OnDevice S.op .axdimm S.layout base S.table)
    (hbase : ∀ c < Topology.axdimm.numOfCUnits, (units c).unit.base = base c) (hidle : ∀ c, Idle (units c)) :
    S.ComputesSums units := by
  intro psum cpsum
  have hv := valid_of_onDevice hop htype hspares h
  have hinit := Inv.start units psum hv (allLoaded_of_onDevice hbase h) hidle
  have hstep : ∀ a b, S.Inv a → S.Step a b → S.Inv b := fun _ _ ha hab => ha.step hv hab
  refine ⟨terminates_of_measure S.left hstep (fun _ _ ha hab => ha.left_lt hab) hinit, fun s hrun => ?_⟩
  have hinv : S.Inv s := Run.invariant hstep hinit hrun
  refine ⟨hinv.finished_of_stuck hv, fun hfin => ⟨?_, hinv.loaded, hinv.idle_of_finished hfin⟩⟩
  intro t ht i hi k hk
  exact hinv.psum_of_finished hv hfin cpsum ht hi hk

end AxdimmSetup

/-- Copies to ranks work for tables that have room. -/
theorem copiesTables_ranks {all : List (BitVec 64 × List Core.SequentialRegion)} {units : Nat} (hunits : units ≤ 256)
    (layout : AxdimmLayout) (hroom : HasRoom units layout.rankSize all) (mmap : Mmap) (host : Space) :
    CopiesTables (copyToRanks mmap layout.mapOffset) layout.place host all := by
  intro table htable src d d' h
  exact copyToRanks_copied hunits (hroom.replicated htable) (hroom.insideUnits htable) h

/-- The regions of the tables can be mapped, and no mapping falls short. -/
structure RanksMapped (mmap : Mmap) (layout : AxdimmLayout) (tables : Core.EmbeddingTables) : Prop where
  mapped : ∀ b ∈ tables.buffers, ∀ regions, b.devRegion.value = .ranked regions →
    ∃ core, SlsAccessorCore.create mmap layout.mapOffset (regions.map .ofCore) = .ok core
  reached : ∀ m ∈ tables.memory, ¬ FallsShort m.memoryPool m.addr.toNat m.size.toNat

section Ranks

variable {σ : Type} {Inv : σ → Prop} {live : σ → Set Core.PnmAllocation} {gran units : Nat}
  {option : Core.UserPreferences} {s t : σ} {all : List (BitVec 64 × List Core.SequentialRegion)}

/-- Every sub-region starts on a page: it is empty, or has memory of its own. -/
theorem start_onPage {capacity : Nat} (hsep : ∀ s, Inv s → Separated gran capacity (live s)) (hgran : gran % 4096 = 0)
    (hall : HasTables Inv live units option s all t) {table : BitVec 64 × List Core.SequentialRegion}
    (htable : table ∈ all) {r : SequentialRegion} (hr : r ∈ tableRegions table) : r.start.toNat % 4096 = 0 := by
  obtain ⟨r', hr', rfl⟩ := List.mem_map.mp hr
  cases hloc : r'.location with
  | none =>
      obtain ⟨i, hi⟩ := List.getElem?_of_mem hr'
      rcases (hall.onUnits table htable).placed i r' hi with ⟨-, hstart, -⟩ | ⟨u, hu, -⟩
      · exact congrArg (fun start : BitVec 64 => start.toNat % 4096) hstart
      · rw [hloc] at hu
        cases hu
  | some u =>
      obtain ⟨m, hm, -, haddr, -⟩ := (hasRoom_of_hasTables hsep hall).replica htable hr' hloc
      have hlive : m ∈ live t := (hall.live_iff m).mpr (.inr (List.mem_flatMap.mpr ⟨table, htable, hm⟩))
      have hon := (hsep t hall.inv).onGranule m hlive
      rw [haddr] at hon
      exact Nat.mod_eq_zero_of_dvd ((Nat.dvd_of_mod_eq_zero hgran).trans (Nat.dvd_of_mod_eq_zero hon))

theorem exists_rank_copy {layout : AxdimmLayout} (hsep : ∀ s, Inv s → Separated gran layout.rankSize (live s))
    (hgran : gran % 4096 = 0) (hall : HasTables Inv live units option s all t) {mmap : Mmap} {pid : Int}
    {lists : PacksToObjects} (hmapped : RanksMapped mmap layout ⟨all.map (tableBuffer pid), lists⟩) (host : Space)
    {table : BitVec 64 × List Core.SequentialRegion} (htable : table ∈ all) (src : BitVec 64) (d : Space) :
    ∃ d', copyToRanks mmap layout.mapOffset (tableRegions table) host src table.1.toNat d = .ok d' := by
  have hroom := hasRoom_of_hasTables hsep hall
  obtain ⟨core, hcore⟩ := hmapped.mapped (tableBuffer pid table) (List.mem_map_of_mem htable) table.2 rfl
  refine exists_copyToRanks (hroom.replicated htable) (hroom.insideUnits htable)
    (fun r hr => start_onPage hsep hgran hall htable hr) ?_ hcore host src d
  intro r hr u hu
  obtain ⟨r', hr', rfl⟩ := List.mem_map.mp hr
  obtain ⟨m, hm, hpool, haddr, hsize, -⟩ := hroom.replica htable hr' hu
  have hmem : m ∈ Core.EmbeddingTables.memory ⟨all.map (tableBuffer pid), lists⟩ := by
    rw [Core.memory_tableBuffers]
    exact List.mem_flatMap.mpr ⟨table, htable, hm⟩
  have hreached := hmapped.reached m hmem
  rw [hpool, haddr, hsize] at hreached
  exact hreached

end Ranks

/-- **From the user's tables to the user's sums, on an AXDIMM.** On any lawful device that keeps memory apart, for any
    policy, any replies of the kernel and any addresses that `mmap` gives: the constructor throws and the file holds
    what it held before, or the tables can be copied unless a mapping fails or falls short, and then every operation on
    them, on units that are idle, leaves in the user's psum what the reference computes of the user's memory. -/
theorem axdimm_sls_from_host {σ : Type} (a : Core.RankedAllocator σ)
    (hunits : a.regionsCount = Topology.axdimm.numOfCUnits) {Inv : σ → Prop} {live : σ → Set Core.PnmAllocation}
    {gran : Nat} (layout : AxdimmLayout) (hlaw : a.device.Lawful a.regionsCount Inv live)
    (hsep : ∀ s, Inv s → Separated gran layout.rankSize (live s)) (hgran : gran % 4096 = 0)
    (hcapacity : layout.rankSize ≤ 2 ^ 34) (pid : Int) {turns : Nat} (hturns : a.regionsCount < turns)
    (option : Core.UserPreferences) {s : σ} (hs : Inv s) (op : SlsOperation) (hop : op.Requested .axdimm)
    (htype : op.opType ≠ .uint32Tagged) (tableSizes : List (BitVec 32))
    (hsizes : op.tablesSizes = tableSizes.map BitVec.toNat) (env : Option BufDivider)
    (addF32 : BitVec 32 → BitVec 32 → BitVec 32) (mmap : Mmap) (host : Space) (first : BitVec 64) (device : Space) :
    (a.createTables pid turns tableSizes (BitVec.ofNat 64 (op.sparseFeatureSize * 4)) option).Ends s
      (fun result _ => ∃ tables, result = some tables ∧
        (RanksMapped mmap layout tables →
          ∃ device', transferData (copyToRanks mmap layout.mapOffset) host first tables.buffers device = .ok device') ∧
        ∀ device', transferData (copyToRanks mmap layout.mapOffset) host first tables.buffers device = .ok device' →
          AxdimmSetup.SparesDummy ⟨op, tables.layout, env, hostTable host first, addF32⟩ →
          ∀ units : Nat → Axdimm.UnitState,
            (∀ c < Topology.axdimm.numOfCUnits, (units c).unit.base = unitMem layout.place device' c) →
            (∀ c, AxdimmSetup.Idle (units c)) →
            AxdimmSetup.ComputesSums ⟨op, tables.layout, env, hostTable host first, addF32⟩ units)
      fun _ t => Inv t ∧ live t = live s := by
  have hcreate := createTables_onDevice hunits (by decide) hlaw hsep (by omega) hcapacity (layout.places (by decide))
    (fun all hroom => copiesTables_ranks (by decide) layout hroom mmap host) pid hturns option hs hop hsizes first
    device
  refine hcreate.mono ?_ fun _ _ => id
  rintro _ t ⟨all, lists, rfl, hall, honDevice⟩
  have hroom := hasRoom_of_hasTables hsep hall
  refine ⟨_, rfl, fun hmapped => ?_, fun device' htransfer hspares units hbase hidle => ?_⟩
  · exact exists_transferData hroom (fun table htable => exists_rank_copy hsep hgran hall hmapped host htable) pid first
      device
  · exact AxdimmSetup.computesSums_of_onDevice hop htype hspares (honDevice device' htransfer) hbase hidle

/-- Four ranks of 16 pages, of which the kernel gives the first one that is free. -/
def fourUnitsDevice : Core.Device (Kernel.Allocator × Nat) :=
  .ofKernel (Core.slsPools 12 4 65536) 0 (fun n => ⟨0, some (n / 4), true, 0⟩) fun _ => "error"

def fourUnits : Core.RankedAllocator (Kernel.Allocator × Nat) := { device := fourUnitsDevice, regionsCount := 4 }

def fourRanks : AxdimmLayout where
  baseSize := 131072
  otherSize := 0
  base_aligned := by decide
  page_aligned := by decide
  fits := by decide

theorem fourUnitsDevice_lawful :
    fourUnitsDevice.Lawful 4 (Core.Device.FileInv (Core.slsPools 12 4 65536) 0) (Core.Device.heldBy 0) :=
  Core.Device.ofKernel_lawful_separated (show 4 ≤ 256 by decide) _ _

theorem fourUnits_separated (s : Kernel.Allocator × Nat)
    (hs : Core.Device.FileInv (Core.slsPools 12 4 65536) 0 s) :
    Separated (2 ^ 12) 65536 (Core.Device.heldBy 0 s) := Core.Device.FileInv.separated hs

theorem axdimmSample_requested : axdimmSample.op.Requested .axdimm where
  feature := Or.inl rfl
  minibatch := by decide
  tables := by decide
  consistent := ⟨by decide, by decide⟩
  lengths := by decide
  sums := by unfold SlsOperation.SumsFit; decide
  indices := by decide
  small := by decide

/-- Two tables on four units. -/
theorem fourUnits_createTables : ∃ tables t r₀ r₁ c₀ c₁,
    (fourUnits.createTables 7 5 [2, 1] (BitVec.ofNat 64 (axdimmSample.op.sparseFeatureSize * 4)) .auto).exec
        (.init, 0) = (.ok (some tables), t) ∧
      tables.buffers = [tableBuffer 7 (128, r₀), tableBuffer 7 (64, r₁)] ∧
      SlsAccessorCore.create mmapAtZero fourRanks.mapOffset (r₀.map .ofCore) = .ok c₀ ∧
      SlsAccessorCore.create mmapAtZero fourRanks.mapOffset (r₁.map .ofCore) = .ok c₁ ∧
      tables.memory.all (fun m => !decide (FallsShort m.memoryPool m.addr.toNat m.size.toNat)) = true ∧
      AxdimmSetup.SparesDummy ⟨axdimmSample.op, tables.layout, none, hostTable (fun _ => 1) 0, fun a _ => a⟩ := by
  refine ⟨_, _, _, _, _, _, rfl, rfl, rfl, rfl, ?_, ?_⟩
  · rfl
  · unfold AxdimmSetup.SparesDummy
    decide +kernel

/-- They are copied, and the second batch of the first one looks up two rows. -/
theorem axdimm_sls_from_host_four_units :
    ∃ tables t device',
      (fourUnits.createTables 7 5 [2, 1] (BitVec.ofNat 64 (axdimmSample.op.sparseFeatureSize * 4)) .auto).exec
          (.init, 0) = (.ok (some tables), t) ∧
      transferData (copyToRanks mmapAtZero fourRanks.mapOffset) (fun _ => 1) 0 tables.buffers (fun _ => 0)
          = .ok device' ∧
      let S : AxdimmSetup := ⟨axdimmSample.op, tables.layout, none, hostTable (fun _ => 1) 0, fun a _ => a⟩
      let units : Nat → Axdimm.UnitState := fun c =>
        ⟨.idle, false, false,
          AxdimmSim.initUnit (unitMem fourRanks.place device' c) (fun _ => 1) (fun _ => 1) fun _ => 1⟩
      Terminates S.Step (S.start units fun _ => 7) ∧
        ∀ s, Run S.Step (S.start units fun _ => 7) s → s.Finished → s.psum.word 64 = 0x02020202 := by
  have hinit : Core.Device.FileInv (Core.slsPools 12 4 65536) 0 (.init, 0) := Core.Device.fileInv_init _ _
  have hends := axdimm_sls_from_host fourUnits rfl fourRanks fourUnitsDevice_lawful fourUnits_separated (by decide)
    (by decide) 7 (show 4 < 5 by decide) .auto hinit axdimmSample.op axdimmSample_requested (by decide) [2, 1] rfl none
    (fun a _ => a) mmapAtZero (fun _ => 1) 0 fun _ => 0
  obtain ⟨tables, t, r₀, r₁, c₀, c₁, hexec, hbuffers, hc₀, hc₁, hreached, hspares⟩ := fourUnits_createTables
  rw [Call.ends_of_ok hexec] at hends
  obtain ⟨_, hsome, htransfer, hcorrect⟩ := hends
  obtain rfl := Option.some.inj hsome
  have hmapped : RanksMapped mmapAtZero fourRanks tables := by
    refine ⟨fun b hb regions hregions => ?_, fun m hm => ?_⟩
    · rw [hbuffers] at hb
      rcases List.mem_pair.mp hb with rfl | rfl
      · obtain rfl := Core.DeviceRegion.ranked.inj hregions
        exact ⟨c₀, hc₀⟩
      · obtain rfl := Core.DeviceRegion.ranked.inj hregions
        exact ⟨c₁, hc₁⟩
    · have hnot := List.all_eq_true.mp hreached m hm
      simpa using hnot
  obtain ⟨device', hdevice⟩ := htransfer hmapped
  refine ⟨tables, t, device', hexec, hdevice, ?_⟩
  obtain ⟨hterminates, hrun⟩ := hcorrect device' hdevice hspares
    (fun c => ⟨.idle, false, false,
      AxdimmSim.initUnit (unitMem fourRanks.place device' c) (fun _ => 1) (fun _ => 1) fun _ => 1⟩)
    (fun c _ => rfl) (fun c => AxdimmSetup.idle_init _ _ _ _ _) (fun _ => 7) fun _ => 0
  refine ⟨hterminates, fun s hs hfin => ?_⟩
  have ht : 0 < axdimmSample.op.tablesSizes.length := by decide
  have hi : 1 < axdimmSample.op.minibatchSize := by decide
  have hk : 0 < axdimmSample.op.sparseFeatureSize := by decide
  have hword := ((hrun s hs).2 hfin).1 0 ht 1 hi 0 hk
  rw [AxdimmSetup.compute_eq_expected
    (S := ⟨axdimmSample.op, tables.layout, none, hostTable (fun _ => 1) 0, fun a _ => a⟩) _ ht hi hk] at hword
  refine hword.trans ?_
  have hadd : AxdimmSetup.add ⟨axdimmSample.op, tables.layout, none, hostTable (fun _ => 1) 0, fun a _ => a⟩
      = (· + ·) := rfl
  simp only [AxdimmSetup.expected, hostTable_ones, hadd]
  decide

end Pnm.Sls
