import Pnm.Secure.Guarantees
import Pnm.Sls.LoadedTables

/-!
# `Secure.UntrustedDevice` — encrypted tables on a CXL device

Bridges the secure layer and the device. `UntrustedDevice::load_impl` makes `EmbeddingTables` of the encrypted buffer,
and `run_impl` runs an SLS operation on them whose psum is decrypted afterwards.

The secure layer assumes a device that writes the sums of the stored rows (`Honest`). Here that is derived: an operation
that has come to its end on a CXL device is such a device, so nothing is left between the user's plain tables and the
user's plain sums.
-/

namespace Pnm.Secure

open Pnm.Lib Pnm.Sls
open Pnm.Core (Separated)

/-- The operation of `UntrustedDevice::run_impl`, without tags. -/
def untrustedOperation (p : Preprocessor) (q : Request) : SlsOperation where
  opType := .uint32
  sparseFeatureSize := p.sparseFeatureSize
  tablesSizes := p.entries
  minibatchSize := q.minibatchSize
  lengths := q.lengths
  indices := q.indices

section Request

variable {p : Preprocessor} {q : Request}

/-- Both layers cut the indices in the same way. -/
theorem lookups_untrustedOperation {r : Nat} (hr : r < q.lengths.length) :
    (untrustedOperation p q).lookups (r / q.minibatchSize, r % q.minibatchSize) = q.lookups r := by
  have hrow : r / q.minibatchSize * q.minibatchSize + r % q.minibatchSize = r := by
    rw [Nat.mul_comm]
    exact Nat.div_add_mod r q.minibatchSize
  have hlookups : q.lookups r = (q.indices.drop (q.lengths.take r).sum).take (q.lengths.getD r 0) := by
    rw [Request.lookups, List.getD_eq_getElem?_getD, getElem?_splitLengths, List.getElem?_eq_getElem hr,
      List.getD_eq_getElem _ _ hr]
    rfl
  rw [hlookups, SlsOperation.lookups, SlsOperation.startOf, SlsOperation.lengthOf]
  show (q.indices.drop (q.lengths.take (r / q.minibatchSize * q.minibatchSize + r % q.minibatchSize)).sum).take
    (q.lengths.getD (r / q.minibatchSize * q.minibatchSize + r % q.minibatchSize) 0) = _
  rw [hrow]

variable (hop : (untrustedOperation p q).Requested .cxl)

include hop

theorem lengths_le {l : Nat} (hl : l ∈ q.lengths) : l ≤ 32768 :=
  (hop.lengths l hl).2.trans (by decide)

/-- A row of a request is a batch of a table. -/
theorem row_lt {r : Nat} (hr : r < q.rows p.entries.length) :
    r / q.minibatchSize < p.entries.length ∧ r % q.minibatchSize < q.minibatchSize ∧ r < q.lengths.length := by
  have hlength : q.lengths.length = p.entries.length * q.minibatchSize := hop.consistent.lengths
  refine ⟨Nat.div_lt_of_lt_mul hr, Nat.mod_lt r hop.minibatch, ?_⟩
  rw [hlength, Nat.mul_comm]
  exact hr

/-- What the device wants of an operation is enough for the pads. -/
theorem shapesFit_of_requested : p.ShapesFit q where
  width_pos := by
    have hfeature : p.sparseFeatureSize = 16 ∨ p.sparseFeatureSize = 32 ∨ p.sparseFeatureSize = 64 := hop.feature
    omega
  minibatch_pos := hop.minibatch
  bytes_lt l hl := by
    have hle := lengths_le hop hl
    have hfeature : p.sparseFeatureSize = 16 ∨ p.sparseFeatureSize = 32 ∨ p.sparseFeatureSize = 64 := hop.feature
    have hprod : l * p.sparseFeatureSize ≤ 32768 * 64 := Nat.mul_le_mul hle (by omega)
    omega

theorem valid_of_requested : q.Valid p where
  lengths_length := hop.consistent.lengths
  lengths_pos l hl := (hop.lengths l hl).1
  lengths_lt l hl := Nat.lt_of_le_of_lt (lengths_le hop hl) (by decide)
  indices_length := hop.consistent.indices
  inRange r hr i hi := by
    obtain ⟨htable, hbatch, hlt⟩ := row_lt hop hr
    rw [← lookups_untrustedOperation (p := p) hlt] at hi
    exact hop.indices _ htable _ hbatch i hi

/-- **The device is honest**: the sums of the user's buffer are those of the stored rows. -/
theorem honest_of_sums (htag : p.includeTag = false) {stored : Words} {table : Nat → BitVec 32} {psum : Mem}
    (hstored : ∀ x < p.entries.sum * p.sparseFeatureSize, table x = stored x)
    (hsums : ∀ t < p.entries.length, ∀ i < q.minibatchSize, ∀ k < p.sparseFeatureSize,
      psum.word (4 * ((t * q.minibatchSize + i) * p.sparseFeatureSize + k))
        = (((untrustedOperation p q).lookups (t, i)).map fun r =>
            table ((p.entries.take t).sum * p.sparseFeatureSize + (r * p.sparseFeatureSize + k))).sum) :
    Honest p stored q fun x => psum.word (4 * x) where
  data r hr e he := by
    obtain ⟨htable, hbatch, hlt⟩ := row_lt hop hr
    have hrow : r / q.minibatchSize * q.minibatchSize + r % q.minibatchSize = r := by
      rw [Nat.mul_comm]
      exact Nat.div_add_mod r q.minibatchSize
    have hsum := hsums _ htable _ hbatch e he
    rw [hrow, lookups_untrustedOperation hlt] at hsum
    refine hsum.trans (congrArg List.sum (List.map_congr_left fun i hi => ?_))
    have hstride : p.stride = p.sparseFeatureSize := by
      rw [Preprocessor.stride, htag]
      rfl
    have hindex : (p.entries.take (r / q.minibatchSize)).sum * p.sparseFeatureSize + (i * p.sparseFeatureSize + e)
        = p.lookupRow q r i * p.stride + e := by
      rw [hstride, Preprocessor.lookupRow, Preprocessor.tableBase]
      ring
    have hinside : p.lookupRow q r i < p.entries.sum :=
      Preprocessor.tableBase_add_lt ((valid_of_requested hop).inRange r hr i hi)
    rw [hindex]
    refine hstored _ ?_
    calc p.lookupRow q r i * p.stride + e
        < (p.lookupRow q r i + 1) * p.sparseFeatureSize := by rw [hstride, Nat.succ_mul]; omega
      _ ≤ p.entries.sum * p.sparseFeatureSize := Nat.mul_le_mul_right _ hinside
  tags h := by
    rw [htag] at h
    cases h

end Request

/-- **From the user's plain tables to the user's plain sums, over an untrusted CXL device.** The tables can be
    encrypted, with any cipher, and after any number of runs of the executor the following holds. The constructor of
    `EmbeddingTables` on the encrypted buffer throws and the file holds what it held before, or the tables can be copied
    unless `mmap` fails; every operation on them comes to its end, with any interleaving, and what `run_sls` then makes
    of its psum, with any schedule of the pads, is the sums of the plain rows. -/
theorem secure_sls_on_cxl (p : Preprocessor) (q : Request) (htag : p.includeTag = false)
    (hop : (untrustedOperation p q).Requested .cxl) {σ : Type} (a : Core.RankedAllocator σ)
    (hunits : a.regionsCount = Topology.cxl.numOfCUnits) {Inv : σ → Prop} {live : σ → Set Core.PnmAllocation}
    {gran : Nat} (layout : CxlLayout) (hlaw : a.device.Lawful a.regionsCount Inv live)
    (hsep : ∀ s, Inv s → Separated gran layout.baseSize (live s)) (hgran : gran % 8 = 0)
    (hcapacity : layout.baseSize ≤ 2 ^ 34) (pid : Int) {turns : Nat} (hturns : a.regionsCount < turns)
    (option : Core.UserPreferences) {s : σ} (hs : Inv s) (tableSizes : List (BitVec 32))
    (hsizes : p.entries = tableSizes.map BitVec.toNat) (env : Option BufDivider)
    (addF32 : BitVec 32 → BitVec 32 → BitVec 32) (mmap : Mmap) (host : Space) (first : BitVec 64) (device : Space) :
    p.AfterLoad fun ex =>
      (∀ x < p.entries.sum * p.sparseFeatureSize, hostTable host first x = ex.stored x) →
      (a.createTables pid turns tableSizes (BitVec.ofNat 64 (p.sparseFeatureSize * 4)) option).Ends s
        (fun result _ => ∃ tables, result = some tables ∧
          ((∀ i len offset, len ≠ 0 → mmap.map i len offset ≠ none) →
            ∃ device',
              transferData (copyToChannels mmap layout.mapOffset) host first tables.buffers device = .ok device') ∧
          ∀ device',
            transferData (copyToChannels mmap layout.mapOffset) host first tables.buffers device = .ok device' →
            ∀ units : Nat → CxlUnit,
              (∀ c < Topology.cxl.numOfCUnits, (units c).base = unitMem layout.place device' c) → ∀ psum,
              let S : CxlSetup := ⟨untrustedOperation p q, tables.layout, env, hostTable host first, addF32⟩
              Terminates S.Step (S.start units psum) ∧ ∀ u, Run S.Step (S.start units psum) u →
                (Stuck S.Step u → u.Finished) ∧
                (u.Finished → p.Runs q ex (fun x => u.psum.word (4 * x)) fun _ res =>
                  ∀ r < q.rows p.entries.length, ∀ e < p.sparseFeatureSize,
                    res.psum (r * p.sparseFeatureSize + e) = p.plainSum q r e))
        fun _ t => Inv t ∧ live t = live s := by
  have hfeature : p.sparseFeatureSize = 16 ∨ p.sparseFeatureSize = 32 ∨ p.sparseFeatureSize = 64 := hop.feature
  have hfits := shapesFit_of_requested hop
  have hvalid := valid_of_requested hop
  refine hfits.afterLoad (by omega) (by omega) fun ex hl hstored => ?_
  have hcreate := createTables_onChannels hunits layout hlaw hsep hgran hcapacity pid hturns option hs hop hsizes mmap
    host first device
  refine hcreate.mono ?_ fun _ _ => id
  rintro _ t ⟨tables, rfl, htransfer, honDevice⟩
  refine ⟨tables, rfl, htransfer, fun device' hdevice units hbase psum => ?_⟩
  obtain ⟨hterminates, hrun⟩ := CxlSetup.computesSums_of_onDevice
    (S := ⟨untrustedOperation p q, tables.layout, env, hostTable host first, addF32⟩) hop rfl
    (honDevice device' hdevice) hbase psum
  refine ⟨hterminates, fun u hu => ⟨(hrun u hu).1, fun hfin => ?_⟩⟩
  have hhonest : Honest p ex.stored q fun x => u.psum.word (4 * x) :=
    honest_of_sums hop htag hstored ((hrun u hu).2 hfin)
  refine hfits.runs (by omega) hvalid.toShaped hl fun _ res hres r hr e he => ?_
  have hreleased : ex.withTag = true → res.checks r ≠ 0 := by
    intro h
    rw [hl.withTag_eq, htag] at h
    cases h
  rw [← hhonest.decrypted_eq hl hvalid hr he]
  rw [← hl.numTables_eq] at hr
  rw [← hl.width_eq] at he ⊢
  exact hres.psum_eq hr hreleased he

/-- Words as bytes, from the address 0 on. -/
def bytesOf (words : Words) : Space := fun a => (words (a.toNat / 4)).extractLsb' (8 * (a.toNat % 4)) 8

theorem bytesOf_add (words : Words) {x j : Nat} (hx : x < 2 ^ 61) (hj : j < 4) :
    (hostMem (bytesOf words) 0 (4 * x + j)).toNat = (words x).toNat / 2 ^ (8 * j) % 256 := by
  have haddr : (0 + BitVec.ofNat 64 (4 * x + j) : BitVec 64).toNat = 4 * x + j := by
    rw [zero_add, BitVec.toNat_ofNat, Nat.mod_eq_of_lt (by omega)]
  rw [hostMem, bytesOf, haddr, show (4 * x + j) / 4 = x by omega, show (4 * x + j) % 4 = j by omega,
    BitVec.extractLsb'_toNat, Nat.shiftRight_eq_div_pow]

/-- Words are read back from their bytes. -/
theorem hostTable_bytesOf (words : Words) {x : Nat} (hx : x < 2 ^ 61) : hostTable (bytesOf words) 0 x = words x := by
  have h0 := bytesOf_add words hx (show 0 < 4 by decide)
  have h1 := bytesOf_add words hx (show 1 < 4 by decide)
  have h2 := bytesOf_add words hx (show 2 < 4 by decide)
  have h3 := bytesOf_add words hx (show 3 < 4 by decide)
  rw [Nat.add_zero] at h0
  have hlt := (words x).isLt
  refine BitVec.eq_of_toNat_eq ?_
  rw [hostTable, Mem.word, BitVec.toNat_ofNat]
  simp only [Mem.readLE, Nat.add_assoc, Nat.reduceAdd]
  rw [h0, h1, h2, h3]
  omega

/-- Two tables of rows of 16 elements, encrypted without tags. -/
def encryptedTables : Preprocessor :=
  { entries := [2, 1], sparseFeatureSize := 16, src := fun x => BitVec.ofNat 32 x, writer := .memory
    includeTag := false, encryption := ⟨7, id⟩, verification := ⟨7, 0, id⟩ }

def encryptedRequest : Request := { minibatchSize := 2, lengths := [1, 2, 1, 1], indices := [0, 1, 0, 0, 0] }

/-- The second row of the result is the sum of both rows of the first table. -/
theorem secure_sls_on_cxl_two_units :
    ∃ ex tables t device',
      encryptedTables.loadTables 3 ⟨0, fun _ => 0⟩ ⟨0, fun _ => 0⟩ = .ok ex ∧
      (Core.twoUnits.createTables 7 3 [2, 1] (BitVec.ofNat 64 (encryptedTables.sparseFeatureSize * 4)) .auto).exec
          (.init, 0) = (.ok (some tables), t) ∧
      transferData (copyToChannels mmapAtZero twoChannels.mapOffset) (bytesOf ex.stored) 0 tables.buffers (fun _ => 0)
          = .ok device' ∧
      let S : CxlSetup := ⟨untrustedOperation encryptedTables encryptedRequest, tables.layout, none,
        hostTable (bytesOf ex.stored) 0, fun a _ => a⟩
      let units : Nat → CxlUnit := fun c => { unitOfOnes with base := unitMem twoChannels.place device' c }
      ∀ u, Run S.Step (S.start units fun _ => 7) u → u.Finished → ∃ res,
        ex.runSls encryptedRequest id (fun x => u.psum.word (4 * x)) ⟨64, fun _ => 0⟩ (fun _ => 0) = .ok res ∧
          res.psum 16 = 16 := by
  have hinit : Core.Device.FileInv (Core.slsPools 12 2 65536) 0 (.init, 0) := Core.Device.fileInv_init _ _
  obtain ⟨ex, hload, -⟩ := Preprocessor.loadTables_spec (p := encryptedTables) (by decide) (by decide) (by decide)
    (show ∀ rowCount ∈ [2, 1], rowCount < 3 by decide) ⟨0, fun _ => 0⟩ ⟨0, fun _ => 0⟩
  obtain ⟨ex₀, hload₀, hafter⟩ := secure_sls_on_cxl encryptedTables encryptedRequest rfl cxlSample_requested
    Core.twoUnits rfl twoChannels Core.twoUnitsDevice_lawful Core.twoUnits_separated (by decide) (by decide) 7
    (show 2 < 3 by decide) .auto hinit [2, 1] rfl none (fun a _ => a) mmapAtZero (bytesOf ex.stored) 0 (fun _ => 0) 3
    (by decide) ⟨0, fun _ => 0⟩ ⟨0, fun _ => 0⟩
  obtain rfl := Except.ok.inj (hload.symm.trans hload₀)
  have hends := hafter ex .refl fun x hx =>
    hostTable_bytesOf _ (Nat.lt_trans hx (show encryptedTables.entries.sum * 16 < 2 ^ 61 by decide))
  obtain ⟨tables, t, hexec⟩ : ∃ tables t,
      (Core.twoUnits.createTables 7 3 [2, 1] (BitVec.ofNat 64 (encryptedTables.sparseFeatureSize * 4)) .auto).exec
        (.init, 0) = (.ok (some tables), t) := ⟨_, _, rfl⟩
  rw [Call.ends_of_ok hexec] at hends
  obtain ⟨_, hsome, htransfer, hcorrect⟩ := hends
  obtain rfl := Option.some.inj hsome
  obtain ⟨device', hdevice⟩ := htransfer mmapAtZero_ne_none
  refine ⟨ex, tables, t, device', hload, hexec, hdevice, fun u hu hfin => ?_⟩
  obtain ⟨-, hrun⟩ := hcorrect device' hdevice
    (fun c => { unitOfOnes with base := unitMem twoChannels.place device' c }) (fun c _ => rfl) fun _ => 7
  obtain ⟨res, hres, hpsum⟩ := (hrun u hu).2 hfin id (fun _ => .refl _) ⟨64, fun _ => 0⟩ rfl fun _ => 0
  refine ⟨res, hres, ?_⟩
  have hrow := hpsum 1 (by decide) 0 (by decide)
  refine hrow.trans ?_
  decide

end Pnm.Secure
