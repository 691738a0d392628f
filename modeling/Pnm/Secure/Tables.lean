import Pnm.Lib.Runs
import Pnm.Secure.Run

/-!
# `Secure.Tables` — loaded tables and their pads

An executor that has loaded tables keeps them from run to run (`Loaded.of_run`). The addresses that a run rebuilds from
the offsets of the tables and the indices are those the rows were encrypted under (`Loaded.addresses_eq`), so with fewer
than `2 ^ 31` bytes of pads to each row the sums of the pads are the right ones (`Loaded.pads`).

From `2 ^ 31` bytes on they are not: there is a cipher for which the sums, if there are any, differ from the right ones
(`exists_wrong_pads`).
-/

namespace Pnm.Secure

open Pnm.Lib

/-! ## Buffers of pads that are too large -/

/-- A sum of ones and zeros counts the ones. -/
theorem sum_map_boole (n : Nat) {α : Type} (P : α → Bool) (l : List α) :
    (l.map fun k => if P k then (1 : BitVec n) else 0).sum = BitVec.ofNat n (l.countP P) := by
  induction l with
  | nil => rfl
  | cons k l ih =>
      rw [List.map_cons, List.sum_cons, ih, List.countP_cons]
      split
      · rw [BitVec.ofNat_add, add_comm]
        rfl
      · rw [zero_add]
        rfl

/-- If some of the terms are replaced by ones, or by zeros, and others are not, both sums cannot come out as
    if all were. -/
theorem sums_ne {l : Nat} (hl : l < 2 ^ 32) {P : Nat → Bool} {s : Nat → BitVec 32}
    (hones : ((List.range l).map fun k => if P k then 1 else s k).sum = BitVec.ofNat 32 l)
    (hzeros : ((List.range l).map fun k => if P k then 0 else s k).sum = 0) {k : Nat} (hk : k < l) : P k = true := by
  have hsplit : ∀ k, (if P k then 1 else s k) = (if P k then 0 else s k) + if P k then 1 else 0 := by
    intro k
    split <;> simp
  simp only [hsplit, List.sum_map_add, hzeros, zero_add, sum_map_boole] at hones
  have hle := List.countP_le_length (p := P) (l := List.range l)
  rw [List.length_range] at hle
  have hcount : (List.range l).countP P = l := by
    have htoNat := congrArg BitVec.toNat hones
    rwa [BitVec.toNat_ofNat, BitVec.toNat_ofNat, Nat.mod_eq_of_lt (by omega), Nat.mod_eq_of_lt hl] at htoNat
  have hall := List.countP_eq_length.mp (hcount.trans (List.length_range).symm)
  exact hall k (List.mem_range.mpr hk)

/-- The cipher that has only one block to give. -/
def constCipher (b : BitVec 128) : Cipher := fun _ => b

/-- The block whose elements are all one. -/
def onesBlock : BitVec 128 := 0x00000001000000010000000100000001

theorem wordOf_zero : wordOf 0 3 = 0 := by decide

theorem wordOf_onesBlock : wordOf onesBlock 3 = 1 := by decide

theorem padBlock_constCipher (b : BitVec 128) (pfx version : BitVec 32) (encrypted : Bool) (address : BitVec 64)
    (j : Nat) :
    wordOf (padBlock (constCipher b) pfx version encrypted address) j
      = if encrypted then wordOf b j else wordOf (seed pfx version address) j := by
  cases encrypted <;> rfl

theorem padWord_constCipher (version : BitVec 32) (b : BitVec 128) (address : BitVec 64) (e : Nat) :
    (EncryptionEngine.mk version (constCipher b)).padWord address e = wordOf b (e % 4) := rfl

/-- **Too many pads.** From `2 ^ 31` bytes on the last element of the last pad is not encrypted; so the number of those
    that are is not the number of the addresses, and the sums for the ciphers that give zeros and ones cannot both be
    right. -/
theorem EncryptionEngine.exists_wrong_pads (version : BitVec 32) {addresses : List (BitVec 64)} {count : Nat}
    (hcount : count % 4 = 0) (hsize : 2 ^ 31 ≤ 4 * (addresses.length * count)) (hlen : addresses.length < 2 ^ 32) :
    ∃ aes, ∀ out, (EncryptionEngine.mk version aes).offsetTransformReduceVec addresses count (fun _ => 0) = .ok out →
      ∃ e < count, out e ≠ (addresses.map fun address => (EncryptionEngine.mk version aes).padWord address e).sum := by
  by_contra hnone
  push Not at hnone
  have hpos : 0 < addresses.length * count := by omega
  have hcpos : 0 < count := Nat.pos_of_mul_pos_left hpos
  have hlpos : 0 < addresses.length := Nat.pos_of_mul_pos_right hpos
  obtain ⟨out₀, hout₀, hright₀⟩ := hnone (constCipher 0)
  obtain ⟨out₁, hout₁, hright₁⟩ := hnone (constCipher onesBlock)
  obtain ⟨n, hn, hsum₀⟩ := EncryptionEngine.offsetTransformReduceVec_eq _ hcount hout₀
  obtain ⟨n', hn', hsum₁⟩ := EncryptionEngine.offsetTransformReduceVec_eq _ hcount hout₁
  obtain rfl : n' = n := Option.some.inj (hn'.symm.trans hn)
  have hlast : count - 1 < count := by omega
  -- what both sums are at the last column, with the pads that were not encrypted left as they are
  have hzeros := (hsum₀ _ hlast).symm.trans (hright₀ _ hlast)
  have hones := (hsum₁ _ hlast).symm.trans (hright₁ _ hlast)
  have hcol : (count - 1) % 4 = 3 := by omega
  simp only [padBlock_constCipher, padWord_constCipher, hcol, wordOf_zero, wordOf_onesBlock, zero_add] at hzeros hones
  have hall := sum_map_boole 32 (fun _ => true) addresses
  have hnone := sum_map_boole 32 (fun _ => false) addresses
  simp only [Bool.false_eq_true, if_false, if_true, List.countP_true, List.countP_false] at hall hnone
  have hlastPad : decide ((addresses.length - 1) * (count / 4) + (count - 1) / 4 < n') = true :=
    sums_ne (P := fun k => decide (k * (count / 4) + (count - 1) / 4 < n')) hlen (hones.trans hall)
      (hzeros.trans hnone) (by omega)
  have hfew := encryptedBlocks_lt (hsize.trans (padBytes_eq hcount _).ge) hn
  have hend : addresses.length * (count / 4) = (addresses.length - 1) * (count / 4) + count / 4 := by
    rw [← Nat.succ_mul]
    congr 1
    omega
  have hlt := of_decide_eq_true hlastPad
  omega

/-! ## Loaded tables -/

/-- The executor holds the tables of `p`. -/
structure Loaded (p : Preprocessor) (ex : Executor) : Prop where
  numTables_eq : ex.numTables = p.entries.length
  width_eq : ex.sparseFeatureSize = p.sparseFeatureSize
  withTag_eq : ex.withTag = p.includeTag
  encryption_eq : ex.postprocessor.encryption = p.encryption
  verification_eq : ex.postprocessor.verification = p.verification
  colsCount_eq : ex.postprocessor.colsCount = p.sparseFeatureSize
  offsets_eq : ∀ t < p.entries.length, ex.postprocessor.offsets.getD t 0 = p.rowAddress (p.tableBase t)
  stored : ∀ r < p.entries.sum, p.RowStored ex.stored r

/-- A run that returns, between two states of an executor. -/
def RunStep (ex ex' : Executor) : Prop :=
  ∃ q sched device psum checks res, ex.runSls q sched device psum checks = .ok res ∧ res.executor = ex'

/-- **A run changes the buffers only.** -/
theorem RunStep.sameTables {ex ex' : Executor} (h : RunStep ex ex') : ex.SameTables ex' := by
  obtain ⟨q, sched, device, psum, checks, res, hrun, rfl⟩ := h
  obtain ⟨requests, -, hrun⟩ := bind_eq_ok.mp hrun
  obtain ⟨steps, -, hrun⟩ := bind_eq_ok.mp hrun
  obtain ⟨epsum, -, hrun⟩ := bind_eq_ok.mp hrun
  dsimp only at hrun
  split at hrun
  all_goals
    obtain rfl := Except.ok.inj hrun
    exact ⟨_, _, rfl⟩

/-- **Tables stay loaded.** -/
theorem Loaded.of_run {p : Preprocessor} {ex ex' : Executor} (h : Loaded p ex) (hrun : Run RunStep ex ex') :
    Loaded p ex' := by
  refine Run.invariant (I := Loaded p) (fun a b ha hab => ?_) h hrun
  obtain ⟨cpsum, epsum, rfl⟩ := hab.sameTables
  exact ⟨ha.numTables_eq, ha.width_eq, ha.withTag_eq, ha.encryption_eq, ha.verification_eq, ha.colsCount_eq,
    ha.offsets_eq, ha.stored⟩

/-- **A load ends with the tables loaded**, whatever the buffers are. -/
theorem Preprocessor.loadTables_spec {p : Preprocessor} (hpos : 0 < p.sparseFeatureSize)
    (hw : p.sparseFeatureSize % 4 = 0) (hmax : p.sparseFeatureSize ≤ 2048) {fuel : Nat}
    (hfuel : ∀ rowCount ∈ p.entries, rowCount < fuel) (cpsum epsum : Buffer) :
    ∃ ex, p.loadTables fuel cpsum epsum = .ok ex ∧ Loaded p ex := by
  obtain ⟨st, hload, hprogress, -, hoffsets⟩ := loadImpl_spec hpos hw hmax hfuel fun _ => 0
  exact ⟨_, bind_eq_ok.mpr ⟨st, hload, rfl⟩, ⟨rfl, rfl, rfl, rfl, rfl, rfl, hoffsets, hprogress.stored⟩⟩

/-- A table without elements cannot be loaded. -/
theorem Preprocessor.pos_of_loadTables {p : Preprocessor} {fuel : Nat} {cpsum epsum : Buffer} {ex : Executor}
    (h : p.loadTables fuel cpsum epsum = .ok ex) : 0 < p.sparseFeatureSize := by
  obtain ⟨st, hload, -⟩ := bind_eq_ok.mp h
  rw [loadImpl] at hload
  split at hload
  · cases hload
  · omega

/-- A request to the tables of `p`: shaped like them, and with its indices in range. -/
structure Request.Valid (q : Request) (p : Preprocessor) : Prop extends q.Shaped p.entries.length where
  inRange : ∀ r < q.rows p.entries.length, ∀ i ∈ q.lookups r, i < p.entries.getD (r / q.minibatchSize) 0

namespace Preprocessor

variable (p : Preprocessor) (q : Request)

/-- The row of the source that index `i` of row `r` of the result means. -/
def lookupRow (r i : Nat) : Nat := p.tableBase (r / q.minibatchSize) + i

/-- The sums that a request is for. -/
def plainSum (r e : Nat) : BitVec 32 := ((q.lookups r).map fun i => p.srcRow (p.lookupRow q r i) e).sum

/-- The sums of the pads of row `r`. -/
def padSum (r e : Nat) : BitVec 32 :=
  ((q.lookups r).map fun i => p.encryption.padWord (p.rowAddress (p.lookupRow q r i)) e).sum

/-- The sum of the pads of the tags of row `r`. -/
def tagPadSum (r : Nat) : BitVec 128 :=
  ((q.lookups r).map fun i => generateOtp p.verification.aes 0x10 p.verification.version
    (p.rowAddress (p.lookupRow q r i))).sum

variable {p q}

/-- The rows of a table are rows of the source. -/
theorem tableBase_add_lt {t i : Nat} (h : i < p.entries.getD t 0) : p.tableBase t + i < p.entries.sum := by
  have ht : t < p.entries.length := by
    by_contra hge
    rw [List.getD_eq_default _ _ (by omega)] at h
    omega
  rw [List.getD_eq_getElem _ _ ht] at h
  have hsum : p.entries.sum = (p.entries.take t).sum + (p.entries.drop t).sum := by
    rw [← List.sum_append, List.take_append_drop]
  rw [List.drop_eq_getElem_cons ht, List.sum_cons] at hsum
  unfold tableBase
  omega

end Preprocessor

namespace Loaded

variable {p : Preprocessor} {ex : Executor} {q : Request}

/-- Row `r` of the result is a row of a table. -/
theorem table_lt (hm : 0 < q.minibatchSize) {r : Nat} (hr : r < q.rows p.entries.length) :
    r / q.minibatchSize < p.entries.length := (Nat.div_lt_iff_lt_mul hm).mpr (by rwa [Nat.mul_comm])

/-- **The addresses of a run are those of the load.** -/
theorem addresses_eq (h : Loaded p ex) (hm : 0 < q.minibatchSize) {r : Nat} (hr : r < q.rows p.entries.length) :
    ex.addresses (q.padRow r) = (q.lookups r).map fun i => p.rowAddress (p.lookupRow q r i) := by
  refine List.map_congr_left fun i _ => ?_
  show ex.postprocessor.offsets.getD (r / q.minibatchSize) 0 + _ = _
  rw [h.offsets_eq _ (table_lt hm hr), h.colsCount_eq, Preprocessor.rowAddress_add]
  rfl

/-- **The pads of a row**, as long as they are fewer than `2 ^ 31` bytes. -/
theorem pads (h : Loaded p ex) (hq : q.Shaped p.entries.length) (hm : 0 < q.minibatchSize)
    (hpos : 0 < p.sparseFeatureSize) (hw : p.sparseFeatureSize % 4 = 0)
    (hsmall : ∀ l ∈ q.lengths, 4 * (l * p.sparseFeatureSize) < 2 ^ 31) {r : Nat} (hr : r < q.rows p.entries.length) :
    ∃ sums, ex.RowPads (q.padRow r) sums (p.tagPadSum q r) ∧ ∀ e < p.sparseFeatureSize, sums e = p.padSum q r e := by
  have haddresses := h.addresses_eq hm hr
  have hlength : (ex.addresses (q.padRow r)).length = q.lengths.getD r 0 := by
    rw [haddresses, List.length_map, hq.length_lookups hr]
  have hbytes : 4 * ((ex.addresses (q.padRow r)).length * p.sparseFeatureSize) < 2 ^ 31 := by
    have hlt : r < q.lengths.length := by
      rw [hq.lengths_length, Nat.mul_comm]
      exact hr
    rw [hlength, List.getD_eq_getElem _ _ hlt]
    exact hsmall _ (List.getElem_mem hlt)
  obtain ⟨sums, hsums, hright⟩ := p.encryption.offsetTransformReduceVec_of_lt hw hbytes fun _ => 0
  have htags : 16 * (ex.addresses (q.padRow r)).length < 2 ^ 31 := by
    have hfour : 4 ≤ p.sparseFeatureSize := by omega
    have hle := Nat.mul_le_mul_left (ex.addresses (q.padRow r)).length hfour
    omega
  refine ⟨sums, ⟨?_, fun _ => ?_⟩, fun e he => ?_⟩
  · rw [h.encryption_eq, h.width_eq]
    exact hsums
  · rw [h.verification_eq, p.verification.offsetTransformReduceVec_of_lt htags, haddresses, List.map_map]
    rfl
  · rw [hright e he, zero_add, haddresses, List.map_map]
    rfl

/-- **A run within the bounds returns**, and its pads are the right ones. -/
theorem outcome (h : Loaded p ex) (hq : q.Shaped p.entries.length) (hm : 0 < q.minibatchSize)
    (hpos : 0 < p.sparseFeatureSize) (hw : p.sparseFeatureSize % 4 = 0)
    (hsmall : ∀ l ∈ q.lengths, 4 * (l * p.sparseFeatureSize) < 2 ^ 31) {sched : List PadRow → List PadRow}
    (hsched : Executor.Schedules sched) {psum : Buffer}
    (hpsum : psum.size = q.rows p.entries.length * p.sparseFeatureSize) (device : Words) (checks : Nat → BitVec 8) :
    ∃ res, ex.runSls q sched device psum checks = .ok res ∧
      Executor.Outcome ex q device psum (p.padSum q) (p.tagPadSum q) res := by
  have hpads : ∀ r < q.rows p.entries.length, ∃ sums, _ := fun r hr => h.pads hq hm hpos hw hsmall hr
  choose! sums hpads using hpads
  rw [← h.numTables_eq] at hq hpads
  rw [← h.numTables_eq, ← h.width_eq] at hpsum
  obtain ⟨res, hrun, houtcome⟩ := Executor.runSls_of_pads hq hm (h.width_eq ▸ hpos) hsched hpsum
    (fun r hr => (hpads r hr).1) device checks
  refine ⟨res, hrun, houtcome.congr fun r hr e he => (hpads r hr).2 e ?_⟩
  rwa [← h.width_eq]

end Loaded

/-! ## Honest devices -/

/-- What an honest device writes: the sums of the stored rows, and of the stored tags behind them. -/
structure Honest (p : Preprocessor) (stored : Words) (q : Request) (device : Words) : Prop where
  data : ∀ r < q.rows p.entries.length, ∀ e < p.sparseFeatureSize,
    device (r * p.sparseFeatureSize + e) = ((q.lookups r).map fun i => stored (p.lookupRow q r i * p.stride + e)).sum
  tags : p.includeTag = true → ∀ r < q.rows p.entries.length,
    blockAt device (q.rows p.entries.length * p.sparseFeatureSize + 4 * r) =
      ((q.lookups r).map fun i => blockAt stored (p.lookupRow q r i * p.stride + p.sparseFeatureSize)).sum

/-- A result buffer with the given rows and tags. -/
def resultBuffer (rows width : Nat) (data : Nat → Words) (tags : Nat → BitVec 128) : Words := fun x =>
  if x < rows * width then data (x / width) (x % width)
  else wordOf (tags ((x - rows * width) / 4)) ((x - rows * width) % 4)

theorem resultBuffer_data {rows width r e : Nat} (data : Nat → Words) (tags : Nat → BitVec 128) (hr : r < rows)
    (he : e < width) : resultBuffer rows width data tags (r * width + e) = data r e := by
  have hdiv : (r * width + e) / width = r := by
    rw [Nat.mul_comm, Nat.mul_add_div (by omega), Nat.div_eq_of_lt he, Nat.add_zero]
  have hmod : (r * width + e) % width = e := by rw [Nat.mul_comm, Nat.mul_add_mod, Nat.mod_eq_of_lt he]
  rw [resultBuffer, if_pos (row_add_lt hr he), hdiv, hmod]

theorem resultBuffer_tag {rows width : Nat} (data : Nat → Words) (tags : Nat → BitVec 128) (r : Nat) :
    blockAt (resultBuffer rows width data tags) (rows * width + 4 * r) = tags r := by
  refine blockAt_eq fun j hj => ?_
  have hsub : rows * width + 4 * r + j - rows * width = 4 * r + j := by omega
  have hdiv : (4 * r + j) / 4 = r := by omega
  have hmod : (4 * r + j) % 4 = j := by omega
  rw [resultBuffer, if_neg (by omega), hsub, hdiv, hmod]

/-- There is always something that an honest device can write. -/
theorem exists_honest (p : Preprocessor) (stored : Words) (q : Request) : ∃ device, Honest p stored q device :=
  ⟨resultBuffer (q.rows p.entries.length) p.sparseFeatureSize
    (fun r e => ((q.lookups r).map fun i => stored (p.lookupRow q r i * p.stride + e)).sum)
    (fun r => ((q.lookups r).map fun i => blockAt stored (p.lookupRow q r i * p.stride + p.sparseFeatureSize)).sum),
    fun _ hr _ he => resultBuffer_data _ _ hr he, fun _ r _ => resultBuffer_tag _ _ r⟩

namespace Honest

variable {p : Preprocessor} {ex : Executor} {q : Request} {device : Words}

/-- The rows of an honest device are the plain sums, less the sums of the pads. -/
theorem data_eq (h : Honest p ex.stored q device) (hl : Loaded p ex) (hq : q.Valid p) {r e : Nat}
    (hr : r < q.rows p.entries.length) (he : e < p.sparseFeatureSize) :
    device (r * p.sparseFeatureSize + e) = p.plainSum q r e - p.padSum q r e := by
  rw [h.data r hr e he, Preprocessor.plainSum, Preprocessor.padSum, eq_sub_iff_add_eq, ← List.sum_map_add]
  congr 1
  refine List.map_congr_left fun i hi => ?_
  have hstored := hl.stored _ (Preprocessor.tableBase_add_lt (hq.inRange r hr i hi))
  exact eq_sub_iff_add_eq.mp (hstored.data e he)

/-- The tags of an honest device are the sums of the checksums, less the sums of their pads. -/
theorem tag_eq (h : Honest p ex.stored q device) (hl : Loaded p ex) (hq : q.Valid p) (htag : p.includeTag = true)
    {r : Nat} (hr : r < q.rows p.entries.length) :
    blockAt device (q.rows p.entries.length * p.sparseFeatureSize + 4 * r) =
      ((q.lookups r).map fun i => p.verification.linearChecksum (p.srcRow (p.lookupRow q r i)) p.sparseFeatureSize).sum
        - p.tagPadSum q r := by
  rw [h.tags htag r hr, Preprocessor.tagPadSum, eq_sub_iff_add_eq, ← List.sum_map_add]
  congr 1
  refine List.map_congr_left fun i hi => ?_
  have hstored := hl.stored _ (Preprocessor.tableBase_add_lt (hq.inRange r hr i hi))
  exact eq_sub_iff_add_eq.mp (hstored.tag htag)

end Honest

end Pnm.Secure
