import Mathlib.Algebra.Order.BigOperators.Group.List
import Pnm.Secure.Tables

/-!
# `Secure.Guarantees` — what the secure SLS guarantees, and for which shapes

Three guarantees, each for every load, after any number of runs and for every order of the pad tasks: with an honest
device released rows are the plain sums (`DecryptsToPlaintext`); an honest device is accepted as long as no column
wraps (`AcceptsHonest`); and whatever the device writes, a row is released only if its tag agrees, and left
alone otherwise (`GuardsRows`).

All three hold for all keys exactly if `ShapesFit`: there is at least one element to a row and one batch, and the pads
of no row of the result reach `2 ^ 31` bytes. Beyond that the pads are summed wrongly for some key of the encryption.
What this leads to depends on the key of the verification: with a key of zero every row is released, with a key of
one no wrong row is.
-/

namespace Pnm.Secure

open Pnm.Lib Executor

namespace Preprocessor

variable (p : Preprocessor) (q : Request)

/-- The same tables under other keys. -/
def keyed (aesE aesV : Cipher) : Preprocessor :=
  { p with encryption := { p.encryption with aes := aesE }, verification := { p.verification with aes := aesV } }

/-- The tables can be loaded, into an executor with any buffers, and `P` holds after any number of runs. -/
def AfterLoad (P : Executor → Prop) : Prop :=
  ∀ fuel, (∀ rowCount ∈ p.entries, rowCount < fuel) → ∀ cpsum epsum, ∃ ex₀, p.loadTables fuel cpsum epsum = .ok ex₀ ∧
    ∀ ex, Run RunStep ex₀ ex → P ex

/-- A request runs to its end, with any schedule and buffers, and leaves what `P` says. -/
def Runs (ex : Executor) (device : Words) (P : Buffer → RunResult → Prop) : Prop :=
  ∀ sched, Schedules sched → ∀ psum : Buffer, psum.size = q.rows p.entries.length * p.sparseFeatureSize → ∀ checks,
    ∃ res, ex.runSls q sched device psum checks = .ok res ∧ P psum res

/-- With an honest device, every row that is released is the plain sum. -/
def DecryptsToPlaintext : Prop :=
  p.AfterLoad fun ex => ∀ device, Honest p ex.stored q device → p.Runs q ex device fun _ res =>
    ∀ r < q.rows p.entries.length, (p.includeTag = true → res.checks r ≠ 0) → ∀ e < p.sparseFeatureSize,
      res.psum (r * p.sparseFeatureSize + e) = p.plainSum q r e

/-- No column of row `r` wraps. -/
def ExactRow (r : Nat) : Prop :=
  ∀ e < p.sparseFeatureSize, ((q.lookups r).map fun i => (p.srcRow (p.lookupRow q r i) e).toNat).sum < 2 ^ 32

/-- With an honest device, rows that do not wrap are accepted. -/
def AcceptsHonest : Prop :=
  p.AfterLoad fun ex => ∀ device, Honest p ex.stored q device → p.Runs q ex device fun _ res =>
    (∀ r < q.rows p.entries.length, p.ExactRow q r → res.checks r = 1) ∧
    ((∀ r < q.rows p.entries.length, p.ExactRow q r) → res.status = true)

/-- With any device, a row is released with the pads of its own lookups and a tag that agrees with it, or it is left
    as it was. -/
def GuardsRows : Prop :=
  p.AfterLoad fun ex => ∀ device, p.Runs q ex device fun psum res =>
    (∀ r < q.rows p.entries.length,
      (res.checks r = 1 ∧
        (∀ e < p.sparseFeatureSize,
          res.psum (r * p.sparseFeatureSize + e) = device (r * p.sparseFeatureSize + e) + p.padSum q r e) ∧
        p.verification.linearChecksum (fun e => res.psum (r * p.sparseFeatureSize + e)) p.sparseFeatureSize =
          blockAt device (q.rows p.entries.length * p.sparseFeatureSize + 4 * r) + p.tagPadSum q r) ∨
      (res.checks r = 0 ∧ ∀ e < p.sparseFeatureSize,
        res.psum (r * p.sparseFeatureSize + e) = psum.data (r * p.sparseFeatureSize + e))) ∧
    (res.status = true ↔ ∀ r < q.rows p.entries.length, res.checks r = 1)

/-- The shapes for which all pads are encrypted. -/
structure ShapesFit : Prop where
  width_pos : 0 < p.sparseFeatureSize
  minibatch_pos : 0 < q.minibatchSize
  bytes_lt : ∀ l ∈ q.lengths, 4 * (l * p.sparseFeatureSize) < 2 ^ 31

end Preprocessor

/-! ## Shapes that fit -/

section Forward

variable {p : Preprocessor} {q : Request}

/-- **Loaded tables within the bounds**: what is left to show is a fact about the outcome of a run. -/
theorem Preprocessor.ShapesFit.afterLoad (h : p.ShapesFit q) (hw : p.sparseFeatureSize % 4 = 0)
    (hmax : p.sparseFeatureSize ≤ 2048) {P : Executor → Prop} (hP : ∀ ex, Loaded p ex → P ex) : p.AfterLoad P := by
  intro fuel hfuel cpsum epsum
  obtain ⟨ex₀, hload, hloaded⟩ := Preprocessor.loadTables_spec h.width_pos hw hmax hfuel cpsum epsum
  exact ⟨ex₀, hload, fun ex hrun => hP ex (hloaded.of_run hrun)⟩

theorem Preprocessor.ShapesFit.runs (h : p.ShapesFit q) (hw : p.sparseFeatureSize % 4 = 0)
    (hq : q.Shaped p.entries.length)
    {ex : Executor} (hl : Loaded p ex) {device : Words} {P : Buffer → RunResult → Prop}
    (hP : ∀ psum res, Outcome ex q device psum (p.padSum q) (p.tagPadSum q) res → P psum res) :
    p.Runs q ex device P := by
  intro sched hsched psum hpsum checks
  obtain ⟨res, hrun, houtcome⟩ :=
    hl.outcome hq h.minibatch_pos h.width_pos hw h.bytes_lt hsched hpsum device checks
  exact ⟨res, hrun, hP psum res houtcome⟩

/-- An honest row, decrypted. -/
theorem Honest.decrypted_eq {ex : Executor} {device : Words} (h : Honest p ex.stored q device) (hl : Loaded p ex)
    (hq : q.Valid p) {r e : Nat} (hr : r < q.rows p.entries.length) (he : e < p.sparseFeatureSize) :
    ex.decrypted device (p.padSum q) r e = p.plainSum q r e := by
  rw [decrypted, hl.width_eq, h.data_eq hl hq hr he, sub_add_cancel]

theorem Preprocessor.ShapesFit.decryptsToPlaintext (h : p.ShapesFit q) (hw : p.sparseFeatureSize % 4 = 0)
    (hmax : p.sparseFeatureSize ≤ 2048) (hq : q.Valid p) : p.DecryptsToPlaintext q := by
  refine h.afterLoad hw hmax fun ex hl device hdevice => h.runs hw hq.toShaped hl ?_
  intro psum res hres r hr hreleased e he
  rw [← hdevice.decrypted_eq hl hq hr he]
  rw [← hl.numTables_eq] at hr
  rw [← hl.withTag_eq] at hreleased
  rw [← hl.width_eq] at he ⊢
  exact hres.psum_eq hr hreleased he

/-- The value of a sum. -/
theorem toNat_sum_map {n : Nat} {α : Type} (l : List α) (f : α → BitVec n) :
    (l.map f).sum.toNat = (l.map fun i => (f i).toNat).sum % 2 ^ n := by
  induction l with
  | nil => simp
  | cons a l ih =>
      rw [List.map_cons, List.sum_cons, BitVec.toNat_add, ih, List.map_cons, List.sum_cons, Nat.add_mod_mod]

/-- The sum of a column that does not wrap, as a wider number. -/
theorem setWidth_sum {α : Type} (l : List α) (f : α → BitVec 32) (h : (l.map fun i => (f i).toNat).sum < 2 ^ 32) :
    (l.map f).sum.setWidth 128 = (l.map fun i => (f i).setWidth 128).sum := by
  refine BitVec.eq_of_toNat_eq ?_
  have hwide : ∀ i, ((f i).setWidth 128).toNat = (f i).toNat := fun i => BitVec.toNat_setWidth_of_le (by decide)
  rw [BitVec.toNat_setWidth, toNat_sum_map, toNat_sum_map]
  simp only [hwide]
  rw [Nat.mod_eq_of_lt h]

/-- **An honest row that does not wrap is verified.** The tags are sums of checksums, and the checksum is linear. -/
theorem Honest.verified_eq {ex : Executor} {device : Words} (h : Honest p ex.stored q device) (hl : Loaded p ex)
    (hq : q.Valid p) (htag : p.includeTag = true) {r : Nat} (hr : r < q.rows p.entries.length)
    (hexact : p.ExactRow q r) :
    ex.verified (q.rows ex.numTables) device (p.padSum q) (p.tagPadSum q) r = true := by
  have hrow : ∀ e < ex.sparseFeatureSize, ex.decrypted device (p.padSum q) r e = p.plainSum q r e :=
    fun e he => h.decrypted_eq hl hq hr (hl.width_eq ▸ he)
  rw [verified, validatePsum_congr _ hrow, hl.numTables_eq, hl.width_eq, hl.verification_eq,
    VerificationEngine.validatePsum, h.tag_eq hl hq htag hr,
    sub_add_cancel, beq_iff_eq, VerificationEngine.linearChecksum_eq]
  simp only [VerificationEngine.linearChecksum_eq]
  rw [VerificationEngine.weighted_sum]
  exact VerificationEngine.weighted_congr _ fun e he => setWidth_sum _ _ (hexact e he)

theorem Preprocessor.ShapesFit.acceptsHonest (h : p.ShapesFit q) (hw : p.sparseFeatureSize % 4 = 0)
    (hmax : p.sparseFeatureSize ≤ 2048) (htag : p.includeTag = true) (hq : q.Valid p) : p.AcceptsHonest q := by
  refine h.afterLoad hw hmax fun ex hl device hdevice => h.runs hw hq.toShaped hl fun psum res hres => ?_
  have htag' : ex.withTag = true := hl.withTag_eq.trans htag
  refine ⟨fun r hr hexact => ?_, fun hall => (hres.status htag').mpr fun r hr => ?_⟩
  · exact (hres.released htag' r (by rwa [hl.numTables_eq]) (hdevice.verified_eq hl hq htag hr hexact)).1
  · rw [hl.numTables_eq] at hr
    exact hdevice.verified_eq hl hq htag hr (hall r hr)

theorem Preprocessor.ShapesFit.guardsRows (h : p.ShapesFit q) (hw : p.sparseFeatureSize % 4 = 0)
    (hmax : p.sparseFeatureSize ≤ 2048) (htag : p.includeTag = true) (hq : q.Shaped p.entries.length) :
    p.GuardsRows q := by
  refine h.afterLoad hw hmax fun ex hl device => h.runs hw hq hl fun psum res hres => ?_
  have htag' : ex.withTag = true := hl.withTag_eq.trans htag
  have hgood : ∀ r < q.rows p.entries.length,
      ex.verified (q.rows ex.numTables) device (p.padSum q) (p.tagPadSum q) r = true ↔ res.checks r = 1 := by
    intro r hr
    rw [← hl.numTables_eq] at hr
    cases hcase : ex.verified (q.rows ex.numTables) device (p.padSum q) (p.tagPadSum q) r with
    | true => exact iff_of_true rfl (hres.released htag' r hr hcase).1
    | false =>
        rw [(hres.withheld htag' r hr hcase).1]
        exact iff_of_false (by decide) (by decide)
  refine ⟨fun r hr => ?_, ?_⟩
  · cases hcase : ex.verified (q.rows ex.numTables) device (p.padSum q) (p.tagPadSum q) r with
    | true =>
        obtain ⟨hcheck, hdata⟩ := hres.released htag' r (by rwa [hl.numTables_eq]) hcase
        rw [verified, hl.width_eq, hl.verification_eq, hl.numTables_eq, VerificationEngine.validatePsum, beq_iff_eq]
          at hcase
        rw [hl.width_eq] at hdata
        refine .inl ⟨hcheck, fun e he => ?_, ?_⟩
        · rw [hdata e he, decrypted, hl.width_eq]
        · rw [← hcase]
          exact VerificationEngine.linearChecksum_congr _ hdata
    | false =>
        have hkept := hres.withheld htag' r (by rwa [hl.numTables_eq]) hcase
        rw [hl.width_eq] at hkept
        exact .inr hkept
  · rw [hres.status htag', hl.numTables_eq]
    exact forall₂_congr fun r hr => by rw [← hgood r hr, hl.numTables_eq]

end Forward

/-! ## Shapes that do not fit -/

/-- The cipher that gives the checksum the key `k`, and leaves all other blocks as they are. -/
def keyCipher (k : BitVec 128) : Cipher := fun b => if b.extractLsb' 96 32 = 1 then k else b

theorem extractLsb'_seed (pfx version : BitVec 32) (address : BitVec 64) :
    (seed pfx version address).extractLsb' 96 32 = pfx := by
  refine BitVec.eq_of_getLsbD_eq fun i hi => ?_
  rw [BitVec.getLsbD_extractLsb', seed, BitVec.getLsbD_append, BitVec.getLsbD_append, if_neg (by omega),
    if_neg (by omega)]
  simp only [hi, decide_true, Bool.true_and]
  congr 1
  omega

section KeyCipher

variable {v : VerificationEngine} {k : BitVec 128}

/-- Pads of tags are the same whether they are encrypted or not. -/
theorem padBlock_keyCipher (version : BitVec 32) (encrypted : Bool) (address : BitVec 64) :
    padBlock (keyCipher k) 0x10 version encrypted address = generateOtp (keyCipher k) 0x10 version address := by
  have hseed : keyCipher k (seed 0x10 version address) = seed 0x10 version address := by
    rw [keyCipher, extractLsb'_seed, if_neg (by decide)]
  cases encrypted with
  | false => exact hseed.symm
  | true => rfl

/-- A key that squaring leaves alone is the weight of every element. -/
theorem linearChecksum_keyCipher (hv : v.aes = keyCipher k) (hk : (k * k) % VerificationEngine.Q = k) (row : Words)
    (count : Nat) : v.linearChecksum row count = ((List.range count).map fun j => k * (row j).setWidth 128).sum := by
  have hkey : v.checksumKey = k := by
    rw [VerificationEngine.checksumKey, generateOtp, hv, keyCipher, extractLsb'_seed, if_pos rfl]
  have hweight : ∀ j, v.weight j = k := by
    intro j
    induction j with
    | zero => exact hkey
    | succ j ih => rw [VerificationEngine.weight, ih, hk]
  simp only [VerificationEngine.linearChecksum_eq, VerificationEngine.weighted, hweight]

/-- With a key of zero all checksums are zero. -/
theorem linearChecksum_keyCipher_zero (hv : v.aes = keyCipher 0) (row : Words) (count : Nat) :
    v.linearChecksum row count = 0 := by
  rw [linearChecksum_keyCipher hv (by decide)]
  simp

/-- With a key of one only a row of zeros has the checksum zero. -/
theorem linearChecksum_keyCipher_one (hv : v.aes = keyCipher 1) {row : Words} {count : Nat} (hcount : count ≤ 2048)
    (h : v.linearChecksum row count = 0) : ∀ e < count, row e = 0 := by
  have hbound : ∀ n ≤ count, ((List.range n).map fun j => (row j).toNat).sum ≤ n * 2 ^ 32 := by
    intro n _
    induction n with
    | zero => simp
    | succ n ih =>
        rw [List.range_succ, List.map_append, List.sum_append, List.map_singleton, List.sum_singleton]
        have hlt := (row n).isLt
        have hle := ih (by omega)
        omega
  have hzero := congrArg BitVec.toNat h
  rw [linearChecksum_keyCipher hv (by decide), toNat_sum_map] at hzero
  simp only [one_mul, BitVec.toNat_setWidth_of_le (show 32 ≤ 128 by decide)] at hzero
  have hle := hbound count le_rfl
  rw [Nat.mod_eq_of_lt (by omega)] at hzero
  intro e he
  have hterm := List.sum_eq_zero_iff.mp hzero _ (List.mem_map.mpr ⟨e, List.mem_range.mpr he, rfl⟩)
  exact BitVec.eq_of_toNat_eq hterm

end KeyCipher

section Backward

variable {p : Preprocessor} {q : Request}

/-- A load under which something holds has its tables loaded. -/
theorem Preprocessor.AfterLoad.loaded (hw : p.sparseFeatureSize % 4 = 0) (hmax : p.sparseFeatureSize ≤ 2048)
    {P : Executor → Prop} (h : p.AfterLoad P) : 0 < p.sparseFeatureSize ∧ ∃ ex, Loaded p ex ∧ P ex := by
  have hfuel : ∀ rowCount ∈ p.entries, rowCount < p.entries.sum + 1 :=
    fun rowCount hmem => Nat.lt_succ_of_le (List.le_sum_of_mem hmem)
  obtain ⟨ex, hload, hP⟩ := h _ hfuel ⟨0, fun _ => 0⟩ ⟨0, fun _ => 0⟩
  have hpos := Preprocessor.pos_of_loadTables hload
  obtain ⟨ex', hload', hloaded⟩ := Preprocessor.loadTables_spec hpos hw hmax hfuel ⟨0, fun _ => 0⟩ ⟨0, fun _ => 0⟩
  obtain rfl : ex' = ex := Except.ok.inj (hload'.symm.trans hload)
  exact ⟨hpos, ex', hloaded, hP ex' .refl⟩

/-- A request that runs to its end has its pads. -/
theorem Preprocessor.Runs.outcome {ex : Executor} (hl : Loaded p ex) (hq : q.Shaped p.entries.length)
    (hpos : 0 < p.sparseFeatureSize) {device : Words} {P : Buffer → RunResult → Prop} (h : p.Runs q ex device P) :
    0 < q.minibatchSize ∧ ∃ psum res sums etags, P psum res ∧ Outcome ex q device psum sums etags res ∧
      ∀ r < q.rows p.entries.length, ex.RowPads (q.padRow r) (sums r) (etags r) := by
  have hsched : Schedules fun steps => steps := fun steps => List.Perm.refl steps
  obtain ⟨res, hrun, hP⟩ := h _ hsched ⟨q.rows p.entries.length * p.sparseFeatureSize, fun _ => 0⟩ rfl fun _ => 0
  rw [← hl.numTables_eq] at hq
  obtain ⟨sums, etags, hpads, houtcome⟩ := outcome_of_runSls hq (hl.width_eq ▸ hpos) hsched
    (by rw [hl.numTables_eq, hl.width_eq]) hrun
  rw [hl.numTables_eq] at hpads
  exact ⟨(pads_of_runSls hq hsched hrun).1, _, res, sums, etags, hP, houtcome, hpads⟩

/-- The executor can be loaded, and the sums of the pads of the request are the right ones. -/
def ComputesPadSums (p : Preprocessor) (q : Request) : Prop :=
  ∃ ex, ∃ sums : Nat → Words, ∃ etags : Nat → BitVec 128, Loaded p ex ∧
    ∀ r < q.rows p.entries.length, ex.RowPads (q.padRow r) (sums r) (etags r) ∧
      ∀ e < p.sparseFeatureSize, sums r e = p.padSum q r e

/-- **If the pads are right for every key of the encryption, the shapes fit.** -/
theorem shapesFit_of_pads (hw : p.sparseFeatureSize % 4 = 0) (hq : q.Shaped p.entries.length)
    (hpos : 0 < p.sparseFeatureSize) (hm : 0 < q.minibatchSize)
    (h : ∀ aesE, ∃ aesV, ComputesPadSums (p.keyed aesE aesV) q) : p.ShapesFit q := by
  refine ⟨hpos, hm, fun l hl => ?_⟩
  by_contra hlarge
  obtain ⟨r, hlt, rfl⟩ := List.getElem_of_mem hl
  have hr : r < q.rows p.entries.length := by
    rw [hq.lengths_length, Nat.mul_comm] at hlt
    exact hlt
  have hlength : ((q.lookups r).map fun i => p.rowAddress (p.lookupRow q r i)).length = q.lengths[r] := by
    rw [List.length_map, hq.length_lookups hr, List.getD_eq_getElem _ _ hlt]
  obtain ⟨aesE, hwrong⟩ := EncryptionEngine.exists_wrong_pads p.encryption.version hw
    (by rw [hlength]; omega) (by rw [hlength]; exact hq.lengths_lt _ hl)
  obtain ⟨aesV, ex, sums, etags, hloaded, hpads⟩ := h aesE
  have hrow := (hpads r hr).1.1
  rw [hloaded.addresses_eq hm hr, hloaded.encryption_eq, hloaded.width_eq] at hrow
  obtain ⟨e, he, hne⟩ := hwrong _ hrow
  refine hne (((hpads r hr).2 e he).trans ?_)
  rw [List.map_map]
  rfl

/-- The sum of the tag pads does not depend on how far they were encrypted. -/
theorem etag_of_keyCipher {k : BitVec 128} {ex : Executor} (hl : Loaded p ex) (hv : p.verification.aes = keyCipher k)
    (htag : p.includeTag = true) (hm : 0 < q.minibatchSize) {r : Nat} (hr : r < q.rows p.entries.length) {sums : Words}
    {etag : BitVec 128} (hpads : ex.RowPads (q.padRow r) sums etag) : etag = p.tagPadSum q r := by
  have hetag := hpads.2 (hl.withTag_eq.trans htag)
  rw [hl.verification_eq, hl.addresses_eq hm hr] at hetag
  obtain ⟨n, -, hsum⟩ := p.verification.offsetTransformReduceVec_eq hetag
  simp only [hv, padBlock_keyCipher] at hsum
  rw [hsum, sum_map_range_getD, List.map_map, Preprocessor.tagPadSum, hv]
  rfl

/-- With a key of zero, a row is released as soon as the device's tag cancels the pads. -/
theorem verified_of_keyCipher_zero {ex : Executor} (hl : Loaded p ex) (hv : p.verification.aes = keyCipher 0)
    {device : Words} {r : Nat} {sums : Nat → Words} {etags : Nat → BitVec 128} (hetag : etags r = p.tagPadSum q r)
    (hdevice : blockAt device (q.rows p.entries.length * p.sparseFeatureSize + 4 * r) = - p.tagPadSum q r) :
    ex.verified (q.rows ex.numTables) device sums etags r = true := by
  rw [verified, hl.verification_eq, hl.numTables_eq, hl.width_eq, VerificationEngine.validatePsum, hdevice, hetag,
    linearChecksum_keyCipher_zero hv, neg_add_cancel]
  rfl

/-- With a key of zero, the tags of an honest device cancel the pads. -/
theorem Honest.tag_of_keyCipher_zero {ex : Executor} {device : Words} (h : Honest p ex.stored q device)
    (hl : Loaded p ex) (hq : q.Valid p) (htag : p.includeTag = true) (hv : p.verification.aes = keyCipher 0) {r : Nat}
    (hr : r < q.rows p.entries.length) :
    blockAt device (q.rows p.entries.length * p.sparseFeatureSize + 4 * r) = - p.tagPadSum q r := by
  rw [h.tag_eq hl hq htag hr]
  simp only [linearChecksum_keyCipher_zero hv]
  simp

/-- With a key of zero, what is decrypted is right only if the pads are. -/
theorem DecryptsToPlaintext.computesPadSums (hw : p.sparseFeatureSize % 4 = 0) (hmax : p.sparseFeatureSize ≤ 2048)
    (hq : q.Valid p) (hv : p.verification.aes = keyCipher 0) (h : p.DecryptsToPlaintext q) :
    0 < p.sparseFeatureSize ∧ 0 < q.minibatchSize ∧ ComputesPadSums p q := by
  obtain ⟨hpos, ex, hl, hrun⟩ := Preprocessor.AfterLoad.loaded hw hmax h
  obtain ⟨device, hdevice⟩ := exists_honest p ex.stored q
  obtain ⟨hm, psum, res, sums, etags, hplain, hres, hpads⟩ :=
    Preprocessor.Runs.outcome hl hq.toShaped hpos (hrun device hdevice)
  refine ⟨hpos, hm, ex, sums, etags, hl, fun r hr => ⟨hpads r hr, fun e he => ?_⟩⟩
  have hreleased : p.includeTag = true → res.checks r ≠ 0 := by
    intro htag
    have hgood : ex.verified (q.rows ex.numTables) device sums etags r = true :=
      verified_of_keyCipher_zero hl hv (etag_of_keyCipher hl hv htag hm hr (hpads r hr))
        (hdevice.tag_of_keyCipher_zero hl hq htag hv hr)
    rw [(hres.released (hl.withTag_eq.trans htag) r (by rwa [hl.numTables_eq]) hgood).1]
    decide
  have hrow := hres.psum_eq (by rwa [hl.numTables_eq]) (by rwa [hl.withTag_eq]) (e := e) (by rwa [hl.width_eq])
  -- the plain sum is itself, less the right pads, plus those that were added
  rw [decrypted, hl.width_eq, hplain r hr hreleased e he, hdevice.data_eq hl hq hr he, sub_add, eq_comm, sub_eq_self,
    sub_eq_zero] at hrow
  exact hrow.symm

/-- With a key of one and tables of zeros, an honest row is accepted only if the pads are right. -/
theorem AcceptsHonest.computesPadSums (hw : p.sparseFeatureSize % 4 = 0) (hmax : p.sparseFeatureSize ≤ 2048)
    (htag : p.includeTag = true) (hq : q.Valid p) (hv : p.verification.aes = keyCipher 1) (hsrc : p.src = fun _ => 0)
    (h : p.AcceptsHonest q) : 0 < p.sparseFeatureSize ∧ 0 < q.minibatchSize ∧ ComputesPadSums p q := by
  obtain ⟨hpos, ex, hl, hrun⟩ := Preprocessor.AfterLoad.loaded hw hmax h
  obtain ⟨device, hdevice⟩ := exists_honest p ex.stored q
  obtain ⟨hm, psum, res, sums, etags, haccepts, hres, hpads⟩ :=
    Preprocessor.Runs.outcome hl hq.toShaped hpos (hrun device hdevice)
  have hzero : ∀ r e, p.srcRow r e = 0 := fun r e => by rw [Preprocessor.srcRow, hsrc]
  refine ⟨hpos, hm, ex, sums, etags, hl, fun r hr => ⟨hpads r hr, fun e he => ?_⟩⟩
  have htag' : ex.withTag = true := hl.withTag_eq.trans htag
  have hcheck : res.checks r = 1 := haccepts.1 r hr fun e _ => by simp [hzero]
  have hgood : ex.verified (q.rows ex.numTables) device sums etags r = true := by
    cases hcase : ex.verified (q.rows ex.numTables) device sums etags r with
    | true => rfl
    | false =>
        rw [(hres.withheld htag' r (by rwa [hl.numTables_eq]) hcase).1] at hcheck
        exact absurd hcheck (by decide)
  have hchecksum : p.verification.linearChecksum (ex.decrypted device sums r) p.sparseFeatureSize = 0 := by
    rw [verified, hl.verification_eq, hl.numTables_eq, hl.width_eq, VerificationEngine.validatePsum, beq_iff_eq,
      hdevice.tag_eq hl hq htag hr, etag_of_keyCipher hl hv htag hm hr (hpads r hr), sub_add_cancel] at hgood
    rw [hgood]
    simp only [linearChecksum_keyCipher hv (show 1 * 1 % VerificationEngine.Q = 1 by decide), hzero]
    simp
  have hrow := linearChecksum_keyCipher_one hv hmax hchecksum e he
  have hplain : p.plainSum q r e = 0 := by simp [Preprocessor.plainSum, hzero]
  rw [decrypted, hl.width_eq, hdevice.data_eq hl hq hr he, hplain, zero_sub, neg_add_eq_zero] at hrow
  exact hrow.symm

/-- With a key of zero, rows are guarded only if the pads are right. -/
theorem GuardsRows.computesPadSums (hw : p.sparseFeatureSize % 4 = 0) (hmax : p.sparseFeatureSize ≤ 2048)
    (htag : p.includeTag = true) (hq : q.Shaped p.entries.length) (hv : p.verification.aes = keyCipher 0)
    (h : p.GuardsRows q) : 0 < p.sparseFeatureSize ∧ 0 < q.minibatchSize ∧ ComputesPadSums p q := by
  obtain ⟨hpos, ex, hl, hrun⟩ := Preprocessor.AfterLoad.loaded hw hmax h
  -- a device that writes what it likes, with tags that cancel the pads
  obtain ⟨device, hdevice⟩ : ∃ device, ∀ r,
      blockAt device (q.rows p.entries.length * p.sparseFeatureSize + 4 * r) = - p.tagPadSum q r :=
    ⟨resultBuffer _ _ (fun _ _ => 0) fun r => - p.tagPadSum q r, fun r => resultBuffer_tag _ _ r⟩
  obtain ⟨hm, psum, res, sums, etags, hguards, hres, hpads⟩ := Preprocessor.Runs.outcome hl hq hpos (hrun device)
  refine ⟨hpos, hm, ex, sums, etags, hl, fun r hr => ⟨hpads r hr, fun e he => ?_⟩⟩
  have hgood : ex.verified (q.rows ex.numTables) device sums etags r = true :=
    verified_of_keyCipher_zero hl hv (etag_of_keyCipher hl hv htag hm hr (hpads r hr)) (hdevice r)
  obtain ⟨hcheck, hdata⟩ := hres.released (hl.withTag_eq.trans htag) r (by rwa [hl.numTables_eq]) hgood
  rcases hguards.1 r hr with ⟨-, hrow, -⟩ | ⟨hzero, -⟩
  · have hboth := (hrow e he).symm.trans (hl.width_eq ▸ hdata e (by rwa [hl.width_eq]))
    rw [decrypted, hl.width_eq] at hboth
    exact (add_left_cancel hboth).symm
  · rw [hcheck] at hzero
    exact absurd hzero (by decide)

end Backward

/-! ## A request that does not fit

One table of one row of 2048 elements, which is looked up `2 ^ 19` times: the pads take `2 ^ 32` bytes, which as an
`int` is zero, and nothing is encrypted. -/

/-- The table, under a key of the encryption that makes every pad a row of ones. -/
def largeTables (aesV : Cipher) : Preprocessor :=
  { entries := [1], sparseFeatureSize := 2048, src := fun _ => 0, writer := .trivialMemory, includeTag := true
    encryption := ⟨0, constCipher onesBlock⟩, verification := ⟨0, 0, aesV⟩ }

def largeRequest : Request := { minibatchSize := 1, lengths := [2 ^ 19], indices := List.replicate (2 ^ 19) 0 }

theorem largeRequest_valid (aesV : Cipher) : largeRequest.Valid (largeTables aesV) where
  lengths_length := rfl
  lengths_pos := by decide
  lengths_lt := by decide
  indices_length := by
    rw [largeRequest, List.length_replicate]
    rfl
  inRange := by
    intro r hr i hi
    obtain rfl : r = 0 := by
      change r < 1 at hr
      omega
    have hlookups : largeRequest.lookups 0 = (List.replicate (2 ^ 19) 0).take (2 ^ 19) := by
      rw [Request.lookups, largeRequest, List.splitLengths_cons]
      rfl
    rw [hlookups] at hi
    rw [List.eq_of_mem_replicate (List.mem_of_mem_take hi)]
    exact Nat.one_pos

theorem wordOf_seed (pfx version : BitVec 32) (address : BitVec 64) : wordOf (seed pfx version address) 3 = pfx :=
  extractLsb'_seed pfx version address

/-- **No pad is encrypted**, so column 3 has the sum of the prefixes in place of the sum of ones. -/
theorem largeTables_not_computesPadSums (aesV : Cipher) : ¬ ComputesPadSums (largeTables aesV) largeRequest := by
  rintro ⟨ex, sums, etags, hl, hpads⟩
  have hr : 0 < largeRequest.rows (largeTables aesV).entries.length := Nat.one_pos
  have hlength : (largeRequest.lookups 0).length = 2 ^ 19 :=
    (largeRequest_valid aesV).toShaped.length_lookups hr
  obtain ⟨⟨hrow, -⟩, hright⟩ := hpads 0 hr
  rw [hl.addresses_eq (by decide) hr, hl.encryption_eq, hl.width_eq] at hrow
  obtain ⟨n, hn, hsum⟩ := EncryptionEngine.offsetTransformReduceVec_eq _ (show 2048 % 4 = 0 by decide) hrow
  rw [List.length_map, hlength] at hn hsum
  obtain rfl : 0 = n := Option.some.inj ((show encryptedBlocks (2 ^ 19 * (2048 / 4)) = some 0 by decide).symm.trans hn)
  have hthree : 3 < 2048 := by decide
  have hcolumn := (hsum 3 hthree).symm.trans (hright 3 hthree)
  have hpad : ∀ k address, wordOf (padBlock (constCipher onesBlock) 0x00 0
      (decide (k * (2048 / 4) + 3 / 4 < 0)) address) (3 % 4) = 0 := by
    intro k address
    rw [decide_eq_false (by omega), padBlock_constCipher]
    exact wordOf_seed 0x00 0 address
  have hones := sum_map_boole 32 (fun _ => true) (largeRequest.lookups 0)
  rw [List.countP_true, hlength] at hones
  have htotal : (largeTables aesV).padSum largeRequest 0 3 = BitVec.ofNat 32 (2 ^ 19) := by
    rw [← hones, Preprocessor.padSum]
    simp only [largeTables, padWord_constCipher, if_true]
    rw [show wordOf onesBlock (3 % 4) = 1 from wordOf_onesBlock]
  rw [htotal] at hcolumn
  simp only [largeTables, hpad, List.map_const', List.sum_replicate, nsmul_zero, zero_add] at hcolumn
  exact absurd hcolumn (by decide)

/-! ## The guarantees -/

section Guarantees

variable {p : Preprocessor} {q : Request}

/-- **Decryption.** The rows released for an honest device are the plain sums, for all keys, exactly if the shapes
    fit. -/
theorem decrypts_to_plaintext_iff (hw : p.sparseFeatureSize % 4 = 0) (hmax : p.sparseFeatureSize ≤ 2048)
    (hq : q.Valid p) : (∀ aesE aesV, (p.keyed aesE aesV).DecryptsToPlaintext q) ↔ p.ShapesFit q := by
  constructor
  · intro h
    have hpads := fun aesE => DecryptsToPlaintext.computesPadSums (p := p.keyed aesE (keyCipher 0)) hw hmax
      ⟨hq.toShaped, hq.inRange⟩ rfl (h aesE _)
    exact shapesFit_of_pads hw hq.toShaped (hpads id).1 (hpads id).2.1 fun aesE => ⟨_, (hpads aesE).2.2⟩
  · intro h aesE aesV
    exact Preprocessor.ShapesFit.decryptsToPlaintext ⟨h.width_pos, h.minibatch_pos, h.bytes_lt⟩ hw hmax
      ⟨hq.toShaped, hq.inRange⟩

/-- Tables of two and three rows of four elements. -/
def smallTables : Preprocessor :=
  { entries := [2, 3], sparseFeatureSize := 4, src := fun x => BitVec.ofNat 32 x, writer := .memory, includeTag := true
    encryption := ⟨7, id⟩, verification := ⟨7, 0, id⟩ }

/-- Two batches for each of them, with different lookups. -/
def smallRequest : Request := { minibatchSize := 2, lengths := [2, 1, 1, 3], indices := [1, 0, 1, 2, 0, 2, 1] }

theorem smallRequest_valid : smallRequest.Valid smallTables :=
  ⟨⟨by decide, by decide, by decide, by decide⟩, by decide⟩

theorem smallTables_shapesFit : smallTables.ShapesFit smallRequest := ⟨by decide, by decide, by decide⟩

theorem decrypts_to_plaintext_small :
    smallTables.ShapesFit smallRequest ∧ ∀ aesE aesV, (smallTables.keyed aesE aesV).DecryptsToPlaintext smallRequest :=
  ⟨smallTables_shapesFit, (decrypts_to_plaintext_iff (by decide) (by decide) smallRequest_valid).mpr
    smallTables_shapesFit⟩

/-- With `2 ^ 19` lookups of 2048 elements the row is released and is not the plain sum. -/
theorem large_request_decrypts_wrongly : ¬ (largeTables (keyCipher 0)).DecryptsToPlaintext largeRequest := fun h =>
  largeTables_not_computesPadSums _ (DecryptsToPlaintext.computesPadSums (by decide) (by decide)
    (largeRequest_valid _) rfl h).2.2

/-- **Verification.** Honest rows that do not wrap are accepted, for all tables of a shape and all keys, exactly if the
    shapes fit. -/
theorem accepts_honest_iff (hw : p.sparseFeatureSize % 4 = 0) (hmax : p.sparseFeatureSize ≤ 2048)
    (htag : p.includeTag = true) (hq : q.Valid p) :
    (∀ src aesE aesV, (Preprocessor.keyed { p with src := src } aesE aesV).AcceptsHonest q) ↔ p.ShapesFit q := by
  constructor
  · intro h
    have hpads := fun aesE => AcceptsHonest.computesPadSums
      (p := Preprocessor.keyed { p with src := fun _ => 0 } aesE (keyCipher 1)) hw hmax htag
      ⟨hq.toShaped, hq.inRange⟩ rfl rfl (h _ aesE _)
    have hfits := shapesFit_of_pads (p := { p with src := fun _ => 0 }) hw hq.toShaped (hpads id).1 (hpads id).2.1
      fun aesE => ⟨_, (hpads aesE).2.2⟩
    exact ⟨hfits.width_pos, hfits.minibatch_pos, hfits.bytes_lt⟩
  · intro h src aesE aesV
    exact Preprocessor.ShapesFit.acceptsHonest ⟨h.width_pos, h.minibatch_pos, h.bytes_lt⟩ hw hmax htag
      ⟨hq.toShaped, hq.inRange⟩

theorem accepts_honest_small :
    smallTables.ShapesFit smallRequest ∧ ∀ src aesE aesV,
      (Preprocessor.keyed { smallTables with src := src } aesE aesV).AcceptsHonest smallRequest :=
  ⟨smallTables_shapesFit, (accepts_honest_iff (by decide) (by decide) rfl smallRequest_valid).mpr smallTables_shapesFit⟩

/-- With `2 ^ 19` lookups of a row of zeros an honest device is rejected. -/
theorem large_request_rejected : ¬ (largeTables (keyCipher 1)).AcceptsHonest largeRequest := fun h =>
  largeTables_not_computesPadSums _ (AcceptsHonest.computesPadSums (by decide) (by decide) rfl
    (largeRequest_valid _) rfl rfl h).2.2

/-- **Untrusted devices.** Rows are released only with the pads of their own lookups and a tag that agrees, for all keys
    and whatever the device writes, exactly if the shapes fit. The tables may be any that could be loaded. -/
theorem guards_rows_iff {fuel rowCount : Nat} {cpsum epsum : Buffer} {ex : Executor}
    (hload : p.loadTables fuel cpsum epsum = .ok ex) (hmem : rowCount ∈ p.entries) (hcount : 0 < rowCount)
    (htag : p.includeTag = true) (hq : q.Shaped p.entries.length) :
    (∀ aesE aesV, (p.keyed aesE aesV).GuardsRows q) ↔ p.ShapesFit q := by
  obtain ⟨st, himpl, -⟩ := bind_eq_ok.mp hload
  obtain ⟨-, hw, hmax⟩ := Preprocessor.width_of_loadImpl himpl hmem hcount
  constructor
  · intro h
    have hpads := fun aesE => GuardsRows.computesPadSums (p := p.keyed aesE (keyCipher 0)) hw hmax htag hq rfl
      (h aesE _)
    exact shapesFit_of_pads hw hq (hpads id).1 (hpads id).2.1 fun aesE => ⟨_, (hpads aesE).2.2⟩
  · intro h aesE aesV
    exact Preprocessor.ShapesFit.guardsRows ⟨h.width_pos, h.minibatch_pos, h.bytes_lt⟩ hw hmax htag hq

/-- The sample can be loaded. -/
theorem smallTables_loads : ∃ ex, smallTables.loadTables 4 ⟨0, fun _ => 0⟩ ⟨0, fun _ => 0⟩ = .ok ex := by
  obtain ⟨ex, hload, -⟩ := Preprocessor.loadTables_spec (p := smallTables) (by decide) (by decide) (by decide)
    (show ∀ rowCount ∈ [2, 3], rowCount < 4 by decide) ⟨0, fun _ => 0⟩ ⟨0, fun _ => 0⟩
  exact ⟨ex, hload⟩

theorem guards_rows_small :
    smallTables.ShapesFit smallRequest ∧ ∀ aesE aesV, (smallTables.keyed aesE aesV).GuardsRows smallRequest := by
  obtain ⟨ex, hload⟩ := smallTables_loads
  have hiff := guards_rows_iff hload (show 2 ∈ [2, 3] by decide) (by decide) rfl smallRequest_valid.toShaped
  exact ⟨smallTables_shapesFit, hiff.mpr smallTables_shapesFit⟩

/-- With `2 ^ 19` lookups a row is released that is not what the device wrote plus its pads. -/
theorem large_request_unguarded : ¬ (largeTables (keyCipher 0)).GuardsRows largeRequest := fun h =>
  largeTables_not_computesPadSums _
    (GuardsRows.computesPadSums (by decide) (by decide) rfl (largeRequest_valid (keyCipher 0)).toShaped rfl h).2.2

end Guarantees

end Pnm.Secure
