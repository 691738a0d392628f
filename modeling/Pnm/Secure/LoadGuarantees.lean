import Mathlib.Algebra.Order.BigOperators.Group.List
import Mathlib.Algebra.Order.Group.Nat
import Pnm.Secure.Preprocessor

/-!
# `Secure.LoadGuarantees` — loads end, fill their buffer and use every pad once

Two properties of whole loads. The first is about the loops: a load ends and fills exactly `encrypted_buffer_size` bytes
if and only if a row fits the batch buffer or there are no rows (`load_fills_buffer_iff`); a row of more than 2048
elements does not fit, no row is ever read, and the number of rows left stays what it is.

The second is about the blocks that are given to AES. Block `n` of row `r` is encrypted with the pad of `dataSeed r n`,
the tag of row `r` with that of `tagSeed r`. A seed is made of version, address and prefix and determines them
(`seed_inj`), and the addresses of different blocks are different as long as the running offset does not wrap.
-/

namespace Pnm.Secure

open Pnm.Lib

namespace Preprocessor

variable (p : Preprocessor)

/-! ## Termination and the size of the output -/

/-- `encrypted_buffer_size`. -/
def encryptedBufferSize : Nat :=
  (p.sparseFeatureSize * 4 + if p.includeTag then 4 * p.writer.metaWords else 0) * p.entries.sum

/-- **A load fills its buffer**: it takes the rows of the source once and in order and writes the bytes of the buffer,
    row after row with the tag slots behind them, and none behind the buffer. -/
structure FillsBuffer (out : Words) (st : LoadState) : Prop where
  inOrder : ∃ tables,
    st = (p.takeRows 0 p.entries.sum (start out)).withReader (p.entries.sum * p.sparseFeatureSize) tables
  bytes : 4 * st.outPos = p.encryptedBufferSize
  row_eq : ∀ r < p.entries.sum, ∀ e < p.stride,
    st.out (r * p.stride + e) = p.rowImage (p.rowAddress r) (p.srcRow r) e
  behind : ∀ x, p.encryptedBufferSize ≤ 4 * x → st.out x = out x

variable {p}

theorem encryptedBufferSize_eq : p.encryptedBufferSize = 4 * (p.entries.sum * p.stride) := by
  unfold encryptedBufferSize stride
  cases p.includeTag
  · simp only [Bool.false_eq_true, if_false, Nat.add_zero]
    ring
  · simp only [if_true]
    ring

/-- **A load that can make progress fills its buffer.** -/
theorem fillsBuffer_of_room (hpos : 0 < p.sparseFeatureSize) (hw : p.sparseFeatureSize % 4 = 0)
    (hroom : ∀ rowCount ∈ p.entries, rowCount = 0 ∨ 0 < p.rowsPerBatch) {fuel : Nat}
    (hfuel : ∀ rowCount ∈ p.entries, rowCount < fuel) (out : Words) :
    ∃ st, p.loadImpl fuel out = .ok st ∧ p.FillsBuffer out st := by
  have hrows := rowsWritten_takeRows hw out p.entries.sum
  refine ⟨_, loadImpl_eq_rows hpos hw hroom hfuel out, ⟨_, rfl⟩, ?_, hrows.row_eq, fun x hx => hrows.behind x ?_⟩
  · rw [encryptedBufferSize_eq, ← hrows.outPos_eq]
    rfl
  · rw [encryptedBufferSize_eq] at hx
    omega

/-- A bound on the turns that is enough for all tables. -/
theorem exists_fuel (entries : List Nat) : ∃ fuel, ∀ rowCount ∈ entries, rowCount < fuel :=
  ⟨entries.sum + 1, fun _ hmem => Nat.lt_succ_of_le (List.le_sum_of_mem hmem)⟩

/-- **A load ends and fills exactly its buffer if and only if a row fits the batch buffer or there are no rows.** -/
theorem load_fills_buffer_iff (p : Preprocessor) (hpos : 0 < p.sparseFeatureSize) (hw : p.sparseFeatureSize % 4 = 0)
    (out : Words) :
    (∃ fuel st, p.loadImpl fuel out = .ok st ∧ p.FillsBuffer out st) ↔
      p.sparseFeatureSize ≤ 2048 ∨ ∀ rowCount ∈ p.entries, rowCount = 0 := by
  constructor
  · rintro ⟨fuel, st, hload, -⟩
    by_cases hrows : ∀ rowCount ∈ p.entries, rowCount = 0
    · exact .inr hrows
    · push Not at hrows
      obtain ⟨rowCount, hmem, hne⟩ := hrows
      exact .inl (width_of_loadImpl hload hmem (Nat.pos_of_ne_zero hne)).2.2
  · intro hfits
    obtain ⟨fuel, hfuel⟩ := exists_fuel p.entries
    refine ⟨fuel, fillsBuffer_of_room hpos hw (fun rowCount hmem => ?_) hfuel out⟩
    rcases hfits with hmax | hnone
    · exact .inr (Nat.div_pos (by omega) (by omega))
    · exact .inl (hnone rowCount hmem)

/-- A preprocessor for rows of zeros, with the identity as its ciphers. -/
def zeros (entries : List Nat) (width : Nat) : Preprocessor where
  entries := entries
  sparseFeatureSize := width
  src := fun _ => 0
  writer := .memory
  includeTag := true
  encryption := { version := 0, aes := id }
  verification := { version := 0, baseAddress := 0, aes := id }

/-- Tables of two rows and one row of eight elements, which are numbered. -/
def numbered : Preprocessor := { zeros [2, 1] 8 with src := fun x => BitVec.ofNat 32 (x + 1) }

/-- Three rows of 32 bytes with their tag slots of 64 bytes are loaded, and rows of 2052 elements never. -/
theorem load_fills_buffer_iff_three :
    (∃ fuel st, numbered.loadImpl fuel (fun _ => 0) = .ok st ∧ numbered.FillsBuffer (fun _ => 0) st ∧
      4 * st.outPos = 3 * (32 + 64)) ∧
    ¬ ∃ fuel st, (zeros [2, 1] 2052).loadImpl fuel (fun _ => 0) = .ok st ∧
      (zeros [2, 1] 2052).FillsBuffer (fun _ => 0) st := by
  constructor
  · obtain ⟨fuel, st, hload, hfills⟩ :=
      (load_fills_buffer_iff numbered (by decide) (by decide) fun _ => 0).mpr (.inl (by decide))
    exact ⟨fuel, st, hload, hfills, hfills.bytes⟩
  · rw [load_fills_buffer_iff (zeros [2, 1] 2052) (by decide) (by decide)]
    decide

/-- A table with rows that do not fit the batch buffer: the loop never ends. -/
theorem loadTable_no_room {rowCount : Nat} (hcount : 0 < rowCount) (fuel : Nat) (st : LoadState) :
    p.loadTable 0 fuel rowCount st = .error .outOfFuel := by
  induction fuel generalizing st with
  | zero => rfl
  | succ fuel ih =>
      rw [loadTable, if_neg (Nat.ne_of_gt hcount), Nat.min_zero]
      exact ih _

/-- **One row of 2052 elements is never loaded**, however many turns the loop takes. -/
theorem load_wide_row_never_ends :
    (zeros [1] 2052).sparseFeatureSize % 4 = 0 ∧
    ∀ fuel, (zeros [1] 2052).loadImpl fuel (fun _ => 0) = .error .outOfFuel := by
  refine ⟨rfl, fun fuel => ?_⟩
  have hroom : (zeros [1] 2052).rowsPerBatch = 0 := rfl
  rw [loadImpl, if_neg (by decide), hroom]
  show [1].foldlM _ _ = _
  rw [List.foldlM_cons, loadTable_no_room Nat.one_pos]
  rfl

/-! ## Pads -/

variable (p)

/-- The block that the pad of block `n` of row `r` is made from. -/
def dataSeed (r n : Nat) : BitVec 128 :=
  seed 0x00 p.encryption.version (p.rowAddress r + BitVec.ofNat 64 (16 * n))

/-- The block that the pad of the tag of row `r` is made from. -/
def tagSeed (r : Nat) : BitVec 128 := seed 0x10 p.verification.version (p.rowAddress r)

/-- The block that the key of the checksum is made from. -/
def keySeed : BitVec 128 := seed 0x01 p.verification.version p.verification.baseAddress

/-- **What a load gives to AES**: block `n` of row `r` is encrypted with the pad of its seed, and the tag of row `r`,
    which is a checksum under the key of `keySeed`, with the pad of its own. -/
structure UsesSeeds (st : LoadState) : Prop where
  data : ∀ r < p.entries.sum, ∀ n < p.sparseFeatureSize / 4, ∀ j < 4,
    st.out (r * p.stride + (4 * n + j)) = p.srcRow r (4 * n + j) - wordOf (p.encryption.aes (p.dataSeed r n)) j
  tag : p.includeTag = true → ∀ r < p.entries.sum,
    blockAt st.out (r * p.stride + p.sparseFeatureSize)
      = p.verification.linearChecksum (p.srcRow r) p.sparseFeatureSize - p.verification.aes (p.tagSeed r)
  key : p.verification.checksumKey = p.verification.aes p.keySeed

variable {p}

theorem Progress.usesSeeds {st : LoadState} (h : p.Progress st p.entries.sum) : p.UsesSeeds st := by
  refine ⟨fun r hr n hn j hj => ?_, fun htag r hr => (h.stored r hr).tag htag, rfl⟩
  rw [(h.stored r hr).data _ (by omega), EncryptionEngine.padWord, Nat.mul_add_div (by decide), Nat.div_eq_of_lt hj,
    Nat.add_zero, Nat.mul_add_mod, Nat.mod_eq_of_lt hj]
  rfl

/-- The address of a block, which does not wrap. -/
theorem toNat_address (hsize : 4 * (p.entries.sum * p.sparseFeatureSize) < 2 ^ 64) {r n : Nat} (hr : r < p.entries.sum)
    (hn : 4 * n < p.sparseFeatureSize) :
    (p.rowAddress r + BitVec.ofNat 64 (16 * n)).toNat = 4 * (r * p.sparseFeatureSize + 4 * n) := by
  have hlt := row_add_lt hr hn
  rw [rowAddress, ← BitVec.ofNat_add, BitVec.toNat_ofNat, Nat.mod_eq_of_lt (by omega)]
  omega

/-- Blocks of the rows that start at the same place are the same. -/
theorem block_inj {w r r' n n' : Nat} (hn : 4 * n < w) (hn' : 4 * n' < w) (h : r * w + 4 * n = r' * w + 4 * n') :
    r = r' ∧ n = n' := by
  have hrow : r = r' := by
    by_contra hne
    have happart := row_disjoint hne hn (le_refl w)
    omega
  subst hrow
  exact ⟨rfl, by omega⟩

/-- **Different data blocks have different seeds.** -/
theorem dataSeed_inj (hsize : 4 * (p.entries.sum * p.sparseFeatureSize) < 2 ^ 64) {r r' n n' : Nat}
    (hr : r < p.entries.sum) (hr' : r' < p.entries.sum) (hn : n < p.sparseFeatureSize / 4)
    (hn' : n' < p.sparseFeatureSize / 4) (h : p.dataSeed r n = p.dataSeed r' n') : r = r' ∧ n = n' := by
  have hblock : 4 * n < p.sparseFeatureSize := by omega
  have hblock' : 4 * n' < p.sparseFeatureSize := by omega
  have haddress := congrArg BitVec.toNat (seed_inj h).2.2
  rw [toNat_address hsize hr hblock, toNat_address hsize hr' hblock'] at haddress
  exact block_inj hblock hblock' (Nat.eq_of_mul_eq_mul_left (by decide) haddress)

/-- **The tags of different rows have different seeds.** -/
theorem tagSeed_inj (hpos : 0 < p.sparseFeatureSize) (hsize : 4 * (p.entries.sum * p.sparseFeatureSize) < 2 ^ 64)
    {r r' : Nat} (hr : r < p.entries.sum) (hr' : r' < p.entries.sum) (h : p.tagSeed r = p.tagSeed r') : r = r' := by
  have hfirst : 4 * 0 < p.sparseFeatureSize := hpos
  have haddress := congrArg (fun address => (address + BitVec.ofNat 64 (16 * 0)).toNat) (seed_inj h).2.2
  simp only [toNat_address hsize hr hfirst, toNat_address hsize hr' hfirst] at haddress
  exact (block_inj hfirst hfirst (Nat.eq_of_mul_eq_mul_left (by decide) haddress)).1

/-- The key of the checksum and the tags have different seeds. -/
theorem keySeed_ne_tagSeed (r : Nat) : p.keySeed ≠ p.tagSeed r := by
  intro h
  exact absurd (seed_inj h).1 (by decide)

/-- **No pad is used twice in a load.** The blocks given to AES for the data are pairwise different, so are those for
    the tags, and the one for the key of the checksum is none of these. The seed determines version, address and
    prefix. -/
theorem pads_not_reused (p : Preprocessor) (hpos : 0 < p.sparseFeatureSize) (hw : p.sparseFeatureSize % 4 = 0)
    (hmax : p.sparseFeatureSize ≤ 2048) (hsize : 4 * (p.entries.sum * p.sparseFeatureSize) < 2 ^ 64) (out : Words) :
    (∃ fuel st, p.loadImpl fuel out = .ok st ∧ p.UsesSeeds st) ∧
    (∀ r < p.entries.sum, ∀ r' < p.entries.sum, ∀ n < p.sparseFeatureSize / 4, ∀ n' < p.sparseFeatureSize / 4,
      p.dataSeed r n = p.dataSeed r' n' → r = r' ∧ n = n') ∧
    (∀ r < p.entries.sum, ∀ r' < p.entries.sum, p.tagSeed r = p.tagSeed r' → r = r') ∧
    (∀ r < p.entries.sum, p.keySeed ≠ p.tagSeed r) ∧
    (∀ pfx pfx' version version' address address', seed pfx version address = seed pfx' version' address' →
      pfx = pfx' ∧ version = version' ∧ address = address') := by
  obtain ⟨fuel, hfuel⟩ := exists_fuel p.entries
  obtain ⟨st, hload, hprogress, -, -⟩ := loadImpl_spec hpos hw hmax hfuel out
  refine ⟨⟨fuel, st, hload, hprogress.usesSeeds⟩, ?_, ?_, fun r _ => keySeed_ne_tagSeed r, ?_⟩
  · exact fun r hr r' hr' n hn n' hn' h => dataSeed_inj hsize hr hr' hn hn' h
  · exact fun r hr r' hr' h => tagSeed_inj hpos hsize hr hr' h
  · exact fun _ _ _ _ _ _ h => seed_inj h

/-- Three rows of two blocks: the second block of a row and the first of the next, two tags, and the key. -/
theorem pads_not_reused_three :
    (∃ fuel st, numbered.loadImpl fuel (fun _ => 0) = .ok st ∧ numbered.UsesSeeds st) ∧
    numbered.dataSeed 0 1 ≠ numbered.dataSeed 1 0 ∧ numbered.dataSeed 1 1 ≠ numbered.dataSeed 2 1 ∧
    numbered.tagSeed 0 ≠ numbered.tagSeed 2 ∧ numbered.keySeed ≠ numbered.tagSeed 1 := by
  obtain ⟨hload, hdata, htags, hkey, -⟩ :=
    pads_not_reused numbered (by decide) (by decide) (by decide) (by decide) fun _ => 0
  refine ⟨hload, fun h => ?_, fun h => ?_, fun h => ?_, hkey 1 (by decide)⟩
  · exact absurd (hdata 0 (by decide) 1 (by decide) 1 (by decide) 0 (by decide) h) (by decide)
  · exact absurd (hdata 1 (by decide) 2 (by decide) 1 (by decide) 1 (by decide) h) (by decide)
  · exact absurd (htags 0 (by decide) 2 (by decide) h) (by decide)

end Preprocessor

end Pnm.Secure
