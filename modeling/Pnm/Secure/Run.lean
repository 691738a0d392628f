import Pnm.Secure.Executor

/-!
# `Secure.Run` — what a run leaves

A run returns exactly if the sums of the pads of all its rows do (`runSls_of_pads`, `pads_of_runSls`). Then `Outcome`
says what it leaves, whatever the device wrote and in whatever order the pads were summed: the rows of the
device, the tags behind them, the rows of the pad buffer and the check bytes are walked by iterators of their own, and
row `r` of each belongs to row `r` of the others.
-/

namespace Pnm.Secure

open Pnm.Lib

/-- A request with one length for each table and batch, none of them zero, and as many indices as the lengths say. -/
structure Request.Shaped (q : Request) (numTables : Nat) : Prop where
  lengths_length : q.lengths.length = numTables * q.minibatchSize
  lengths_pos : ∀ l ∈ q.lengths, 1 ≤ l
  lengths_lt : ∀ l ∈ q.lengths, l < 2 ^ 32
  indices_length : q.indices.length = q.lengths.sum

/-- The rows of a request. -/
def Request.rows (q : Request) (numTables : Nat) : Nat := q.minibatchSize * numTables

/-- The steps of the tasks are those of the rows. -/
theorem Request.Shaped.steps {q : Request} {numTables : Nat} (h : q.Shaped numTables) (hm : 0 < q.minibatchSize) :
    ∃ requests, reorderIndices numTables q = .ok requests ∧
      padRows 0 requests = .ok ((List.range (q.rows numTables)).map q.padRow) := by
  refine ⟨_, if_neg (by omega), ?_⟩
  rw [padRows_reorderLoop hm h.lengths_length h.lengths_pos h.indices_length, Request.rows, Nat.mul_comm]
  simp only [Nat.zero_add]
  rfl

/-- Row `r` looks up as many rows as its length says. -/
theorem Request.Shaped.length_lookups {q : Request} {numTables : Nat} (h : q.Shaped numTables) {r : Nat}
    (hr : r < q.rows numTables) : (q.lookups r).length = q.lengths.getD r 0 := by
  have hlt : r < q.lengths.length := by
    rw [h.lengths_length, Nat.mul_comm]
    exact hr
  have hsplit : r < (q.lengths.splitLengths q.indices).length := by rwa [List.length_splitLengths]
  rw [Request.lookups, List.getD_eq_getElem _ _ hsplit, List.getD_eq_getElem _ _ hlt]
  exact List.splitLengths_length_getElem _ _ h.indices_length.ge _ hsplit

namespace Executor

variable {ex : Executor}

/-! ## Decryption -/

section Decrypt

/-- Row `r` decrypted: what the device wrote plus the pads. -/
def decrypted (ex : Executor) (device : Words) (sums : Nat → Words) (r : Nat) : Words :=
  fun e => device (r * ex.sparseFeatureSize + e) + sums r e

/-- The tags of row `r` agree with its checksum. -/
def verified (ex : Executor) (rows : Nat) (device : Words) (sums : Nat → Words) (etags : Nat → BitVec 128)
    (r : Nat) : Bool :=
  ex.postprocessor.verification.validatePsum (ex.decrypted device sums r) ex.sparseFeatureSize
    (blockAt device (rows * ex.sparseFeatureSize + 4 * r)) (etags r)

/-- What holds after the first `n` of the rows. -/
structure Decrypted (ex : Executor) (rows : Nat) (device : Words) (checks : Nat → BitVec 8) (sums : Nat → Words)
    (etags : Nat → BitVec 128) (n : Nat) (st : DecryptState) : Prop where
  done : ∀ r < n, ∀ e < ex.sparseFeatureSize, st.psum (r * ex.sparseFeatureSize + e) = ex.decrypted device sums r e
  rest : ∀ x, n * ex.sparseFeatureSize ≤ x → st.psum x = device x
  untagged : ex.withTag = false → st.checks = checks ∧ st.status = true
  tagged : ex.withTag = true →
    (∀ r < n, st.checks r = if ex.verified rows device sums etags r then 1 else 0) ∧
    (st.status = true ↔ ∀ r < n, ex.verified rows device sums etags r = true)

theorem validatePsum_congr (v : VerificationEngine) {row row' : Words} {count : Nat} (h : ∀ e < count, row e = row' e)
    (c g : BitVec 128) : v.validatePsum row count c g = v.validatePsum row' count c g := by
  rw [VerificationEngine.validatePsum, VerificationEngine.validatePsum, v.linearChecksum_congr h]

/-- **One row of the decryption.** -/
theorem Decrypted.step {rows n : Nat} {device : Words} {checks : Nat → BitVec 8} {sums : Nat → Words}
    {etags : Nat → BitVec 128} {st : DecryptState} {epsum : Words} (hn : n < rows)
    (hholds : ex.RowHolds epsum n (sums n) (etags n)) (h : Decrypted ex rows device checks sums etags n st) :
    Decrypted ex rows device checks sums etags (n + 1) (ex.decryptRow (rows * ex.sparseFeatureSize) epsum st n) := by
  -- the row that is added, element by element
  have hrow : ∀ e < ex.sparseFeatureSize, EncryptionEngine.decryptPsum (fun e => st.psum (n * ex.sparseFeatureSize + e))
      (fun e => epsum (n * ex.augmentedRowSize + e)) e = ex.decrypted device sums n e := by
    intro e he
    show st.psum _ + epsum _ = _
    rw [h.rest _ (by omega), hholds.1 e he]
    rfl
  have hdone : ∀ r < n + 1, ∀ e < ex.sparseFeatureSize,
      splice st.psum (n * ex.sparseFeatureSize) ex.sparseFeatureSize (EncryptionEngine.decryptPsum
        (fun e => st.psum (n * ex.sparseFeatureSize + e)) (fun e => epsum (n * ex.augmentedRowSize + e)))
        (r * ex.sparseFeatureSize + e) = ex.decrypted device sums r e := by
    intro r hr e he
    by_cases hlast : r = n
    · subst hlast
      rw [splice_add he, hrow e he]
    · rw [splice_out (row_disjoint hlast he le_rfl), h.done r (by omega) e he]
  have hrest : ∀ x, (n + 1) * ex.sparseFeatureSize ≤ x →
      splice st.psum (n * ex.sparseFeatureSize) ex.sparseFeatureSize (EncryptionEngine.decryptPsum
        (fun e => st.psum (n * ex.sparseFeatureSize + e))
        (fun e => epsum (n * ex.augmentedRowSize + e))) x = device x := by
    intro x hx
    rw [Nat.succ_mul] at hx
    rw [splice_out (.inr (by omega)), h.rest x (by omega)]
  cases htag : ex.withTag with
  | false =>
      have hold := h.untagged htag
      rw [decryptRow, htag]
      refine ⟨hdone, hrest, fun _ => ⟨hold.1, ?_⟩, fun htrue => absurd (htag.symm.trans htrue) (by decide)⟩
      show (st.status && true) = true
      rw [hold.2]
      rfl
  | true =>
      obtain ⟨hchecks, hstatus⟩ := h.tagged htag
      have htags : (n + 1) * ex.sparseFeatureSize ≤ rows * ex.sparseFeatureSize :=
        Nat.mul_le_mul_right _ (by omega)
      have hgood : ex.postprocessor.verification.validatePsum (EncryptionEngine.decryptPsum
          (fun e => st.psum (n * ex.sparseFeatureSize + e)) (fun e => epsum (n * ex.augmentedRowSize + e)))
          ex.sparseFeatureSize (blockAt (splice st.psum (n * ex.sparseFeatureSize) ex.sparseFeatureSize
            (EncryptionEngine.decryptPsum (fun e => st.psum (n * ex.sparseFeatureSize + e))
              (fun e => epsum (n * ex.augmentedRowSize + e)))) (rows * ex.sparseFeatureSize + 4 * n))
          (blockAt epsum (n * ex.augmentedRowSize + ex.sparseFeatureSize))
          = ex.verified rows device sums etags n := by
        rw [validatePsum_congr _ hrow, hholds.2 htag, blockAt_congr (fun j _ => hrest _ (by omega))]
        rfl
      rw [decryptRow, htag]
      simp only [hgood, if_true]
      refine ⟨hdone, hrest, fun hfalse => absurd (htag.symm.trans hfalse) (by decide), fun _ => ⟨fun r hr => ?_, ?_⟩⟩
      · show Function.update st.checks n _ r = _
        by_cases hlast : r = n
        · subst hlast
          rw [Function.update_self]
        · rw [Function.update_of_ne hlast, hchecks r (by omega)]
      · rw [Bool.and_eq_true, hstatus]
        constructor
        · rintro ⟨hbefore, hnow⟩ r hr
          rcases Nat.lt_succ_iff_lt_or_eq.mp hr with hlt | rfl
          · exact hbefore r hlt
          · exact hnow
        · exact fun hall => ⟨fun r hr => hall r (by omega), hall n (by omega)⟩

/-- **The decryption of all rows.** -/
theorem decrypt_spec {m : Nat} {device : Words} {checks : Nat → BitVec 8} {sums : Nat → Words}
    {etags : Nat → BitVec 128} {epsum : Words}
    (hholds : ∀ r < m * ex.numTables, ex.RowHolds epsum r (sums r) (etags r)) :
    Decrypted ex (m * ex.numTables) device checks sums etags (m * ex.numTables) (ex.decrypt m epsum device checks) := by
  have hrows : ∀ n ≤ m * ex.numTables, Decrypted ex (m * ex.numTables) device checks sums etags n
      ((List.range n).foldl (ex.decryptRow (m * ex.numTables * ex.sparseFeatureSize) epsum)
        { psum := device, checks := checks, status := true }) := by
    intro n hn
    induction n with
    | zero => exact ⟨fun r hr => by omega, fun _ _ => rfl, fun _ => ⟨rfl, rfl⟩,
        fun _ => ⟨fun r hr => by omega, iff_of_true rfl fun r hr => by omega⟩⟩
    | succ n ih =>
        rw [List.range_succ, List.foldl_append]
        exact (ih (by omega)).step hn (hholds n hn)
  exact hrows _ le_rfl

end Decrypt

/-! ## The run -/

/-- Row by row, the user's buffer has the decrypted row if the check byte is set, and what it had otherwise. -/
theorem makeUserPsum_eq {userPsum : Buffer} {rows : Nat} (hpos : 0 < ex.sparseFeatureSize)
    (hsize : userPsum.size = rows * ex.sparseFeatureSize) (augmented : Words) (checks : Nat → BitVec 8) {r e : Nat}
    (hr : r < rows) (he : e < ex.sparseFeatureSize) :
    ex.makeUserPsum userPsum augmented checks (r * ex.sparseFeatureSize + e) =
      if checks r ≠ 0 then augmented (r * ex.sparseFeatureSize + e)
      else userPsum.data (r * ex.sparseFeatureSize + e) := by
  have hrows : ∀ n, ∀ r, (List.range n).foldl (fun psum r =>
      if checks r ≠ 0 then
        splice psum (r * ex.sparseFeatureSize) ex.sparseFeatureSize fun e => augmented (r * ex.sparseFeatureSize + e)
      else psum) userPsum.data (r * ex.sparseFeatureSize + e) =
      if r < n ∧ checks r ≠ 0 then augmented (r * ex.sparseFeatureSize + e)
      else userPsum.data (r * ex.sparseFeatureSize + e) := by
    intro n
    induction n with
    | zero => exact fun r => (if_neg (by omega)).symm
    | succ n ih =>
        intro r
        rw [List.range_succ, List.foldl_append, List.foldl_cons, List.foldl_nil]
        by_cases hlast : r = n
        · subst hlast
          by_cases hcheck : checks r ≠ 0
          · rw [if_pos hcheck, splice_add he, if_pos ⟨by omega, hcheck⟩]
          · rw [if_neg hcheck, ih, if_neg (fun h => hcheck h.2), if_neg (fun h => hcheck h.2)]
        · -- another row: it is as it was, and its number is below `n` if it is below `n + 1`
          have hbound : r < n + 1 ↔ r < n := ⟨fun _ => by omega, fun _ => by omega⟩
          simp only [hbound, ← ih]
          split
          · exact splice_out (row_disjoint hlast he le_rfl)
          · rfl
  rw [makeUserPsum, hsize, Nat.mul_div_cancel _ hpos, hrows]
  simp only [hr, true_and]

/-- The executor after a run has the tables it had. -/
def SameTables (ex ex' : Executor) : Prop := ∃ cpsum epsum, ex' = { ex with cpsum := cpsum, epsum := epsum }

/-- What a run leaves, given the sums of its pads. -/
structure Outcome (ex : Executor) (q : Request) (device : Words) (psum : Buffer) (sums : Nat → Words)
    (etags : Nat → BitVec 128) (res : RunResult) : Prop where
  same : ex.SameTables res.executor
  untagged : ex.withTag = false → res.status = true ∧ ∀ r < q.rows ex.numTables, ∀ e < ex.sparseFeatureSize,
    res.psum (r * ex.sparseFeatureSize + e) = ex.decrypted device sums r e
  released : ex.withTag = true → ∀ r < q.rows ex.numTables,
    ex.verified (q.rows ex.numTables) device sums etags r = true →
      res.checks r = 1 ∧ ∀ e < ex.sparseFeatureSize,
        res.psum (r * ex.sparseFeatureSize + e) = ex.decrypted device sums r e
  withheld : ex.withTag = true → ∀ r < q.rows ex.numTables,
    ex.verified (q.rows ex.numTables) device sums etags r = false →
      res.checks r = 0 ∧ ∀ e < ex.sparseFeatureSize,
        res.psum (r * ex.sparseFeatureSize + e) = psum.data (r * ex.sparseFeatureSize + e)
  status : ex.withTag = true →
    (res.status = true ↔ ∀ r < q.rows ex.numTables, ex.verified (q.rows ex.numTables) device sums etags r = true)

/-- A scheduler takes every step once, in some order. -/
def Schedules (sched : List PadRow → List PadRow) : Prop := ∀ steps, (sched steps).Perm steps

/-- A run put together from its parts. -/
theorem runSls_of_steps {q : Request} {sched : List PadRow → List PadRow} (device : Words) {psum : Buffer}
    (checks : Nat → BitVec 8) {requests : List TableRequest} {steps : List PadRow} {epsum : Words}
    (hrequests : reorderIndices ex.numTables q = .ok requests) (hsteps : padRows 0 requests = .ok steps)
    (hrun : (sched steps).foldlM ex.padStep (ex.epsum.resize
      (if ex.withTag then q.minibatchSize * ex.numTables * (ex.sparseFeatureSize + 4)
        else psum.size)).data = .ok epsum) :
    ex.runSls q sched device psum checks =
      let augmentedSize :=
        if ex.withTag then q.minibatchSize * ex.numTables * (ex.sparseFeatureSize + 4) else psum.size
      let st := ex.decrypt q.minibatchSize epsum device checks
      if ex.withTag then
        .ok { executor := { ex with epsum := ⟨augmentedSize, epsum⟩, cpsum := ⟨augmentedSize, st.psum⟩ }
              psum := ex.makeUserPsum psum st.psum st.checks, checks := st.checks, status := st.status }
      else
        .ok { executor := { ex with epsum := ⟨augmentedSize, epsum⟩ }, psum := st.psum, checks := st.checks
              status := st.status } := by
  simp only [runSls, bind, Except.bind, hrequests, hsteps, hrun]

/-- **A run whose pads are there returns.** -/
theorem runSls_of_pads {q : Request} (hq : q.Shaped ex.numTables) (hm : 0 < q.minibatchSize)
    (hpos : 0 < ex.sparseFeatureSize) {sched : List PadRow → List PadRow} (hsched : Schedules sched)
    {psum : Buffer} (hpsum : psum.size = q.rows ex.numTables * ex.sparseFeatureSize) {sums : Nat → Words}
    {etags : Nat → BitVec 128} (hpads : ∀ r < q.rows ex.numTables, ex.RowPads (q.padRow r) (sums r) (etags r))
    (device : Words) (checks : Nat → BitVec 8) :
    ∃ res, ex.runSls q sched device psum checks = .ok res ∧ Outcome ex q device psum sums etags res := by
  obtain ⟨requests, hrequests, hsteps⟩ := hq.steps hm
  have hperm := hsched ((List.range (q.rows ex.numTables)).map q.padRow)
  have hnumbers : ((List.range (q.rows ex.numTables)).map q.padRow).map PadRow.row
      = List.range (q.rows ex.numTables) := by
    rw [List.map_map]
    exact List.map_id _
  have hdistinct : ((sched ((List.range (q.rows ex.numTables)).map q.padRow)).map PadRow.row).Nodup := by
    refine (hperm.map PadRow.row).nodup_iff.mpr ?_
    rw [hnumbers]
    exact List.nodup_range
  have hmem : ∀ x ∈ sched ((List.range (q.rows ex.numTables)).map q.padRow),
      ∃ r < q.rows ex.numTables, q.padRow r = x := by
    intro x hx
    obtain ⟨r, hr, hrow⟩ := List.mem_map.mp (hperm.mem_iff.mp hx)
    exact ⟨r, List.mem_range.mp hr, hrow⟩
  have hstepPads : ∀ x ∈ sched ((List.range (q.rows ex.numTables)).map q.padRow),
      ex.RowPads x (sums x.row) (etags x.row) := by
    intro x hx
    obtain ⟨r, hr, rfl⟩ := hmem x hx
    exact hpads r hr
  obtain ⟨epsum, hrun, hrows, -⟩ := foldlM_padStep hdistinct hstepPads (ex.epsum.resize
    (if ex.withTag then q.minibatchSize * ex.numTables * (ex.sparseFeatureSize + 4) else psum.size)).data
  have hholds : ∀ r < q.minibatchSize * ex.numTables, ex.RowHolds epsum r (sums r) (etags r) := by
    intro r hr
    exact hrows (q.padRow r) (hperm.mem_iff.mpr (List.mem_map.mpr ⟨r, List.mem_range.mpr hr, rfl⟩))
  have hdecrypt : Decrypted ex (q.rows ex.numTables) device checks sums etags (q.rows ex.numTables)
      (ex.decrypt q.minibatchSize epsum device checks) := decrypt_spec hholds
  have hreturn := runSls_of_steps device checks hrequests hsteps hrun
  cases htag : ex.withTag with
  | false =>
      have hoff : ∀ {P : Prop}, ex.withTag = true → P := fun htrue => absurd (htag.symm.trans htrue) (by decide)
      exact ⟨_, hreturn.trans (if_neg (by simp [htag])), ⟨_, _, rfl⟩,
        fun _ => ⟨(hdecrypt.untagged htag).2, hdecrypt.done⟩, hoff, hoff, hoff⟩
  | true =>
      obtain ⟨hchecks, hstatus⟩ := hdecrypt.tagged htag
      refine ⟨_, hreturn.trans (if_pos htag), ⟨_, _, rfl⟩, fun hfalse => absurd (htag.symm.trans hfalse) (by decide),
        ?_, ?_, fun _ => hstatus⟩
      · intro _ r hr hgood
        have hcheck := hchecks r hr
        rw [if_pos hgood] at hcheck
        refine ⟨hcheck, fun e he => ?_⟩
        show ex.makeUserPsum psum _ _ _ = _
        rw [makeUserPsum_eq hpos hpsum _ _ hr he, hcheck, if_pos (by decide), hdecrypt.done r hr e he]
      · intro _ r hr hbad
        have hcheck := hchecks r hr
        rw [hbad, if_neg (by decide)] at hcheck
        refine ⟨hcheck, fun e he => ?_⟩
        show ex.makeUserPsum psum _ _ _ = _
        rw [makeUserPsum_eq hpos hpsum _ _ hr he, hcheck, if_neg (by decide)]

/-- **A run that returns has its pads**, and at least one batch. -/
theorem pads_of_runSls {q : Request} (hq : q.Shaped ex.numTables) {sched : List PadRow → List PadRow}
    (hsched : Schedules sched) {device : Words} {psum : Buffer} {checks : Nat → BitVec 8} {res : RunResult}
    (h : ex.runSls q sched device psum checks = .ok res) :
    0 < q.minibatchSize ∧ ∀ r < q.rows ex.numTables, ∃ sums etag, ex.RowPads (q.padRow r) sums etag := by
  obtain ⟨requests, hrequests, h⟩ := bind_eq_ok.mp h
  have hm : 0 < q.minibatchSize := by
    rw [reorderIndices] at hrequests
    split at hrequests
    · exact nomatch hrequests
    · omega
  refine ⟨hm, fun r hr => ?_⟩
  obtain ⟨requests', hrequests', hsteps'⟩ := hq.steps hm
  obtain rfl : requests' = requests := Except.ok.inj (hrequests'.symm.trans hrequests)
  obtain ⟨steps, hsteps, h⟩ := bind_eq_ok.mp h
  obtain rfl := Except.ok.inj (hsteps'.symm.trans hsteps)
  obtain ⟨epsum, hrun, -⟩ := bind_eq_ok.mp h
  exact pads_of_foldlM hrun _ ((hsched _).mem_iff.mpr (List.mem_map.mpr ⟨r, List.mem_range.mpr hr, rfl⟩))

/-- **What a run that returns leaves.** -/
theorem outcome_of_runSls {q : Request} (hq : q.Shaped ex.numTables) (hpos : 0 < ex.sparseFeatureSize)
    {sched : List PadRow → List PadRow} (hsched : Schedules sched) {device : Words} {psum : Buffer}
    (hpsum : psum.size = q.rows ex.numTables * ex.sparseFeatureSize) {checks : Nat → BitVec 8} {res : RunResult}
    (h : ex.runSls q sched device psum checks = .ok res) :
    ∃ sums etags, (∀ r < q.rows ex.numTables, ex.RowPads (q.padRow r) (sums r) (etags r)) ∧
      Outcome ex q device psum sums etags res := by
  obtain ⟨hm, hpads⟩ := pads_of_runSls hq hsched h
  choose! sums etags hpads using hpads
  obtain ⟨res', hrun, houtcome⟩ := runSls_of_pads hq hm hpos hsched hpsum hpads device checks
  obtain rfl : res' = res := Except.ok.inj (hrun.symm.trans h)
  exact ⟨sums, etags, hpads, houtcome⟩

/-- A row that is released is the decrypted row. -/
theorem Outcome.psum_eq {q : Request} {device : Words} {psum : Buffer} {sums : Nat → Words} {etags : Nat → BitVec 128}
    {res : RunResult} (h : Outcome ex q device psum sums etags res) {r : Nat} (hr : r < q.rows ex.numTables)
    (hreleased : ex.withTag = true → res.checks r ≠ 0) {e : Nat} (he : e < ex.sparseFeatureSize) :
    res.psum (r * ex.sparseFeatureSize + e) = ex.decrypted device sums r e := by
  cases htag : ex.withTag with
  | false => exact (h.untagged htag).2 r hr e he
  | true =>
      cases hgood : ex.verified (q.rows ex.numTables) device sums etags r with
      | true => exact (h.released htag r hr hgood).2 e he
      | false => exact absurd (h.withheld htag r hr hgood).1 (hreleased htag)

/-- The outcome depends on the elements of the rows only. -/
theorem Outcome.congr {q : Request} {device : Words} {psum : Buffer} {sums sums' : Nat → Words}
    {etags : Nat → BitVec 128} {res : RunResult} (h : Outcome ex q device psum sums etags res)
    (heq : ∀ r < q.rows ex.numTables, ∀ e < ex.sparseFeatureSize, sums r e = sums' r e) :
    Outcome ex q device psum sums' etags res := by
  have hrow : ∀ r < q.rows ex.numTables, ∀ e < ex.sparseFeatureSize,
      ex.decrypted device sums r e = ex.decrypted device sums' r e := by
    intro r hr e he
    rw [decrypted, decrypted, heq r hr e he]
  have hverified : ∀ r < q.rows ex.numTables, ex.verified (q.rows ex.numTables) device sums etags r
      = ex.verified (q.rows ex.numTables) device sums' etags r := fun r hr => validatePsum_congr _ (hrow r hr) _ _
  refine ⟨h.same, fun htag => ⟨(h.untagged htag).1, fun r hr e he => ?_⟩, fun htag r hr hgood => ?_,
    fun htag r hr hbad => ?_, fun htag => ?_⟩
  · rw [(h.untagged htag).2 r hr e he, hrow r hr e he]
  · obtain ⟨hcheck, hdata⟩ := h.released htag r hr ((hverified r hr).trans hgood)
    exact ⟨hcheck, fun e he => by rw [hdata e he, hrow r hr e he]⟩
  · exact h.withheld htag r hr ((hverified r hr).trans hbad)
  · rw [h.status htag]
    exact forall₂_congr fun r hr => by rw [hverified r hr]

end Executor

end Pnm.Secure
