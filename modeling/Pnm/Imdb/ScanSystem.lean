import Pnm.Imdb.Progress
import Pnm.Imdb.ScanMemory

/-!
# `Imdb.ScanSystem` — hosts and workers on shared device memory

The handshake of `Imdb.Handshake` with what it leaves open: a worker scans block by block in the memory that it shares
with all others, between its accesses to `IMDB_COM_STATUS` and to its registers (`SimulatorCore::worker_job`). Steps of
hosts, of workers and stores of the users to the device memory come in any order. `THREAD_ERROR`, which nobody reads, is
left out.

A user keeps off the input and the result of a running operation, and a new operation off those of the others
(`Promised`). Then a worker has the memory that it reads to itself: what a scan has stored so far is always right
(`ThreadOk`), and so is a result until its call has returned.
-/

namespace Pnm.Imdb

open Pnm.Lib

/-- `topo().NumOfThreads`. -/
def numOfThreads : Nat := 3

/-- What a worker has done since its last step of the handshake: nothing, the update of `IMDB_COM_STATUS`, or a part of
    a scan with the registers that it has read. -/
inductive WorkerPart where
  | none
  | marked
  | scan (regs : Registers) (i base count : Nat)

/-- `set_imdb_com_status`. -/
def setImdbComStatus (t : Nat) (idle : Bool) (reg : BitVec 32) : BitVec 32 :=
  let mask := 1#32 <<< t
  if idle then reg ||| mask else reg &&& ~~~ mask

structure ScanState where
  shake : HandshakeState
  parts : Nat → WorkerPart
  mem : Mem
  comStatus : BitVec 32

/-- `store` is a user's store to the device memory. -/
inductive ScanEvent where
  | call (h t : Nat) (op : ScanOperation)
  | host (h : Nat)
  | worker (t : Nat) (startTime doneTime : BitVec 32)
  | store (a : Nat) (v : BitVec 8)

/-- A step of a host or of a worker. -/
def ScanEvent.isStep : ScanEvent → Bool
  | host _ | worker _ _ _ => true
  | _                     => false

namespace ScanState

/-- The constructor: all threads are idle. -/
def init (mem : Mem) : ScanState :=
  { shake := .init, parts := fun _ => .none, mem := mem, comStatus := (1#32 <<< numOfThreads) - 1 }

variable (s : ScanState)

/-- A step of the handshake by the worker of `t`. -/
def workerShake (t : Nat) (result : ScanResult) : Option ScanState :=
  (s.shake.next (.worker t result)).map fun shake => { s with shake, parts := Function.update s.parts t .none }

/-- A step of the worker of `t`. -/
def workerNext (t : Nat) (startTime doneTime : BitVec 32) : Option ScanState :=
  let regs := (s.shake.threads t).regs
  match (s.shake.threads t).worker, s.parts t with
  | .busying, .none =>
      some { s with
        comStatus := setImdbComStatus t false s.comStatus
        parts := Function.update s.parts t .marked }
  | .scanning, .scan regs i base count =>
      if i < regs.params.sizeSb.toNat then
        (scanBlock regs s.mem i base count).map fun r =>
          { s with
            mem := r.2
            parts := Function.update s.parts t (.scan regs (i + 8) (base + regs.csr.bitSize) (count + r.1)) }
      else s.workerShake t ⟨ScanOperation.reportedSize regs count, startTime, doneTime⟩
  | .scanning, _ => some { s with parts := Function.update s.parts t (.scan regs 0 0 0) }
  | .publishing, .none =>
      some { s with
        comStatus := setImdbComStatus t true s.comStatus
        parts := Function.update s.parts t .marked }
  | _, _ => s.workerShake t regs.result

/-- One event. -/
def next : ScanEvent → Option ScanState
  | .call h t op => (s.shake.next (.call h t op)).map fun shake => { s with shake }
  | .host h => (s.shake.next (.host h)).map fun shake => { s with shake }
  | .worker t startTime doneTime => s.workerNext t startTime doneTime
  | .store a v => some { s with mem := Function.update s.mem a v }

end ScanState

/-! ## Operations that run -/

/-- The last operation that was called. -/
def lastCall : List HandshakeEntry → Option ScanOperation
  | .called _ op :: _ => some op
  | _ :: log          => lastCall log
  | []                => none

/-- The result of the last call, once it has been scanned. -/
def lastResult : List HandshakeEntry → Option ScanResult
  | .scanned _ result :: _ => some result
  | .read _ _ :: log       => lastResult log
  | _                      => none

/-- An operation runs on a device thread from its call until the call returns. -/
def DeviceThread.Runs (d : DeviceThread) (op : ScanOperation) : Prop := d.owner ≠ none ∧ lastCall d.log = some op

/-- Neither operation writes what the other reads or writes. -/
def ScanOperation.Apart (op op' : ScanOperation) : Prop :=
  ∀ a, (op.Writes a → ¬ op'.Reads a ∧ ¬ op'.Writes a) ∧ (op'.Writes a → ¬ op.Reads a ∧ ¬ op.Writes a)

theorem ScanOperation.Apart.symm {op op' : ScanOperation} (h : op.Apart op') : op'.Apart op :=
  fun a => ⟨(h a).2, (h a).1⟩

/-- **What users promise.** -/
def ScanState.Promised (s : ScanState) : ScanEvent → Prop
  | .call _ _ op => op.Promise s.mem ∧ ∀ t op', (s.shake.threads t).Runs op' → op.Apart op'
  | .store a _   => ∀ t op, (s.shake.threads t).Runs op → ¬ op.Reads a ∧ ¬ op.Writes a
  | _            => True

/-! ## One device thread -/

/-- What a part of a worker's step stands for. -/
def PartOk (d : DeviceThread) (mem : Mem) : WorkerPart → Prop
  | .none => True
  | .marked => d.worker = .busying ∨ d.worker = .publishing
  | .scan regs i base count => d.worker = .scanning ∧ ∀ op, d.Runs op → regs.WrittenBy op ∧
      ∃ b, i = 8 * b ∧ base = b * op.bitCompression.toNat ∧ i ≤ op.lanes ∧ op.Progress mem b count

/-- **A device thread is good**: its operation is promised, the stored part of its result is right, and so is the
    whole result after the scan. -/
structure ThreadOk (d : DeviceThread) (part : WorkerPart) (mem : Mem) : Prop where
  promise : ∀ op, d.Runs op → op.Promise mem
  part : PartOk d mem part
  result : ∀ op r, d.Runs op → lastResult d.log = some r → op.Correct mem r

section Thread

variable {d d' : DeviceThread} {part : WorkerPart} {mem mem' : Mem} {h : Nat} {place place' : HostPlace}

/-- **Locality.** What does not touch the running operation does not matter. -/
theorem ThreadOk.congr (hok : ThreadOk d part mem)
    (hsame : ∀ op, d.Runs op → ∀ a, op.Reads a ∨ op.Writes a → mem' a = mem a) : ThreadOk d part mem' := by
  have hreads : ∀ op, d.Runs op → ∀ a, op.Reads a → mem' a = mem a := fun op hop a ha => hsame op hop a (.inl ha)
  have hwrites : ∀ op, d.Runs op → ∀ a, op.Writes a → mem' a = mem a := fun op hop a ha => hsame op hop a (.inr ha)
  refine ⟨fun op hop => (hok.promise op hop).congr (hreads op hop), ?_, fun op r hop hr => ?_⟩
  · cases part with
    | none => trivial
    | marked => exact hok.part
    | scan regs i base count =>
        refine ⟨hok.part.1, fun op hop => ?_⟩
        obtain ⟨hwritten, b, rfl, hbase, hle, hprog⟩ := hok.part.2 op hop
        exact ⟨hwritten, b, rfl, hbase, hle, hprog.congr (hwrites op hop) (hreads op hop) (hok.promise op hop) hle⟩
  · exact (hok.result op r hop hr).congr (hwrites op hop) (hreads op hop) (hok.promise op hop)

/-- The operation and its result are as before. -/
theorem ThreadOk.of_log (hok : ThreadOk d part mem) (hruns : ∀ op, d'.Runs op → d.Runs op)
    (hresult : lastResult d'.log = lastResult d.log) {part' : WorkerPart} (hpart : PartOk d' mem part') :
    ThreadOk d' part' mem :=
  ⟨fun op hop => hok.promise op (hruns op hop), hpart, fun op r hop hr => hok.result op r (hruns op hop) (hresult ▸ hr)⟩

/-- A step of the host leaves a worker alone that is enabled. -/
theorem hostStep_frame (hagree : Agree h d place) (hstep : hostStep h d place = some (place', d')) :
    (∀ op, d'.Runs op → d.Runs op) ∧ lastCall d'.log = lastCall d.log ∧ lastResult d'.log = lastResult d.log ∧
      (d'.worker = d.worker ∨ (d.worker = .disabled ∧ d'.worker = .queued) ∨
        (d.worker = .exited ∧ d'.worker = .disabled)) := by
  cases place with
  | user => exact hagree.elim
  | enabling t op =>
      rw [hostStep] at hstep
      split at hstep
      · obtain ⟨-, rfl⟩ := Prod.mk.inj (Option.some.inj hstep)
        exact ⟨fun _ hop => hop, rfl, rfl, .inl rfl⟩
      · obtain ⟨-, rfl⟩ := Prod.mk.inj (Option.some.inj hstep)
        exact ⟨fun _ hop => hop, rfl, rfl, .inl rfl⟩
  | spawning t op =>
      obtain ⟨-, rfl⟩ := Prod.mk.inj (Option.some.inj hstep)
      exact ⟨fun _ hop => hop, rfl, rfl, .inr (.inl ⟨hagree.1, rfl⟩)⟩
  | writing t op writes =>
      cases writes with
      | nil | cons w ws =>
          obtain ⟨-, rfl⟩ := Prod.mk.inj (Option.some.inj hstep)
          exact ⟨fun _ hop => hop, rfl, rfl, .inl rfl⟩
  | marking t op | loading t op | starting t op control =>
      obtain ⟨-, rfl⟩ := Prod.mk.inj (Option.some.inj hstep)
      exact ⟨fun _ hop => hop, rfl, rfl, .inl rfl⟩
  | waiting t op =>
      rw [hostStep] at hstep
      split at hstep
      · obtain ⟨-, rfl⟩ := Prod.mk.inj (Option.some.inj hstep)
        exact ⟨fun _ hop => hop, rfl, rfl, .inl rfl⟩
      · obtain ⟨-, rfl⟩ := Prod.mk.inj (Option.some.inj hstep)
        exact ⟨fun _ hop => hop, rfl, rfl, .inl rfl⟩
  | reading t op =>
      obtain ⟨-, rfl⟩ := Prod.mk.inj (Option.some.inj hstep)
      exact ⟨fun _ hop => hop, rfl, rfl, .inl rfl⟩
  | stopping t =>
      rw [hostStep] at hstep
      split at hstep
      · obtain ⟨-, rfl⟩ := Prod.mk.inj (Option.some.inj hstep)
        exact ⟨fun _ hop => hop, rfl, rfl, .inl rfl⟩
      · obtain ⟨-, rfl⟩ := Prod.mk.inj (Option.some.inj hstep)
        exact ⟨fun _ hop => hop, rfl, rfl, .inl rfl⟩
  | joining t =>
      rw [hostStep] at hstep
      split at hstep
      · rename_i hexited
        obtain ⟨-, rfl⟩ := Prod.mk.inj (Option.some.inj hstep)
        exact ⟨fun _ hop => hop, rfl, rfl, .inr (.inr ⟨hexited, rfl⟩)⟩
      · cases hstep
  | releasing t =>
      obtain ⟨-, rfl⟩ := Prod.mk.inj (Option.some.inj hstep)
      exact ⟨fun _ hop => absurd rfl hop.1, rfl, rfl, .inl rfl⟩
  | thrown t => exact hagree.elim

/-- A worker that is not enabled is between two steps of the handshake. -/
theorem PartOk.none_of_worker (h : PartOk d mem part) (hw : d.worker ≠ .busying) (hs : d.worker ≠ .scanning)
    (hp : d.worker ≠ .publishing) : part = .none := by
  cases part with
  | none => rfl
  | marked => exact absurd h (by simp [PartOk, hw, hp])
  | scan regs i base count => exact absurd h.1 hs

theorem ThreadOk.hostStep (hok : ThreadOk d part mem) (hagree : Agree h d place)
    (hstep : hostStep h d place = some (place', d')) : ThreadOk d' part mem := by
  obtain ⟨hruns, -, hresult, hworker⟩ := hostStep_frame hagree hstep
  refine hok.of_log hruns hresult ?_
  rcases hworker with hw | ⟨hold, -⟩ | ⟨hold, -⟩
  · cases hpart : part with
    | none => trivial
    | marked =>
        have := hok.part
        rw [hpart] at this
        rw [PartOk, hw]
        exact this
    | scan regs i base count =>
        have := hok.part
        rw [hpart] at this
        exact ⟨hw.trans this.1, fun op hop => this.2 op (hruns op hop)⟩
  · rw [hok.part.none_of_worker (by simp [hold]) (by simp [hold]) (by simp [hold])]
    trivial
  · rw [hok.part.none_of_worker (by simp [hold]) (by simp [hold]) (by simp [hold])]
    trivial

/-- Outside a scan a worker's step changes neither the owner nor the log. -/
theorem workerStep_frame {result : ScanResult} (hstep : workerStep d result = some d') :
    d'.owner = d.owner ∧ (d.worker ≠ .scanning → d'.log = d.log) ∧
      (d.worker = .scanning → d'.log = .scanned d.regs result :: d.log ∧ d'.worker = .clearing) := by
  unfold workerStep at hstep
  split at hstep
  case h_1 | h_9 => cases hstep
  case h_6 hw =>
    obtain rfl := Option.some.inj hstep
    exact ⟨rfl, fun hne => absurd hw hne, fun _ => ⟨rfl, rfl⟩⟩
  all_goals
    rename_i hw
    obtain rfl := Option.some.inj hstep
    exact ⟨rfl, fun _ => rfl, fun hs => absurd (hw.symm.trans hs) nofun⟩

theorem ThreadOk.workerStep (hok : ThreadOk d part mem) {result : ScanResult}
    (hstep : workerStep d result = some d') (hw : d.worker ≠ .scanning) : ThreadOk d' .none mem := by
  obtain ⟨howner, hlog, -⟩ := workerStep_frame hstep
  refine hok.of_log (fun op hop => ?_) (congrArg lastResult (hlog hw)) trivial
  rw [DeviceThread.Runs, howner, hlog hw] at hop
  exact hop

/-- The operation of a worker that scans. -/
theorem runs_of_scanning (hagree : Agree h d place) (howner : d.owner = some h) (hw : d.worker = .scanning) :
    ∃ t op, place = .waiting t op ∧ d.Runs op ∧ d.regs.WrittenBy op := by
  obtain ⟨t, op, hplace, ⟨old, -, hlog⟩, hwritten⟩ := HandshakeState.waiting_of_picked hagree (.inr hw)
  refine ⟨t, op, hplace, ⟨?_, ?_⟩, hwritten⟩
  · rw [howner]
    nofun
  · rw [hlog]
    rfl

theorem DeviceThread.Runs.unique {op op' : ScanOperation} (h : d.Runs op) (h' : d.Runs op') : op = op' :=
  Option.some.inj (h.2.symm.trans h'.2)

/-- **The start of a scan.** -/
theorem ThreadOk.start (hok : ThreadOk d part mem) (hagree : Agree h d place) (howner : d.owner = some h)
    (hw : d.worker = .scanning) : ThreadOk d (.scan d.regs 0 0 0) mem := by
  obtain ⟨t, op, -, hruns, hwritten⟩ := runs_of_scanning hagree howner hw
  refine ⟨hok.promise, ⟨hw, fun op' hop' => ?_⟩, hok.result⟩
  obtain rfl := hruns.unique hop'
  exact ⟨hwritten, 0, rfl, (Nat.zero_mul _).symm, Nat.zero_le _, op.progress_zero mem⟩

/-- **One more block**, if the scan has not reached the end: only bytes of the result change. -/
theorem ThreadOk.block {regs : Registers} {i base count : Nat} (hok : ThreadOk d (.scan regs i base count) mem)
    {op : ScanOperation} (hruns : d.Runs op) (hlog : lastResult d.log = none) (hi : i < regs.params.sizeSb.toNat) :
    ∃ stored mem', scanBlock regs mem i base count = some (stored, mem') ∧
      (∀ a, mem' a ≠ mem a → op.Writes a) ∧
      ThreadOk d (.scan regs (i + 8) (base + regs.csr.bitSize) (count + stored)) mem' := by
  have hpromise := hok.promise op hruns
  obtain ⟨hw, hscan⟩ := hok.part
  obtain ⟨hwritten, b, rfl, rfl, hle, hprog⟩ := hscan op hruns
  have hsize : regs.params.sizeSb = op.elementsCount := by
    rw [hwritten.1]
    rfl
  rw [hsize] at hi
  obtain ⟨stored, mem', hblock, hframe, hnext⟩ := hpromise.scanBlock hwritten hi hprog
  refine ⟨stored, mem', hblock, hframe, fun op' hop' => ?_, ⟨hw, fun op' hop' => ?_⟩, fun _ _ _ hr => ?_⟩
  · obtain rfl := hruns.unique hop'
    refine hpromise.congr fun a hread => ?_
    by_contra hne
    exact hpromise.separate a (hframe a hne) hread
  · obtain rfl := hruns.unique hop'
    have hbits : regs.csr.bitSize = op.bitCompression.toNat :=
      congrArg BitCompressed.valueBits (ScanOperation.columnView_of_written hwritten hpromise.bits.2 mem)
    refine ⟨hwritten, b + 1, rfl, ?_, ?_, hnext⟩
    · rw [hbits, Nat.succ_mul]
    · unfold ScanOperation.lanes
      omega
  · rw [hlog] at hr
    cases hr

/-- **The end of a scan**: the result is right. -/
theorem ThreadOk.finish {regs : Registers} {i base count : Nat} (hok : ThreadOk d (.scan regs i base count) mem)
    {op : ScanOperation} (hruns : d.Runs op) (hi : ¬ i < regs.params.sizeSb.toNat) {result : ScanResult}
    (hsize : result.resSizeSb = ScanOperation.reportedSize regs count) (hstep : Imdb.workerStep d result = some d') :
    ThreadOk d' .none mem := by
  obtain ⟨hw, hscan⟩ := hok.part
  obtain ⟨howner, -, hlog⟩ := workerStep_frame hstep
  obtain ⟨hlog, -⟩ := hlog hw
  have hruns' : ∀ op', d'.Runs op' → d.Runs op' := by
    intro op' hop'
    rw [DeviceThread.Runs, howner, hlog] at hop'
    exact hop'
  refine ⟨fun op' hop' => hok.promise op' (hruns' op' hop'), trivial, fun op' r hop' hr => ?_⟩
  obtain rfl := hruns.unique (hruns' op' hop')
  obtain ⟨hwritten, b, rfl, -, hle, hprog⟩ := hscan op hruns
  rw [hlog] at hr
  obtain rfl := Option.some.inj hr
  refine hprog.correct (hok.promise op hruns) ?_ hwritten hsize
  have hcount : regs.params.sizeSb = op.elementsCount := by
    rw [hwritten.1]
    rfl
  rw [hcount] at hi
  unfold ScanOperation.lanes at hle ⊢
  omega

end Thread

/-! ## `IMDB_COM_STATUS` -/

/-- The worker has marked itself as working. -/
def works : WorkerPlace → WorkerPart → Bool
  | .busying, .marked  => true
  | .scanning, _       => true
  | .clearing, _       => true
  | .publishing, .none => true
  | _, _               => false

/-- Every thread has its own bit. -/
theorem getLsbD_setImdbComStatus (t : Nat) (idle : Bool) (reg : BitVec 32) {u : Nat} (hu : u < 32) :
    (setImdbComStatus t idle reg).getLsbD u = if u = t then idle else reg.getLsbD u := by
  have hmask : (1#32 <<< t).getLsbD u = decide (u = t) := by
    rw [BitVec.getLsbD_shiftLeft, BitVec.getLsbD_one, Bool.eq_iff_iff]
    simp only [Bool.and_eq_true, decide_eq_true_eq, Bool.not_eq_true', decide_eq_false_iff_not]
    omega
  unfold setImdbComStatus
  cases idle with
  | true =>
      rw [if_pos rfl, BitVec.getLsbD_or, hmask]
      by_cases h : u = t <;> simp [h]
  | false =>
      rw [if_neg (by decide), BitVec.getLsbD_and, BitVec.getLsbD_not, hmask]
      by_cases h : u = t <;> simp [h, hu]

/-- A step of the handshake is not seen in the register. -/
theorem works_workerStep {d d' : DeviceThread} {mem : Mem} {part : WorkerPart} (hpart : PartOk d mem part)
    (hbusy : d.worker = .busying → part ≠ .none) (hpub : d.worker = .publishing → part ≠ .none) {result : ScanResult}
    (hstep : workerStep d result = some d') : works d'.worker .none = works d.worker part := by
  have hmarked : d.worker = .busying ∨ d.worker = .publishing → part = .marked := by
    intro hw
    cases part with
    | none => exact (hw.elim hbusy hpub rfl).elim
    | marked => rfl
    | scan regs i base count => rcases hw with hw | hw <;> exact absurd (hpart.1.symm.trans hw) nofun
  have hquiet : d.worker = .queued ∨ d.worker = .top ∨ d.worker = .polling → part = .none := by
    intro hw
    refine hpart.none_of_worker ?_ ?_ ?_ <;> rintro hne <;> simp [hne] at hw
  unfold workerStep at hstep
  cases hw : d.worker with
  | disabled | exited =>
      rw [hw] at hstep
      cases hstep
  | queued =>
      rw [hw] at hstep
      obtain rfl := Option.some.inj hstep
      rw [hquiet (.inl hw)]
      rfl
  | top =>
      rw [hw] at hstep
      obtain rfl := Option.some.inj hstep
      rw [hquiet (.inr (.inl hw))]
      dsimp only
      split <;> rfl
  | polling =>
      rw [hw] at hstep
      obtain rfl := Option.some.inj hstep
      rw [hquiet (.inr (.inr hw))]
      dsimp only
      split <;> rfl
  | busying =>
      rw [hw] at hstep
      obtain rfl := Option.some.inj hstep
      rw [hmarked (.inl hw)]
      rfl
  | scanning | clearing =>
      rw [hw] at hstep
      obtain rfl := Option.some.inj hstep
      rfl
  | publishing =>
      rw [hw] at hstep
      obtain rfl := Option.some.inj hstep
      rw [hmarked (.inr hw)]
      rfl

/-! ## The invariant -/

/-- Host `h` has read the result of its call. -/
def Returned (h : Nat) (d : DeviceThread) : Prop :=
  ∃ op regs r old, d.log = .read h r :: .scanned regs r :: .called h op :: old

/-- The host has read the result and is on its way back. -/
def HostPlace.returning : HostPlace → Bool
  | stopping _ | joining _ | releasing _ => true
  | _                                    => false

namespace ScanState

variable {s s' : ScanState}

/-- A thread that runs nothing new, among the others. -/
theorem runs_of_update {threads : Nat → DeviceThread} {t : Nat} {d : DeviceThread}
    (h : ∀ op, d.Runs op → (threads t).Runs op) (u : Nat) (op : ScanOperation)
    (hop : (Function.update threads t d u).Runs op) : (threads u).Runs op := by
  by_cases hut : u = t
  · subst hut
    rw [Function.update_self] at hop
    exact h op hop
  · rwa [Function.update_of_ne hut] at hop

/-- **The invariant.** -/
structure Inv (s : ScanState) : Prop where
  shake : s.shake.Inv
  thread : ∀ t, ThreadOk (s.shake.threads t) (s.parts t) s.mem
  apart : ∀ t u op op', t ≠ u → (s.shake.threads t).Runs op → (s.shake.threads u).Runs op' → op.Apart op'
  com : ∀ t < numOfThreads, s.comStatus.getLsbD t = !works (s.shake.threads t).worker (s.parts t)
  returned : ∀ h t, (s.shake.hosts h).thread = some t → (s.shake.hosts h).returning → Returned h (s.shake.threads t)

theorem inv_init (mem : Mem) : Inv (init mem) where
  shake := HandshakeState.inv_init
  thread := fun _ => ⟨fun _ hop => absurd rfl hop.1, trivial, fun _ _ hop => absurd rfl hop.1⟩
  apart := fun _ _ _ _ _ hop => absurd rfl hop.1
  com := by
    show ∀ t < 3, ((1#32 <<< 3) - 1).getLsbD t = true
    decide
  returned := by
    intro _ _ h
    cases h

/-- **Frame rule.** A worker may change its device thread, its part and the result of its operation. -/
theorem Inv.update (h : s.Inv) {t : Nat} {d : DeviceThread} {part : WorkerPart} {mem : Mem} {com : BitVec 32}
    (hshake : HandshakeState.Inv { s.shake with threads := Function.update s.shake.threads t d })
    (hthread : ThreadOk d part mem) (hruns : ∀ op, d.Runs op → (s.shake.threads t).Runs op)
    (hmem : ∀ u op, u ≠ t → (s.shake.threads u).Runs op → ∀ a, op.Reads a ∨ op.Writes a → mem a = s.mem a)
    (hcom : ∀ u < numOfThreads, com.getLsbD u = if u = t then !works d.worker part else s.comStatus.getLsbD u)
    (hret : ∀ g, Returned g (s.shake.threads t) → Returned g d) :
    Inv { shake := { s.shake with threads := Function.update s.shake.threads t d }
          parts := Function.update s.parts t part, mem := mem, comStatus := com } := by
  have hruns' := runs_of_update hruns
  refine ⟨hshake, fun u => ?_, fun u v op op' huv hop hop' => ?_, fun u hu => ?_, fun g u hg hret' => ?_⟩
  · dsimp only
    by_cases hut : u = t
    · subst hut
      rw [Function.update_self, Function.update_self]
      exact hthread
    · rw [Function.update_of_ne hut, Function.update_of_ne hut]
      exact (h.thread u).congr fun op hop => hmem u op hut hop
  · exact h.apart u v op op' huv (hruns' u op hop) (hruns' v op' hop')
  · dsimp only
    rw [hcom u hu]
    by_cases hut : u = t
    · subst hut
      rw [if_pos rfl, Function.update_self, Function.update_self]
    · rw [if_neg hut, Function.update_of_ne hut, Function.update_of_ne hut]
      exact h.com u hu
  · have hold := h.returned g u hg hret'
    dsimp only
    by_cases hut : u = t
    · subst hut
      rw [Function.update_self]
      exact hret g hold
    · rw [Function.update_of_ne hut]
      exact hold

/-- The owner of a worker that is enabled. -/
theorem Inv.owner (h : s.Inv) {t : Nat} (hw : (s.shake.threads t).worker ≠ .disabled) :
    ∃ g, (s.shake.threads t).owner = some g ∧ Agree g (s.shake.threads t) (s.shake.hosts g) := by
  cases howner : (s.shake.threads t).owner with
  | none => exact absurd (h.shake.free t howner).disabled hw
  | some g => exact ⟨g, rfl, (h.shake.locked t g howner).2⟩

/-- A worker that scans has a call without a result. -/
theorem Inv.scanning (h : s.Inv) {t : Nat} (hw : (s.shake.threads t).worker = .scanning) :
    ∃ g op old, Agree g (s.shake.threads t) (s.shake.hosts g) ∧ (s.shake.threads t).owner = some g ∧
      (s.shake.threads t).Runs op ∧ (s.shake.threads t).log = .called g op :: old := by
  obtain ⟨g, howner, hagree⟩ := h.owner (t := t) (by simp [hw])
  obtain ⟨-, op, -, ⟨old, -, hlog⟩, -⟩ := HandshakeState.waiting_of_picked hagree (.inr hw)
  refine ⟨g, op, old, hagree, howner, ⟨?_, ?_⟩, hlog⟩
  · rw [howner]
    nofun
  · rw [hlog]
    rfl

/-- The register is as before. -/
theorem Inv.com_same (h : s.Inv) {t : Nat} {d : DeviceThread} {part : WorkerPart}
    (hworks : works d.worker part = works (s.shake.threads t).worker (s.parts t)) :
    ∀ u < numOfThreads, s.comStatus.getLsbD u = if u = t then !works d.worker part else s.comStatus.getLsbD u := by
  intro u hu
  by_cases hut : u = t
  · subst hut
    rw [if_pos rfl, hworks]
    exact h.com u hu
  · rw [if_neg hut]

/-- A worker changes only its part. -/
theorem Inv.update_part (h : s.Inv) {t : Nat} {part : WorkerPart} {mem : Mem} {com : BitVec 32}
    (hthread : ThreadOk (s.shake.threads t) part mem)
    (hmem : ∀ u op, u ≠ t → (s.shake.threads u).Runs op → ∀ a, op.Reads a ∨ op.Writes a → mem a = s.mem a)
    (hcom : ∀ u < numOfThreads,
      com.getLsbD u = if u = t then !works (s.shake.threads t).worker part else s.comStatus.getLsbD u) :
    Inv ⟨s.shake, Function.update s.parts t part, mem, com⟩ := by
  have hsame : ({ s.shake with threads := Function.update s.shake.threads t (s.shake.threads t) } : HandshakeState)
      = s.shake := by
    rw [Function.update_eq_self]
  have hnext := h.update (d := s.shake.threads t) (hsame.symm ▸ h.shake) hthread (fun _ hop => hop) hmem hcom
    (fun _ hret => hret)
  rwa [hsame] at hnext

/-- A worker makes a step of the handshake. -/
theorem Inv.workerShake (h : s.Inv) {t : Nat} {result : ScanResult} (hstep : s.workerShake t result = some s')
    (hthread : ∀ d, workerStep (s.shake.threads t) result = some d → ThreadOk d .none s.mem)
    (hbusy : (s.shake.threads t).worker = .busying → s.parts t ≠ .none)
    (hpub : (s.shake.threads t).worker = .publishing → s.parts t ≠ .none) : s'.Inv := by
  obtain ⟨shake, hnext, rfl⟩ := Option.map_eq_some_iff.mp hstep
  have hinv := h.shake.next hnext
  obtain ⟨d, hd, rfl⟩ := Option.map_eq_some_iff.mp hnext
  obtain ⟨howner, hlog, hscanned⟩ := workerStep_frame hd
  have hworks := works_workerStep (h.thread t).part hbusy hpub hd
  refine h.update hinv (hthread d hd) (fun op hop => ?_) (fun _ _ _ _ _ _ => rfl) (h.com_same hworks) fun g hret => ?_
  · by_cases hw : (s.shake.threads t).worker = .scanning
    · rw [DeviceThread.Runs, howner, (hscanned hw).1] at hop
      exact hop
    · rw [DeviceThread.Runs, howner, hlog hw] at hop
      exact hop
  · by_cases hw : (s.shake.threads t).worker = .scanning
    · -- a worker that scans has not answered its call
      obtain ⟨_, _, _, _, _, _, hcalled⟩ := h.scanning hw
      obtain ⟨op, regs, r, old, hread⟩ := hret
      rw [hcalled] at hread
      cases hread
    · rw [Returned, hlog hw]
      exact hret

/-- **A step of a worker.** -/
theorem Inv.workerNext (h : s.Inv) {t : Nat} {startTime doneTime : BitVec 32}
    (hstep : s.workerNext t startTime doneTime = some s') : s'.Inv := by
  have hok := h.thread t
  unfold ScanState.workerNext at hstep
  dsimp only at hstep
  split at hstep
  · -- `IMDB_COM_STATUS` is cleared
    rename_i hw hpart
    obtain rfl := Option.some.inj hstep
    refine h.update_part ⟨hok.promise, .inl hw, hok.result⟩ (fun _ _ _ _ _ _ => rfl) fun u hu => ?_
    rw [getLsbD_setImdbComStatus t false s.comStatus (Nat.lt_trans hu (by decide)), hw]
    rfl
  · rename_i regs i base count hw hpart
    rw [hpart] at hok
    obtain ⟨g, op, old, hagree, howner, hruns, hlog⟩ := h.scanning hw
    split at hstep
    · -- a block
      rename_i hi
      have hnone : lastResult (s.shake.threads t).log = none := by
        rw [hlog]
        rfl
      obtain ⟨stored, mem, hblock, hframe, hnext⟩ := hok.block hruns hnone hi
      rw [hblock, Option.map_some] at hstep
      obtain rfl := Option.some.inj hstep
      refine h.update_part hnext (fun u op' hut hop' a ha => ?_) (h.com_same ?_)
      · by_contra hne
        have hapart := (h.apart u t op' op hut hop' hruns a).2 (hframe a hne)
        exact ha.elim hapart.1 hapart.2
      · rw [hw]
        rfl
    · -- the end of the scan
      rename_i hi
      exact h.workerShake hstep (fun d hd => hok.finish hruns hi rfl hd) (fun hb => absurd (hw.symm.trans hb) nofun)
        (fun hp => absurd (hw.symm.trans hp) nofun)
  · rename_i hw _
    obtain ⟨g, op, old, hagree, howner, -⟩ := h.scanning hw
    obtain rfl := Option.some.inj hstep
    refine h.update_part (hok.start hagree howner hw) (fun _ _ _ _ _ _ => rfl) (h.com_same ?_)
    rw [hw]
    rfl
  · -- `IMDB_COM_STATUS` is set
    rename_i hw hpart
    obtain rfl := Option.some.inj hstep
    refine h.update_part ⟨hok.promise, .inr hw, hok.result⟩ (fun _ _ _ _ _ _ => rfl) fun u hu => ?_
    rw [getLsbD_setImdbComStatus t true s.comStatus (Nat.lt_trans hu (by decide)), hw]
    rfl
  · rename_i hscan hbusy _ hpub
    exact h.workerShake hstep (fun d hd => hok.workerStep hd hscan) hbusy hpub

/-- A host that reads its result has read it. -/
theorem returned_hostStep {d d' : DeviceThread} {h : Nat} {place place' : HostPlace} (hagree : Agree h d place)
    (hold : place.returning → Returned h d) (hstep : hostStep h d place = some (place', d'))
    (hret : place'.returning) : Returned h d' := by
  cases place with
  | user => exact hagree.elim
  | enabling t op =>
      rw [hostStep] at hstep
      split at hstep <;> (obtain ⟨rfl, rfl⟩ := Prod.mk.inj (Option.some.inj hstep); cases hret)
  | writing t op writes =>
      cases writes with
      | nil | cons w ws =>
          obtain ⟨rfl, rfl⟩ := Prod.mk.inj (Option.some.inj hstep)
          cases hret
  | spawning t op | marking t op | loading t op | starting t op control =>
      obtain ⟨rfl, rfl⟩ := Prod.mk.inj (Option.some.inj hstep)
      cases hret
  | waiting t op =>
      rw [hostStep] at hstep
      split at hstep <;> (obtain ⟨rfl, rfl⟩ := Prod.mk.inj (Option.some.inj hstep); cases hret)
  | reading t op =>
      obtain ⟨-, -, old, regs, -, -, hlog⟩ := hagree
      obtain ⟨rfl, rfl⟩ := Prod.mk.inj (Option.some.inj hstep)
      exact ⟨op, regs, d.regs.result, old, congrArg _ hlog⟩
  | stopping t =>
      rw [hostStep] at hstep
      split at hstep <;> (obtain ⟨rfl, rfl⟩ := Prod.mk.inj (Option.some.inj hstep); exact hold rfl)
  | joining t =>
      rw [hostStep] at hstep
      split at hstep
      · obtain ⟨rfl, rfl⟩ := Prod.mk.inj (Option.some.inj hstep)
        exact hold rfl
      · cases hstep
  | releasing t =>
      obtain ⟨rfl, rfl⟩ := Prod.mk.inj (Option.some.inj hstep)
      cases hret
  | thrown t => exact hagree.elim

/-- **A step of a host.** -/
theorem Inv.hostNext (h : s.Inv) {g : Nat} {shake : HandshakeState} (hnext : s.shake.next (.host g) = some shake) :
    Inv { s with shake } := by
  have hinv := h.shake.next hnext
  obtain ⟨t, hthread, hmap⟩ := Option.bind_eq_some_iff.mp hnext
  obtain ⟨⟨place, d⟩, hstep, rfl⟩ := Option.map_eq_some_iff.mp hmap
  have howner := h.shake.owned g t hthread
  obtain ⟨-, hagree⟩ := h.shake.locked t g howner
  obtain ⟨hruns, -, -, hworker⟩ := hostStep_frame hagree hstep
  have hruns' := runs_of_update hruns
  refine ⟨hinv, fun u => ?_, fun u v op op' huv hop hop' => ?_, fun u hu => ?_, fun f u hf hret => ?_⟩
  · dsimp only
    by_cases hut : u = t
    · subst hut
      rw [Function.update_self]
      exact (h.thread u).hostStep hagree hstep
    · rw [Function.update_of_ne hut]
      exact h.thread u
  · exact h.apart u v op op' huv (hruns' u op hop) (hruns' v op' hop')
  · refine (h.com u hu).trans (congrArg _ ?_)
    dsimp only
    by_cases hut : u = t
    · subst hut
      rw [Function.update_self]
      rcases hworker with hw | ⟨hold, hnew⟩ | ⟨hold, hnew⟩
      · rw [hw]
      · rw [hold, hnew]
        rfl
      · rw [hold, hnew]
        rfl
    · rw [Function.update_of_ne hut]
  · dsimp only at hf hret ⊢
    by_cases hfg : f = g
    · subst hfg
      rw [Function.update_self] at hf hret
      have hsame : u = t := by
        rcases hagree.hostStep hstep with ⟨-, hplace, -⟩ | ⟨huser, -⟩
        · exact Option.some.inj ((hf.symm.trans hplace).trans hthread)
        · rw [huser] at hf
          cases hf
      subst hsame
      rw [Function.update_self]
      exact returned_hostStep hagree (h.returned f u hthread) hstep hret
    · rw [Function.update_of_ne hfg] at hf hret
      have hut : u ≠ t := by
        rintro rfl
        exact hfg (Option.some.inj ((h.shake.owned f u hf).symm.trans howner))
      rw [Function.update_of_ne hut]
      exact h.returned f u hf hret

/-- **A call.** -/
theorem Inv.callNext (h : s.Inv) {g t : Nat} {op : ScanOperation} (hpromise : s.Promised (.call g t op))
    {shake : HandshakeState} (hnext : s.shake.next (.call g t op) = some shake) : Inv { s with shake } := by
  have hinv := h.shake.next hnext
  obtain ⟨hop, hapart⟩ := hpromise
  rw [HandshakeState.next] at hnext
  split at hnext
  · rename_i huser hnone
    obtain rfl := Option.some.inj hnext
    have hdisabled := (h.shake.free t hnone).disabled
    have hpart := (h.thread t).part.none_of_worker (by simp [hdisabled]) (by simp [hdisabled]) (by simp [hdisabled])
    -- the operations that run are those of before and the new one
    have hruns : ∀ u op', (Function.update s.shake.threads t
        { s.shake.threads t with owner := some g, log := .called g op :: (s.shake.threads t).log } u).Runs op' →
        (u = t ∧ op' = op) ∨ (u ≠ t ∧ (s.shake.threads u).Runs op') := by
      intro u op' hop'
      by_cases hut : u = t
      · subst hut
        rw [Function.update_self] at hop'
        exact .inl ⟨rfl, (Option.some.inj hop'.2).symm⟩
      · rw [Function.update_of_ne hut] at hop'
        exact .inr ⟨hut, hop'⟩
    refine ⟨hinv, fun u => ?_, fun u v op' op'' huv hop' hop'' => ?_, fun u hu => ?_, fun f u hf hret => ?_⟩
    · dsimp only
      by_cases hut : u = t
      · subst hut
        rw [Function.update_self, hpart]
        refine ⟨fun op' hop' => ?_, trivial, fun _ _ _ hr => ?_⟩
        · obtain rfl := Option.some.inj hop'.2
          exact hop
        · cases hr
      · rw [Function.update_of_ne hut]
        exact h.thread u
    · rcases hruns u op' hop' with ⟨rfl, rfl⟩ | ⟨hut, hold⟩ <;> rcases hruns v op'' hop'' with ⟨rfl, rfl⟩ | ⟨hvt, hold'⟩
      · exact absurd rfl huv
      · exact hapart v op'' hold'
      · exact (hapart u op' hold).symm
      · exact h.apart u v op' op'' huv hold hold'
    · refine (h.com u hu).trans (congrArg _ ?_)
      dsimp only
      by_cases hut : u = t
      · subst hut
        rw [Function.update_self]
      · rw [Function.update_of_ne hut]
    · dsimp only at hf hret ⊢
      by_cases hfg : f = g
      · subst hfg
        rw [Function.update_self] at hret
        cases hret
      · rw [Function.update_of_ne hfg] at hf hret
        have hut : u ≠ t := by
          rintro rfl
          cases hnone.symm.trans (h.shake.owned f u hf)
        rw [Function.update_of_ne hut]
        exact h.returned f u hf hret
  · cases hnext

/-- **One event** that the users may cause. -/
theorem Inv.next (h : s.Inv) {e : ScanEvent} (hpromise : s.Promised e) (hnext : s.next e = some s') : s'.Inv := by
  cases e with
  | call g t op =>
      obtain ⟨shake, hshake, rfl⟩ := Option.map_eq_some_iff.mp hnext
      exact h.callNext hpromise hshake
  | host g =>
      obtain ⟨shake, hshake, rfl⟩ := Option.map_eq_some_iff.mp hnext
      exact h.hostNext hshake
  | worker t startTime doneTime => exact h.workerNext hnext
  | store a v =>
      obtain rfl := Option.some.inj hnext
      refine ⟨h.shake, fun t => (h.thread t).congr fun op hop b hb => ?_, h.apart, h.com, h.returned⟩
      have hoff := hpromise t op hop
      refine Function.update_of_ne ?_ _ _
      rintro rfl
      exact hb.elim hoff.1 hoff.2

end ScanState

end Pnm.Imdb
