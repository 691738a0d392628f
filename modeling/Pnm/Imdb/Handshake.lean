import Pnm.Imdb.Simulator
import Pnm.Lib.Runs
import Mathlib.Logic.Function.Basic

/-!
# `Imdb.Handshake` — hosts and the workers of the simulator

The model of `Runner::run_operator` on the host and of `SimulatorCore::worker_job` on a worker thread, with
`enable_thread` and `disable_thread` around each operation, as the steps that they take between their accesses to
what they share: the registers of the device thread, its stop flag and the worker's future. Any number of hosts use
any number of device threads; the resource manager gives a device thread to one host at a time.

Start, busy and done are three registers. The host stores the status before it sets the start bit; the worker clears
`THREAD_CTRL` before it clears the status. So the places of the host and of the worker and the registers always
agree (`Agree`), and what happened on a device thread is one call after the other: a call, one scan with its
registers, and the host's reading of the result of that scan (`Handshakes`).

What a scan computes is the matter of `Imdb.Simulator`; here its result is arbitrary. `THREAD_ERROR` and
`IMDB_COM_STATUS`, which hosts do not read, are left out.
-/

namespace Pnm.Imdb

open Pnm.Lib

/-- The registers that a host writes for a scan, but for `THREAD_CTRL`. -/
structure ScanParams where
  compMode : BitVec 32
  startAddr : BitVec 64
  sizeSb : BitVec 64
  minValue : BitVec 32
  maxValue : BitVec 32
  minOpcode : BitVec 32
  maxOpcode : BitVec 32
  resAddr : BitVec 64
  resIndexOffset : BitVec 64
  inlistAddr : BitVec 64
  inlistSize : BitVec 32
  columnOffset : BitVec 32
  rsltLmt : BitVec 32

/-- The registers that a scan writes. -/
structure ScanResult where
  resSizeSb : BitVec 64
  startTime : BitVec 32
  doneTime : BitVec 32

/-- The registers of a device thread. -/
structure Registers where
  params : ScanParams
  ctrl : BitVec 32
  status : BitVec 32
  result : ScanResult

/-- `THREAD_STATUS_BUSY`. -/
def statusBusy : BitVec 32 := 0b10

/-- `THREAD_CTRL_START`. -/
def ctrlStart : BitVec 32 := 0b1

/-- The start bit: `THREAD_CTRL_STATUS_MASK`. -/
def Registers.shouldStartScan (regs : Registers) : Bool := regs.ctrl &&& 0b01 ≠ 0

/-- A store to a register. -/
inductive RegWrite where
  | param (f : ScanParams → ScanParams)
  | ctrl (value : BitVec 32)

def RegWrite.apply (regs : Registers) : RegWrite → Registers
  | param f    => { regs with params := f regs.params }
  | ctrl value => { regs with ctrl := value }

/-- The predicate of a `Scan`: a range, or a bit vector in device memory. -/
inductive FrontendPredicate where
  | range (start last : BitVec 32)
  | inList (maxValue : BitVec 64) (data : BitVec 64)

/-- `ScanOperation`: the column, the predicate and the result of its frontend. -/
structure ScanOperation where
  bitCompression : BitVec 64
  column : BitVec 64
  elementsCount : BitVec 64
  predicate : FrontendPredicate
  outputType : OutputType
  result : BitVec 64
  resultSize : BitVec 64

namespace ScanOperation

variable (op : ScanOperation)

/-- `set_predicate_info`. -/
def setPredicateInfo : List RegWrite :=
  match op.predicate with
  | .range first last =>
      [.param fun r => { r with compMode := r.compMode ||| 0 },
        .param fun r => { r with minValue := first },
        .param fun r => { r with maxValue := last },
        .param fun r => { r with minOpcode := 0b100 },
        .param fun r => { r with maxOpcode := 0b010 },
        .param fun r => { r with inlistAddr := 0 },
        .param fun r => { r with inlistSize := 0 }]
  | .inList maxValue data =>
      [.param fun r => { r with compMode := r.compMode ||| 0x100 },
        .param fun r => { r with minValue := 0 },
        .param fun r => { r with maxValue := 0 },
        .param fun r => { r with minOpcode := 0b100 },
        .param fun r => { r with maxOpcode := 0b010 },
        .param fun r => { r with inlistAddr := data },
        .param fun r => { r with inlistSize := maxValue.setWidth 32 }]

/-- `output_flag`. -/
def outputFlag : BitVec 32 := if op.outputType = .bitVector then 0 else 0b10

/-- `set_output_type`. -/
def setOutputType : List RegWrite :=
  [.ctrl op.outputFlag,
    .param fun r => { r with resAddr := op.result },
    .param fun r => { r with rsltLmt := if op.outputType = .bitVector then 0 else op.resultSize.setWidth 32 }]

/-- `write_registers`. -/
def writeRegisters : List RegWrite :=
  [.param fun r => { r with compMode := (op.bitCompression &&& 0b11111).setWidth 32 },
    .param fun r => { r with startAddr := op.column },
    .param fun r => { r with sizeSb := op.elementsCount },
    .param fun r => { r with resIndexOffset := 0 },
    .param fun r => { r with columnOffset := 0 }] ++ op.setPredicateInfo ++ op.setOutputType

/-- The values that the operation writes. -/
def params : ScanParams :=
  { compMode := (op.bitCompression &&& 0b11111).setWidth 32 |||
      match op.predicate with
      | .range _ _  => 0
      | .inList _ _ => 0x100
    startAddr := op.column
    sizeSb := op.elementsCount
    minValue := match op.predicate with
      | .range first _ => first
      | .inList _ _    => 0
    maxValue := match op.predicate with
      | .range _ last => last
      | .inList _ _   => 0
    minOpcode := 0b100
    maxOpcode := 0b010
    resAddr := op.result
    resIndexOffset := 0
    inlistAddr := match op.predicate with
      | .range _ _     => 0
      | .inList _ data => data
    inlistSize := match op.predicate with
      | .range _ _         => 0
      | .inList maxValue _ => maxValue.setWidth 32
    columnOffset := 0
    rsltLmt := if op.outputType = .bitVector then 0 else op.resultSize.setWidth 32 }

end ScanOperation

/-- The registers are those that the operation has written, with the start bit. -/
def Registers.WrittenBy (op : ScanOperation) (regs : Registers) : Prop :=
  regs.params = op.params ∧ regs.ctrl = op.outputFlag ||| ctrlStart

/-! ## The steps -/

/-- What a worker does next; between two operations it is disabled. -/
inductive WorkerPlace where
  | disabled
  | queued
  | top
  | polling
  | busying
  | scanning
  | clearing
  | publishing
  | exited
deriving DecidableEq

/-- What a host does next in `run_operator`. -/
inductive HostPlace where
  | user
  | enabling (t : Nat) (op : ScanOperation)
  | spawning (t : Nat) (op : ScanOperation)
  | writing (t : Nat) (op : ScanOperation) (writes : List RegWrite)
  | marking (t : Nat) (op : ScanOperation)
  | loading (t : Nat) (op : ScanOperation)
  | starting (t : Nat) (op : ScanOperation) (control : BitVec 32)
  | waiting (t : Nat) (op : ScanOperation)
  | reading (t : Nat) (op : ScanOperation)
  | stopping (t : Nat)
  | joining (t : Nat)
  | releasing (t : Nat)
  | thrown (t : Nat)

/-- The device thread that a host has locked. -/
def HostPlace.thread : HostPlace → Option Nat
  | user             => none
  | enabling t _     => some t
  | spawning t _     => some t
  | writing t _ _    => some t
  | marking t _      => some t
  | loading t _      => some t
  | starting t _ _   => some t
  | waiting t _      => some t
  | reading t _      => some t
  | stopping t       => some t
  | joining t        => some t
  | releasing t      => some t
  | thrown t         => some t

/-- What happens on a device thread: a host's call, a scan with the registers that it reads and the result that it
    writes, and a host's reading of a result. -/
inductive HandshakeEntry where
  | called (h : Nat) (op : ScanOperation)
  | scanned (regs : Registers) (result : ScanResult)
  | read (h : Nat) (result : ScanResult)

/-- A device thread: who has locked it, its registers, its worker, and what has happened on it, newest first. -/
structure DeviceThread where
  owner : Option Nat
  regs : Registers
  stopFlag : Bool
  worker : WorkerPlace
  log : List HandshakeEntry

/-- One step of host `h` on the device thread that it has locked. -/
def hostStep (h : Nat) (d : DeviceThread) : HostPlace → Option (HostPlace × DeviceThread)
  | .enabling t op =>
      -- `enable_thread` throws if the future is valid
      if d.worker = .disabled then some (.spawning t op, { d with stopFlag := false }) else some (.thrown t, d)
  | .spawning t op => some (.writing t op op.writeRegisters, { d with worker := .queued })
  | .writing t op (w :: ws) => some (.writing t op ws, { d with regs := w.apply d.regs })
  | .writing t op [] => some (.marking t op, d)
  | .marking t op => some (.loading t op, { d with regs := { d.regs with status := statusBusy } })
  | .loading t op => some (.starting t op d.regs.ctrl, d)
  | .starting t op control => some (.waiting t op, { d with regs := { d.regs with ctrl := control ||| ctrlStart } })
  | .waiting t op => if d.regs.status = statusBusy then some (.waiting t op, d) else some (.reading t op, d)
  | .reading t _ => some (.stopping t, { d with log := .read h d.regs.result :: d.log })
  | .stopping t =>
      -- `disable_thread` throws if the future is not valid
      if d.worker = .disabled then some (.thrown t, d) else some (.joining t, { d with stopFlag := true })
  | .joining t => if d.worker = .exited then some (.releasing t, { d with worker := .disabled }) else none
  | .releasing _ => some (.user, { d with owner := none })
  | .user => none
  | .thrown _ => none

/-- One step of the worker of a device thread; `result` is what a scan writes. -/
def workerStep (d : DeviceThread) (result : ScanResult) : Option DeviceThread :=
  match d.worker with
  | .disabled => none
  | .queued => some { d with worker := .top }
  | .top => some { d with worker := if d.stopFlag then .exited else .polling }
  | .polling => some { d with worker := if d.regs.shouldStartScan then .busying else .top }
  | .busying => some { d with worker := .scanning, regs := { d.regs with status := statusBusy } }
  | .scanning =>
      some { d with
        worker := .clearing
        regs := { d.regs with result := result }
        log := .scanned d.regs result :: d.log }
  | .clearing => some { d with worker := .publishing, regs := { d.regs with ctrl := 0 } }
  | .publishing => some { d with worker := .top, regs := { d.regs with status := 0 } }
  | .exited => none

/-- Hosts and device threads. -/
structure HandshakeState where
  hosts : Nat → HostPlace
  threads : Nat → DeviceThread

inductive HandshakeEvent where
  | call (h t : Nat) (op : ScanOperation)
  | host (h : Nat)
  | worker (t : Nat) (result : ScanResult)

namespace HandshakeState

/-- Registers that are zero, and no host. -/
def init : HandshakeState :=
  { hosts := fun _ => .user
    threads := fun _ =>
      { owner := none
        regs := { params := ⟨0, 0, 0, 0, 0, 0, 0, 0, 0, 0, 0, 0, 0⟩, ctrl := 0, status := 0, result := ⟨0, 0, 0⟩ }
        stopFlag := false
        worker := .disabled
        log := [] } }

/-- One event. -/
def next (s : HandshakeState) : HandshakeEvent → Option HandshakeState
  | .call h t op =>
      -- `lock_thread`: the resource manager gives out a device thread that nobody has
      match s.hosts h, (s.threads t).owner with
      | .user, none =>
          some {
            hosts := Function.update s.hosts h (.enabling t op)
            threads := Function.update s.threads t
              { s.threads t with owner := some h, log := .called h op :: (s.threads t).log } }
      | _, _ => none
  | .host h =>
      (s.hosts h).thread.bind fun t =>
        (hostStep h (s.threads t) (s.hosts h)).map fun r =>
          { hosts := Function.update s.hosts h r.1, threads := Function.update s.threads t r.2 }
  | .worker t result =>
      (workerStep (s.threads t) result).map fun d => { s with threads := Function.update s.threads t d }

/-- An event that is not possible does nothing. -/
def attempt (s : HandshakeState) (e : HandshakeEvent) : HandshakeState := (s.next e).getD s

end HandshakeState

/-! ## What is claimed -/

/-- Complete calls: each with one scan, with the registers that it has written, and the reading of the result of
    that scan. -/
inductive Handshakes : List HandshakeEntry → Prop
  | nil : Handshakes []
  | call (h : Nat) (op : ScanOperation) (regs : Registers) (result : ScanResult) {log : List HandshakeEntry}
      (hlog : Handshakes log) (hregs : regs.WrittenBy op) :
      Handshakes (.read h result :: .scanned regs result :: .called h op :: log)

/-- Host `h` has called, and there was no scan since. -/
def Called (h : Nat) (op : ScanOperation) (d : DeviceThread) : Prop :=
  ∃ old, Handshakes old ∧ d.log = .called h op :: old

/-- The scan for the call of host `h` has finished, and its result is in the registers. -/
def Scanned (h : Nat) (op : ScanOperation) (d : DeviceThread) : Prop :=
  ∃ old regs, Handshakes old ∧ regs.WrittenBy op ∧ d.log = .scanned regs d.regs.result :: .called h op :: old

namespace HandshakeState

/-- Host `h` and the worker of `t` have their turns again and again. -/
def Fair (h t : Nat) (sched : Nat → HandshakeEvent) : Prop :=
  (∀ n, ∃ m ≥ n, sched m = .host h) ∧ ∀ n, ∃ m ≥ n, ∃ result, sched m = .worker t result

/-- **One scan per call.** -/
structure OneScanPerCall (s : HandshakeState) : Prop where
  /-- The last call on a device thread may be incomplete, and all others are complete. -/
  calls : ∀ t, Handshakes (s.threads t).log ∨ ∃ h op, Called h op (s.threads t) ∨ Scanned h op (s.threads t)
  /-- A call that has returned is complete. -/
  returned : ∀ t, (s.threads t).owner = none → Handshakes (s.threads t).log
  /-- A start bit that is picked up is that of the call that waits, and the registers are its own until the scan. -/
  picked : ∀ t, (s.threads t).worker = .busying ∨ (s.threads t).worker = .scanning →
    ∃ h op, s.hosts h = .waiting t op ∧ Called h op (s.threads t) ∧ (s.threads t).regs.WrittenBy op
  /-- Results are read when their scan has finished and no other can start. -/
  reads : ∀ h t op, s.hosts h = .reading t op → Scanned h op (s.threads t) ∧
    ((s.threads t).worker = .top ∨ (s.threads t).worker = .polling) ∧ (s.threads t).regs.shouldStartScan = false
  /-- Neither `enable_thread` nor `disable_thread` throws. -/
  noThrow : ∀ h t, s.hosts h ≠ .thrown t
  /-- Every call returns. -/
  returns : ∀ h t sched, (s.hosts h).thread = some t → Fair h t sched →
    ∃ n, (statesOf attempt sched s n).hosts h = .user
  /-- A call on a device thread that nobody has is accepted, and when it returns there was one scan for it, with its
      registers, and the result of that scan has been read. -/
  completes : ∀ h t op, s.hosts h = .user → (s.threads t).owner = none →
    ∃ s', s.next (.call h t op) = some s' ∧ ∀ sched, Fair h t sched → ∃ n regs result,
      (∀ m < n, (statesOf attempt sched s' m).hosts h ≠ .user) ∧ (statesOf attempt sched s' n).hosts h = .user ∧
      regs.WrittenBy op ∧
      ((statesOf attempt sched s' n).threads t).log =
        .read h result :: .scanned regs result :: .called h op :: (s.threads t).log

end HandshakeState

end Pnm.Imdb
