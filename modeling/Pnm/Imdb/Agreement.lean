import Pnm.Imdb.Handshake

/-!
# `Imdb.Agreement` — the places of host and worker and the registers agree

The invariant of a device thread and of the host that has locked it (`Agree`), one line for each place of the host,
and that every step of the host and of the worker keeps it. Between the start bit and the cleared status the worker
goes through the phases of one scan (`WaitPhase`); at all other times it polls a register without the start bit
(`Idle`), or is not there.
-/

namespace Pnm.Imdb

open Pnm.Lib

/-! ## The registers -/

theorem RegWrite.apply_shouldStartScan {regs : Registers} {w : RegWrite} (h : regs.shouldStartScan = false)
    (hw : ∀ value, w = .ctrl value → value &&& 0b01 = 0) : (w.apply regs).shouldStartScan = false := by
  cases w with
  | param f => exact h
  | ctrl value =>
      have hvalue := hw value rfl
      rw [apply, Registers.shouldStartScan, hvalue]
      rfl

namespace ScanOperation

variable (op : ScanOperation)

theorem outputFlag_and_start : op.outputFlag &&& 0b01 = 0 := by
  rw [outputFlag]
  split <;> rfl

/-- Whatever was in the registers, the operation's values are. -/
theorem foldl_writeRegisters (regs : Registers) :
    (op.writeRegisters.foldl RegWrite.apply regs).params = op.params ∧
      (op.writeRegisters.foldl RegWrite.apply regs).ctrl = op.outputFlag := by
  obtain ⟨bits, column, count, predicate, output, result, size⟩ := op
  cases predicate <;> exact ⟨rfl, rfl⟩

/-- The only store to `THREAD_CTRL` is without the start bit. -/
theorem ctrl_of_mem_writeRegisters {value : BitVec 32} (h : .ctrl value ∈ op.writeRegisters) : value &&& 0b01 = 0 := by
  have hvalue : value = op.outputFlag := by
    cases hpred : op.predicate <;> simpa [writeRegisters, setPredicateInfo, setOutputType, hpred] using h
  rw [hvalue]
  exact op.outputFlag_and_start

end ScanOperation

theorem Registers.WrittenBy.shouldStartScan {op : ScanOperation} {regs : Registers} (h : regs.WrittenBy op) :
    regs.shouldStartScan = true := by
  rw [Registers.shouldStartScan, h.2, ScanOperation.outputFlag]
  split <;> rfl

theorem shouldStartScan_of_zero {regs : Registers} (h : regs.ctrl = 0) : regs.shouldStartScan = false := by
  rw [Registers.shouldStartScan, h]
  rfl

/-! ## Host and worker agree -/

/-- The rest of the stores brings the operation's values into the registers, and none sets the start bit. -/
def Leads (op : ScanOperation) (writes : List RegWrite) (regs : Registers) : Prop :=
  (writes.foldl RegWrite.apply regs).params = op.params ∧ (writes.foldl RegWrite.apply regs).ctrl = op.outputFlag ∧
    ∀ value, .ctrl value ∈ writes → value &&& 0b01 = 0

/-- The worker runs and nothing has been started. -/
structure Idle (d : DeviceThread) : Prop where
  running : d.stopFlag = false
  notStarted : d.regs.shouldStartScan = false
  worker : d.worker = .queued ∨ d.worker = .top ∨ d.worker = .polling

/-- The worker while the host waits. -/
inductive WaitPhase (h : Nat) (op : ScanOperation) (d : DeviceThread) : Prop
  | before (hworker : d.worker = .queued ∨ d.worker = .top ∨ d.worker = .polling ∨ d.worker = .busying ∨
      d.worker = .scanning) (hstatus : d.regs.status = statusBusy) (hwritten : d.regs.WrittenBy op)
      (hcalled : Called h op d)
  | clearing (hworker : d.worker = .clearing) (hstatus : d.regs.status = statusBusy) (hscanned : Scanned h op d)
  | publishing (hworker : d.worker = .publishing) (hstatus : d.regs.status = statusBusy) (hctrl : d.regs.ctrl = 0)
      (hscanned : Scanned h op d)
  | done (hworker : d.worker = .top ∨ d.worker = .polling) (hstatus : d.regs.status = 0) (hctrl : d.regs.ctrl = 0)
      (hscanned : Scanned h op d)

/-- **The invariant of a device thread and of the host that has locked it.** -/
def Agree (h : Nat) (d : DeviceThread) : HostPlace → Prop
  | .user => False
  | .enabling _ op => d.worker = .disabled ∧ d.regs.shouldStartScan = false ∧ Called h op d
  | .spawning _ op => d.worker = .disabled ∧ d.stopFlag = false ∧ d.regs.shouldStartScan = false ∧ Called h op d
  | .writing _ op writes => Idle d ∧ Called h op d ∧ Leads op writes d.regs
  | .marking _ op => Idle d ∧ Called h op d ∧ Leads op [] d.regs
  | .loading _ op => Idle d ∧ Called h op d ∧ Leads op [] d.regs ∧ d.regs.status = statusBusy
  | .starting _ op control =>
      Idle d ∧ Called h op d ∧ Leads op [] d.regs ∧ d.regs.status = statusBusy ∧ control = op.outputFlag
  | .waiting _ op => d.stopFlag = false ∧ WaitPhase h op d
  | .reading _ op => Idle d ∧ d.worker ≠ .queued ∧ Scanned h op d
  | .stopping _ => Idle d ∧ d.worker ≠ .queued ∧ Handshakes d.log
  | .joining _ =>
      d.stopFlag = true ∧ d.regs.shouldStartScan = false ∧
        (d.worker = .top ∨ d.worker = .polling ∨ d.worker = .exited) ∧ Handshakes d.log
  | .releasing _ => d.worker = .disabled ∧ d.regs.shouldStartScan = false ∧ Handshakes d.log
  | .thrown _ => False

/-- A device thread that nobody has locked. -/
structure Free (d : DeviceThread) : Prop where
  disabled : d.worker = .disabled
  notStarted : d.regs.shouldStartScan = false
  complete : Handshakes d.log

theorem leads_writeRegisters (op : ScanOperation) (regs : Registers) : Leads op op.writeRegisters regs :=
  ⟨(op.foldl_writeRegisters regs).1, (op.foldl_writeRegisters regs).2, fun _ => op.ctrl_of_mem_writeRegisters⟩

/-- **A step of the host.** It agrees with the worker still, or has returned. -/
theorem Agree.hostStep {h : Nat} {d d' : DeviceThread} {place place' : HostPlace} (hagree : Agree h d place)
    (hstep : hostStep h d place = some (place', d')) :
    (Agree h d' place' ∧ place'.thread = place.thread ∧ d'.owner = d.owner) ∨
      (place' = .user ∧ d'.owner = none ∧ Free d') := by
  cases place with
  | user => exact hagree.elim
  | enabling t op =>
      obtain ⟨hworker, hstart, hcalled⟩ := hagree
      rw [Imdb.hostStep, if_pos hworker] at hstep
      obtain ⟨rfl, rfl⟩ := Prod.mk.inj (Option.some.inj hstep)
      exact .inl ⟨⟨hworker, rfl, hstart, hcalled⟩, rfl, rfl⟩
  | spawning t op =>
      obtain ⟨-, hstop, hstart, hcalled⟩ := hagree
      obtain ⟨rfl, rfl⟩ := Prod.mk.inj (Option.some.inj hstep)
      exact .inl ⟨⟨⟨hstop, hstart, .inl rfl⟩, hcalled, leads_writeRegisters op d.regs⟩, rfl, rfl⟩
  | writing t op writes =>
      obtain ⟨hidle, hcalled, hparams, hctrl, hwrites⟩ := hagree
      cases writes with
      | nil =>
          obtain ⟨rfl, rfl⟩ := Prod.mk.inj (Option.some.inj hstep)
          exact .inl ⟨⟨hidle, hcalled, hparams, hctrl, hwrites⟩, rfl, rfl⟩
      | cons w ws =>
          obtain ⟨rfl, rfl⟩ := Prod.mk.inj (Option.some.inj hstep)
          have hstart := RegWrite.apply_shouldStartScan hidle.notStarted (w := w)
            fun value heq => hwrites value (heq ▸ List.mem_cons_self)
          exact .inl ⟨⟨⟨hidle.running, hstart, hidle.worker⟩, hcalled, hparams, hctrl,
            fun value hmem => hwrites value (List.mem_cons_of_mem w hmem)⟩, rfl, rfl⟩
  | marking t op =>
      obtain ⟨hidle, hcalled, hleads⟩ := hagree
      obtain ⟨rfl, rfl⟩ := Prod.mk.inj (Option.some.inj hstep)
      exact .inl ⟨⟨⟨hidle.running, hidle.notStarted, hidle.worker⟩, hcalled, hleads, rfl⟩, rfl, rfl⟩
  | loading t op =>
      obtain ⟨hidle, hcalled, hleads, hstatus⟩ := hagree
      obtain ⟨rfl, rfl⟩ := Prod.mk.inj (Option.some.inj hstep)
      exact .inl ⟨⟨hidle, hcalled, hleads, hstatus, hleads.2.1⟩, rfl, rfl⟩
  | starting t op control =>
      obtain ⟨hidle, hcalled, hleads, hstatus, rfl⟩ := hagree
      obtain ⟨rfl, rfl⟩ := Prod.mk.inj (Option.some.inj hstep)
      have hworker : d.worker = .queued ∨ d.worker = .top ∨ d.worker = .polling ∨ d.worker = .busying ∨
          d.worker = .scanning := by
        rcases hidle.worker with hw | hw | hw <;> simp [hw]
      exact .inl ⟨⟨hidle.running, .before hworker hstatus ⟨hleads.1, rfl⟩ hcalled⟩, rfl, rfl⟩
  | waiting t op =>
      obtain ⟨hstop, hphase⟩ := hagree
      rw [Imdb.hostStep] at hstep
      split at hstep
      · obtain ⟨rfl, rfl⟩ := Prod.mk.inj (Option.some.inj hstep)
        exact .inl ⟨⟨hstop, hphase⟩, rfl, rfl⟩
      · rename_i hbusy
        obtain ⟨rfl, rfl⟩ := Prod.mk.inj (Option.some.inj hstep)
        cases hphase with
        | before _ hstatus => exact absurd hstatus hbusy
        | clearing _ hstatus => exact absurd hstatus hbusy
        | publishing _ hstatus => exact absurd hstatus hbusy
        | done hworker _ hctrl hscanned =>
            refine .inl ⟨⟨⟨hstop, shouldStartScan_of_zero hctrl, .inr hworker⟩, ?_, hscanned⟩, rfl, rfl⟩
            rcases hworker with hw | hw <;> simp [hw]
  | reading t op =>
      obtain ⟨hidle, hworker, old, regs, hold, hwritten, hlog⟩ := hagree
      obtain ⟨rfl, rfl⟩ := Prod.mk.inj (Option.some.inj hstep)
      refine .inl ⟨⟨⟨hidle.running, hidle.notStarted, hidle.worker⟩, hworker, ?_⟩, rfl, rfl⟩
      dsimp only
      rw [hlog]
      exact .call h op regs d.regs.result hold hwritten
  | stopping t =>
      obtain ⟨hidle, hworker, hlog⟩ := hagree
      rw [Imdb.hostStep] at hstep
      split at hstep
      · rename_i hdisabled
        rcases hidle.worker with hw | hw | hw <;> exact nomatch hw.symm.trans hdisabled
      · obtain ⟨rfl, rfl⟩ := Prod.mk.inj (Option.some.inj hstep)
        refine .inl ⟨⟨rfl, hidle.notStarted, ?_, hlog⟩, rfl, rfl⟩
        rcases hidle.worker with hw | hw | hw
        · exact absurd hw hworker
        · exact .inl hw
        · exact .inr (.inl hw)
  | joining t =>
      obtain ⟨-, hstart, -, hlog⟩ := hagree
      rw [Imdb.hostStep] at hstep
      split at hstep
      · obtain ⟨rfl, rfl⟩ := Prod.mk.inj (Option.some.inj hstep)
        exact .inl ⟨⟨rfl, hstart, hlog⟩, rfl, rfl⟩
      · exact nomatch hstep
  | releasing t =>
      obtain ⟨hworker, hstart, hlog⟩ := hagree
      obtain ⟨rfl, rfl⟩ := Prod.mk.inj (Option.some.inj hstep)
      exact .inr ⟨rfl, rfl, hworker, hstart, hlog⟩
  | thrown t => exact hagree.elim

/-- An idle worker stays idle. -/
theorem Idle.workerStep {d d' : DeviceThread} {result : ScanResult} (h : Idle d)
    (hstep : workerStep d result = some d') :
    Idle d' ∧ d'.worker ≠ .queued ∧ d'.owner = d.owner ∧ d'.regs = d.regs ∧ d'.log = d.log := by
  rcases h.worker with hw | hw | hw
  · simp only [Imdb.workerStep, hw] at hstep
    obtain rfl := Option.some.inj hstep
    exact ⟨⟨h.running, h.notStarted, .inr (.inl rfl)⟩, by simp, rfl, rfl, rfl⟩
  · simp only [Imdb.workerStep, hw, h.running] at hstep
    obtain rfl := Option.some.inj hstep
    exact ⟨⟨rfl, h.notStarted, .inr (.inr rfl)⟩, by simp, rfl, rfl, rfl⟩
  · simp only [Imdb.workerStep, hw, h.notStarted] at hstep
    obtain rfl := Option.some.inj hstep
    exact ⟨⟨h.running, h.notStarted, .inr (.inl rfl)⟩, by simp, rfl, rfl, rfl⟩

/-- **A step of the worker while the host waits.** -/
theorem WaitPhase.workerStep {h : Nat} {op : ScanOperation} {d d' : DeviceThread} {result : ScanResult}
    (hphase : WaitPhase h op d) (hstop : d.stopFlag = false) (hstep : workerStep d result = some d') :
    WaitPhase h op d' ∧ d'.stopFlag = false ∧ d'.owner = d.owner := by
  cases hphase with
  | before hworker hstatus hwritten hcalled =>
      rcases hworker with hw | hw | hw | hw | hw
      · simp only [Imdb.workerStep, hw] at hstep
        obtain rfl := Option.some.inj hstep
        exact ⟨.before (.inr (.inl rfl)) hstatus hwritten hcalled, hstop, rfl⟩
      · simp only [Imdb.workerStep, hw, hstop] at hstep
        obtain rfl := Option.some.inj hstep
        exact ⟨.before (.inr (.inr (.inl rfl))) hstatus hwritten hcalled, rfl, rfl⟩
      · -- the start bit of this call is picked up
        simp only [Imdb.workerStep, hw, hwritten.shouldStartScan] at hstep
        obtain rfl := Option.some.inj hstep
        exact ⟨.before (.inr (.inr (.inr (.inl rfl)))) hstatus hwritten hcalled, hstop, rfl⟩
      · simp only [Imdb.workerStep, hw] at hstep
        obtain rfl := Option.some.inj hstep
        exact ⟨.before (.inr (.inr (.inr (.inr rfl)))) rfl hwritten hcalled, hstop, rfl⟩
      · simp only [Imdb.workerStep, hw] at hstep
        obtain rfl := Option.some.inj hstep
        obtain ⟨old, hold, hlog⟩ := hcalled
        exact ⟨.clearing rfl hstatus ⟨old, d.regs, hold, hwritten, congrArg _ hlog⟩, hstop, rfl⟩
  | clearing hworker hstatus hscanned =>
      simp only [Imdb.workerStep, hworker] at hstep
      obtain rfl := Option.some.inj hstep
      exact ⟨.publishing rfl hstatus rfl hscanned, hstop, rfl⟩
  | publishing hworker hstatus hctrl hscanned =>
      simp only [Imdb.workerStep, hworker] at hstep
      obtain rfl := Option.some.inj hstep
      exact ⟨.done (.inl rfl) rfl hctrl hscanned, hstop, rfl⟩
  | done hworker hstatus hctrl hscanned =>
      rcases hworker with hw | hw
      · simp only [Imdb.workerStep, hw, hstop] at hstep
        obtain rfl := Option.some.inj hstep
        exact ⟨.done (.inr rfl) hstatus hctrl hscanned, rfl, rfl⟩
      · simp only [Imdb.workerStep, hw, shouldStartScan_of_zero hctrl] at hstep
        obtain rfl := Option.some.inj hstep
        exact ⟨.done (.inl rfl) hstatus hctrl hscanned, hstop, rfl⟩

theorem Called.congr {h : Nat} {op : ScanOperation} {d d' : DeviceThread} (hcalled : Called h op d)
    (hlog : d'.log = d.log) : Called h op d' := by
  rw [Called, hlog]
  exact hcalled

theorem workerStep_disabled {d : DeviceThread} (h : d.worker = .disabled) (result : ScanResult) :
    workerStep d result = none := by
  simp only [workerStep, h]

/-- **A step of the worker.** -/
theorem Agree.workerStep {h : Nat} {d d' : DeviceThread} {place : HostPlace} {result : ScanResult}
    (hagree : Agree h d place) (hstep : workerStep d result = some d') : Agree h d' place ∧ d'.owner = d.owner := by
  have hdisabled : d.worker ≠ .disabled := by
    intro hw
    exact nomatch (workerStep_disabled hw result).symm.trans hstep
  cases place with
  | user => exact hagree.elim
  | enabling t op => exact absurd hagree.1 hdisabled
  | spawning t op => exact absurd hagree.1 hdisabled
  | writing t op writes =>
      obtain ⟨hidle, hcalled, hleads⟩ := hagree
      obtain ⟨hidle', -, howner, hregs, hlog⟩ := hidle.workerStep hstep
      exact ⟨⟨hidle', hcalled.congr hlog, hregs ▸ hleads⟩, howner⟩
  | marking t op =>
      obtain ⟨hidle, hcalled, hleads⟩ := hagree
      obtain ⟨hidle', -, howner, hregs, hlog⟩ := hidle.workerStep hstep
      exact ⟨⟨hidle', hcalled.congr hlog, hregs ▸ hleads⟩, howner⟩
  | loading t op =>
      obtain ⟨hidle, hcalled, hleads, hstatus⟩ := hagree
      obtain ⟨hidle', -, howner, hregs, hlog⟩ := hidle.workerStep hstep
      exact ⟨⟨hidle', hcalled.congr hlog, hregs ▸ hleads, hregs ▸ hstatus⟩, howner⟩
  | starting t op control =>
      obtain ⟨hidle, hcalled, hleads, hstatus, hcontrol⟩ := hagree
      obtain ⟨hidle', -, howner, hregs, hlog⟩ := hidle.workerStep hstep
      exact ⟨⟨hidle', hcalled.congr hlog, hregs ▸ hleads, hregs ▸ hstatus, hcontrol⟩, howner⟩
  | waiting t op =>
      obtain ⟨hphase, hstop, howner⟩ := hagree.2.workerStep hagree.1 hstep
      exact ⟨⟨hstop, hphase⟩, howner⟩
  | reading t op =>
      obtain ⟨hidle, -, hscanned⟩ := hagree
      obtain ⟨hidle', hqueued, howner, hregs, hlog⟩ := hidle.workerStep hstep
      rw [Scanned, ← hlog, ← hregs] at hscanned
      exact ⟨⟨hidle', hqueued, hscanned⟩, howner⟩
  | stopping t =>
      obtain ⟨hidle, -, hcomplete⟩ := hagree
      obtain ⟨hidle', hqueued, howner, -, hlog⟩ := hidle.workerStep hstep
      exact ⟨⟨hidle', hqueued, hlog ▸ hcomplete⟩, howner⟩
  | joining t =>
      obtain ⟨hstop, hstart, hw | hw | hw, hcomplete⟩ := hagree
      · simp only [Imdb.workerStep, hw, hstop] at hstep
        obtain rfl := Option.some.inj hstep
        exact ⟨⟨rfl, hstart, .inr (.inr rfl), hcomplete⟩, rfl⟩
      · simp only [Imdb.workerStep, hw, hstart] at hstep
        obtain rfl := Option.some.inj hstep
        exact ⟨⟨hstop, hstart, .inl rfl, hcomplete⟩, rfl⟩
      · simp only [Imdb.workerStep, hw] at hstep
        exact nomatch hstep
  | releasing t => exact absurd hagree.1 hdisabled
  | thrown t => exact hagree.elim

namespace HandshakeState

variable {s : HandshakeState}

/-- Locked device threads agree with their hosts, the others are free, and a host has the thread that it works on. -/
structure Inv (s : HandshakeState) : Prop where
  locked : ∀ t h, (s.threads t).owner = some h → (s.hosts h).thread = some t ∧ Agree h (s.threads t) (s.hosts h)
  free : ∀ t, (s.threads t).owner = none → Free (s.threads t)
  owned : ∀ h t, (s.hosts h).thread = some t → (s.threads t).owner = some h

theorem inv_init : Inv init where
  locked := fun _ _ h => (nomatch h)
  free := fun _ _ => ⟨rfl, shouldStartScan_of_zero rfl, .nil⟩
  owned := fun _ _ h => (nomatch h)

/-- One host and the device thread that it works on change; they agree, or the host has returned. -/
theorem Inv.update (h : Inv s) {g t : Nat} {place : HostPlace} {d : DeviceThread}
    (hbefore : ∀ u, (s.hosts g).thread = some u → u = t) (howner : ∀ f, (s.threads t).owner = some f → f = g)
    (hafter : (Agree g d place ∧ place.thread = some t ∧ d.owner = some g) ∨
      (place = .user ∧ d.owner = none ∧ Free d)) :
    Inv { hosts := Function.update s.hosts g place, threads := Function.update s.threads t d } := by
  have hother : ∀ u f, u ≠ t → (s.threads u).owner = some f → f ≠ g := by
    rintro u f hu hf rfl
    exact hu (hbefore u (h.locked u f hf).1)
  refine ⟨fun u f hf => ?_, fun u hu => ?_, fun f u hf => ?_⟩
  · by_cases hut : u = t
    · subst hut
      dsimp only at hf ⊢
      rw [Function.update_self] at hf ⊢
      rcases hafter with ⟨hagree, hthread, hown⟩ | ⟨-, hnone, -⟩
      · obtain rfl := Option.some.inj (hown.symm.trans hf)
        rw [Function.update_self]
        exact ⟨hthread, hagree⟩
      · exact nomatch hnone.symm.trans hf
    · dsimp only at hf ⊢
      rw [Function.update_of_ne hut] at hf ⊢
      rw [Function.update_of_ne (hother u f hut hf)]
      exact h.locked u f hf
  · by_cases hut : u = t
    · subst hut
      dsimp only at hu ⊢
      rw [Function.update_self] at hu ⊢
      rcases hafter with ⟨-, -, hown⟩ | ⟨-, -, hfree⟩
      · exact nomatch hown.symm.trans hu
      · exact hfree
    · dsimp only at hu ⊢
      rw [Function.update_of_ne hut] at hu ⊢
      exact h.free u hu
  · by_cases hfg : f = g
    · subst hfg
      dsimp only at hf ⊢
      rw [Function.update_self] at hf
      rcases hafter with ⟨-, hthread, hown⟩ | ⟨rfl, -, -⟩
      · obtain rfl := Option.some.inj (hthread.symm.trans hf)
        rw [Function.update_self]
        exact hown
      · exact nomatch hf
    · dsimp only at hf ⊢
      rw [Function.update_of_ne hfg] at hf
      have hown := h.owned f u hf
      have hut : u ≠ t := by
        rintro rfl
        exact hfg (howner f hown)
      rw [Function.update_of_ne hut]
      exact hown

/-- **One event.** -/
theorem Inv.next {s' : HandshakeState} {e : HandshakeEvent} (h : Inv s) (hnext : s.next e = some s') : Inv s' := by
  cases e with
  | call g t op =>
      rw [HandshakeState.next] at hnext
      split at hnext
      · rename_i huser hnone
        obtain rfl := Option.some.inj hnext
        obtain ⟨hworker, hstart, hlog⟩ := h.free t hnone
        refine h.update ?_ ?_ (.inl ⟨⟨hworker, hstart, (s.threads t).log, hlog, rfl⟩, rfl, rfl⟩)
        · intro u hu
          rw [huser] at hu
          exact nomatch hu
        · intro f hf
          exact nomatch hnone.symm.trans hf
      · exact nomatch hnext
  | host g =>
      obtain ⟨t, hthread, hmap⟩ := Option.bind_eq_some_iff.mp hnext
      obtain ⟨⟨place, d⟩, hstep, rfl⟩ := Option.map_eq_some_iff.mp hmap
      have hown := h.owned g t hthread
      obtain ⟨-, hagree⟩ := h.locked t g hown
      refine h.update (fun u hu => Option.some.inj (hu.symm.trans hthread))
        (fun f hf => Option.some.inj (hf.symm.trans hown)) ?_
      rcases hagree.hostStep hstep with ⟨hagree', hsame, howner⟩ | hreturned
      · exact .inl ⟨hagree', hsame.trans hthread, howner.trans hown⟩
      · exact .inr hreturned
  | worker t result =>
      obtain ⟨d, hstep, rfl⟩ := Option.map_eq_some_iff.mp hnext
      cases howner : (s.threads t).owner with
      | none => exact nomatch (workerStep_disabled (h.free t howner).disabled result).symm.trans hstep
      | some g =>
          obtain ⟨hthread, hagree⟩ := h.locked t g howner
          obtain ⟨hagree', hsame⟩ := hagree.workerStep hstep
          have hupdate := h.update (fun u hu => Option.some.inj (hu.symm.trans hthread))
            (fun f hf => Option.some.inj (hf.symm.trans howner)) (.inl ⟨hagree', hthread, hsame.trans howner⟩)
          rwa [Function.update_eq_self] at hupdate

end HandshakeState

end Pnm.Imdb
