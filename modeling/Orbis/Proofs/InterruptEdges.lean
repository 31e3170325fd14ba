import Orbis.Proofs.Faults
import Orbis.Proofs.Session

/-!
# Edges of the interrupt line

A run looks at the interrupt line once, before its first cycle. Once an external interrupt was
taken, the next one therefore needs a run that begins with the line down: an edge whose low phase
lies between two such looks is not seen, and the exact condition for an interrupt says so.
-/

namespace Orbis

namespace Cpu

/-- Whether a cycle carries out an instruction that writes the status of the interrupt lines. -/
def writesStatus (c : Cpu) : Bool :=
  match c.issued? with
  | some (.mtspr a _ k) => Spr.ofAddress (c.sprAddress a k) = .interruptStatus
  | _ => false

/-- What a run decides by: the lines as last sampled, and whether a change waits. -/
def sampled (c : Cpu) : Word × Bool := (c.interrupts.status, c.interrupts.pending)

theorem sampled_writeSpr (c : Cpu) {r : Spr} (hr : r ≠ .interruptStatus) (v : Word) :
    (c.writeSpr r v).sampled = c.sampled := by
  cases r with
  | interruptStatus => exact absurd rfl hr
  | mmu side i => cases side <;> rfl
  | _ => rfl

theorem Effect.sampled {c d : Cpu} {i : Instruction} {f : Flow} (h : c.Effect i d f)
    (hw : ∀ a b k, i = .mtspr a b k → Spr.ofAddress (c.sprAddress a k) ≠ .interruptStatus) :
    d.sampled = c.sampled := by
  cases h with
  | transfer => split <;> rfl
  | @mtspr a b k => exact c.sampled_writeSpr (hw a b k rfl) _
  | @mtsprTick a b k => exact c.sampled_writeSpr (hw a b k rfl) _
  | _ => rfl

theorem sampled_follow (c : Cpu) (f : Flow) : (c.follow f).1.sampled = c.sampled := by
  cases f <;> rfl

theorem sampled_cycle {c : Cpu} (h : c.writesStatus = false) : c.cycle.1.sampled = c.sampled := by
  unfold cycle
  rw [sampled_follow]
  cases hi : c.issued? with
  | none =>
    obtain ⟨e, -, hattempt⟩ := attempt_of_not_issued hi
    obtain ⟨memo, last, s, hframe⟩ := c.issue_frame
    rw [hattempt, hframe]
    rfl
  | some i =>
    obtain ⟨memo, last, s, hframe⟩ := c.fetched_frame
    have heffect := c.fetched.execute_effect i
    rw [attempt_of_issued hi, heffect.sampled, hframe]
    · rfl
    · rintro a b k rfl hs
      rw [hframe] at hs
      simp only [writesStatus, hi, decide_eq_false_iff_not] at h
      exact h hs

/-- The word that a sample shows while the line is up. -/
def lineWord : Word := 1#32 <<< Bus.uartLine

theorem interrupts_eq (c : Cpu) :
    c.bus.interrupts = if c.bus.uart.interrupting then lineWord else 0 := rfl

end Cpu

/-- Whether an edge of the line would be seen: no external interrupt was taken yet, or a run since
the latest one began with the line down. -/
def History.armed : History → Bool
  | [] => true
  | (_, .interrupt) :: _ => false
  | (c, .sample) :: past => !c.bus.uart.interrupting || History.armed past
  | _ :: past => History.armed past

/-- Whether no cycle wrote the status of the interrupt lines. -/
def History.statusKept (past : History) : Bool :=
  past.all fun (c, step) => match step with
    | .cycle => !c.writesStatus
    | _ => true

/-- What the controller knows of the history: it shows nothing or the line, and it shows nothing or
has an edge waiting exactly when it is armed. -/
structure ArmedBy (past : History) (s : Word × Bool) : Prop where
  shown : s.1 = 0 ∨ s.1 = Cpu.lineWord
  armed_iff : past.armed = true ↔ s.1 = 0 ∨ s.2 = true

namespace ArmedBy

variable {past : History} {c : Cpu}

theorem sample (h : ArmedBy past c.sampled) :
    ArmedBy ((c, .sample) :: past) c.sampleInterrupts.sampled := by
  have hsample : c.sampleInterrupts.sampled =
      if c.bus.interrupts = c.interrupts.status then c.sampled
      else (c.bus.interrupts, c.bus.interrupts != 0) := by
    unfold Cpu.sampleInterrupts Cpu.sampled InterruptController.sample
    split <;> rfl
  rw [hsample, c.interrupts_eq]
  cases hline : c.bus.uart.interrupting with
  | false =>
    -- The line is down, so the controller shows nothing from here on.
    have harmed : History.armed ((c, .sample) :: past) = true := by
      simp only [History.armed, hline, Bool.not_false, Bool.true_or]
    have hzero : (if (0 : Word) = c.interrupts.status then c.sampled
        else ((0 : Word), (0 : Word) != 0)).1 = 0 := by
      split
      · next h0 => exact h0.symm
      · rfl
    exact ⟨.inl hzero, iff_of_true harmed (.inl hzero)⟩
  | true =>
    have harmed : History.armed ((c, .sample) :: past) = past.armed := by
      simp only [History.armed, hline, Bool.not_true, Bool.false_or]
    rw [if_pos rfl]
    by_cases hsame : Cpu.lineWord = c.interrupts.status
    · rw [if_pos hsame]
      exact ⟨h.shown, harmed ▸ h.armed_iff⟩
    · -- The controller showed nothing, so it was armed, and now an edge waits.
      have hzero : c.sampled.1 = 0 := h.shown.resolve_right (Ne.symm hsame)
      rw [if_neg hsame]
      exact ⟨.inr rfl, iff_of_true (harmed.trans (h.armed_iff.mpr (.inl hzero))) (.inr rfl)⟩

theorem interrupt (h : ArmedBy past c.sampled) (hdue : c.interruptDue = true) :
    ArmedBy ((c, .interrupt) :: past) c.takeInterrupt.sampled := by
  have hshown : c.sampled.1 ≠ 0 := by
    intro hzero
    have hstatus : c.interrupts.status = 0 := hzero
    simp [Cpu.interruptDue, InterruptController.due, hstatus] at hdue
  rw [show c.takeInterrupt.sampled = (c.sampled.1, false) from rfl]
  refine ⟨h.shown, ?_⟩
  constructor
  · exact nofun
  · rintro (hzero | hpending)
    · exact absurd hzero hshown
    · cases hpending

/-- Steps that neither sample nor interrupt change nothing that counts. -/
theorem of_recorded {start : Cpu} {pc : Word}
    (h : Recorded Call.Console (start.boot pc) past c)
    (hstatus : past.statusKept = true) : ArmedBy past c.sampled := by
  induction h with
  | start => exact ⟨.inl rfl, iff_of_true rfl (.inl rfl)⟩
  | @push past c s _ hs ih =>
    obtain ⟨hstep, hrest⟩ := Bool.and_eq_true_iff.mp hstatus
    have hpast := ih hrest
    cases s with
    | call k r =>
      obtain ⟨uart, hconsole⟩ := c.answer_console hs.1
      rw [show (Step.call k r).after c = (c.answer k).2 from rfl, hconsole]
      exact ⟨hpast.shown, hpast.armed_iff⟩
    | sample => exact hpast.sample
    | interrupt => exact hpast.interrupt hs
    | cycle =>
      have hkept : c.writesStatus = false := by simpa using hstep
      rw [show Step.cycle.after c = c.cycle.1 from rfl, Cpu.sampled_cycle hkept]
      exact ⟨hpast.shown, hpast.armed_iff⟩
    | settle o => exact ⟨hpast.shown, hpast.armed_iff⟩

end ArmedBy

namespace Cpu

theorem lineWord_and (mask : Word) :
    (lineWord &&& mask != 0) = mask.getLsbD Bus.uartLine := by
  have hword : lineWord = BitVec.twoPow 32 Bus.uartLine := rfl
  rw [hword, BitVec.twoPow_and]
  cases mask.getLsbD Bus.uartLine <;> rfl

theorem run_externalInterrupt_iff (c : Cpu) (budget : Nat) :
    (c.run budget).2 = .exception .externalInterrupt ↔ c.sampleInterrupts.interruptDue = true := by
  unfold run
  by_cases hdue : c.sampleInterrupts.interruptDue = true
  · simp only [hdue, if_true]
  · simp only [hdue]
    exact iff_of_false (cycles_ne_externalInterrupt _ budget) Bool.false_ne_true

/-- With the line up, enabled and unmasked, an interrupt is due exactly when the controller showed
nothing or had an edge waiting. -/
theorem due_iff_of_up {c : Cpu} (hline : c.bus.uart.interrupting = true)
    (hiee : Supervision.has c.sr .iee = true)
    (hmask : c.interrupts.mask.getLsbD Bus.uartLine = true)
    (hshown : c.sampled.1 = 0 ∨ c.sampled.1 = lineWord) :
    c.sampleInterrupts.interruptDue = true ↔ c.sampled.1 = 0 ∨ c.sampled.2 = true := by
  have hlines : c.bus.interrupts = lineWord := by rw [interrupts_eq, hline, if_pos rfl]
  have hne : lineWord ≠ 0 := by decide
  unfold interruptDue sampleInterrupts InterruptController.due InterruptController.sample
  rw [hlines, hiee, Bool.true_and]
  rcases hshown with hzero | hup
  · have hstatus : c.interrupts.status = 0 := hzero
    rw [if_neg (by rw [hstatus]; exact hne)]
    simp only [lineWord_and, hmask]
    exact iff_of_true (by decide) (.inl hzero)
  · have hstatus : c.interrupts.status = lineWord := hup
    rw [if_pos hstatus.symm, hstatus, lineWord_and, hmask, Bool.and_true]
    constructor
    · exact .inr
    · rintro (hzero | hpending)
      · exact absurd (hup.symm.trans hzero) hne
      · exact hpending

end Cpu

/-- When the line is up, enabled and unmasked at the beginning of a run, the run takes an external
interrupt exactly when the history is armed. -/
theorem Session.run_interrupts_iff_armed (start : Cpu) (pc : Word) (as : List Action)
    (budget : Nat) :
    let s := (Session.start (start.boot pc)).performAll .real as
    (∀ k, Action.call k ∈ as → k.Console) →
    s.past.statusKept = true →
    s.now.bus.uart.interrupting = true →
    Supervision.has s.now.sr .iee = true →
    s.now.interrupts.mask.getLsbD Bus.uartLine = true →
    ((s.now.run budget).2 = .exception .externalInterrupt ↔ s.past.armed = true) := by
  intro s hcalls hstatus hline hiee hmask
  have hrecorded : Recorded Call.Console (start.boot pc) s.past s.now :=
    Recorded.performAll (s := Session.start (start.boot pc)) .start hcalls
  have harmed := ArmedBy.of_recorded hrecorded hstatus
  rw [Cpu.run_externalInterrupt_iff, Cpu.due_iff_of_up hline hiee hmask harmed.shown,
    harmed.armed_iff]

/-! ### An edge that no run sees -/

/-- Whether the line rose since the latest run began: it was down at a moment behind the latest
external interrupt, and no run has begun while it was up again. -/
def History.risen : History → Bool
  | [] => false
  | (_, .interrupt) :: _ => false
  | (c, .sample) :: _ => !c.bus.uart.interrupting
  | (c, _) :: past => !c.bus.uart.interrupting || History.risen past

/-- Enables the interrupts of the serial line and waits; the handler takes one byte. -/
def receiver : List (Nat × Instruction) :=
  [(0x00, .movhi 1 0x9000), (0x04, .ori 2 0 1), (0x08, .store .sb 1 2 1), (0x0c, .ori 3 0 4),
    (0x10, .mtspr 0 3 0x4800), (0x14, .ori 4 0 0x8005), (0x18, .mtspr 0 4 17),
    (0x800, .load .lbz 5 1 0), (0x804, .rfe)]

/-- A key, the interrupt, its handler, a number of further runs, and another key. -/
def receiving (idle : List Nat) : List Action :=
  [.run 7, .call (.press [0x78]), .run 1, .run 2] ++ idle.map .run ++ [.call (.press [0x79])]

theorem receiving_console (idle : List Nat) (k : Call) (h : Action.call k ∈ receiving idle) :
    k.Console := by
  simp only [receiving, List.mem_append, List.mem_cons, List.mem_map, List.not_mem_nil,
    Action.call.injEq, reduceCtorEq, and_false, exists_false, false_or, or_false] at h
  rcases h with rfl | rfl <;> trivial

/-- A run that begins between two keys sees the line down, so the second key interrupts too. -/
theorem Session.run_interrupts_second_key :
    let s := (Session.start ((Cpu.holding receiver).boot 0)).performAll .real (receiving [1])
    (s.past.statusKept = true ∧ s.now.bus.uart.interrupting = true ∧
      Supervision.has s.now.sr .iee = true ∧
      s.now.interrupts.mask.getLsbD Bus.uartLine = true ∧ s.past.armed = true) ∧
    (s.now.run 1).2 = .exception .externalInterrupt := by
  intro s
  have hkept : s.past.statusKept = true := by decide +kernel
  have hline : s.now.bus.uart.interrupting = true := by decide +kernel
  have hiee : Supervision.has s.now.sr .iee = true := by decide +kernel
  have hmask : s.now.interrupts.mask.getLsbD Bus.uartLine = true := by decide +kernel
  have harmed : s.past.armed = true := by decide +kernel
  exact ⟨⟨hkept, hline, hiee, hmask, harmed⟩,
    (Session.run_interrupts_iff_armed _ _ _ 1 (receiving_console [1]) hkept hline hiee
      hmask).mpr harmed⟩

/-- The line falls in the handler and rises with the second key before another run begins: the
edge is lost. -/
theorem Session.edge_lost :
    ¬∀ (start : Cpu) (pc : Word) (as : List Action) (budget : Nat),
      let s := (Session.start (start.boot pc)).performAll .real as
      (∀ k, Action.call k ∈ as → k.Console) →
      s.past.statusKept = true →
      s.past.risen = true →
      s.now.bus.uart.interrupting = true →
      Supervision.has s.now.sr .iee = true →
      s.now.interrupts.mask.getLsbD Bus.uartLine = true →
      (s.now.run budget).2 = .exception .externalInterrupt := by
  intro h
  have hlost := h (Cpu.holding receiver) 0 (receiving []) 1 (receiving_console [])
    (by decide +kernel) (by decide +kernel) (by decide +kernel) (by decide +kernel)
    (by decide +kernel)
  exact absurd hlost (by decide +kernel)

end Orbis
