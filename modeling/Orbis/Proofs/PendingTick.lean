import Orbis.Proofs.ExceptionTurns

/-!
# Ticks that wait

A timer interrupt is taken by the cycle in which the timer expires, if it is enabled there, and
otherwise by the instruction that writes a special register and thereby enables what is pending. A
return from an exception enables it as well, by the word that it puts back, but does not look at the
timer: a tick that came in the meantime then waits, enabled and pending.
-/

namespace Orbis

namespace TickTimer

def period (t : TickTimer) : BitVec 28 := t.mode.extractLsb' 0 28

/-- What the mode word says apart from the pending mark. -/
def settings (t : TickTimer) : BitVec 2 × Bool × BitVec 28 := (t.kind, t.enabled, t.period)

theorem settings_mark (t : TickTimer) :
    settings { t with mode := t.mode ||| pendingMask } = t.settings := by
  have hkind : pendingMask.extractLsb' 30 2 = 0#2 := by decide
  have hperiod : pendingMask.extractLsb' 0 28 = 0#28 := by decide
  have henable : pendingMask.getLsbD 29 = false := by decide
  simp only [settings, kind, enabled, period, BitVec.extractLsb'_or, BitVec.getLsbD_or, hkind,
    hperiod, henable, BitVec.or_zero, Bool.or_false]

theorem expired_mark (t : TickTimer) :
    TickTimer.expired { t with mode := t.mode ||| pendingMask } = t.expired := by
  obtain ⟨hkind, hrest⟩ := Prod.mk.inj t.settings_mark
  obtain ⟨henabled, hperiod⟩ := Prod.mk.inj hrest
  rw [period] at hperiod
  rw [expired, hkind, henabled, hperiod]
  rfl

theorem pending_advance {t : TickTimer} (h : t.advance.expired = false) :
    t.advance.pending = t.pending := by
  unfold advance at h ⊢
  by_cases hexpired : TickTimer.expired { t with count := t.count + 1 } = true
  · -- The mark does not keep the timer from being found expired.
    rw [if_pos hexpired, expired_mark, hexpired] at h
    cases h
  · rw [if_neg hexpired]
    rfl

end TickTimer

def Call.writesSpr : Call → Bool
  | setSr _ | setSpr _ _ => true
  | _ => false

namespace Cpu

variable {c : Cpu}

theorem tickDue_of_reset (h : c.sr = Supervision.resetValue) : c.tickDue = false := by
  have hreset : Supervision.has Supervision.resetValue .tee = false := by decide
  rw [tickDue, h, hreset, Bool.and_false]

theorem tickDue_ticked (h : (c.ticked.timer.expired && Supervision.has c.sr .tee) = false) :
    c.ticked.tickDue = c.tickDue := by
  have hsr : c.ticked.sr = c.sr := rfl
  rw [tickDue, tickDue, hsr]
  cases htee : Supervision.has c.sr .tee with
  | false => rw [Bool.and_false, Bool.and_false]
  | true =>
    rw [htee, Bool.and_true] at h
    rw [show c.ticked.timer.pending = c.timer.pending from TickTimer.pending_advance h]

theorem attempt_of_expired (h : (c.ticked.timer.expired && Supervision.has c.sr .tee) = true) :
    c.attempt = (c.ticked, .fault .tickTimer c.pc) := by
  unfold attempt
  rw [issue_eq, if_pos h]
  rfl

/-- A cycle that neither takes a timer interrupt nor returns from an exception leaves a tick due
exactly when one was due before and it has written no special register. -/
theorem tickDue_attempt (h : c.issued? ≠ some .rfe)
    (hflow : ∀ a, c.attempt.2 ≠ .fault .tickTimer a) :
    c.attempt.1.tickDue = (c.tickDue && (Step.cycle.sprWrite? c).isNone) := by
  have hissue : (c.ticked.timer.expired && Supervision.has c.sr .tee) = false := by
    apply eq_false_of_ne_true
    intro hexpired
    rw [attempt_of_expired hexpired] at hflow
    exact hflow c.pc rfl
  cases hw : Step.cycle.sprWrite? c with
  | none =>
    have hmodes := SameModes.attempt h
    rw [show c.issued?.bind c.sprWrite? = none from hw] at hmodes
    rw [hmodes.tickDue, Option.isNone_none, Bool.and_true]
    exact tickDue_ticked hissue
  | some w =>
    obtain ⟨i, hi, hwrite⟩ := Option.bind_eq_some_iff.mp hw
    obtain ⟨a, b, k, rfl⟩ := mtspr_of_sprWrite? hwrite
    rw [Option.isNone_some, Bool.and_false]
    rw [attempt_of_issued hi] at hflow ⊢
    -- The instruction itself looks whether it has made a tick due.
    simp only [execute] at hflow ⊢
    split at hflow
    · exact absurd rfl (hflow 0)
    · next hdue =>
      rw [if_neg hdue]
      exact eq_false_of_ne_true hdue

end Cpu

namespace Step

/-- Whether a tick waits after a step: a return has enabled one that was pending, or it waited
already and the step has neither dispatched an exception nor written a special register. -/
def tickWaits (c : Cpu) (step : Step) (waits : Bool) : Bool :=
  match step.turn c with
  | .reset | .enter => false
  | .leave => (step.after c).timer.pending && Supervision.has c.context.supervision .tee
  | .stay => waits && (step.sprWrite? c).isNone

variable {c : Cpu} {step : Step}

theorem tickDue_after (hs : step.Possible (fun k => k.writesSpr = false) c) :
    (step.after c).tickDue = step.tickWaits c c.tickDue := by
  unfold tickWaits
  cases hturn : step.turn c with
  | reset => exact Cpu.tickDue_of_reset (after_reset hturn).1
  | enter =>
    obtain ⟨d, e, a, -, -, hafter⟩ := after_enter hturn
    rw [hafter]
    exact Cpu.tickDue_of_reset rfl
  | leave =>
    obtain ⟨d, hcontext, hafter⟩ := after_leave hturn
    rw [hafter, ← hcontext]
    rfl
  | stay =>
    cases step with
    | cycle =>
      rcases turn_cycle c with ⟨hcycle, -⟩ | ⟨hcycle, -⟩ | ⟨-, hne, hflow, hcycle⟩
      · cases hcycle.symm.trans hturn
      · cases hcycle.symm.trans hturn
      · rw [after, hcycle]
        exact Cpu.tickDue_attempt hne fun a => hflow .tickTimer a
    | call k r =>
      have hnone : (Step.call k r).sprWrite? c = none := by
        cases k with
        | setSr | setSpr => cases hs.1
        | _ => rfl
      rw [(after_stay hturn).tickDue, turning, hnone, Option.isNone_none, Bool.and_true]
      rfl
    | sample | settle => exact (Bool.and_true _).symm
    | interrupt => cases hturn

end Step

/-- Whether a tick waits behind a history: since a return enabled a pending one, the machine was not
reset, no exception was dispatched and no special register written. -/
def History.tickWaits : History → Bool
  | [] => false
  | (c, step) :: past => step.tickWaits c (History.tickWaits past)

theorem Recorded.tickDue_eq {start c : Cpu} {pc : Word} {past : History}
    (h : Recorded (fun k => k.writesSpr = false) (start.boot pc) past c) :
    c.tickDue = past.tickWaits := by
  induction h with
  | start => exact Cpu.tickDue_of_reset rfl
  | push h hs ih => rw [Step.tickDue_after hs, ih, History.tickWaits]

/-- When the host writes no special registers, a cycle leaves a pending and enabled tick behind
exactly when one waits since a return; a tick that an instruction makes due is taken by the same
cycle exactly when that instruction is no return. Runs, too, end with a pending and enabled tick
exactly when one waits. -/
theorem Session.tick_due_iff_waits (start : Cpu) (pc : Word) (as : List Action) :
    let s := (Session.start (start.boot pc)).performAll .real as
    (∀ k, Action.call k ∈ as → k.writesSpr = false) →
    (∀ (c : Cpu) (older : History), (c, .cycle) :: older <:+ s.past →
      (c.cycle.1.tickDue = true ↔ History.tickWaits ((c, .cycle) :: older) = true) ∧
      (older.tickWaits = false → c.attempt.1.tickDue = true →
        (c.cycle.2 = some (.exception .tickTimer) ↔ c.issued? ≠ some .rfe))) ∧
    ∀ budget, (s.now.run budget).1.tickDue = true ↔
      (s.run .real budget).past.tickWaits = true := by
  intro s hcalls
  have hrecorded : Recorded (fun k => k.writesSpr = false) (start.boot pc) s.past s.now :=
    Recorded.performAll (s := Session.start (start.boot pc)) .start hcalls
  constructor
  · intro c older hmoment
    obtain ⟨hc, -⟩ := hrecorded.of_suffix hmoment
    have hafter := (hc.push (s := .cycle) trivial).tickDue_eq
    refine ⟨by rw [← hafter]; rfl, ?_⟩
    intro hquiet hdue
    constructor
    · intro hcycle hrfe
      rw [Cpu.cycle, Cpu.attempt_of_rfe hrfe] at hcycle
      cases hcycle
    · intro hne
      by_cases hflow : ∃ a, c.attempt.2 = .fault .tickTimer a
      · obtain ⟨a, hfault⟩ := hflow
        rw [show c.cycle = c.attempt.1.follow c.attempt.2 from rfl, hfault]
        rfl
      · have hkept := Cpu.tickDue_attempt hne (not_exists.mp hflow)
        rw [hdue, hc.tickDue_eq, hquiet] at hkept
        cases hkept
  · intro budget
    have hrun : (s.run .real budget).now.tickDue = (s.run .real budget).past.tickWaits :=
      (hrecorded.perform (a := .run budget) (by simp)).tickDue_eq
    rw [← hrun, s.now_run_real]

/-- Starts the timer, enables its interrupt and calls the system, whose handler returns. -/
def ticking (period : Half) : List (Nat × Instruction) :=
  [(0x00, .movhi 3 0xe000), (0x04, .ori 3 3 period), (0x08, .mtspr 0 3 0x5000),
    (0x0c, .ori 4 0 0x8003), (0x10, .mtspr 0 4 17), (0x14, .sys 0), (0xc00, .nop 0), (0xc04, .rfe)]

/-- The timer expires before its interrupt is enabled, and the write that enables it takes it. -/
theorem Session.tick_taken_when_enabled :
    let s := (Session.start ((Cpu.holding (ticking 4)).boot 0)).performAll .real [.run 5]
    ∃ (c : Cpu) (older : History), (c, .cycle) :: older <:+ s.past ∧
      c.issued? = some (.mtspr 0 4 17) ∧ c.timer.pending = true ∧
      c.cycle.2 = some (.exception .tickTimer) := by
  intro s
  have hcalls : ∀ k, Action.call k ∈ [Action.run 5] → k.writesSpr = false := by simp
  obtain ⟨c, older, hmoment, hfacts⟩ := History.exists_cycle s.past 1
    (fun c older => c.issued? = some (.mtspr 0 4 17) ∧ c.timer.pending = true ∧
      older.tickWaits = false ∧ c.attempt.1.tickDue = true)
    (by decide +kernel)
  obtain ⟨hi, hpending, hquiet, hdue⟩ := of_decide_eq_true hfacts
  have htaken := ((Session.tick_due_iff_waits _ 0 [.run 5] hcalls).1 c older hmoment).2 hquiet hdue
  refine ⟨c, older, hmoment, hi, hpending, htaken.mpr ?_⟩
  rw [hi]
  simp

/-- The timer expires in the handler of a system call. The return leaves the tick pending and
enabled, and the run goes on. -/
theorem Session.tick_left_waiting :
    ¬∀ (start : Cpu) (pc : Word) (as : List Action) (c : Cpu) (older : History),
      let s := (Session.start (start.boot pc)).performAll .real as
      (∀ k, Action.call k ∈ as → k.writesSpr = false) →
      (c, .cycle) :: older <:+ s.past →
      c.attempt.1.tickDue = true →
      c.cycle.2 = some (.exception .tickTimer) := by
  intro h
  let as : List Action := [.run 6, .run 1, .run 1]
  let s := (Session.start ((Cpu.holding (ticking 7)).boot 0)).performAll .real as
  obtain ⟨c, older, hmoment, hfacts⟩ := History.exists_cycle s.past 1
    (fun c _ => c.attempt.1.tickDue = true ∧ c.cycle.2 = none) (by decide +kernel)
  obtain ⟨hdue, hnext⟩ := of_decide_eq_true hfacts
  have htaken := h (Cpu.holding (ticking 7)) 0 as c older (by simp [as]) hmoment hdue
  exact absurd (hnext.symm.trans htaken) (by decide)

end Orbis
