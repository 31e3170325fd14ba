import Orbis.Proofs.Cycle
import Orbis.Simulator

/-!
# Sessions

What a host can do with a machine, and the record of it: the steps that were made, each with the
state in which it began, the latest first. A run leaves the sample of the interrupt lines, its
cycles and its end as steps of their own, so a moment inside a run is as good as one between runs.
`Session.run_real` says that these are the steps of the run itself, each in the state that the run
has reached by then; what holds of records is proved from it.
-/

namespace Orbis

/-- What a host can ask of a machine beside running it. -/
inductive Call where
  | reset
  | loadImage (image : ByteArray) (pc : Word)
  | setReg (r : Reg) (v : Word)
  | setPc (v : Word)
  | setSr (v : Word)
  | readSpr (a : Word)
  | setSpr (a v : Word)
  | load (op : LoadOp) (a : Word)
  | store (op : StoreOp) (a v : Word)
  | raise (e : Exception) (address : Word)
  | returnFromException
  | press (keys : List Byte)
  | take
  | drain
  /-- Reads from the bus at a physical address. -/
  | peek (w : Width) (a : Word)
  /-- Writes to the bus at a physical address. -/
  | poke (w : Width) (a v : Word)
  | place (image : ByteArray) (offset : Word)

def Call.Console : Call → Prop
  | press _ | take | drain => True
  | _ => False

/-- What a host does with a machine. -/
inductive Action where
  | run (budget : Nat)
  | call (k : Call)

inductive Response where
  | done
  | word (v : Word)
  | loaded (r : Except Exception Word)
  | stored (r : Except Exception Unit)
  | image (r : Except ImageError Nat)
  | placed (r : Except ImageError Unit)
  | byte (b : Option Byte)
  | bytes (bs : Array Byte)

/-- Memory that holds instructions at some addresses and zeros elsewhere. -/
def Ram.holding (program : List (Nat × Instruction)) : Ram Bus.ramSize :=
  program.foldl (fun r (a, i) => r.write .word a i.encode) .zero

namespace Cpu

/-- A machine as it is switched on, with a program in its memory. -/
def holding (program : List (Nat × Instruction)) : Cpu :=
  { initial with bus := { Bus.initial with ram := .holding program } }

/-- A machine out of reset whose program begins at an address. Memory and the console stay. -/
def boot (c : Cpu) (pc : Word) : Cpu := { c.reset with pc := pc }

def hosted (c : Cpu) : Simulator := ⟨c, .initial⟩

/-- The answer to a call, and the state behind it. -/
def answer (c : Cpu) : Call → Response × Cpu
  | .reset => (.done, c.reset)
  | .loadImage image pc => let (r, s) := c.hosted.loadImage image pc; (.image r, s.cpu)
  | .setReg r v => (.done, c.setReg r v)
  | .setPc v => (.done, { c with pc := v })
  | .setSr v => (.done, c.setSr v)
  | .readSpr a => (.word (c.spr a), c)
  | .setSpr a v => (.done, c.setSpr a v)
  | .load op a => let (r, c) := c.load op a; (.loaded r, c)
  | .store op a v => let (r, c) := c.store op a v; (.stored r, c)
  | .raise e a => (.done, c.raise e a)
  | .returnFromException => (.done, c.returnFromException)
  | .press keys => (.done, (c.hosted.receive keys).cpu)
  | .take => let (b, s) := c.hosted.read?; (.byte b, s.cpu)
  | .drain => let (bs, s) := c.hosted.drain; (.bytes bs, s.cpu)
  | .peek w a =>
    match c.bus.load w a with
    | .ok (v, bus) => (.loaded (.ok v), { c with bus := bus })
    | .error e => (.loaded (.error e), c)
  | .poke w a v =>
    match c.bus.store w a v with
    | .ok bus => (.stored (.ok ()), { c with bus := bus })
    | .error e => (.stored (.error e), c)
  | .place image offset =>
    match c.bus.loadImage image offset with
    | .ok bus => (.placed (.ok ()), { c with bus := bus })
    | .error e => (.placed (.error e), c)

/-- Calls of the console reach nothing but the serial line. -/
theorem answer_console (c : Cpu) {k : Call} (hk : k.Console) :
    ∃ uart, (c.answer k).2 = { c with bus := { c.bus with uart := uart } } := by
  cases k with
  | press | take | drain => exact ⟨_, rfl⟩
  | _ => exact hk.elim

end Cpu

inductive Step where
  | call (k : Call) (r : Response)
  /-- The sample of the interrupt lines with which a run begins. -/
  | sample
  /-- The external interrupt that a run takes instead of making cycles. -/
  | interrupt
  | cycle
  | settle (o : Outcome)

/-- The steps of a session with the states in which they began, the latest first. -/
abbrev History := List (Cpu × Step)

/-- How a machine makes cycles and answers calls; all else is common to all machines. -/
structure Machine where
  cycle : Cpu → Cpu × Option Outcome
  answer : Cpu → Call → Response × Cpu

def Machine.real : Machine := ⟨Cpu.cycle, Cpu.answer⟩

/-- A session: what has happened, and the present state. -/
structure Session where
  past : History
  now : Cpu

namespace Session

def start (c : Cpu) : Session := ⟨[], c⟩

def push (s : Session) (step : Step) (c : Cpu) : Session := ⟨(s.now, step) :: s.past, c⟩

def settle (s : Session) (o : Outcome) : Session := s.push (.settle o) (s.now.settle o)

variable (m : Machine)

/-- The cycles of a run and its end. -/
def cycles (s : Session) : (budget : Nat) → Session
  | 0 => s.settle .completed
  | budget + 1 =>
    match m.cycle s.now with
    | (c, none) => (s.push .cycle c).cycles budget
    | (c, some o) => (s.push .cycle c).settle o

def run (s : Session) (budget : Nat) : Session :=
  let s := s.push .sample s.now.sampleInterrupts
  if s.now.interruptDue then
    (s.push .interrupt s.now.takeInterrupt).settle (.exception .externalInterrupt)
  else s.cycles m budget

def perform (s : Session) : Action → Session
  | .run budget => s.run m budget
  | .call k => let (r, c) := m.answer s.now k; s.push (.call k r) c

def performAll (s : Session) (as : List Action) : Session := as.foldl (perform m) s

end Session

/-! ### The record of the machine itself -/

namespace Cpu

variable {c d : Cpu} {o : Outcome} {budget n : Nat} {steps : History}

/-- The first cycles of a run, each in the state that the run has reached by the cycles before. -/
def cycleRecord (c : Cpu) : (n : Nat) → History
  | 0 => []
  | n + 1 => ((c.cycles n).1, .cycle) :: c.cycleRecord n

theorem cycles_of_next (h : c.cycle = (d, none)) (n : Nat) : c.cycles (n + 1) = d.cycles n := by
  rw [cycles, h]

theorem cycles_of_stop (h : c.cycle = (d, some o)) (n : Nat) : c.cycles (n + 1) = (d, o) := by
  rw [cycles, h]

theorem cycleRecord_of_next (h : c.cycle = (d, none)) (n : Nat) :
    c.cycleRecord (n + 1) = d.cycleRecord n ++ [(c, .cycle)] := by
  induction n with
  | zero => rfl
  | succ n ih =>
    rw [cycleRecord, ih, cycles_of_next h]
    rfl

/-- A budget is good for a number of cycles: all of it is used up, or the last of them stops. -/
inductive Makes : Cpu → (budget : Nat) → (n : Nat) → Prop
  | spent (c : Cpu) : Makes c 0 0
  | next {c d : Cpu} {budget n : Nat} (h : c.cycle = (d, none)) (hd : Makes d budget n) :
      Makes c (budget + 1) (n + 1)
  | stop {c d : Cpu} {o : Outcome} (h : c.cycle = (d, some o)) (budget : Nat) :
      Makes c (budget + 1) 1

theorem exists_makes (c : Cpu) (budget : Nat) : ∃ n, c.Makes budget n := by
  induction budget generalizing c with
  | zero => exact ⟨0, .spent c⟩
  | succ budget ih =>
    cases hcycle : c.cycle with
    | mk d stop =>
      cases stop with
      | none =>
        obtain ⟨n, hn⟩ := ih d
        exact ⟨n + 1, .next hcycle hn⟩
      | some o => exact ⟨1, .stop hcycle budget⟩

theorem Makes.cycles_eq (h : c.Makes budget n) : c.cycles n = c.cycles budget := by
  induction h with
  | spent => rfl
  | next h _ ih => rw [cycles_of_next h, cycles_of_next h, ih]
  | stop h => rw [cycles_of_stop h, cycles_of_stop h]

/-- The steps that a run makes behind its sample, and what they lead to. -/
inductive RunSteps (c : Cpu) (budget : Nat) : History → Cpu → Outcome → Prop
  | interrupt (hdue : c.interruptDue = true) :
      RunSteps c budget [(c, .interrupt)] c.takeInterrupt (.exception .externalInterrupt)
  | cycles {n : Nat} (hdue : c.interruptDue = false) (hn : c.Makes budget n) :
      RunSteps c budget (c.cycleRecord n) (c.cycles n).1 (c.cycles n).2

theorem RunSteps.run_eq (h : c.sampleInterrupts.RunSteps budget steps d o) :
    c.run budget = (d.settle o, o) := by
  unfold run
  cases h with
  | interrupt hdue => simp only [hdue, if_true]
  | cycles hdue hn => simp only [hdue, Bool.false_eq_true, if_false, ← hn.cycles_eq]

end Cpu

namespace Session

theorem cycles_real (s : Session) {budget n : Nat} (h : s.now.Makes budget n) :
    s.cycles .real budget =
      ⟨((s.now.cycles n).1, .settle (s.now.cycles n).2) :: (s.now.cycleRecord n ++ s.past),
        (s.now.cycles n).1.settle (s.now.cycles n).2⟩ := by
  generalize hc : s.now = c at h
  induction h generalizing s with
  | spent =>
    subst hc
    rfl
  | @next c d budget n h _ ih =>
    subst hc
    rw [cycles, show Machine.real.cycle s.now = (d, none) from h, Cpu.cycles_of_next h,
      Cpu.cycleRecord_of_next h, List.append_assoc]
    exact ih (s.push .cycle d) rfl
  | @stop c d o h =>
    subst hc
    rw [cycles, show Machine.real.cycle s.now = (d, some o) from h, Cpu.cycles_of_stop h]
    rfl

/-- The record of a run of the machine itself: the sample, the steps that the loop of the run makes
behind it, each in the state in which the loop makes it, and the outcome that the run returns. -/
theorem run_real (s : Session) (budget : Nat) :
    ∃ steps d o, s.now.sampleInterrupts.RunSteps budget steps d o ∧
      s.now.run budget = (d.settle o, o) ∧
      s.run .real budget =
        ⟨(d, .settle o) :: (steps ++ (s.now, .sample) :: s.past), d.settle o⟩ := by
  by_cases hdue : s.now.sampleInterrupts.interruptDue = true
  · have hsteps : s.now.sampleInterrupts.RunSteps budget _ _ _ := .interrupt hdue
    refine ⟨_, _, _, hsteps, hsteps.run_eq, ?_⟩
    simp only [run, push, hdue, if_true]
    rfl
  · have hoff := Bool.eq_false_iff.mpr hdue
    obtain ⟨n, hn⟩ := s.now.sampleInterrupts.exists_makes budget
    have hsteps : s.now.sampleInterrupts.RunSteps budget _ _ _ := .cycles hoff hn
    refine ⟨_, _, _, hsteps, hsteps.run_eq, ?_⟩
    simp only [run, push, hoff, Bool.false_eq_true, if_false]
    exact cycles_real ⟨(s.now, .sample) :: s.past, s.now.sampleInterrupts⟩ hn

theorem now_run_real (s : Session) (budget : Nat) :
    (s.run .real budget).now = (s.now.run budget).1 := by
  obtain ⟨steps, d, o, -, hrun, hreal⟩ := s.run_real budget
  rw [hreal, hrun]

variable (m : Machine)

theorem past_cycles (s : Session) (budget : Nat) : s.past <:+ (s.cycles m budget).past := by
  induction budget generalizing s with
  | zero => exact List.suffix_cons _ _
  | succ n ih =>
    unfold cycles
    cases m.cycle s.now with
    | mk c stop =>
      cases stop with
      | none => exact (List.suffix_cons _ _).trans (ih (s.push .cycle c))
      | some o => exact (List.suffix_cons _ _).trans (List.suffix_cons _ _)

theorem past_run (s : Session) (budget : Nat) :
    (s.now, .sample) :: s.past <:+ (s.run m budget).past := by
  simp only [run]
  split
  · exact (List.suffix_cons _ _).trans (List.suffix_cons _ _)
  · exact past_cycles m (s.push .sample s.now.sampleInterrupts) budget

theorem past_performAll (s : Session) (as : List Action) :
    s.past <:+ (s.performAll m as).past := by
  induction as generalizing s with
  | nil => exact List.suffix_refl _
  | cons a as ih =>
    refine List.IsSuffix.trans ?_ (ih (s.perform m a))
    cases a with
    | run budget => exact (List.suffix_cons _ _).trans (past_run m s budget)
    | call k => exact List.suffix_cons _ _

end Session

/-! ### Running until a halt -/

namespace Simulator

/-- The budgets of the runs that are made before a limit. -/
def budgetsBefore (s : Simulator) (limit : Nat) : (runs : Nat) → List Nat
  | 0 => []
  | runs + 1 =>
    if s.cycles < limit then
      s.budgetBefore limit ::
        match s.run (s.budgetBefore limit) with
        | (_, .halted) => []
        | (s, _) => s.budgetsBefore limit runs
    else []

/-- Running until a halt, run by run. -/
def actions (s : Simulator) (maxCycles : Nat) : List Action :=
  (s.budgetsBefore (s.cycles + maxCycles) (2 * maxCycles + 1)).map .run

theorem runBefore_eq_performAll (s : Simulator) (limit runs : Nat) (past : History) :
    (s.runBefore limit runs).1.cpu =
      ((⟨past, s.cpu⟩ : Session).performAll .real
        ((s.budgetsBefore limit runs).map .run)).now := by
  induction runs generalizing s past with
  | zero => rfl
  | succ n ih =>
    unfold runBefore budgetsBefore
    split
    · obtain ⟨steps, d, o, -, hrun, hreal⟩ :=
        (⟨past, s.cpu⟩ : Session).run_real (s.budgetBefore limit)
      rw [List.map_cons, Session.performAll, List.foldl_cons, Session.perform, hreal, run, hrun]
      cases o with
      | halted => rfl
      | completed | exception => exact ih { s with cpu := d.settle _ } _
    · rfl

theorem runUntilHalt_eq_performAll (s : Simulator) (maxCycles : Nat) :
    (s.runUntilHalt maxCycles).1.cpu =
      ((Session.start s.cpu).performAll .real (s.actions maxCycles)).now :=
  s.runBefore_eq_performAll _ _ []

end Simulator

/-! ### Histories as they can come about -/

namespace Step

def after (c : Cpu) : Step → Cpu
  | .call k _ => (c.answer k).2
  | .sample => c.sampleInterrupts
  | .interrupt => c.takeInterrupt
  | .cycle => c.cycle.1
  | .settle o => c.settle o

/-- The exception that the machine dispatches in a step. -/
def exception? (c : Cpu) : Step → Option Exception
  | .interrupt => some .externalInterrupt
  | .cycle =>
    match c.cycle.2 with
    | some (.exception e) => some e
    | _ => none
  | _ => none

/-- Whether a step can be made: calls are among the allowed ones and answered, and an interrupt is
taken when it is due. -/
def Possible (allowed : Call → Prop) (c : Cpu) : Step → Prop
  | .call k r => allowed k ∧ r = (c.answer k).1
  | .interrupt => c.interruptDue = true
  | _ => True

end Step

/-- The histories, with the states behind them, that possible steps make from a start. -/
inductive Recorded (allowed : Call → Prop) (start : Cpu) : History → Cpu → Prop
  | start : Recorded allowed start [] start
  | push {past : History} {c : Cpu} {s : Step} (h : Recorded allowed start past c)
      (hs : s.Possible allowed c) : Recorded allowed start ((c, s) :: past) (s.after c)

/-- The moment a number of steps before the end of a history. -/
theorem History.exists_moment (past : History) (n : Nat) (p : Cpu → Step → History → Bool)
    (h : (past.drop n).head?.any (fun m => p m.1 m.2 (past.drop (n + 1))) = true) :
    ∃ c s older, (c, s) :: older <:+ past ∧ p c s older = true := by
  rw [← List.tail_drop] at h
  cases hdrop : past.drop n with
  | nil =>
    rw [hdrop] at h
    cases h
  | cons m older =>
    rw [hdrop] at h
    exact ⟨m.1, m.2, older, hdrop ▸ List.drop_suffix n past, h⟩

def Step.isCycle : Step → Bool
  | .cycle => true
  | _ => false

/-- The cycle a number of steps before the end of a history. -/
theorem History.exists_cycle (past : History) (n : Nat) (p : Cpu → History → Bool)
    (h : (past.drop n).head?.any (fun m => m.2.isCycle && p m.1 (past.drop (n + 1))) = true) :
    ∃ c older, (c, .cycle) :: older <:+ past ∧ p c older = true := by
  obtain ⟨c, step, older, hmoment, hcycle⟩ :=
    History.exists_moment past n (fun c step older => step.isCycle && p c older) h
  obtain ⟨hcycle, hp⟩ := Bool.and_eq_true_iff.mp hcycle
  cases step with
  | cycle => exact ⟨c, older, hmoment, hp⟩
  | _ => cases hcycle

namespace Recorded

variable {allowed : Call → Prop} {start : Cpu} {past : History} {c d : Cpu} {s : Step}

theorem inv (h : Recorded allowed start ((c, s) :: past) d) :
    Recorded allowed start past c ∧ s.Possible allowed c ∧ d = s.after c := by
  cases h with
  | push h hs => exact ⟨h, hs, rfl⟩

theorem of_suffix (h : Recorded allowed start past d) {older : History}
    (hp : (c, s) :: older <:+ past) :
    Recorded allowed start older c ∧ s.Possible allowed c := by
  induction h with
  | start => cases List.eq_nil_of_suffix_nil hp
  | push h hs ih =>
    rcases List.suffix_cons_iff.mp hp with heq | hp
    · cases heq
      exact ⟨h, hs⟩
    · exact ih hp

theorem cycles (h : Recorded allowed start past c) {budget n : Nat} (hn : c.Makes budget n) :
    Recorded allowed start (c.cycleRecord n ++ past) (c.cycles n).1 := by
  induction hn generalizing past with
  | spent => exact h
  | @next c d budget n hcycle _ ih =>
    have hd := h.push (s := .cycle) trivial
    rw [Step.after, hcycle] at hd
    rw [Cpu.cycleRecord_of_next hcycle, Cpu.cycles_of_next hcycle, List.append_assoc]
    exact ih hd
  | @stop c d o hcycle =>
    have hd := h.push (s := .cycle) trivial
    rw [Step.after, hcycle] at hd
    rw [Cpu.cycles_of_stop hcycle]
    exact hd

theorem run {s : Session} (h : Recorded allowed start s.past s.now) (budget : Nat) :
    Recorded allowed start (s.run .real budget).past (s.run .real budget).now := by
  have hsample := h.push (s := .sample) trivial
  obtain ⟨steps, d, o, hsteps, -, hreal⟩ := s.run_real budget
  rw [hreal]
  suffices Recorded allowed start (steps ++ (s.now, .sample) :: s.past) d from
    this.push (s := .settle o) trivial
  cases hsteps with
  | interrupt hdue => exact hsample.push (s := .interrupt) hdue
  | cycles _ hn => exact hsample.cycles hn

theorem perform {s : Session} (h : Recorded allowed start s.past s.now) {a : Action}
    (ha : ∀ k, a = .call k → allowed k) :
    Recorded allowed start (s.perform .real a).past (s.perform .real a).now := by
  cases a with
  | run budget => exact h.run budget
  | call k => exact h.push (s := .call k (s.now.answer k).1) ⟨ha k rfl, rfl⟩

theorem performAll {s : Session} (h : Recorded allowed start s.past s.now) {as : List Action}
    (has : ∀ k, Action.call k ∈ as → allowed k) :
    Recorded allowed start (s.performAll .real as).past (s.performAll .real as).now := by
  induction as generalizing s with
  | nil => exact h
  | cons a as ih =>
    apply ih (h.perform fun k hk => has k (hk ▸ List.mem_cons_self))
    intro k hk
    exact has k (List.mem_cons_of_mem a hk)

end Recorded

/-! ### Histories of whole runs -/

/-- The histories of sessions that go on from a session and make every run to its end: a cycle that
ends its run comes with that end, and so does an interrupt with the sample before it. -/
inductive RunByRun (s : Session) : History → Cpu → Prop
  | start : RunByRun s s.past s.now
  | call {past : History} {c : Cpu} (h : RunByRun s past c) (k : Call) :
      RunByRun s ((c, .call k (c.answer k).1) :: past) (c.answer k).2
  | sample {past : History} {c : Cpu} (h : RunByRun s past c) :
      RunByRun s ((c, .sample) :: past) c.sampleInterrupts
  | interrupt {past : History} {c : Cpu} (h : RunByRun s past c)
      (hdue : c.sampleInterrupts.interruptDue = true) :
      RunByRun s
        ((c.sampleInterrupts.takeInterrupt, .settle (.exception .externalInterrupt)) ::
          (c.sampleInterrupts, .interrupt) :: (c, .sample) :: past)
        (c.sampleInterrupts.takeInterrupt.settle (.exception .externalInterrupt))
  | cycle {past : History} {c d : Cpu} (h : RunByRun s past c) (hc : c.cycle = (d, none)) :
      RunByRun s ((c, .cycle) :: past) d
  | stop {past : History} {c d : Cpu} {o : Outcome} (h : RunByRun s past c)
      (hc : c.cycle = (d, some o)) :
      RunByRun s ((d, .settle o) :: (c, .cycle) :: past) (d.settle o)
  | complete {past : History} {c : Cpu} (h : RunByRun s past c) :
      RunByRun s ((c, .settle .completed) :: past) (c.settle .completed)

namespace RunByRun

variable {s t : Session} {past : History} {c : Cpu}

theorem cycles (h : RunByRun s past c) {budget n : Nat} (hn : c.Makes budget n) :
    RunByRun s (((c.cycles n).1, .settle (c.cycles n).2) :: (c.cycleRecord n ++ past))
      ((c.cycles n).1.settle (c.cycles n).2) := by
  induction hn generalizing past with
  | spent => exact h.complete
  | next hcycle _ ih =>
    rw [Cpu.cycleRecord_of_next hcycle, Cpu.cycles_of_next hcycle, List.append_assoc]
    exact ih (h.cycle hcycle)
  | stop hcycle =>
    rw [Cpu.cycles_of_stop hcycle]
    exact h.stop hcycle

theorem run (h : RunByRun s t.past t.now) (budget : Nat) :
    RunByRun s (t.run .real budget).past (t.run .real budget).now := by
  obtain ⟨steps, d, o, hsteps, -, hreal⟩ := t.run_real budget
  rw [hreal]
  cases hsteps with
  | interrupt hdue => exact h.interrupt hdue
  | cycles _ hn => exact h.sample.cycles hn

theorem perform (h : RunByRun s t.past t.now) (a : Action) :
    RunByRun s (t.perform .real a).past (t.perform .real a).now := by
  cases a with
  | run budget => exact h.run budget
  | call k => exact h.call k

theorem performAll (h : RunByRun s t.past t.now) (as : List Action) :
    RunByRun s (t.performAll .real as).past (t.performAll .real as).now := by
  induction as generalizing t with
  | nil => exact h
  | cons a as ih => exact ih (h.perform a)

end RunByRun

end Orbis
