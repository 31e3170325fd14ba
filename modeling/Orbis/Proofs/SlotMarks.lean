import Orbis.Proofs.ExceptionTurns

/-!
# The mark of delay slots

An exception in a delay slot saves a supervision word with a mark, and the return puts that word
back, mark and all. Nothing clears the mark there, so the next exception saves it again from
wherever it comes: what it saves tells the truth exactly when it comes from a delay slot or finds no
mark left over.
-/

namespace Orbis

/-- The two places where the mark of delay slots can be. -/
structure Marks where
  current : Bool
  saved : Bool
  deriving DecidableEq

namespace Cpu

def marks (c : Cpu) : Marks :=
  ⟨Supervision.has c.sr .dsx, Supervision.has c.context.supervision .dsx⟩

theorem SameModes.marks_eq {c d : Cpu} (h : c.SameModes d) : d.marks = c.marks := by
  rw [marks, marks, h.sr .dsx (by decide), h.saved]

theorem marks_of_reset {c : Cpu} (hsr : c.sr = Supervision.resetValue)
    (hsaved : c.context.supervision = 0) : c.marks = ⟨false, false⟩ := by
  rw [marks, hsr, hsaved]
  decide

theorem has_savedSr (c : Cpu) :
    Supervision.has c.savedSr .dsx = (c.inDelaySlot || Supervision.has c.sr .dsx) := by
  unfold savedSr
  cases c.inDelaySlot with
  | true =>
    rw [if_pos rfl, Supervision.has_or, Supervision.has_mask]
    simp
  | false => rfl

theorem marks_raise (c : Cpu) (e : Exception) (a : Word) :
    (c.raise e a).marks = ⟨false, c.inDelaySlot || c.marks.current⟩ := by
  have hreset : Supervision.has Supervision.resetValue .dsx = false := by decide
  change Marks.mk (Supervision.has Supervision.resetValue .dsx) (Supervision.has c.savedSr .dsx) = _
  rw [hreset, has_savedSr]
  rfl

theorem marks_returnFromException (c : Cpu) :
    c.returnFromException.marks = ⟨c.marks.saved, c.marks.saved⟩ := rfl

theorem marks_writeSpr (c : Cpu) {r : Spr} {v : Word}
    (h : r = .supervision ∨ r = .savedSupervision → Supervision.has v .dsx = false) :
    (c.writeSpr r v).marks =
      ⟨c.marks.current && !decide (r = .supervision),
        c.marks.saved && !decide (r = .savedSupervision)⟩ := by
  cases r with
  | supervision =>
    have hv := h (.inl rfl)
    simp [writeSpr, setSr, marks, hv]
  | savedSupervision =>
    have hv := h (.inr rfl)
    simp [writeSpr, marks, hv]
  | mmu side i => cases side <;> simp [writeSpr, marks]
  | _ => simp [writeSpr, marks]

end Cpu

namespace Step

def writes (c : Cpu) (step : Step) (r : Spr) : Bool :=
  match step.sprWrite? c with
  | some (r', _) => r' = r
  | none => false

/-- Whether a step writes no mark itself, neither to the supervision register nor to its copy. -/
def unmarked (c : Cpu) (step : Step) : Bool :=
  match step.sprWrite? c with
  | some (r, v) => r = .supervision ∨ r = .savedSupervision → Supervision.has v .dsx = false
  | none => true

/-- Where the marks are after a step that writes none. -/
def marks (c : Cpu) (step : Step) (m : Marks) : Marks :=
  let current := m.current && !step.writes c .supervision
  match step.turn c with
  | .reset => ⟨false, false⟩
  | .enter => ⟨false, c.inDelaySlot || current⟩
  | .leave => ⟨m.saved, m.saved⟩
  | .stay => ⟨current, m.saved && !step.writes c .savedSupervision⟩

variable {c : Cpu} {step : Step}

theorem marks_turning (h : step.unmarked c = true) :
    (step.turning c).marks =
      ⟨c.marks.current && !step.writes c .supervision,
        c.marks.saved && !step.writes c .savedSupervision⟩ := by
  -- A tick moves no mark.
  have hfound : (step.found c).marks = c.marks := by
    cases step <;> rfl
  unfold unmarked at h
  unfold turning writes
  cases hw : step.sprWrite? c with
  | none => simp [Cpu.written, hfound]
  | some w =>
    rw [hw] at h
    rw [← hfound]
    exact Cpu.marks_writeSpr _ (of_decide_eq_true h)

theorem marks_after (h : step.unmarked c = true) :
    (step.after c).marks = step.marks c c.marks := by
  have hturning := marks_turning h
  unfold marks
  cases hturn : step.turn c with
  | reset =>
    obtain ⟨hsr, hsaved⟩ := after_reset hturn
    exact Cpu.marks_of_reset hsr hsaved
  | enter =>
    -- A write to a special register may itself enter the exception, which then saves the new word.
    obtain ⟨d, e, a, hmodes, hslot, hafter⟩ := after_enter hturn
    rw [hafter, Cpu.marks_raise, hmodes.marks_eq, hturning, Cpu.inDelaySlot, hslot]
    rfl
  | leave =>
    obtain ⟨d, hcontext, hafter⟩ := after_leave hturn
    rw [hafter, Cpu.marks_returnFromException, Cpu.marks, hcontext]
    rfl
  | stay => rw [(after_stay hturn).marks_eq, hturning]

end Step

/-- Where the marks of delay slots are behind a history that begins without any. -/
def History.marks : History → Marks
  | [] => ⟨false, false⟩
  | (c, step) :: past => step.marks c (History.marks past)

def History.unmarked (past : History) : Bool := past.all fun (c, step) => step.unmarked c

theorem History.unmarked_of_suffix {older past : History} (h : past.unmarked = true)
    (hp : older <:+ past) : older.unmarked = true := by
  apply List.all_eq_true.mpr
  intro m hm
  exact List.all_eq_true.mp h m (hp.subset hm)

/-- Whether a step finds a mark in the supervision register that a return has put back there. -/
def History.leftOver (older : History) (c : Cpu) (step : Step) : Bool :=
  older.marks.current && !step.writes c .supervision

theorem Recorded.marks_eq {allowed : Call → Prop} {start c : Cpu} {pc : Word} {past : History}
    (h : Recorded allowed (start.boot pc) past c) (hpast : past.unmarked = true) :
    c.marks = past.marks := by
  induction h with
  | start => exact Cpu.marks_of_reset rfl rfl
  | push h hs ih =>
    obtain ⟨hstep, hrest⟩ := Bool.and_eq_true_iff.mp hpast
    rw [Step.marks_after hstep, ih hrest, History.marks]

/-- When neither the program nor the host writes the mark of delay slots, an exception saves it
exactly when the exception comes from a delay slot, unless it comes from elsewhere and finds a mark
left over. -/
theorem Session.slot_marked_iff (start : Cpu) (pc : Word) (as : List Action) (c : Cpu)
    (step : Step) (older : History) :
    let s := (Session.start (start.boot pc)).performAll .real as
    s.past.unmarked = true →
    (c, step) :: older <:+ s.past →
    step.turn c = .enter →
    ((Supervision.has (step.after c).context.supervision .dsx = true ↔ c.inDelaySlot = true) ↔
      (older.leftOver c step = true → c.inDelaySlot = true)) := by
  intro s hunmarked hmoment hturn
  have hrecorded : Recorded (fun _ => True) (start.boot pc) s.past s.now :=
    Recorded.performAll (s := Session.start (start.boot pc)) .start fun _ _ => trivial
  obtain ⟨hc, -⟩ := hrecorded.of_suffix hmoment
  obtain ⟨hstep, holder⟩ :=
    Bool.and_eq_true_iff.mp (History.unmarked_of_suffix hunmarked hmoment)
  have hsaved : Supervision.has (step.after c).context.supervision .dsx =
      (c.inDelaySlot || older.leftOver c step) := by
    have hmarks := Step.marks_after hstep
    rw [Step.marks, hturn, hc.marks_eq holder] at hmarks
    exact congrArg Marks.saved hmarks
  rw [hsaved]
  cases c.inDelaySlot <;> cases older.leftOver c step <;> decide

/-- A load in a delay slot is not aligned at first, and its handler corrects the address. The jump
and the load are then done again, and the program goes on behind them. -/
def correcting (rest : List (Nat × Instruction)) : List (Nat × Instruction) :=
  [(0, .j 2), (4, .load .lwz 5 2 1), (0x600, .ori 2 0 3), (0x604, .rfe)] ++ rest

/-- The program writes the supervision register behind the return, and the mark is gone. -/
theorem Session.slot_marked_rewritten :
    let s := (Session.start ((Cpu.holding (correcting
      [(8, .ori 4 0 0x8001), (12, .mtspr 0 4 17), (16, .sys 0)])).boot 0)).performAll .real
      [.run 2, .run 2, .run 5]
    s.past.unmarked = true ∧
    ∃ (c : Cpu) (step : Step) (older : History), (c, step) :: older <:+ s.past ∧
      step.turn c = .enter ∧ older.leftOver c step = false ∧
      (Supervision.has (step.after c).context.supervision .dsx = true ↔ c.inDelaySlot = true) := by
  intro s
  have hunmarked : s.past.unmarked = true := by decide +kernel
  obtain ⟨c, step, older, hmoment, hfacts⟩ := History.exists_moment s.past 1
    (fun c step older => step.turn c = .enter ∧ older.leftOver c step = false ∧
      step.exception? c = some .systemCall)
    (by decide +kernel)
  obtain ⟨hturn, hclear, -⟩ := of_decide_eq_true hfacts
  refine ⟨hunmarked, c, step, older, hmoment, hturn, hclear, ?_⟩
  apply (Session.slot_marked_iff _ 0 [.run 2, .run 2, .run 5] c step older hunmarked hmoment
    hturn).mpr
  rw [hclear]
  exact nofun

/-- Without that write, the next system call saves a mark although it sits in no delay slot. -/
theorem Session.mark_left_over :
    ¬∀ (start : Cpu) (pc : Word) (as : List Action) (c : Cpu) (step : Step) (older : History),
      let s := (Session.start (start.boot pc)).performAll .real as
      s.past.unmarked = true →
      (c, step) :: older <:+ s.past →
      step.turn c = .enter →
      (Supervision.has (step.after c).context.supervision .dsx = true ↔
        c.inDelaySlot = true) := by
  intro h
  let program := correcting [(8, .sys 0)]
  let as : List Action := [.run 2, .run 2, .run 3]
  let s := (Session.start ((Cpu.holding program).boot 0)).performAll .real as
  have hunmarked : s.past.unmarked = true := by decide +kernel
  obtain ⟨c, step, older, hmoment, hfacts⟩ := History.exists_moment s.past 1
    (fun c step _ => step.turn c = .enter ∧ c.inDelaySlot = false ∧
      Supervision.has (step.after c).context.supervision .dsx = true)
    (by decide +kernel)
  obtain ⟨hturn, hslot, hsaved⟩ := of_decide_eq_true hfacts
  have hin := (h (Cpu.holding program) 0 as c step older hunmarked hmoment hturn).mp hsaved
  exact absurd (hslot.symm.trans hin) (by decide)

end Orbis
