import Orbis.Proofs.DelaySlot
import Orbis.Supervision

/-!
# Entering and leaving exceptions

What the steps of a session do to the supervision register, to its saved copy and to the timer. A
step resets the machine, enters an exception, leaves one or stays where it is. Whatever else it does
to these registers, it writes one of them as a special register, sets the flag or ticks.
-/

namespace Orbis

namespace Cpu

variable {c d e : Cpu} {i : Instruction} {f : Flow}

/-- The special register that an instruction writes, and the word that it leaves there. -/
def sprWrite? (c : Cpu) : Instruction → Option (Spr × Word)
  | .mtspr a b k => some (.ofAddress (c.sprAddress a k), c.reg b)
  | _ => none

theorem mtspr_of_sprWrite? {v : Spr × Word} (h : c.sprWrite? i = some v) :
    ∃ a b k, i = .mtspr a b k := by
  cases i with
  | mtspr a b k => exact ⟨a, b, k, rfl⟩
  | _ => cases h

theorem sprWrite?_fetched (c : Cpu) (i : Instruction) : c.fetched.sprWrite? i = c.sprWrite? i := by
  obtain ⟨memo, last, s, hframe⟩ := c.fetched_frame
  rw [hframe]
  rfl

/-- A machine after a write, if there is one. -/
def written (c : Cpu) (w : Option (Spr × Word)) : Cpu := w.elim c fun (r, v) => c.writeSpr r v

/-- Whether two states agree on the timer, on the saved supervision word and, but for the flag, on
the present one. -/
structure SameModes (c d : Cpu) : Prop where
  sr : ∀ b, b ≠ .f → Supervision.has d.sr b = Supervision.has c.sr b
  saved : d.context.supervision = c.context.supervision
  timer : d.timer = c.timer

namespace SameModes

theorem refl (c : Cpu) : c.SameModes c := ⟨fun _ _ => rfl, rfl, rfl⟩

theorem trans (h : c.SameModes d) (h' : d.SameModes e) : c.SameModes e where
  sr b hb := (h'.sr b hb).trans (h.sr b hb)
  saved := h'.saved.trans h.saved
  timer := h'.timer.trans h.timer

theorem of_eq (hsr : d.sr = c.sr) (hcontext : d.context = c.context) (htimer : d.timer = c.timer) :
    c.SameModes d where
  sr b _ := by rw [hsr]
  saved := by rw [hcontext]
  timer := htimer

theorem writeSpr (h : c.SameModes d) (r : Spr) (v : Word) :
    (c.writeSpr r v).SameModes (d.writeSpr r v) := by
  cases r with
  | supervision => exact ⟨fun _ _ => rfl, h.saved, h.timer⟩
  | savedSupervision => exact ⟨h.sr, rfl, h.timer⟩
  | timerMode =>
    refine ⟨h.sr, h.saved, ?_⟩
    exact congrArg (fun t : TickTimer => { t with mode := v }) h.timer
  | timerCount =>
    refine ⟨h.sr, h.saved, ?_⟩
    exact congrArg (fun t : TickTimer => { t with count := v }) h.timer
  | mmu side i => cases side <;> exact ⟨h.sr, h.saved, h.timer⟩
  | _ => exact ⟨h.sr, h.saved, h.timer⟩

theorem written (h : c.SameModes d) (w : Option (Spr × Word)) :
    (c.written w).SameModes (d.written w) := by
  cases w with
  | none => exact h
  | some w => exact h.writeSpr w.1 w.2

theorem tickDue (h : c.SameModes d) : d.tickDue = c.tickDue := by
  rw [Cpu.tickDue, Cpu.tickDue, h.timer, h.sr .tee (by decide)]

end SameModes

/-- But for the flag, an instruction changes these registers by the write it makes only, unless it
returns from an exception. -/
theorem Effect.sameModes (h : c.Effect i d f) (hi : i ≠ .rfe) :
    (c.written (c.sprWrite? i)).SameModes d := by
  cases hw : c.sprWrite? i with
  | some w =>
    obtain ⟨a, b, k, rfl⟩ := mtspr_of_sprWrite? hw
    cases hw
    -- Two of the effects are those of a write; the others do not belong to this instruction.
    cases h with
    | mtspr | mtsprTick => exact .of_eq rfl rfl rfl
    | compute _ h => cases h
    | compare _ h => cases h
    | transfer h => cases h
    | skip _ h => cases h
    | stop h => cases h.1
  | none =>
    cases h with
    | compare on =>
      refine ⟨?_, rfl, rfl⟩
      intro b hb
      exact Supervision.has_put_of_ne c.sr on hb.symm
    | transfer => split <;> exact .of_eq rfl rfl rfl
    | rfe => exact absurd rfl hi
    | mtspr | mtsprTick => cases hw
    | _ => exact .of_eq rfl rfl rfl

theorem SameModes.fetched (c : Cpu) : c.ticked.SameModes c.fetched := by
  obtain ⟨memo, last, s, hframe⟩ := c.fetched_frame
  rw [hframe]
  exact .of_eq rfl rfl rfl

theorem SameModes.attempt (h : c.issued? ≠ some .rfe) :
    (c.ticked.written (c.issued?.bind c.sprWrite?)).SameModes c.attempt.1 := by
  cases hi : c.issued? with
  | none =>
    obtain ⟨x, -, hattempt⟩ := attempt_of_not_issued hi
    obtain ⟨memo, last, s, hframe⟩ := c.issue_frame
    rw [hattempt, hframe]
    exact .of_eq rfl rfl rfl
  | some i =>
    have hne : i ≠ .rfe := by
      rintro rfl
      exact h hi
    have heffect := c.fetched.execute_effect i
    rw [attempt_of_issued hi]
    refine .trans ?_ (heffect.sameModes hne)
    rw [sprWrite?_fetched]
    exact (SameModes.fetched c).written (c.sprWrite? i)

theorem attempt_of_rfe (h : c.issued? = some .rfe) :
    c.attempt = (c.fetched.returnFromException, .next) := by
  rw [attempt_of_issued h]
  rfl

theorem follow_of_no_exception (h : ∀ x, (c.follow f).2 ≠ some (.exception x)) :
    (∀ x a, f ≠ .fault x a) ∧ (c.follow f).1 = c := by
  cases f with
  | next | halt => simp [follow]
  | fault x a => exact absurd rfl (h x)

theorem SameModes.load (c : Cpu) (op : LoadOp) (a : Word) : c.SameModes (c.load op a).2 := by
  unfold Cpu.load
  split <;> exact .of_eq rfl rfl rfl

theorem SameModes.store (c : Cpu) (op : StoreOp) (a v : Word) : c.SameModes (c.store op a v).2 := by
  unfold Cpu.store
  split <;> exact .of_eq rfl rfl rfl

end Cpu

/-- What a step does with exceptions. -/
inductive Turn where
  | reset
  | enter
  | leave
  | stay
  deriving DecidableEq

namespace Step

def turn (c : Cpu) : Step → Turn
  | .call .reset _ | .call (.loadImage _ _) _ => .reset
  | .call (.raise _ _) _ | .interrupt => .enter
  | .call .returnFromException _ => .leave
  | .cycle =>
    if (Step.exception? c .cycle).isSome then .enter
    else if c.issued? = some .rfe then .leave
    else .stay
  | _ => .stay

/-- The special register that a step writes, and the word that it leaves there. -/
def sprWrite? (c : Cpu) : Step → Option (Spr × Word)
  | .cycle => c.issued?.bind c.sprWrite?
  | .call (.setSr v) _ => some (.supervision, v)
  | .call (.setSpr a v) _ => some (.ofAddress a, v)
  | _ => none

/-- The machine as a step finds it: a cycle begins with its tick. -/
def found (c : Cpu) : Step → Cpu
  | .cycle => c.ticked
  | _ => c

/-- The machine as it is when a step turns: the step has made its write. -/
def turning (c : Cpu) (step : Step) : Cpu := (step.found c).written (step.sprWrite? c)

variable {c : Cpu} {step : Step}

/-- A cycle enters an exception that it has raised, or leaves one by its instruction, or else ends
as that instruction does. -/
theorem turn_cycle (c : Cpu) :
    (Step.cycle.turn c = .enter ∧ ∃ e, Step.exception? c .cycle = some e) ∨
    (Step.cycle.turn c = .leave ∧ c.issued? = some .rfe) ∨
    (Step.cycle.turn c = .stay ∧ c.issued? ≠ some .rfe ∧ (∀ e a, c.attempt.2 ≠ .fault e a) ∧
      c.cycle.1 = c.attempt.1) := by
  by_cases hexception : (Step.exception? c .cycle).isSome = true
  · left
    exact ⟨if_pos hexception, Option.isSome_iff_exists.mp hexception⟩
  · right
    by_cases hrfe : c.issued? = some .rfe
    · left
      exact ⟨(if_neg hexception).trans (if_pos hrfe), hrfe⟩
    · right
      refine ⟨(if_neg hexception).trans (if_neg hrfe), hrfe, Cpu.follow_of_no_exception ?_⟩
      intro e he
      apply hexception
      rw [exception?, show c.cycle.2 = some (.exception e) from he]
      rfl

theorem after_reset (h : step.turn c = .reset) :
    (step.after c).sr = Supervision.resetValue ∧ (step.after c).context.supervision = 0 := by
  cases step with
  | call k r =>
    cases k with
    | reset => exact ⟨rfl, rfl⟩
    | loadImage image pc =>
      simp only [after, Cpu.answer, Cpu.hosted, Simulator.loadImage]
      split <;> exact ⟨rfl, rfl⟩
    | _ => cases h
  | cycle =>
    rcases turn_cycle c with ⟨hturn, -⟩ | ⟨hturn, -⟩ | ⟨hturn, -⟩ <;> cases hturn.symm.trans h
  | _ => cases h

theorem after_enter (h : step.turn c = .enter) :
    ∃ d e a, (step.turning c).SameModes d ∧ d.delaySlot = c.delaySlot ∧
      step.after c = d.raise e a := by
  cases step with
  | call k r =>
    cases k with
    | raise e a => exact ⟨c, e, a, .refl c, rfl, rfl⟩
    | _ => cases h
  | interrupt =>
    exact ⟨{ c with interrupts := c.interrupts.accept }, .externalInterrupt, c.pc,
      .of_eq rfl rfl rfl, rfl, rfl⟩
  | cycle =>
    rcases turn_cycle c with ⟨-, e, he⟩ | ⟨hturn, -⟩ | ⟨hturn, -⟩
    · obtain ⟨a, hfault, hraise⟩ := Step.cycle_of_exception he
      have hne : c.issued? ≠ some .rfe := by
        intro hrfe
        rw [Cpu.attempt_of_rfe hrfe] at hfault
        cases hfault
      exact ⟨c.attempt.1, e, a, .attempt hne, congrArg Prod.snd (Cpu.place_attempt_fault hfault),
        hraise⟩
    · cases hturn.symm.trans h
    · cases hturn.symm.trans h
  | _ => cases h

theorem after_leave (h : step.turn c = .leave) :
    ∃ d : Cpu, d.context = c.context ∧ step.after c = d.returnFromException := by
  cases step with
  | call k r =>
    cases k with
    | returnFromException => exact ⟨c, rfl, rfl⟩
    | _ => cases h
  | cycle =>
    rcases turn_cycle c with ⟨hturn, -⟩ | ⟨-, hrfe⟩ | ⟨hturn, -⟩
    · cases hturn.symm.trans h
    · obtain ⟨memo, last, s, hframe⟩ := c.fetched_frame
      refine ⟨c.fetched, by rw [hframe], ?_⟩
      rw [after, Cpu.cycle, Cpu.attempt_of_rfe hrfe]
      rfl
    · cases hturn.symm.trans h
  | _ => cases h

theorem after_stay (h : step.turn c = .stay) : (step.turning c).SameModes (step.after c) := by
  cases step with
  | call k r =>
    cases k with
    | reset | loadImage | raise | returnFromException => cases h
    | load op a => exact .load c op a
    | store op a v => exact .store c op a v
    | setSr v => exact .of_eq rfl rfl rfl
    | setSpr a v => exact .refl _
    | peek | poke | place =>
      simp only [after, Cpu.answer]
      split <;> exact .of_eq rfl rfl rfl
    | _ => exact .of_eq rfl rfl rfl
  | cycle =>
    rcases turn_cycle c with ⟨hturn, -⟩ | ⟨hturn, -⟩ | ⟨-, hne, -, hcycle⟩
    · cases hturn.symm.trans h
    · cases hturn.symm.trans h
    · rw [after, hcycle]
      exact .attempt hne
  | interrupt => cases h
  | sample | settle => exact .of_eq rfl rfl rfl

end Step

end Orbis
