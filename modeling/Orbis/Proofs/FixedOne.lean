import Orbis.Proofs.ExceptionTurns

/-!
# Bits of supervision words

Where a bit of the supervision register comes from. Resets and exceptions put a fixed word there, an
exception saves the word that was there before, and a return puts the saved one back. The machine
keeps any other word as it is written, and so the fixed one, which its own word always sets, is set
only as long as the program supplies it in the words that it writes and returns to.
-/

namespace Orbis

/-- A bit of the supervision word in its two places, the register and its saved copy. -/
structure Copies where
  current : Bool
  saved : Bool
  deriving DecidableEq

namespace Copies

/-- The copies of a bit out of reset. -/
def reset (b : Supervision.Bit) : Copies := ⟨Supervision.has Supervision.resetValue b, false⟩

/-- The copies of a bit after a write to a special register, if there is one. -/
def written (m : Copies) (b : Supervision.Bit) : Option (Spr × Word) → Copies
  | some (.supervision, v) => { m with current := Supervision.has v b }
  | some (.savedSupervision, v) => { m with saved := Supervision.has v b }
  | _ => m

end Copies

namespace Cpu

variable {b : Supervision.Bit}

def copies (c : Cpu) (b : Supervision.Bit) : Copies :=
  ⟨Supervision.has c.sr b, Supervision.has c.context.supervision b⟩

theorem SameModes.copies_eq {c d : Cpu} (h : c.SameModes d) (hb : b ≠ .f) :
    d.copies b = c.copies b := by
  rw [copies, copies, h.sr b hb, h.saved]

theorem copies_of_reset {c : Cpu} (hsr : c.sr = Supervision.resetValue)
    (hsaved : c.context.supervision = 0) : c.copies b = .reset b := by
  rw [copies, hsr, hsaved, Copies.reset, Supervision.has, Supervision.has]
  exact congrArg _ BitVec.getLsbD_zero

theorem copies_written (c : Cpu) (w : Option (Spr × Word)) :
    (c.written w).copies b = (c.copies b).written b w := by
  cases w with
  | none => rfl
  | some w =>
    obtain ⟨r, v⟩ := w
    cases r with
    | mmu side i => cases side <;> rfl
    | _ => rfl

theorem copies_raise (c : Cpu) (e : Exception) (a : Word) (hb : b ≠ .dsx) :
    (c.raise e a).copies b = ⟨(Copies.reset b).current, (c.copies b).current⟩ := by
  have hsaved : Supervision.has c.savedSr b = Supervision.has c.sr b := by
    unfold savedSr
    split
    · rw [Supervision.has_or, Supervision.has_mask, decide_eq_false hb.symm, Bool.or_false]
    · rfl
  change Copies.mk _ (Supervision.has c.savedSr b) = _
  rw [hsaved]
  rfl

end Cpu

namespace Step

/-- The copies of a bit after a step. -/
def copies (c : Cpu) (step : Step) (b : Supervision.Bit) (m : Copies) : Copies :=
  match step.turn c with
  | .reset => .reset b
  | .enter => ⟨(Copies.reset b).current, (m.written b (step.sprWrite? c)).current⟩
  | .leave => ⟨m.saved, m.saved⟩
  | .stay => m.written b (step.sprWrite? c)

/-- Comparisons set the flag, and exceptions the mark of delay slots. All other bits move only
between the register and its copy. -/
theorem copies_after (c : Cpu) (step : Step) {b : Supervision.Bit} (hf : b ≠ .f)
    (hdsx : b ≠ .dsx) : (step.after c).copies b = step.copies c b (c.copies b) := by
  have hturning : (step.turning c).copies b = (c.copies b).written b (step.sprWrite? c) := by
    -- A tick leaves both places alone.
    have hfound : (step.found c).copies b = c.copies b := by
      cases step <;> rfl
    rw [turning, Cpu.copies_written, hfound]
  unfold copies
  cases hturn : step.turn c with
  | reset =>
    obtain ⟨hsr, hsaved⟩ := after_reset hturn
    exact Cpu.copies_of_reset hsr hsaved
  | enter =>
    obtain ⟨d, e, a, hmodes, -, hafter⟩ := after_enter hturn
    rw [hafter, Cpu.copies_raise d e a hdsx, hmodes.copies_eq hf, hturning]
  | leave =>
    obtain ⟨d, hcontext, hafter⟩ := after_leave hturn
    rw [hafter, Cpu.copies, Cpu.copies, ← hcontext]
    rfl
  | stay => rw [(after_stay hturn).copies_eq hf, hturning]

end Step

/-- The copies of a bit behind a history that begins out of reset. -/
def History.copies (b : Supervision.Bit) : History → Copies
  | [] => .reset b
  | (c, step) :: past => step.copies c b (History.copies b past)

theorem Recorded.copies_eq {allowed : Call → Prop} {start c : Cpu} {pc : Word} {past : History}
    {b : Supervision.Bit} (h : Recorded allowed (start.boot pc) past c) (hf : b ≠ .f)
    (hdsx : b ≠ .dsx) : c.copies b = past.copies b := by
  induction h with
  | start => exact Cpu.copies_of_reset rfl rfl
  | @push past c step h hs ih => rw [Step.copies_after c step hf hdsx, ih, History.copies]

/-- Whether the fixed one is set behind a history: the step decides that last gave the supervision
register a new word. A reset or an exception sets it. A write keeps what the program supplies, and
so does a return, which puts back what was last saved: the bit as the latest exception has found it,
or as the program has written it since, or nothing before the first exception. -/
def History.fixedOne (past : History) : Bool := (past.copies .fo).current

/-- In every session, whatever its program and its host do, the fixed one is set exactly as long as
it was supplied wherever the supervision register was written or returned to. -/
theorem Session.fixedOne_iff (start : Cpu) (pc : Word) (as : List Action) :
    let s := (Session.start (start.boot pc)).performAll .real as
    Supervision.has s.now.sr .fo = true ↔ s.past.fixedOne = true := by
  intro s
  have hrecorded : Recorded (fun _ => True) (start.boot pc) s.past s.now :=
    Recorded.performAll (s := Session.start (start.boot pc)) .start fun _ _ => trivial
  have hcopies : s.now.copies .fo = s.past.copies .fo :=
    hrecorded.copies_eq (by decide) (by decide)
  rw [History.fixedOne, ← hcopies]
  rfl

/-- A program clears the fixed one by one write to the supervision register. -/
theorem Session.fixedOne_cleared :
    ¬∀ (program : List (Nat × Instruction)) (as : List Action),
      (∀ k, Action.call k ∈ as → k = .reset) →
      Supervision.has
        ((Session.start ((Cpu.holding program).boot 0)).performAll .real as).now.sr .fo = true := by
  intro h
  have hset := h [(0, .mtspr 0 0 17)] [.run 1] (by simp)
  exact absurd hset (by decide +kernel)

end Orbis
