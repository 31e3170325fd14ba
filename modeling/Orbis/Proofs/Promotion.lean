import Orbis.Proofs.FixedOne
import Orbis.Proofs.Frames
import Orbis.Proofs.PendingTick

/-!
# How users get promoted

The machine does not ask for the privilege when a special register is written or an exception
returned from, so a program in user mode can make itself a supervisor. These two instructions are
its only means apart from exceptions: whatever else it does leaves it a user, with paging and the
page table entries as they were.
-/

namespace Orbis

namespace Step

def isRun : Step → Bool
  | .call _ _ => false
  | _ => true

/-- The supervision word that a step puts in place itself: the saved one, if it returns from an
exception, or else the one that it writes. -/
def puts? (c : Cpu) (step : Step) : Option Word :=
  if step.turn c = .leave then some c.context.supervision
  else
    match step.sprWrite? c with
    | some (.supervision, v) => some v
    | _ => none

/-- Whether a step decides on privilege or paging: it dispatches an exception, puts a supervision
word in place or writes a register of a memory management unit. -/
def governs (c : Cpu) (step : Step) : Bool :=
  (step.exception? c).isSome || (step.puts? c).isSome ||
    match step.sprWrite? c with
    | some (.mmu _ _, _) => true
    | _ => false

variable {c : Cpu} {step : Step} {b : Supervision.Bit}

theorem turn_of_run (hrun : step.isRun = true) (h : step.exception? c = none) :
    step.turn c = .leave ∨ step.turn c = .stay := by
  cases step with
  | call => cases hrun
  | interrupt => cases h
  | sample | settle => exact .inr rfl
  | cycle =>
    rcases turn_cycle c with ⟨-, e, he⟩ | ⟨hturn, -⟩ | ⟨hturn, -⟩
    · cases h.symm.trans he
    · exact .inl hturn
    · exact .inr hturn

theorem after_exception {e : Exception} (h : step.exception? c = some e) :
    Supervision.has (step.after c).sr .sm = true ∧ (step.after c).pc = e.vector := by
  obtain ⟨d, a, -, hafter⟩ := after_of_exception h
  have hreset : Supervision.has Supervision.resetValue .sm = true := by decide
  rw [hafter]
  exact ⟨hreset, rfl⟩

/-- A step of a run without an exception gives the supervision register the word that it puts in
place itself, or changes no more than the flag. -/
theorem has_after (hrun : step.isRun = true) (h : step.exception? c = none) (hf : b ≠ .f)
    (hdsx : b ≠ .dsx) :
    Supervision.has (step.after c).sr b = Supervision.has ((step.puts? c).getD c.sr) b := by
  have hcopies := congrArg Copies.current (copies_after c step hf hdsx)
  unfold copies at hcopies
  unfold puts?
  rcases turn_of_run hrun h with hturn | hturn
  · rw [hturn] at hcopies
    rw [if_pos hturn]
    exact hcopies
  · rw [hturn] at hcopies
    rw [if_neg (by rw [hturn]; decide)]
    refine hcopies.trans ?_
    cases step.sprWrite? c with
    | none => rfl
    | some w =>
      obtain ⟨r, v⟩ := w
      cases r <;> rfl

/-- A step of a run without an exception leaves every register of the memory management units alone
but for the one that it writes. -/
theorem readSpr_after {side : Side} {i : Nat} (hrun : step.isRun = true)
    (h : step.exception? c = none) (hw : ∀ v, step.sprWrite? c ≠ some (.mmu side i, v)) :
    (step.after c).readSpr (.mmu side i) = c.readSpr (.mmu side i) := by
  cases step with
  | call => cases hrun
  | interrupt => cases h
  | sample | settle => cases side <;> rfl
  | cycle =>
    have hnone : ∀ e, c.cycle.2 ≠ some (.exception e) := by
      intro e he
      rw [exception?, he] at h
      cases h
    have hframe : c.ticked.readSpr (.mmu side i) = c.readSpr (.mmu side i) := by
      cases side <;> rfl
    cases hi : c.issued? with
    | none =>
      obtain ⟨e, -, hattempt⟩ := Cpu.attempt_of_not_issued hi
      exact absurd (show c.cycle.2 = _ by rw [Cpu.cycle, hattempt]; rfl) (hnone e)
    | some inst =>
      have hne : Spr.mmu side i ≠ .supervision := by
        intro h
        cases h
      rw [← hframe]
      refine (Cpu.cycle_framed hi hnone).special _ hne ?_
      rintro ⟨x, y, k, rfl, hr⟩
      refine hw (c.reg y) ?_
      rw [sprWrite?, hi, ← hr]
      rfl

end Step

/-- A user who is promoted in a step of a run has either met an exception, and is at its handler, or
has put a supervision word in place that says so, by writing it or by returning to it. Without an
exception, the privilege and the enables of paging change by such a word only, and a register of a
memory management unit only by being written. -/
theorem Step.user_promoted_iff (c : Cpu) (step : Step) (hrun : step.isRun = true)
    (huser : Supervision.has c.sr .sm = false) :
    (Supervision.has (step.after c).sr .sm = true ↔
      (∃ e, step.exception? c = some e) ∨
        ∃ v, step.puts? c = some v ∧ Supervision.has v .sm = true) ∧
    (∀ e, step.exception? c = some e → (step.after c).pc = e.vector) ∧
    (step.exception? c = none →
      (∀ b, b = .sm ∨ b = .dme ∨ b = .ime →
        Supervision.has (step.after c).sr b = Supervision.has ((step.puts? c).getD c.sr) b) ∧
      ∀ side i, (∀ v, step.sprWrite? c ≠ some (.mmu side i, v)) →
        (step.after c).readSpr (.mmu side i) = c.readSpr (.mmu side i)) := by
  refine ⟨?_, fun e he => (after_exception he).2, fun h => ⟨?_, fun side i hw => ?_⟩⟩
  · cases hexception : step.exception? c with
    | some e => exact iff_of_true (after_exception hexception).1 (.inl ⟨e, rfl⟩)
    | none =>
      rw [has_after hrun hexception (by decide) (by decide)]
      cases step.puts? c with
      | none => simp [huser]
      | some v => simp
  · rintro b (rfl | rfl | rfl) <;> exact has_after hrun h (by decide) (by decide)
  · exact readSpr_after hrun h hw

/-- A user writes the supervision register and is a supervisor. -/
theorem Step.user_promoted_by_write :
    let c := ((Cpu.holding [(0, .mtspr 0 5 17)]).setReg 5 0x8001).setSr 0x8000
    Step.cycle.isRun = true ∧ Supervision.has c.sr .sm = false ∧
      Step.cycle.exception? c = none ∧ Supervision.has c.cycle.1.sr .sm = true := by
  intro c
  have huser : Supervision.has c.sr .sm = false := by decide +kernel
  have hputs : Step.cycle.puts? c = some 0x8001 := by decide +kernel
  refine ⟨rfl, huser, by decide +kernel, ?_⟩
  exact (Step.user_promoted_iff c .cycle rfl huser).1.mpr (.inr ⟨0x8001, hputs, by decide⟩)

/-- A program leaves supervisor mode and comes back without an exception. -/
theorem Session.user_promotes_itself :
    ¬∀ (program : List (Nat × Instruction)) (as : List Action) (c : Cpu) (step : Step)
        (older : History),
      let s := (Session.start ((Cpu.holding program).boot 0)).performAll .real as
      (∀ k, Action.call k ∈ as → k.writesSpr = false) →
      (c, step) :: older <:+ s.past →
      step.isRun = true →
      Supervision.has c.sr .sm = false →
      Supervision.has (step.after c).sr .sm = true →
      ∃ e, step.exception? c = some e := by
  intro h
  let program : List (Nat × Instruction) :=
    [(0, .ori 4 0 0x8000), (4, .mtspr 0 4 17), (8, .ori 5 0 0x8001), (12, .mtspr 0 5 17)]
  let s := (Session.start ((Cpu.holding program).boot 0)).performAll .real [.run 4]
  obtain ⟨c, older, hmoment, hfacts⟩ := History.exists_cycle s.past 1
    (fun c _ => Supervision.has c.sr .sm = false ∧ Supervision.has c.cycle.1.sr .sm = true ∧
      Step.cycle.exception? c = none)
    (by decide +kernel)
  obtain ⟨huser, hpromoted, hnone⟩ := of_decide_eq_true hfacts
  obtain ⟨e, he⟩ := h program [.run 4] c .cycle older (by simp) hmoment rfl huser hpromoted
  cases hnone.symm.trans he

/-! ### Whole runs -/

theorem Recorded.ungoverned {c d : Cpu} {past : History} {b : Supervision.Bit}
    (h : Recorded (fun _ => False) c past d) (hpast : ∀ m ∈ past, m.2.governs m.1 = false)
    (hf : b ≠ .f) (hdsx : b ≠ .dsx) :
    Supervision.has d.sr b = Supervision.has c.sr b ∧
      ∀ side i, d.readSpr (.mmu side i) = c.readSpr (.mmu side i) := by
  induction h with
  | start => exact ⟨rfl, fun _ _ => rfl⟩
  | @push past e step h hs ih =>
    obtain ⟨hbit, hspr⟩ := ih fun m hm => hpast m (List.mem_cons_of_mem _ hm)
    have hrun : step.isRun = true := by
      cases step with
      | call => exact hs.1.elim
      | _ => rfl
    have hquiet := hpast (e, step) List.mem_cons_self
    simp only [Step.governs, Bool.or_eq_false_iff, Option.isSome_eq_false_iff,
      Option.isNone_iff_eq_none] at hquiet
    obtain ⟨⟨hnone, hputs⟩, hmmu⟩ := hquiet
    constructor
    · rw [Step.has_after hrun hnone hf hdsx, hputs]
      exact hbit
    · intro side i
      refine (Step.readSpr_after hrun hnone ?_).trans (hspr side i)
      intro v hw
      rw [hw] at hmmu
      cases hmmu

/-- A run that begins in user mode and makes no step that decides on privilege or paging ends in
user mode, with paging as it was and all registers of the memory management units unchanged. -/
theorem Session.run_ungoverned (c : Cpu) (budget : Nat)
    (hpast : ∀ m ∈ ((Session.start c).run .real budget).past, m.2.governs m.1 = false)
    {b : Supervision.Bit} (hb : b = .sm ∨ b = .dme ∨ b = .ime) :
    Supervision.has (c.run budget).1.sr b = Supervision.has c.sr b ∧
      ∀ side i, (c.run budget).1.readSpr (.mmu side i) = c.readSpr (.mmu side i) := by
  have hrecorded : Recorded (fun _ => False) c ((Session.start c).run .real budget).past
      ((Session.start c).run .real budget).now :=
    Recorded.run (s := Session.start c) .start budget
  rw [now_run_real] at hrecorded
  rcases hb with rfl | rfl | rfl <;> exact hrecorded.ungoverned hpast (by decide) (by decide)

end Orbis
