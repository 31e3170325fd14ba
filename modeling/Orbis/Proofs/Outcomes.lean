import Mathlib.Logic.ExistsUnique
import Orbis.Proofs.DelaySlot
import Orbis.Proofs.Tallies
import Orbis.Proofs.Twins

/-!
# How runs end

A run is a number of cycles that go on, and then its budget is used up or one more cycle ends it.
What such cycles have counted gives the law of the three outcomes, and runs can be cut in two
wherever they go on, provided that the sample of the interrupt lines in between shows nothing.
-/

namespace Orbis

def Outcome.isException : Outcome → Bool
  | exception _ => true
  | _ => false

theorem Exception.not_unraised :
    ∀ e ∈ externalInterrupt :: ofCycle, e ∉ [reset, range, floatingPoint, trap] := by
  decide

namespace Statistics

/-- What was counted between two readings of the statistics: some cycles, and how they ended. -/
structure Counts (s t : Statistics) (cycles : Nat) (o : Outcome) : Prop where
  cycles_eq : t.cycles = s.cycles + cycles
  exceptions_eq : t.exceptions = s.exceptions + if o.isException then 1 else 0
  exceptionsOf_eq (e : Exception) :
    t.exceptionsOf e = s.exceptionsOf e + if o = .exception e then 1 else 0
  halts_eq : t.halts = s.halts + if o = .halted then 1 else 0

namespace Counts

variable {s t u : Statistics} {m n : Nat} {o : Outcome}

theorem refl (s : Statistics) : s.Counts s 0 .completed := ⟨rfl, rfl, fun _ => rfl, rfl⟩

theorem record (s : Statistics) (e : Exception) : s.Counts (s.record e 1) 0 (.exception e) := by
  refine ⟨rfl, rfl, fun x => ?_, rfl⟩
  simp only [Outcome.exception.injEq]
  exact s.exceptionsOf_record e x 1

theorem trans (h : s.Counts t m .completed) (h' : t.Counts u n o) : s.Counts u (m + n) o where
  cycles_eq := by rw [h'.cycles_eq, h.cycles_eq, Nat.add_assoc]
  exceptions_eq := by
    rw [h'.exceptions_eq, h.exceptions_eq]
    rfl
  exceptionsOf_eq e := by
    rw [h'.exceptionsOf_eq, h.exceptionsOf_eq]
    rfl
  halts_eq := by
    rw [h'.halts_eq, h.halts_eq]
    rfl

end Counts

end Statistics

theorem InterruptController.sample_eq_self_iff (p : InterruptController) (lines : Word) :
    p.sample lines = p ↔ lines = p.status := by
  unfold sample
  split
  · next h => exact iff_of_true rfl h
  · next h =>
    refine iff_of_false (fun heq => ?_) h
    exact h (congrArg status heq)

namespace Cpu

variable {c d e : Cpu} {o : Outcome} {k m n : Nat}

/-! ### Cycles that go on -/

/-- A number of cycles lead from one state to another, and none of them ends a run. -/
inductive GoesOn : Cpu → Nat → Cpu → Prop
  | refl (c : Cpu) : GoesOn c 0 c
  | step {c d e : Cpu} {n : Nat} (h : c.cycle = (d, none)) (hd : GoesOn d n e) : GoesOn c (n + 1) e

namespace GoesOn

theorem cycles_add (h : c.GoesOn m d) (n : Nat) : c.cycles (m + n) = d.cycles n := by
  induction h with
  | refl c => rw [Nat.zero_add]
  | @step c d e m hcycle _ ih =>
    rw [Nat.add_right_comm, cycles_of_next hcycle]
    exact ih

theorem cycles_eq (h : c.GoesOn n d) : c.cycles n = (d, .completed) := h.cycles_add 0

/-- A budget beyond the cycle that ends a run does not matter. -/
theorem cycles_of_stop (h : c.GoesOn k d) (hstop : d.cycle = (e, some o)) (hk : k < n) :
    c.cycles n = (e, o) := by
  have hn : n = k + ((n - k - 1) + 1) := by omega
  rw [hn, h.cycles_add, Cpu.cycles_of_stop hstop]

end GoesOn

/-- Cycles go on until the budget is used up or one of them ends the run. -/
theorem goesOn_or_stops (c : Cpu) (n : Nat) :
    (∃ d, c.GoesOn n d) ∨
      ∃ k d e o, k < n ∧ c.GoesOn k d ∧ d.cycle = (e, some o) := by
  induction n generalizing c with
  | zero => exact .inl ⟨c, .refl c⟩
  | succ n ih =>
    cases hcycle : c.cycle with
    | mk b stop =>
      cases stop with
      | some o => exact .inr ⟨0, c, b, o, Nat.succ_pos n, .refl c, hcycle⟩
      | none =>
        rcases ih b with ⟨d, hd⟩ | ⟨k, d, e, o, hk, hd, hstop⟩
        · exact .inl ⟨d, .step hcycle hd⟩
        · exact .inr ⟨k + 1, d, e, o, Nat.succ_lt_succ hk, .step hcycle hd, hstop⟩

theorem cycle_ne_completed (c : Cpu) : c.cycle.2 ≠ some .completed := by
  unfold cycle
  generalize c.attempt = r
  obtain ⟨d, f⟩ := r
  cases f <;> nofun

/-! ### The law of outcomes -/

theorem counts_of_next (h : c.cycle = (d, none)) :
    c.statistics.Counts d.statistics 1 .completed := by
  obtain ⟨instructions, fast, slow, hattempt⟩ := c.statistics_attempt
  have hfollow := c.attempt.1.statistics_follow c.attempt.2
  rw [show c.attempt.1.follow c.attempt.2 = (d, none) from h] at hfollow
  rw [hfollow, hattempt]
  exact ⟨rfl, rfl, fun _ => rfl, rfl⟩

/-- A cycle that ends a run counts itself and its exception, and the end counts a halt. -/
theorem counts_of_stop (h : c.cycle = (d, some o)) :
    c.statistics.Counts (d.settle o).statistics 1 o := by
  obtain ⟨instructions, fast, slow, hattempt⟩ := c.statistics_attempt
  have hfollow := c.attempt.1.statistics_follow c.attempt.2
  rw [show c.attempt.1.follow c.attempt.2 = (d, some o) from h, hattempt] at hfollow
  cases o with
  | completed => exact absurd (congrArg Prod.snd h) c.cycle_ne_completed
  | halted =>
    rw [settle, hfollow]
    exact ⟨rfl, rfl, fun _ => rfl, rfl⟩
  | exception x =>
    rw [settle, hfollow]
    refine ⟨rfl, rfl, fun y => ?_, rfl⟩
    simp only [Outcome.exception.injEq]
    exact c.statistics.exceptionsOf_record x y 1

theorem counts_of_completed (c : Cpu) :
    c.statistics.Counts (c.settle .completed).statistics 0 .completed :=
  ⟨rfl, rfl, fun _ => rfl, rfl⟩

theorem GoesOn.counts (h : c.GoesOn n d) : c.statistics.Counts d.statistics n .completed := by
  induction h with
  | refl c => exact .refl _
  | @step c d e n hcycle _ ih =>
    rw [Nat.add_comm]
    exact (counts_of_next hcycle).trans ih

/-- A machine that has just entered the handler of an exception. -/
structure Entered (c : Cpu) (e : Exception) : Prop where
  pc : c.pc = e.vector
  sr : c.sr = Supervision.Bit.fo.mask ||| Supervision.Bit.sm.mask
  immu_enabled : c.immu.enabled = false
  dmmu_enabled : c.dmmu.enabled = false
  delaySlot : c.delaySlot = none

theorem Entered.raise (c : Cpu) (x : Exception) (a : Word) : (c.raise x a).Entered x :=
  ⟨rfl, rfl, rfl, rfl, rfl⟩

theorem Entered.settle {x : Exception} (h : c.Entered x) (o : Outcome) : (c.settle o).Entered x :=
  ⟨h.pc, h.sr, h.immu_enabled, h.dmmu_enabled, h.delaySlot⟩

theorem counts_takeInterrupt (c : Cpu) :
    c.statistics.Counts
      (c.takeInterrupt.settle (.exception .externalInterrupt)).statistics 0
      (.exception .externalInterrupt) := by
  have h := Statistics.Counts.record c.statistics .externalInterrupt
  exact ⟨rfl, rfl, h.exceptionsOf_eq, rfl⟩

/-- Only a trap and the halting instruction stop the machine. The trap has moved on. -/
theorem cycle_halted (h : c.cycle = (d, some .halted)) :
    ∃ i, c.issued? = some i ∧
      ((∃ k, i = .trap k ∧ d.pc = c.delaySlot.getD (c.pc + 4)) ∨ (c.stops i ∧ d.pc = c.pc)) := by
  have hflow : c.attempt = (d, .halt) := by
    unfold cycle at h
    generalize c.attempt = r at h ⊢
    obtain ⟨b, f⟩ := r
    cases f with
    | halt =>
      cases h
      rfl
    | next | fault => cases h
  cases hi : c.issued? with
  | none =>
    obtain ⟨x, -, hattempt⟩ := attempt_of_not_issued hi
    cases hattempt.symm.trans hflow
  | some i =>
    refine ⟨i, rfl, ?_⟩
    have heffect := c.fetched.execute_effect i
    rw [← attempt_of_issued hi, hflow] at heffect
    obtain ⟨hpc, hslot⟩ := Prod.mk.inj c.place_fetched
    cases heffect with
    | trap k =>
      refine .inl ⟨k, rfl, ?_⟩
      change c.fetched.delaySlot.getD (c.fetched.pc + 4) = _
      rw [hpc, hslot]
    | stop hs => exact .inr ⟨(c.stops_fetched i).mp hs, hpc⟩

/-- The three ways in which a run with a budget ends. -/
inductive Ended (c : Cpu) (budget : Nat) : Outcome → Prop
  /-- The whole budget was used up, and nothing else was counted. -/
  | completed {d : Cpu} (hrun : c.run budget = (d, .completed))
      (hcounts : c.statistics.Counts d.statistics budget .completed) : Ended c budget .completed
  /-- One exception was dispatched within the budget. -/
  | exception {d : Cpu} {x : Exception} {n : Nat} (hrun : c.run budget = (d, .exception x))
      (hcounts : c.statistics.Counts d.statistics n (.exception x)) (hn : n ≤ budget)
      (hentered : d.Entered x) (hx : x ∉ [.reset, .range, .floatingPoint, .trap]) :
      Ended c budget (.exception x)
  /-- The last of at least one cycles issued a trap, or the halting instruction and stayed there. -/
  | halted {b d : Cpu} {n : Nat} {i : Instruction} (hrun : c.run budget = (d, .halted))
      (hcounts : c.statistics.Counts d.statistics (n + 1) .halted) (hn : n + 1 ≤ budget)
      (hbefore : c.sampleInterrupts.GoesOn n b) (hissued : b.issued? = some i)
      (hlast : b.cycle.1.settle .halted = d)
      (hi : (∃ k, i = .trap k ∧ d.pc = b.delaySlot.getD (b.pc + 4)) ∨
        (i = .nop 1 ∧ b.privilege = .supervisor ∧ d.pc = b.pc)) :
      Ended c budget .halted

theorem run_of_due (h : c.sampleInterrupts.interruptDue = true) (budget : Nat) :
    c.run budget =
      (c.sampleInterrupts.takeInterrupt.settle (.exception .externalInterrupt),
        .exception .externalInterrupt) := by
  simp only [run, h, if_true]

theorem run_of_not_due (h : c.sampleInterrupts.interruptDue = false) (budget : Nat) :
    c.run budget =
      ((c.sampleInterrupts.cycles budget).1.settle (c.sampleInterrupts.cycles budget).2,
        (c.sampleInterrupts.cycles budget).2) := by
  simp only [run, h, Bool.false_eq_true, if_false]

theorem Ended.of_stop {budget : Nat} (hdue : c.sampleInterrupts.interruptDue = false)
    (hbefore : c.sampleInterrupts.GoesOn k d) (hstop : d.cycle = (e, some o)) (hk : k < budget) :
    c.Ended budget o := by
  have hrun : c.run budget = (e.settle o, o) := by
    rw [run_of_not_due hdue, hbefore.cycles_of_stop hstop hk]
  have hcounts : c.statistics.Counts (e.settle o).statistics (k + 1) o :=
    hbefore.counts.trans (counts_of_stop hstop)
  cases o with
  | completed => exact absurd (congrArg Prod.snd hstop) d.cycle_ne_completed
  | exception x =>
    obtain ⟨a, -, hraise⟩ := cycle_of_exception (congrArg Prod.snd hstop)
    have hx : x ∈ Exception.ofCycle := cycle_exception (congrArg Prod.snd hstop)
    have he : e = d.attempt.1.raise x a := (congrArg Prod.fst hstop).symm.trans hraise
    have hentered : e.Entered x := he ▸ .raise d.attempt.1 x a
    exact .exception hrun hcounts hk (hentered.settle _)
      (Exception.not_unraised x (List.mem_cons_of_mem _ hx))
  | halted =>
    obtain ⟨i, hi, hhalts⟩ := cycle_halted hstop
    refine .halted hrun hcounts hk hbefore hi (by rw [hstop]) ?_
    rcases hhalts with htrap | ⟨hs, hpc⟩
    · exact .inl htrap
    · exact .inr ⟨hs.1, hs.2, hpc⟩

/-- Every run ends in exactly one of the three ways. It has completed its budget without an
exception or a halt, or dispatched one exception and entered its handler, or halted. -/
theorem existsUnique_ended (c : Cpu) (budget : Nat) : ∃! o, c.Ended budget o := by
  refine ⟨(c.run budget).2, ?_, ?_⟩
  · cases hdue : c.sampleInterrupts.interruptDue with
    | true =>
      rw [run_of_due hdue]
      exact .exception (run_of_due hdue budget) c.sampleInterrupts.counts_takeInterrupt
        (Nat.zero_le _) ((Entered.raise _ _ _).settle _)
        (Exception.not_unraised _ List.mem_cons_self)
    | false =>
      rcases c.sampleInterrupts.goesOn_or_stops budget with ⟨d, hd⟩ | ⟨k, d, e, o, hk, hd, hstop⟩
      · have hrun : c.run budget = (d.settle .completed, .completed) := by
          rw [run_of_not_due hdue, hd.cycles_eq]
        rw [hrun]
        exact .completed hrun (hd.counts.trans (counts_of_completed d))
      · rw [run_of_not_due hdue, hd.cycles_of_stop hstop hk]
        exact .of_stop hdue hd hstop hk
  · intro o ho
    cases ho with
    | completed hrun | exception hrun | halted hrun => rw [hrun]

/-! ### Runs one after another -/

theorem count_settle (c : Cpu) : (c.settle .completed).count = c.count ∘ Counter.source := by
  funext q
  cases q with
  | hits side | misses side => cases side <;> rfl
  | _ => rfl

/-- A run does not depend on whether the one before was brought to an end. -/
theorem run_settle (c : Cpu) (budget : Nat) : (c.settle .completed).run budget = c.run budget := by
  have htwins : Twins Eq c.count (c.count ∘ Counter.source) c (c.settle .completed) := by
    rw [← count_settle]
    exact .of_uncounted rfl rfl
  obtain ⟨d, e, o, hd, he, hrun⟩ := htwins.run .eq budget
  have hsource : (c.count ∘ Counter.source) ∘ Counter.source = c.count ∘ Counter.source := by
    funext q
    exact congrArg c.count q.source_source
  rw [hsource] at hrun
  rw [hd, he, hrun.eq]

/-- A machine to which a sample of the interrupt lines shows nothing: they are as the controller saw
them last, and no interrupt waits that would be taken. -/
structure Still (c : Cpu) : Prop where
  lines : c.bus.interrupts = c.interrupts.status
  quiet : ¬(Supervision.has c.sr .iee = true ∧ c.interrupts.pending = true ∧
    c.interrupts.status &&& c.interrupts.mask ≠ 0)

theorem interruptDue_iff (c : Cpu) :
    c.interruptDue = true ↔
      Supervision.has c.sr .iee = true ∧ c.interrupts.pending = true ∧
        c.interrupts.status &&& c.interrupts.mask ≠ 0 := by
  simp [interruptDue, InterruptController.due]

theorem sampleInterrupts_eq_self_iff (c : Cpu) :
    c.sampleInterrupts = c ↔ c.bus.interrupts = c.interrupts.status := by
  constructor
  · intro h
    rw [← c.interrupts.sample_eq_self_iff]
    exact congrArg Cpu.interrupts h
  · intro h
    rw [sampleInterrupts, (c.interrupts.sample_eq_self_iff c.bus.interrupts).mpr h]

theorem still_iff (c : Cpu) : c.Still ↔ c.sampleInterrupts = c ∧ c.interruptDue = false := by
  rw [sampleInterrupts_eq_self_iff, ← Bool.not_eq_true, interruptDue_iff]
  exact ⟨fun h => ⟨h.lines, h.quiet⟩, fun h => ⟨h.1, h.2⟩⟩

theorem Still.run_eq (h : c.Still) (n : Nat) :
    c.run n = ((c.cycles n).1.settle (c.cycles n).2, (c.cycles n).2) := by
  obtain ⟨hsample, hdue⟩ := c.still_iff.mp h
  simp only [run, hsample, hdue, Bool.false_eq_true, if_false]

/-- A run of no cycles shows what the sample of the interrupt lines does. -/
theorem still_of_run_zero (h : c.run 0 = (d, .completed)) (hd : d.interrupts = c.interrupts) :
    c.Still := by
  rw [still_iff]
  cases hdue : c.sampleInterrupts.interruptDue with
  | true =>
    rw [run_of_due hdue] at h
    cases congrArg Prod.snd h
  | false =>
    rw [run_of_not_due hdue, cycles] at h
    have hinterrupts : c.sampleInterrupts.interrupts = d.interrupts := congrArg (·.1.interrupts) h
    have hsample : c.sampleInterrupts = c := by
      rw [sampleInterrupts_eq_self_iff, ← InterruptController.sample_eq_self_iff]
      exact hinterrupts.trans hd
    refine ⟨hsample, ?_⟩
    rw [← hsample]
    exact hdue

/-- Where a run completes its budget, it can be cut in two exactly if the sample in between shows
nothing. Where it ends early, a larger budget makes no difference. -/
theorem run_add (c : Cpu) (m : Nat) :
    ((c.run m).2 = .completed →
        ((∀ n, (c.run m).1.run n = c.run (m + n)) ↔ (c.run m).1.Still)) ∧
      ((c.run m).2 ≠ .completed → ∀ n, c.run (m + n) = c.run m) := by
  cases hdue : c.sampleInterrupts.interruptDue with
  | true =>
    rw [run_of_due hdue]
    exact ⟨nofun, fun _ n => run_of_due hdue (m + n)⟩
  | false =>
    rcases c.sampleInterrupts.goesOn_or_stops m with ⟨d, hd⟩ | ⟨k, d, e, o, hk, hd, hstop⟩
    · have hrun : c.run m = (d.settle .completed, .completed) := by
        rw [run_of_not_due hdue, hd.cycles_eq]
      rw [hrun]
      refine ⟨fun _ => ⟨fun h => ?_, fun hstill n => ?_⟩, fun h => absurd rfl h⟩
      · exact still_of_run_zero ((h 0).trans hrun) rfl
      · have hd' : d.Still := ⟨hstill.lines, hstill.quiet⟩
        rw [run_settle, hd'.run_eq, run_of_not_due hdue, hd.cycles_add]
    · have hrun : c.run m = (e.settle o, o) := by
        rw [run_of_not_due hdue, hd.cycles_of_stop hstop hk]
      have ho : o ≠ .completed := by
        intro ho
        exact d.cycle_ne_completed (by rw [hstop, ho])
      rw [hrun]
      refine ⟨fun h => absurd h ho, fun _ n => ?_⟩
      rw [run_of_not_due hdue, hd.cycles_of_stop hstop (Nat.lt_add_right n hk)]

/-- A loop that is cut in the delay slot of its jump. -/
theorem run_add_loop :
    let c := Cpu.holding [(0, .addi 3 3 1), (4, .j (-1)), (8, .addi 4 4 1)]
    (c.run 2).1.delaySlot = some 0 ∧ (c.run 2).1.run 3 = c.run (2 + 3) := by
  intro c
  have hcompleted : (c.run 2).2 = .completed := by decide +kernel
  have hstill : (c.run 2).1.Still := ⟨by decide +kernel, by decide +kernel⟩
  have hslot : (c.run 2).1.delaySlot = some 0 := by decide +kernel
  exact ⟨hslot, ((c.run_add 2).1 hcompleted).mpr hstill 3⟩

end Cpu

end Orbis
