import Orbis.Proofs.Outcomes

/-!
# Slices

Running until a halt goes slice by slice, and a slice ends early at an exception. Without
interrupts the borders between the runs cannot be seen: they only sample lines that are down and
bring the statistics up to date, so every slice is as good as single runs of one cycle each.
-/

namespace Orbis

namespace Cpu

/-! ### Runs without interrupts -/

variable {c d : Cpu}

/-- The interrupt line is down, and the controller knows of no interrupt. -/
structure Calm (c : Cpu) : Prop where
  line : c.bus.uart.interrupting = false
  status : c.interrupts.status = 0
  pending : c.interrupts.pending = false

instance (c : Cpu) : Decidable c.Calm :=
  decidable_of_iff (c.bus.uart.interrupting = false ∧ c.interrupts.status = 0 ∧
    c.interrupts.pending = false) ⟨fun h => ⟨h.1, h.2.1, h.2.2⟩, fun h => ⟨h.1, h.2, h.3⟩⟩

theorem Calm.still (h : c.Calm) : c.Still where
  lines := by
    rw [Bus.interrupts, h.line, h.status]
    rfl
  quiet := by
    intro hdue
    cases h.pending.symm.trans hdue.2.1

theorem Calm.sampleInterrupts_eq (h : c.Calm) : c.sampleInterrupts = c :=
  (c.still_iff.mp h.still).1

theorem Calm.interruptDue_eq (h : c.Calm) : c.interruptDue = false :=
  (c.still_iff.mp h.still).2

theorem Calm.run_eq (h : c.Calm) (budget : Nat) :
    c.run budget = ((c.cycles budget).1.settle (c.cycles budget).2, (c.cycles budget).2) :=
  h.still.run_eq budget

theorem Calm.run_of_next (h : c.Calm) (hd : d.Calm) (hcycle : c.cycle = (d, none)) (budget : Nat) :
    c.run (budget + 1) = (d.settle .completed).run budget := by
  rw [h.run_eq, run_settle, hd.run_eq, cycles_of_next hcycle]

theorem Calm.run_of_stop (h : c.Calm) {o : Outcome} (hcycle : c.cycle = (d, some o))
    (budget : Nat) : c.run (budget + 1) = (d.settle o, o) := by
  rw [h.run_eq, cycles_of_stop hcycle]

/-- Runs of one cycle each until the program stops, which is answered by `true`, or a number of
runs was made. -/
def runSingly (c : Cpu) : (runs : Nat) → Cpu × Bool
  | 0 => (c, false)
  | runs + 1 =>
    match c.run 1 with
    | (c, .halted) => (c, true)
    | (c, _) => c.runSingly runs

/-- Whether no single run meets an interrupt. -/
def CalmFor (c : Cpu) : (runs : Nat) → Prop
  | 0 => True
  | runs + 1 => c.Calm ∧ ((c.run 1).2 ≠ .halted → (c.run 1).1.CalmFor runs)

/-- Whether no cycle of a slice meets an interrupt. -/
def CalmSlice (c : Cpu) : (budget : Nat) → Prop
  | 0 => True
  | budget + 1 => c.Calm ∧ ((c.run 1).2 = .completed → (c.run 1).1.CalmSlice budget)

/-- A number of single runs without interrupts lead from one state to another, and none of them
stops the machine. -/
inductive Singly : Cpu → Nat → Cpu → Prop
  | refl (c : Cpu) : Singly c 0 c
  | step {c d e : Cpu} {o : Outcome} {n : Nat} (h : c.Calm) (hrun : c.run 1 = (d, o))
      (ho : o ≠ .halted) (hd : Singly d n e) : Singly c (n + 1) e

theorem Calm.cycles_run_one (h : c.Calm) :
    (c.run 1).1.statistics.cycles = c.statistics.cycles + 1 := by
  rw [← c.cycles_cycle, h.run_eq]
  unfold cycles
  generalize c.cycle = r
  obtain ⟨d, stop⟩ := r
  cases stop <;> rfl

namespace Singly

variable {n runs : Nat}

theorem cycles_eq (h : Singly c n d) : d.statistics.cycles = c.statistics.cycles + n := by
  induction h with
  | refl => rfl
  | @step c d e o n h hrun _ _ ih =>
    have hone := h.cycles_run_one
    rw [hrun] at hone
    rw [ih, show d.statistics.cycles = c.statistics.cycles + 1 from hone, Nat.add_right_comm,
      Nat.add_assoc]

theorem runSingly_eq (h : Singly c n d) (runs : Nat) :
    c.runSingly (n + runs) = d.runSingly runs := by
  induction h with
  | refl c => rw [Nat.zero_add]
  | @step c d e o n h hrun ho _ ih =>
    rw [← ih, Nat.add_right_comm, runSingly, hrun]
    cases o with
    | halted => exact absurd rfl ho
    | completed | exception => rfl

theorem calmFor_iff (h : Singly c n d) : c.CalmFor (n + runs) ↔ d.CalmFor runs := by
  induction h with
  | refl c => rw [Nat.zero_add]
  | step h hrun ho _ ih =>
    rw [← ih, Nat.add_right_comm, CalmFor, hrun]
    exact ⟨fun hc => hc.2 ho, fun hd => ⟨h, fun _ => hd⟩⟩

end Singly

/-- A slice ends as the last one of some single runs. -/
theorem CalmSlice.exists_singly {budget : Nat} (h : c.CalmSlice (budget + 1)) :
    ∃ n d, n ≤ budget ∧ Singly c n d ∧ d.Calm ∧ c.run (budget + 1) = d.run 1 := by
  -- Along the slice, each cycle that does not end it is one single run more.
  induction budget generalizing c with
  | zero => exact ⟨0, c, Nat.le_refl 0, .refl c, h.1, rfl⟩
  | succ b ih =>
    obtain ⟨hcalm, hnext⟩ := h
    cases hcycle : c.cycle with
    | mk d stop =>
      cases stop with
      | some o =>
        refine ⟨0, c, Nat.zero_le _, .refl c, hcalm, ?_⟩
        rw [hcalm.run_of_stop hcycle, hcalm.run_of_stop hcycle]
      | none =>
        have hone : c.run 1 = (d.settle .completed, .completed) := by
          rw [hcalm.run_eq, cycles_of_next hcycle]
          rfl
        rw [hone] at hnext
        obtain ⟨hline, hstatus, hpending⟩ := (hnext rfl).1
        obtain ⟨n, e, hn, hsingly, he, hrun⟩ := ih (hnext rfl)
        have hd : d.Calm := ⟨hline, hstatus, hpending⟩
        refine ⟨n + 1, e, Nat.succ_le_succ hn, .step hcalm hone (by decide) hsingly, he, ?_⟩
        rw [hcalm.run_of_next hd hcycle, ← hrun]

theorem CalmFor.calmSlice {runs budget : Nat} (h : c.CalmFor runs) (hle : budget ≤ runs) :
    c.CalmSlice budget := by
  induction budget generalizing c runs with
  | zero => trivial
  | succ b ih =>
    cases runs with
    | zero => cases hle
    | succ r =>
      refine ⟨h.1, fun hcompleted => ih (h.2 ?_) (Nat.le_of_succ_le_succ hle)⟩
      rw [hcompleted]
      nofun

end Cpu

namespace Simulator

open Cpu (Calm CalmFor CalmSlice Singly)

theorem budgetBefore_pos (s : Simulator) {limit : Nat} (h : s.cycles < limit) :
    ∃ budget, s.budgetBefore limit = budget + 1 ∧ s.cycles + budget < limit := by
  have hslice : 1 ≤ s.configuration.sliceBudget := Nat.le_max_right ..
  refine ⟨s.budgetBefore limit - 1, ?_, ?_⟩
  · unfold budgetBefore
    omega
  · unfold budgetBefore
    omega

/-- A slice without interrupts ends as some last single run, and leaves the cycles behind it. -/
theorem exists_last_run (s : Simulator) {limit : Nat} (h : s.cycles < limit)
    (hcalm : s.cpu.CalmSlice (s.budgetBefore limit)) :
    ∃ n d rest, limit - s.cycles = n + (rest + 1) ∧ Singly s.cpu n d ∧ d.Calm ∧
      s.cpu.run (s.budgetBefore limit) = d.run 1 ∧
      limit - (d.run 1).1.statistics.cycles = rest := by
  obtain ⟨budget, hbudget, hle⟩ := s.budgetBefore_pos h
  rw [hbudget] at hcalm ⊢
  obtain ⟨n, d, hn, hsingly, hd, hrun⟩ := hcalm.exists_singly
  refine ⟨n, d, limit - s.cycles - n - 1, by omega, hsingly, hd, hrun, ?_⟩
  rw [hd.cycles_run_one, hsingly.cycles_eq]
  unfold cycles at hle ⊢
  omega

theorem runBefore_of_calmFor (s : Simulator) {limit runs : Nat} (hruns : limit - s.cycles ≤ runs)
    (h : s.cpu.CalmFor (limit - s.cycles)) :
    s.runBefore limit runs =
      ({ s with cpu := (s.cpu.runSingly (limit - s.cycles)).1 },
        (s.cpu.runSingly (limit - s.cycles)).2) := by
  -- A slice uses up at least one cycle, so the runs last as long as the cycles do.
  induction runs generalizing s with
  | zero =>
    rw [Nat.le_zero.mp hruns]
    rfl
  | succ m ih =>
    unfold runBefore
    split
    · next hlt =>
      obtain ⟨n, d, rest, hleft, hsingly, hd, hrun, hrest⟩ :=
        s.exists_last_run hlt (h.calmSlice (Nat.min_le_right ..))
      rw [hleft] at h hruns ⊢
      rw [hsingly.calmFor_iff, CalmFor] at h
      rw [hsingly.runSingly_eq, Cpu.runSingly]
      simp only [run, hrun]
      generalize d.run 1 = r at h hrest ⊢
      obtain ⟨e, o⟩ := r
      cases o with
      | halted => rfl
      | completed | exception =>
        have hlimit : limit - ({ s with cpu := e } : Simulator).cycles = rest := hrest
        have hnext := h.2 (by simp)
        rw [← hlimit] at hnext ⊢
        exact ih { s with cpu := e } (by omega) hnext
    · next hge =>
      rw [Nat.sub_eq_zero_of_le (Nat.le_of_not_lt hge)]
      rfl

end Simulator

/-! ### What the record of a run shows -/

namespace Cpu

variable {c : Cpu}

theorem CalmSlice.settle {budget : Nat} (h : c.CalmSlice budget) :
    (c.settle .completed).CalmSlice budget := by
  cases budget with
  | zero => trivial
  | succ b =>
    refine ⟨⟨h.1.line, h.1.status, h.1.pending⟩, ?_⟩
    rw [run_settle]
    exact h.2

theorem calmSlice_of_makes {budget n : Nat} (hn : c.Makes budget n)
    (h : ∀ m ∈ c.cycleRecord n, m.1.Calm) : c.CalmSlice budget := by
  induction hn with
  | spent => trivial
  | @next c d budget n hcycle _ ih =>
    rw [cycleRecord_of_next hcycle] at h
    have hcalm : c.Calm := h _ (List.mem_append_right _ List.mem_cons_self)
    refine ⟨hcalm, fun _ => ?_⟩
    rw [hcalm.run_eq, cycles_of_next hcycle]
    exact (ih fun m hm => h m (List.mem_append_left _ hm)).settle
  | @stop c d o hcycle budget =>
    have hcalm : c.Calm := h _ List.mem_cons_self
    refine ⟨hcalm, fun hcompleted => ?_⟩
    rw [hcalm.run_of_stop hcycle] at hcompleted
    cases hcompleted
    exact absurd (congrArg Prod.snd hcycle) c.cycle_ne_completed

theorem calmSlice_of_run {past : History} {budget : Nat}
    (h : ∀ m ∈ ((⟨past, c⟩ : Session).run .real budget).past, m.1.Calm) :
    c.CalmSlice budget := by
  have hcalm : c.Calm := h _ ((Session.past_run .real ⟨past, c⟩ budget).mem List.mem_cons_self)
  obtain ⟨steps, d, o, hsteps, -, hreal⟩ := (⟨past, c⟩ : Session).run_real budget
  rw [hreal] at h
  rw [hcalm.sampleInterrupts_eq] at hsteps
  cases hsteps with
  | interrupt hdue => cases hcalm.interruptDue_eq.symm.trans hdue
  | cycles _ hn =>
    exact calmSlice_of_makes hn fun m hm =>
      h m (List.mem_cons_of_mem _ (List.mem_append_left _ hm))

end Cpu

namespace Simulator

open Cpu (Calm CalmFor CalmSlice Singly)

theorem calmFor_of_record (s : Simulator) {limit runs : Nat} {past : History}
    (hruns : limit - s.cycles ≤ runs)
    (h : ∀ m ∈ ((⟨past, s.cpu⟩ : Session).performAll .real
      ((s.budgetsBefore limit runs).map .run)).past, m.1.Calm) :
    s.cpu.CalmFor (limit - s.cycles) := by
  induction runs generalizing s past with
  | zero =>
    rw [Nat.le_zero.mp hruns]
    trivial
  | succ m ih =>
    unfold budgetsBefore at h
    split at h
    · next hlt =>
      rw [List.map_cons, Session.performAll, List.foldl_cons, Session.perform] at h
      have hslice := Cpu.calmSlice_of_run fun m hm =>
        h m ((Session.past_performAll .real _ _).mem hm)
      obtain ⟨n, d, rest, hleft, hsingly, hd, hrun, hrest⟩ := s.exists_last_run hlt hslice
      obtain ⟨steps, e, o, -, hends, hreal⟩ :=
        (⟨past, s.cpu⟩ : Session).run_real (s.budgetBefore limit)
      have hlast : d.run 1 = (e.settle o, o) := hrun.symm.trans hends
      rw [hleft] at hruns ⊢
      rw [hsingly.calmFor_iff]
      refine ⟨hd, fun ho => ?_⟩
      rw [hlast] at hrest ho ⊢
      rw [hreal, run, hends] at h
      cases o with
      | halted => exact absurd rfl ho
      | completed | exception =>
        have hlimit : limit - ({ s with cpu := e.settle _ } : Simulator).cycles = rest := hrest
        rw [← hlimit]
        exact ih { s with cpu := e.settle _ } (by omega) h
    · next hge =>
      rw [Nat.sub_eq_zero_of_le (Nat.le_of_not_lt hge)]
      trivial

/-- Without interrupts, nobody can tell how long slices are. If the interrupt line is down and the
controller knows of no interrupt in all states of running until a halt, as its record has them, then
doing so with slices of any length ends as single runs of one cycle each do, in the same state with
the same counters and with the same answer. -/
theorem runUntilHalt_eq_runSingly (s : Simulator) (maxCycles : Nat)
    (h : ∀ m ∈ ((Session.start s.cpu).performAll .real (s.actions maxCycles)).past, m.1.Calm)
    (k : Configuration) :
    (s.runUntilHalt maxCycles).1.cpu =
        ((Session.start s.cpu).performAll .real (s.actions maxCycles)).now ∧
      (⟨s.cpu, k⟩ : Simulator).runUntilHalt maxCycles =
        (⟨(s.cpu.runSingly maxCycles).1, k⟩, (s.cpu.runSingly maxCycles).2) := by
  have hleft : s.cycles + maxCycles - s.cycles = maxCycles := Nat.add_sub_cancel_left ..
  have hcalm := s.calmFor_of_record (by omega) h
  have hrun := (⟨s.cpu, k⟩ : Simulator).runBefore_of_calmFor
    (show s.cycles + maxCycles - s.cycles ≤ 2 * maxCycles + 1 by omega) hcalm
  rw [show s.cycles + maxCycles - (⟨s.cpu, k⟩ : Simulator).cycles = maxCycles from hleft] at hrun
  exact ⟨s.runUntilHalt_eq_performAll maxCycles, hrun⟩

/-- A program whose handler returns from a system call to the instruction that stops it. -/
def calling : Simulator :=
  ⟨.holding [(0, .addi 3 0 5), (4, .sys 0), (8, .nop 1), (0xc00, .rfe)],
    { Configuration.initial with sliceCycles := 3 }⟩

/-- The system call cuts the first of two slices short, and it does not matter. -/
theorem runUntilHalt_eq_runSingly_calling :
    calling.actions 9 = [.run 3, .run 3] ∧ (calling.runUntilHalt 9).2 = true ∧
      (calling.runUntilHalt 9).1.cpu = (calling.cpu.runSingly 9).1 := by
  have hcalm : ∀ m ∈ ((Session.start calling.cpu).performAll .real (calling.actions 9)).past,
      m.1.Calm := by
    decide +kernel
  have hhalted : (calling.cpu.runSingly 9).2 = true := by decide +kernel
  have hactions : calling.budgetsBefore (calling.cycles + 9) (2 * 9 + 1) = [3, 3] := by
    decide +kernel
  have hrun : calling.runUntilHalt 9 = _ :=
    (calling.runUntilHalt_eq_runSingly 9 hcalm calling.configuration).2
  rw [hrun]
  exact ⟨congrArg (List.map Action.run) hactions, hhalted, rfl⟩

end Simulator

end Orbis
