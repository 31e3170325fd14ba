import Orbis.Console.Command
import Orbis.Proofs.Slices
import Orbis.Scripting

/-!
# Loops of runs

Three loops run a machine slice by slice up to a limit of cycles: that of the machine itself, that
of a script and that of the console. Each computes its budgets in a way of its own, but they make
the same runs. An interrupt can end a run before its first cycle. It leaves interrupts disabled, so
the next run makes a cycle, and the loops come to an end.
-/

namespace Orbis

/-- What a loop does next. -/
inductive Loop.Turn where
  | stop
  | run (budget : Nat)
  /-- The loop fails, since the bounds of its budget are in the wrong order. -/
  | refuse

/-- A loop of runs. -/
structure Loop where
  turn : Simulator → Loop.Turn
  /-- What the loop does with the serial line behind a run, and the bytes that it prints. -/
  behind : Uart → Array Byte × Uart

/-- The value between two bounds that is closest to a given one, if there is any. -/
def clamp? (low high x : Nat) : Option Nat :=
  if low ≤ high then some (max low (min x high)) else none

namespace Loop

/-- A run that a loop has made. -/
structure Run where
  start : Simulator
  budget : Nat
  outcome : Outcome

/-- What a machine is told to do by a run, and what it answers. -/
def Run.call (k : Run) : Nat × Outcome := (k.budget, k.outcome)

/-- The loop of a machine that began at a number of cycles. -/
def clamped (start maxCycles : Nat) : Loop where
  turn s :=
    if s.cycles - start < maxCycles then
      (clamp? 1 (maxCycles - (s.cycles - start)) s.configuration.sliceCycles).elim .refuse .run
    else .stop
  behind u := (#[], u)

/-- The loop of a script. -/
def scripted (slice start maxCycles : Nat) : Loop where
  turn s :=
    if maxCycles ≤ s.cycles - start then .stop
    else .run (min (max slice 1) (maxCycles - (s.cycles - start)))
  behind u := (#[], u)

/-- What the console does with the serial line behind a run in which no key waits. -/
def taking (u : Uart) : Array Byte × Uart := (u.receive []).drain

/-- The loop of the console when no keys wait. -/
def console (slice limit : Nat) : Loop where
  turn s := (Console.budget? (max slice 1) (some limit) s.cycles).elim .stop .run
  behind := taking

/-- The budgets that all of them compute. -/
def limited (limit : Nat) (behind : Uart → Array Byte × Uart) : Loop where
  turn s := if s.cycles < limit then .run (s.budgetBefore limit) else .stop
  behind := behind

/-- The machine as the loop leaves it behind a run. -/
def leave (l : Loop) (s : Simulator) : Simulator := s.setUart (l.behind s.uart).2

/-- A loop that begins with a machine makes some runs, prints some bytes and ends with a machine,
and with whether that has halted. -/
inductive Drives (l : Loop) : Simulator → List Run → Array Byte → Simulator × Bool → Prop
  | stop {s : Simulator} (h : l.turn s = .stop) : Drives l s [] #[] (s, false)
  | halt {s t : Simulator} {n : Nat} (h : l.turn s = .run n) (hrun : s.run n = (t, .halted)) :
      Drives l s [⟨s, n, .halted⟩] (l.behind t.uart).1 (l.leave t, true)
  | next {s t : Simulator} {n : Nat} {o : Outcome} {runs : List Run} {printed : Array Byte}
      {r : Simulator × Bool} (h : l.turn s = .run n) (hrun : s.run n = (t, o)) (ho : o ≠ .halted)
      (hrest : Drives l (l.leave t) runs printed r) :
      Drives l s (⟨s, n, o⟩ :: runs) ((l.behind t.uart).1 ++ printed) r

end Loop

/-! ### Progress -/

namespace Cpu

/-- A run makes as many cycles as its budget allows at most. If it may make some but does not, then
it has taken an interrupt, and the next one will not. -/
theorem run_progress (c : Cpu) (budget : Nat) :
    ∃ n, n ≤ budget ∧ (c.run budget).1.statistics.cycles = c.statistics.cycles + n ∧
      (0 < budget → n = 0 →
        Supervision.has c.sr .iee = true ∧ Supervision.has (c.run budget).1.sr .iee = false) := by
  cases hdue : c.sampleInterrupts.interruptDue with
  | true =>
    have hiee := (c.sampleInterrupts.interruptDue_iff.mp hdue).1
    have hentered : (c.run budget).1.Entered .externalInterrupt := by
      rw [run_of_due hdue]
      exact (Entered.raise _ _ _).settle _
    have hoff : Supervision.has (c.run budget).1.sr .iee = false := by
      rw [hentered.sr]
      decide
    refine ⟨0, Nat.zero_le _, ?_, fun _ _ => ⟨hiee, hoff⟩⟩
    rw [run_of_due hdue]
    exact c.sampleInterrupts.counts_takeInterrupt.cycles_eq
  | false =>
    rcases c.sampleInterrupts.goesOn_or_stops budget with ⟨d, hd⟩ | ⟨k, d, e, o, hk, hd, hstop⟩
    · refine ⟨budget, Nat.le_refl _, ?_, fun hpos hzero => absurd hzero (Nat.ne_of_gt hpos)⟩
      rw [run_of_not_due hdue, hd.cycles_eq]
      exact (hd.counts.trans (counts_of_completed d)).cycles_eq
    · refine ⟨k + 1, hk, ?_, nofun⟩
      rw [run_of_not_due hdue, hd.cycles_of_stop hstop hk]
      exact (hd.counts.trans (counts_of_stop hstop)).cycles_eq

end Cpu

namespace Simulator

/-- A bound on the runs that are left up to a limit of cycles. A run that makes no cycle is made up
for by the interrupts that it disables. -/
def runsLeft (s : Simulator) (limit : Nat) : Nat :=
  2 * (limit - s.cycles) - if Supervision.has s.cpu.sr .iee then 0 else 1

theorem cycles_le_run {s t : Simulator} {n : Nat} {o : Outcome} (hrun : s.run n = (t, o)) :
    s.cycles ≤ t.cycles := by
  obtain ⟨k, -, hcycles, -⟩ := s.cpu.run_progress n
  rw [show t.cycles = (s.cpu.run n).1.statistics.cycles from congrArg (·.1.cycles) hrun.symm,
    hcycles]
  exact Nat.le_add_right ..

theorem run_budgetBefore {s t : Simulator} {limit : Nat} {o : Outcome} (h : s.cycles < limit)
    (hrun : s.run (s.budgetBefore limit) = (t, o)) :
    t.cycles ≤ limit ∧ (s.cycles < t.cycles ∨
      (t.cycles = s.cycles ∧ Supervision.has s.cpu.sr .iee = true ∧
        Supervision.has t.cpu.sr .iee = false)) := by
  obtain ⟨b, hbudget, hb⟩ := s.budgetBefore_pos h
  obtain ⟨n, hn, hcycles, hinterrupt⟩ := s.cpu.run_progress (s.budgetBefore limit)
  have hcpu : (s.cpu.run (s.budgetBefore limit)).1 = t.cpu := congrArg (·.1.cpu) hrun
  rw [hcpu] at hcycles hinterrupt
  unfold cycles at hb ⊢
  rw [hcycles]
  refine ⟨by omega, ?_⟩
  cases n with
  | zero => exact .inr ⟨rfl, hinterrupt (by omega) rfl⟩
  | succ n => exact .inl (by omega)

theorem runsLeft_run {s t : Simulator} {limit : Nat} {o : Outcome} (h : s.cycles < limit)
    (hrun : s.run (s.budgetBefore limit) = (t, o)) : t.runsLeft limit < s.runsLeft limit := by
  unfold runsLeft
  obtain ⟨-, hmore | ⟨hsame, hiee, hnot⟩⟩ := run_budgetBefore h hrun
  · split <;> split <;> omega
  · rw [hiee, hnot, hsame]
    simp only [if_true, Bool.false_eq_true, if_false]
    omega

end Simulator

namespace Loop

variable {l l' : Loop} {s : Simulator} {runs : List Run} {printed : Array Byte}
  {r : Simulator × Bool} {limit : Nat} {behind : Uart → Array Byte × Uart}

@[simp] theorem cycles_leave (l : Loop) (t : Simulator) : (l.leave t).cycles = t.cycles := rfl

@[simp] theorem runsLeft_leave (l : Loop) (t : Simulator) (limit : Nat) :
    (l.leave t).runsLeft limit = t.runsLeft limit := rfl

theorem of_turn_limited {n : Nat} (h : (limited limit behind).turn s = .run n) :
    s.cycles < limit ∧ n = s.budgetBefore limit := by
  unfold limited at h
  dsimp only at h
  split at h
  · next hlt =>
    cases h
    exact ⟨hlt, rfl⟩
  · cases h

theorem not_lt_of_stop (h : (limited limit behind).turn s = .stop) : ¬s.cycles < limit := by
  intro hlt
  cases h.symm.trans (if_pos hlt)

theorem exists_drives (limit : Nat) (behind : Uart → Array Byte × Uart) (s : Simulator) :
    ∃ runs printed r, (limited limit behind).Drives s runs printed r ∧
      runs.length ≤ s.runsLeft limit := by
  -- Each run uses up some of the runs that are left.
  induction hn : s.runsLeft limit using Nat.strongRecOn generalizing s with
  | ind n ih =>
    by_cases hlt : s.cycles < limit
    · have hturn : (limited limit behind).turn s = .run (s.budgetBefore limit) := if_pos hlt
      cases hrun : s.run (s.budgetBefore limit) with
      | mk t o =>
        have hleft := Simulator.runsLeft_run hlt hrun
        rw [hn] at hleft
        by_cases ho : o = .halted
        · subst ho
          exact ⟨_, _, _, .halt hturn hrun, Nat.lt_of_le_of_lt (Nat.zero_le _) hleft⟩
        · obtain ⟨runs, printed, r, hrest, hlength⟩ :=
            ih _ hleft ((limited limit behind).leave t) (runsLeft_leave ..)
          exact ⟨_, _, _, .next hturn hrun ho hrest, Nat.lt_of_le_of_lt hlength hleft⟩
    · exact ⟨[], #[], (s, false), .stop (if_neg hlt), Nat.zero_le _⟩

namespace Drives

/-- Loops that take the same turns from a number of cycles on drive alike. -/
theorem congr (h : l.Drives s runs printed r) (hbehind : l'.behind = l.behind)
    (hturn : ∀ t : Simulator, t.configuration = s.configuration → s.cycles ≤ t.cycles →
      l'.turn t = l.turn t) : l'.Drives s runs printed r := by
  have hleave : l'.leave = l.leave := by
    funext t
    rw [leave, leave, hbehind]
  induction h with
  | stop h => exact .stop ((hturn _ rfl (Nat.le_refl _)).trans h)
  | halt h hrun =>
    rw [← hbehind, ← hleave]
    exact .halt ((hturn _ rfl (Nat.le_refl _)).trans h) hrun
  | @next s t n o _ _ _ h hrun ho _ ih =>
    have hconfiguration : t.configuration = s.configuration :=
      congrArg (·.1.configuration) hrun.symm
    have hcycles : s.cycles ≤ t.cycles := Simulator.cycles_le_run hrun
    have hrest := ih fun u hu hle =>
      hturn u (hu.trans hconfiguration) (Nat.le_trans hcycles hle)
    rw [← hbehind]
    rw [← hleave] at hrest
    exact .next ((hturn _ rfl (Nat.le_refl _)).trans h) hrun ho hrest

theorem unique {runs' : List Run} {printed' : Array Byte} {r' : Simulator × Bool}
    (h : l.Drives s runs printed r) (h' : l.Drives s runs' printed' r') :
    runs' = runs ∧ printed' = printed ∧ r' = r := by
  induction h generalizing runs' printed' r' with
  | stop h =>
    cases h' with
    | stop => exact ⟨rfl, rfl, rfl⟩
    | halt h₂ | next h₂ => cases h.symm.trans h₂
  | halt h hrun =>
    cases h' with
    | stop h₂ => cases h.symm.trans h₂
    | halt h₂ hrun₂ =>
      cases h.symm.trans h₂
      cases hrun.symm.trans hrun₂
      exact ⟨rfl, rfl, rfl⟩
    | next h₂ hrun₂ ho =>
      cases h.symm.trans h₂
      cases hrun.symm.trans hrun₂
      exact absurd rfl ho
  | next h hrun ho _ ih =>
    cases h' with
    | stop h₂ => cases h.symm.trans h₂
    | halt h₂ hrun₂ =>
      cases h.symm.trans h₂
      cases hrun.symm.trans hrun₂
      exact absurd rfl ho
    | next h₂ hrun₂ _ hrest =>
      cases h.symm.trans h₂
      cases hrun.symm.trans hrun₂
      obtain ⟨rfl, rfl, rfl⟩ := ih hrest
      exact ⟨rfl, rfl, rfl⟩

/-! ### What a loop up to a limit leaves -/

theorem cycles_le (h : (limited limit behind).Drives s runs printed r) :
    s.cycles ≤ r.1.cycles ∧ (s.cycles ≤ limit → r.1.cycles ≤ limit) := by
  induction h with
  | stop => exact ⟨Nat.le_refl _, id⟩
  | halt h hrun =>
    obtain ⟨hlt, rfl⟩ := of_turn_limited h
    rw [cycles_leave]
    exact ⟨Simulator.cycles_le_run hrun, fun _ => (Simulator.run_budgetBefore hlt hrun).1⟩
  | next h hrun _ _ ih =>
    obtain ⟨hlt, rfl⟩ := of_turn_limited h
    rw [cycles_leave] at ih
    exact ⟨Nat.le_trans (Simulator.cycles_le_run hrun) ih.1,
      fun _ => ih.2 (Simulator.run_budgetBefore hlt hrun).1⟩

theorem start_lt (h : (limited limit behind).Drives s runs printed r) :
    ∀ k ∈ runs, s.cycles ≤ k.start.cycles ∧ k.start.cycles < limit := by
  induction h with
  | stop => exact fun k hk => absurd hk List.not_mem_nil
  | halt h hrun =>
    obtain ⟨hlt, -⟩ := of_turn_limited h
    intro k hk
    rw [List.mem_singleton.mp hk]
    exact ⟨Nat.le_refl _, hlt⟩
  | next h hrun _ _ ih =>
    obtain ⟨hlt, -⟩ := of_turn_limited h
    rw [cycles_leave] at ih
    intro k hk
    rcases List.mem_cons.mp hk with rfl | hk
    · exact ⟨Nat.le_refl _, hlt⟩
    · exact ⟨Nat.le_trans (Simulator.cycles_le_run hrun) (ih k hk).1, (ih k hk).2⟩

theorem of_not_halted (h : (limited limit behind).Drives s runs printed r) (hr : r.2 = false) :
    limit ≤ r.1.cycles ∧ ∀ k ∈ runs, k.outcome ≠ .halted := by
  induction h with
  | stop h =>
    exact ⟨Nat.le_of_not_lt (not_lt_of_stop h), fun k hk => absurd hk List.not_mem_nil⟩
  | halt => cases hr
  | next _ _ ho _ ih =>
    refine ⟨(ih hr).1, fun k hk => ?_⟩
    rcases List.mem_cons.mp hk with rfl | hk
    · exact ho
    · exact (ih hr).2 k hk

theorem of_halted (h : l.Drives s runs printed r) (hr : r.2 = true) :
    ∃ k, runs.getLast? = some k ∧ k.outcome = .halted := by
  induction h with
  | stop => cases hr
  | halt => exact ⟨_, rfl, rfl⟩
  | next _ _ _ _ ih =>
    obtain ⟨k, hlast, hk⟩ := ih hr
    refine ⟨k, ?_, hk⟩
    rw [List.getLast?_cons, hlast]
    rfl

end Drives

/-! ### The loops of the machine, of a script and of the console -/

/-- A script that does not cancel runs as the machine does. -/
theorem script_runBefore (s : Simulator) (limit n : Nat) :
    Scripting.runBefore s limit (fun _ => false) n =
      (.ok (s.runBefore limit n).2, (s.runBefore limit n).1) := by
  induction n generalizing s with
  | zero => rfl
  | succ n ih =>
    unfold Scripting.runBefore Simulator.runBefore
    split
    · generalize s.run (s.budgetBefore limit) = t
      obtain ⟨t, o⟩ := t
      cases o with
      | halted => rfl
      | completed | exception => exact ih t
    · rfl

theorem clamp?_slice {left : Nat} (h : 0 < left) (s : Simulator) :
    clamp? 1 left s.configuration.sliceCycles = some (min s.configuration.sliceBudget left) := by
  unfold clamp? Configuration.sliceBudget
  rw [if_pos (show 1 ≤ left from h)]
  congr 1
  omega

theorem turn_clamped {start : Nat} (h : start ≤ s.cycles) (maxCycles : Nat) :
    (clamped start maxCycles).turn s = (limited (start + maxCycles) behind).turn s := by
  unfold clamped limited Simulator.budgetBefore
  by_cases hlt : s.cycles < start + maxCycles
  · have hleft : maxCycles - (s.cycles - start) = start + maxCycles - s.cycles := by omega
    simp only [if_pos (show s.cycles - start < maxCycles by omega), if_pos hlt, hleft,
      clamp?_slice (Nat.sub_pos_of_lt hlt), Option.elim]
  · simp only [if_neg (show ¬s.cycles - start < maxCycles by omega), if_neg hlt]

theorem turn_scripted {start : Nat} (h : start ≤ s.cycles) (maxCycles : Nat) :
    (scripted s.configuration.sliceCycles start maxCycles).turn s =
      (limited (start + maxCycles) behind).turn s := by
  unfold scripted limited Simulator.budgetBefore Configuration.sliceBudget
  by_cases hlt : s.cycles < start + maxCycles
  · have hleft : maxCycles - (s.cycles - start) = start + maxCycles - s.cycles := by omega
    simp only [if_neg (show ¬maxCycles ≤ s.cycles - start by omega), if_pos hlt, hleft]
  · simp only [if_pos (show maxCycles ≤ s.cycles - start by omega), if_neg hlt]

theorem budget?_eq (s : Simulator) (limit : Nat) :
    Console.budget? (max s.configuration.sliceCycles 1) (some limit) s.cycles =
      if s.cycles < limit then some (s.budgetBefore limit) else none := by
  unfold Console.budget? Simulator.budgetBefore Configuration.sliceBudget
  by_cases hlt : s.cycles < limit
  · simp only [if_neg (Nat.not_le_of_lt hlt), if_pos hlt]
  · simp only [if_pos (Nat.le_of_not_lt hlt), if_neg hlt]

theorem turn_console (s : Simulator) (limit : Nat) :
    (console s.configuration.sliceCycles limit).turn s = (limited limit behind).turn s := by
  simp only [console, limited, budget?_eq]
  split <;> rfl

theorem drives_clamped_iff (s : Simulator) (maxCycles : Nat) :
    (clamped s.cycles maxCycles).Drives s runs printed r ↔
      (limited (s.cycles + maxCycles) (#[], ·)).Drives s runs printed r :=
  ⟨fun h => h.congr rfl fun _ _ ht => (turn_clamped ht maxCycles).symm,
    fun h => h.congr rfl fun _ _ ht => turn_clamped ht maxCycles⟩

theorem drives_scripted_iff (s : Simulator) (maxCycles : Nat) :
    (scripted s.configuration.sliceCycles s.cycles maxCycles).Drives s runs printed r ↔
      (limited (s.cycles + maxCycles) (#[], ·)).Drives s runs printed r :=
  ⟨fun h => h.congr rfl fun _ hk ht => hk ▸ (turn_scripted ht maxCycles).symm,
    fun h => h.congr rfl fun _ hk ht => hk ▸ turn_scripted ht maxCycles⟩

theorem drives_console_iff (s : Simulator) (limit : Nat) :
    (console s.configuration.sliceCycles limit).Drives s runs printed r ↔
      (limited limit taking).Drives s runs printed r :=
  ⟨fun h => h.congr rfl fun t hk _ => hk ▸ (turn_console t limit).symm,
    fun h => h.congr rfl fun t hk _ => hk ▸ turn_console t limit⟩

namespace Drives

theorem runBefore_eq (h : (limited limit (#[], ·)).Drives s runs printed r) {n : Nat}
    (hn : runs.length ≤ n) : s.runBefore limit n = r := by
  induction h generalizing n with
  | stop h =>
    cases n with
    | zero => rfl
    | succ n => exact if_neg (not_lt_of_stop h)
  | halt h hrun =>
    obtain ⟨hlt, rfl⟩ := of_turn_limited h
    cases n with
    | zero => cases hn
    | succ n =>
      unfold Simulator.runBefore
      rw [if_pos hlt, hrun]
      rfl
  | @next s t _ o _ _ _ h hrun ho _ ih =>
    obtain ⟨hlt, rfl⟩ := of_turn_limited h
    cases n with
    | zero => cases hn
    | succ n =>
      have hrest : t.runBefore limit n = _ := ih (Nat.le_of_succ_le_succ hn)
      unfold Simulator.runBefore
      rw [if_pos hlt, hrun]
      cases o with
      | halted => exact absurd rfl ho
      | completed | exception => exact hrest

theorem printed_eq (h : (limited limit (#[], ·)).Drives s runs printed r) : printed = #[] := by
  induction h with
  | stop | halt => rfl
  | next _ _ _ _ ih => rw [ih]; rfl

end Drives

theorem exists_drives_runUntilHalt (s : Simulator) (maxCycles : Nat) :
    ∃ runs, (limited (s.cycles + maxCycles) (#[], ·)).Drives s runs #[]
        (s.runUntilHalt maxCycles) ∧ runs.length ≤ 2 * maxCycles := by
  obtain ⟨runs, printed, r, h, hlength⟩ := exists_drives (s.cycles + maxCycles) (#[], ·) s
  have hruns : runs.length ≤ 2 * maxCycles := by
    unfold Simulator.runsLeft at hlength
    omega
  have hr : s.runUntilHalt maxCycles = r := h.runBefore_eq (Nat.le_succ_of_le hruns)
  have hprinted := h.printed_eq
  subst hprinted
  rw [hr]
  exact ⟨runs, h, hruns⟩

end Loop

/-- Running until a halt comes to an end and uses up its cycles exactly. The loop makes at most two
runs for each cycle, and the bounds that it clamps a slice between are always in order. No more
cycles are made than were asked for. If the machine is not reported to have halted, all of them were
made and no run halted; otherwise the last run halted. -/
theorem Simulator.runUntilHalt_terminates (s : Simulator) (maxCycles : Nat) :
    let r := s.runUntilHalt maxCycles
    ∃ runs, (Loop.clamped s.cycles maxCycles).Drives s runs #[] r ∧
      runs.length ≤ 2 * maxCycles ∧
      (∀ k ∈ runs, 1 ≤ maxCycles - (k.start.cycles - s.cycles)) ∧
      s.cycles ≤ r.1.cycles ∧ r.1.cycles ≤ s.cycles + maxCycles ∧
      (r.2 = false → r.1.cycles = s.cycles + maxCycles ∧ ∀ k ∈ runs, k.outcome ≠ .halted) ∧
      (r.2 = true → ∃ k, runs.getLast? = some k ∧ k.outcome = .halted) := by
  intro r
  obtain ⟨runs, h, hlength⟩ := Loop.exists_drives_runUntilHalt s maxCycles
  have hmore : s.cycles ≤ r.1.cycles := h.cycles_le.1
  have hlimit : r.1.cycles ≤ s.cycles + maxCycles := h.cycles_le.2 (Nat.le_add_right ..)
  refine ⟨runs, (Loop.drives_clamped_iff s maxCycles).mpr h, hlength, ?_, hmore, hlimit, ?_,
    h.of_halted⟩
  · intro k hk
    have := h.start_lt k hk
    omega
  · intro hr
    obtain ⟨hall, hruns⟩ := h.of_not_halted hr
    exact ⟨Nat.le_antisymm hlimit hall, hruns⟩

end Orbis
