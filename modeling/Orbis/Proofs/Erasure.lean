import Mathlib.Data.List.Forall2
import Orbis.Proofs.Twins

/-!
# What a reset erases

Two machines that share memory, serial line, translate registers and control words are alike after
a reset, or after loading an image, whatever they did before. Alike machines are twins, so nothing
that happens to both later tells them apart but the counters, which keep the distances that they
had. The statistics' counters of the data unit follow the unit's own from the first run on.
-/

namespace Orbis

namespace Cpu

/-- Agreement on all that a reset keeps, apart from the counters. -/
structure SharesMemory (c d : Cpu) : Prop where
  bus : c.bus.Same d.bus
  immu_frames : d.immu.tlb.frames = c.immu.tlb.frames
  immu_control : d.immu.control = c.immu.control
  dmmu_frames : d.dmmu.tlb.frames = c.dmmu.tlb.frames
  dmmu_control : d.dmmu.control = c.dmmu.control

/-- Two states are the same apart from the counters; their memories hold the same bytes. -/
structure Alike (c d : Cpu) : Prop where
  state : d.uncounted = { c.uncounted with bus := d.bus }
  bus : c.bus.Same d.bus

theorem Twins.alike {x y : Counter → Nat} {c d : Cpu} (h : Twins Bus.Same x y c d) : c.Alike d := by
  obtain ⟨u, b, b', hb, rfl, rfl⟩ := h
  exact ⟨rfl, hb⟩

theorem SharesMemory.reset_alike {c d : Cpu} (h : c.SharesMemory d) : c.reset.Alike d.reset := by
  refine ⟨?_, h.bus⟩
  simp only [reset, setSr, uncounted, Mmu.reset, Mmu.setEnabled, Tlb.clear, h.immu_frames,
    h.immu_control, h.dmmu_frames, h.dmmu_control]

theorem SharesMemory.reset_twins {c d : Cpu} (h : c.SharesMemory d) :
    Twins Bus.Same c.count d.count c.reset d.reset :=
  .of_uncounted h.reset_alike.state h.bus

end Cpu

/-- Calls that reset the machine. -/
def Call.Restarts : Call → Prop
  | reset | loadImage _ _ => True
  | _ => False

theorem Cpu.answer_reset (c : Cpu) {k : Call} (hk : k.Restarts) :
    c.reset.answer k = c.answer k := by
  cases k with
  | reset | loadImage => rfl
  | _ => exact hk.elim

def Action.isRun : Action → Bool
  | run _ => true
  | call _ => false

/-- The counter that decides on a counter when a host has made a sequence of actions. -/
def Counter.after (as : List Action) (q : Counter) : Counter :=
  if as.any Action.isRun then q.source else q

theorem Counter.source_after (as : List Action) (q : Counter) :
    (q.after as).source = q.source := by
  unfold after
  split
  · exact q.source_source
  · rfl

namespace Session

/-- Two sessions went through states that are alike, by the same steps, and are at twins. -/
structure Twins (x y : Counter → Nat) (s t : Session) : Prop where
  past : List.Forall₂ (fun m m' => m.1.Alike m'.1 ∧ m'.2 = m.2) s.past t.past
  now : Cpu.Twins Bus.Same x y s.now t.now

namespace Twins

variable {x y x' y' : Counter → Nat} {s t : Session} {c d : Cpu}

theorem push (h : Twins x y s t) (step : Step) (hnow : Cpu.Twins Bus.Same x' y' c d) :
    Twins x' y' (s.push step c) (t.push step d) :=
  ⟨.cons ⟨h.now.alike, rfl⟩ h.past, hnow⟩

theorem settle (h : Twins x y s t) (o : Outcome) :
    Twins (x ∘ Counter.source) (y ∘ Counter.source) (s.settle o) (t.settle o) :=
  h.push _ (h.now.settle o)

theorem cycles (h : Twins x y s t) (budget : Nat) :
    Twins (x ∘ Counter.source) (y ∘ Counter.source) (s.cycles .real budget)
      (t.cycles .real budget) := by
  induction budget generalizing s t with
  | zero => exact h.settle .completed
  | succ n ih =>
    obtain ⟨c, d, stop, hc, hd, hnow⟩ := h.now.cycle Bus.Same.guestBisimulation
    simp only [Session.cycles, Machine.real, hc, hd]
    cases stop with
    | none => exact ih (h.push .cycle hnow)
    | some o => exact (h.push .cycle hnow).settle o

theorem run (h : Twins x y s t) (budget : Nat) :
    Twins (x ∘ Counter.source) (y ∘ Counter.source) (s.run .real budget)
      (t.run .real budget) := by
  obtain ⟨hdue, hnow⟩ := h.now.sampleInterrupts Bus.Same.guestBisimulation
  have hsample := h.push .sample hnow
  by_cases hs : s.now.sampleInterrupts.interruptDue = true
  · simp only [Session.run, Session.push, hdue, hs, if_true]
    exact (hsample.push .interrupt hnow.takeInterrupt).settle _
  · simp only [Session.run, Session.push, hdue, hs]
    exact hsample.cycles budget

theorem performAll (h : Twins x y s t) (as : List Action) :
    Twins (x ∘ Counter.after as) (y ∘ Counter.after as) (s.performAll .real as)
      (t.performAll .real as) := by
  induction as generalizing x y s t with
  | nil => exact h
  | cons a as ih =>
    cases a with
    | run budget =>
      have hrun := ih (h.run budget)
      have hafter : Counter.source ∘ Counter.after as = Counter.after (.run budget :: as) := by
        funext q
        exact q.source_after as
      rwa [Function.comp_assoc, Function.comp_assoc, hafter] at hrun
    | call k =>
      obtain ⟨r, c, d, hc, hd, hnow⟩ := h.now.answer Bus.Same.bisimulation k
      have hcall := ih (h.push (.call k r) hnow)
      simp only [Session.performAll, List.foldl_cons, perform, Machine.real, hc, hd]
      exact hcall

end Twins

end Session

namespace Cpu.Twins

variable {x y : Counter → Nat} {c d : Cpu}

theorem runBefore (h : Twins Bus.Same x y c d) (k : Configuration) (limit runs : Nat) :
    let s := (⟨c, k⟩ : Simulator)
    let t := (⟨d, k⟩ : Simulator)
    t.budgetsBefore (y .cycles + limit) runs = s.budgetsBefore (x .cycles + limit) runs ∧
      (t.runBefore (y .cycles + limit) runs).2 = (s.runBefore (x .cycles + limit) runs).2 ∧
      (s.runBefore (x .cycles + limit) runs).1.cpu.Alike
        (t.runBefore (y .cycles + limit) runs).1.cpu := by
  induction runs generalizing x y c d with
  | zero => exact ⟨rfl, rfl, h.alike⟩
  | succ n ih =>
    have hcycles : c.statistics.cycles + y .cycles = d.statistics.cycles + x .cycles :=
      h.count .cycles
    have hbudget : (⟨d, k⟩ : Simulator).budgetBefore (y .cycles + limit) =
        (⟨c, k⟩ : Simulator).budgetBefore (x .cycles + limit) := by
      simp only [Simulator.budgetBefore, Simulator.cycles]
      omega
    have hlimit : (⟨d, k⟩ : Simulator).cycles < y .cycles + limit ↔
        (⟨c, k⟩ : Simulator).cycles < x .cycles + limit := by
      simp only [Simulator.cycles]
      omega
    obtain ⟨c', d', o, hc, hd, hnow⟩ :=
      h.run Bus.Same.guestBisimulation ((⟨c, k⟩ : Simulator).budgetBefore (x .cycles + limit))
    simp only [Simulator.budgetsBefore, Simulator.runBefore, Simulator.run, hlimit, hbudget, hc, hd]
    split
    · cases o with
      | halted => exact ⟨rfl, rfl, hnow.alike⟩
      | completed | exception =>
        obtain ⟨hbudgets, hresult, halike⟩ := ih hnow
        exact ⟨congrArg (List.cons _) hbudgets, hresult, halike⟩
    · exact ⟨rfl, rfl, h.alike⟩

theorem runUntilHalt (h : Twins Bus.Same x y c d) (k : Configuration) (maxCycles : Nat) :
    let s := (⟨c, k⟩ : Simulator)
    let t := (⟨d, k⟩ : Simulator)
    t.actions maxCycles = s.actions maxCycles ∧
      (t.runUntilHalt maxCycles).2 = (s.runUntilHalt maxCycles).2 ∧
      (s.runUntilHalt maxCycles).1.cpu.Alike (t.runUntilHalt maxCycles).1.cpu := by
  obtain ⟨u, b, b', hb, rfl, rfl⟩ := h
  have htwins : Twins Bus.Same x y (u.ahead x b) (u.ahead y b') := ⟨u, b, b', hb, rfl, rfl⟩
  have hrun := htwins.runBefore k (u.statistics.cycles + maxCycles) (2 * maxCycles + 1)
  simp only [← Nat.add_assoc] at hrun
  exact ⟨congrArg (List.map Action.run) hrun.1, hrun.2⟩

end Cpu.Twins

/-- A reset erases the history of a machine. Two machines that share their memory, the serial line,
the translate registers and the control words are reset, or loaded with an image. Whatever a host
then does with both of them alike, they answer alike, go through states that are alike by the same
steps, and also run until a halt alike. Every counter keeps its distance between the two, save that
the first run brings the distances of the statistics' counters of the data unit to those of the
counters of that unit. -/
theorem Session.restart_erases (c d : Cpu) (h : c.SharesMemory d) (k : Call) (hk : k.Restarts)
    (as : List Action) :
    let s := (Session.start (c.answer k).2).performAll .real as
    let t := (Session.start (d.answer k).2).performAll .real as
    (d.answer k).1 = (c.answer k).1 ∧
    List.Forall₂ (fun m m' => m.1.Alike m'.1 ∧ m'.2 = m.2) s.past t.past ∧
    s.now.Alike t.now ∧
    (∀ q, (t.now.count q : Int) - s.now.count q = d.count (q.after as) - c.count (q.after as)) ∧
    ∀ (g : Configuration) (maxCycles : Nat),
      let u := (⟨s.now, g⟩ : Simulator)
      let v := (⟨t.now, g⟩ : Simulator)
      v.actions maxCycles = u.actions maxCycles ∧
      (v.runUntilHalt maxCycles).2 = (u.runUntilHalt maxCycles).2 ∧
      (u.runUntilHalt maxCycles).1.cpu.Alike (v.runUntilHalt maxCycles).1.cpu := by
  intro s t
  obtain ⟨r, c', d', hc, hd, hnow⟩ := h.reset_twins.answer Bus.Same.bisimulation k
  rw [Cpu.answer_reset _ hk] at hc hd
  have hstart : Session.Twins c.count d.count (.start (c.answer k).2) (.start (d.answer k).2) := by
    rw [hc, hd]
    exact ⟨.nil, hnow⟩
  obtain ⟨hpast, htwins⟩ := hstart.performAll as
  refine ⟨by rw [hc, hd], hpast, htwins.alike, fun q => ?_, htwins.runUntilHalt⟩
  have hcount : s.now.count q + d.count (q.after as) = t.now.count q + c.count (q.after as) :=
    htwins.count q
  omega

/-- A program that loads a word. -/
def loading : Cpu := .holding [(0, .load .lwz 4 3 0), (4, .nop 1)]

/-- That machine when it has run and its data table was written. -/
def loadedOnce : Cpu :=
  ((Session.start loading).performAll .real [.run 2, .call (.setSpr 0xa00 1)]).now

/-- The cycles and the load before the reset remain in the counters. -/
theorem Session.restart_erases_loadedOnce :
    let s := (Session.start loading.reset).performAll .real [.run 1]
    let t := (Session.start loadedOnce.reset).performAll .real [.run 1]
    loadedOnce.pc ≠ loading.pc ∧ loading.SharesMemory loadedOnce ∧ s.now.Alike t.now ∧
      (t.now.count .cycles : Int) - s.now.count .cycles = 2 ∧
      (t.now.count .dataMisses : Int) - s.now.count .dataMisses = 1 := by
  intro s t
  have hshares : loading.SharesMemory loadedOnce :=
    ⟨⟨rfl, fun _ _ => rfl⟩, rfl, rfl, rfl, rfl⟩
  obtain ⟨-, -, halike, hcount, -⟩ :=
    Session.restart_erases loading loadedOnce hshares .reset trivial [.run 1]
  exact ⟨by decide +kernel, hshares, halike, (hcount .cycles).trans (by decide +kernel),
    (hcount .dataMisses).trans (by decide +kernel)⟩

/-- The distance of a counter may move once. A load by the host is a miss of the data unit, of which
the statistics do not tell before the next run has ended, be it after a reset. -/
theorem Session.restart_moves_distance :
    let c := Cpu.initial
    let d := ((Session.start .initial).performAll .real [.call (.load .lwz 0)]).now
    c.SharesMemory d ∧
      ¬∃ δ : Counter → Int, ∀ (as : List Action) (q : Counter),
        let s := (Session.start (c.answer .reset).2).performAll .real as
        let t := (Session.start (d.answer .reset).2).performAll .real as
        (t.now.count q : Int) - s.now.count q = δ q := by
  refine ⟨⟨⟨rfl, fun _ _ => rfl⟩, rfl, rfl, rfl, rfl⟩, ?_⟩
  rintro ⟨δ, hdistance⟩
  have hbefore := hdistance [] .dataMisses
  have hafter := hdistance [.run 1] .dataMisses
  exact absurd (hbefore.trans hafter.symm) (by decide +kernel)

end Orbis
