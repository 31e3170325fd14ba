import Orbis.Proofs.InterruptEdges

/-!
# The number of interrupts

An external interrupt uses up an edge: a run whose sample shows lines that the sample before did
not show. The controller remembers at most one edge that was not used, so there are at most as many
interrupts as edges, and each is taken at the sample of a run.
-/

namespace Orbis

namespace History

/-- The lines as the latest run has sampled them, which are down before the first one. -/
def lines : History → Word
  | [] => 0
  | (c, .sample) :: _ => c.bus.interrupts
  | _ :: past => lines past

/-- The number of runs that sampled some line up, and not the same lines as the run before. -/
def edges : History → Nat
  | [] => 0
  | (c, .sample) :: past =>
    edges past + if c.bus.interrupts ≠ 0 ∧ c.bus.interrupts ≠ lines past then 1 else 0
  | _ :: past => edges past

/-- The number of times that the machine has dispatched an exception. -/
def dispatches (e : Exception) : History → Nat
  | [] => 0
  | (c, step) :: past => dispatches e past + if step.exception? c = some e then 1 else 0

end History

/-- The controller shows the lines as last sampled, and an edge waits that no interrupt has used. -/
structure Latched (past : History) (p : InterruptController) : Prop where
  status_eq : p.status = past.lines
  dispatches_le :
    past.dispatches .externalInterrupt + (if p.pending then 1 else 0) ≤ past.edges

theorem Step.cycle_exception?_ne (c : Cpu) :
    Step.cycle.exception? c ≠ some .externalInterrupt := by
  intro h
  simp only [exception?] at h
  split at h
  · next e he =>
    cases h
    exact absurd (Cpu.cycle_exception he) (by decide)
  · cases h

namespace Latched

variable {past : History} {c : Cpu}

theorem sample (h : Latched past c.interrupts) :
    Latched ((c, .sample) :: past) c.sampleInterrupts.interrupts := by
  have hle := h.dispatches_le
  rw [show c.sampleInterrupts.interrupts = c.interrupts.sample c.bus.interrupts from rfl]
  unfold InterruptController.sample
  split
  · next hsame =>
    -- The lines are as before, so the run makes no edge.
    refine ⟨hsame.symm, ?_⟩
    simpa [History.edges, History.dispatches, Step.exception?, hsame, ← h.status_eq] using hle
  · next hother =>
    -- What waited before is lost, and a new edge waits if some line is up.
    have hnew : c.bus.interrupts ≠ past.lines := fun heq => hother (heq.trans h.status_eq.symm)
    refine ⟨rfl, ?_⟩
    simp only [History.dispatches, History.edges, Step.exception?, reduceCtorEq, if_false,
      Nat.add_zero, ne_eq, hnew, not_false_eq_true, and_true, bne_iff_ne]
    exact Nat.add_le_add_right (Nat.le_trans (Nat.le_add_right _ _) hle) _

theorem interrupt (h : Latched past c.interrupts) (hdue : c.interruptDue = true) :
    Latched ((c, .interrupt) :: past) c.takeInterrupt.interrupts := by
  have hpending : c.interrupts.pending = true := by
    simp only [Cpu.interruptDue, InterruptController.due, Bool.and_eq_true] at hdue
    exact hdue.2.1
  have hle := h.dispatches_le
  rw [hpending, if_pos rfl] at hle
  rw [show c.takeInterrupt.interrupts = { c.interrupts with pending := false } from rfl]
  exact ⟨h.status_eq, hle⟩

/-- A step that is neither a sample nor an interrupt makes no edge and uses none. -/
theorem keep {step : Step} {p : InterruptController} (h : Latched past c.interrupts)
    (hsampled : (p.status, p.pending) = c.sampled) (hline : step ≠ .sample)
    (hquiet : step.exception? c ≠ some .externalInterrupt) :
    Latched ((c, step) :: past) p := by
  obtain ⟨hstatus, hpending⟩ := Prod.mk.inj hsampled
  have hlines : History.lines ((c, step) :: past) = past.lines := by
    cases step <;> first | rfl | exact absurd rfl hline
  have hedges : History.edges ((c, step) :: past) = past.edges := by
    cases step <;> first | rfl | exact absurd rfl hline
  constructor
  · rw [hstatus, hlines, h.status_eq]
  · rw [hedges, History.dispatches, if_neg hquiet, hpending]
    exact h.dispatches_le

theorem of_recorded {start : Cpu} {pc : Word} (h : Recorded Call.Console (start.boot pc) past c)
    (hstatus : past.statusKept = true) : Latched past c.interrupts := by
  induction h with
  | start => exact ⟨rfl, Nat.le_refl 0⟩
  | @push past c step _ hs ih =>
    obtain ⟨hstep, hrest⟩ := Bool.and_eq_true_iff.mp hstatus
    have hpast := ih hrest
    cases step with
    | call k r =>
      obtain ⟨uart, hconsole⟩ := c.answer_console hs.1
      rw [show (Step.call k r).after c = (c.answer k).2 from rfl, hconsole]
      exact hpast.keep rfl nofun nofun
    | sample => exact hpast.sample
    | interrupt => exact hpast.interrupt hs
    | cycle =>
      have hkept : c.writesStatus = false := by simpa using hstep
      exact hpast.keep (Cpu.sampled_cycle hkept) nofun (Step.cycle_exception?_ne c)
    | settle o => exact hpast.keep rfl nofun nofun

end Latched

/-! ### Where interrupts are taken -/

/-- Every interrupt of a history comes right behind the sample of a run. -/
def History.Prompt (past : History) : Prop :=
  ∀ (c : Cpu) (older : History), (c, .interrupt) :: older <:+ past →
    ∃ (d : Cpu) (earlier : History), older = (d, .sample) :: earlier ∧ c = d.sampleInterrupts

namespace History.Prompt

variable {past : History} {c d : Cpu} {step : Step}

theorem nil : Prompt [] := by
  intro c older hmoment
  cases List.eq_nil_of_suffix_nil hmoment

theorem push (h : past.Prompt) (hstep : step ≠ .interrupt) : Prompt ((c, step) :: past) := by
  intro e older hmoment
  rcases List.suffix_cons_iff.mp hmoment with heq | hmoment
  · cases heq
    exact absurd rfl hstep
  · exact h e older hmoment

theorem interrupt (h : past.Prompt) :
    Prompt ((d.sampleInterrupts, .interrupt) :: (d, .sample) :: past) := by
  intro e older hmoment
  rcases List.suffix_cons_iff.mp hmoment with heq | hmoment
  · cases heq
    exact ⟨d, past, rfl, rfl⟩
  · exact h.push (show Step.sample ≠ .interrupt by simp) e older hmoment

theorem of_runByRun {s : Session} (h : RunByRun s past c) (hs : s.past.Prompt) : past.Prompt := by
  induction h with
  | start => exact hs
  | call _ _ ih | sample _ ih | cycle _ _ ih | complete _ ih => exact ih.push (by simp)
  | interrupt _ _ ih => exact ih.interrupt.push (by simp)
  | stop _ _ ih => exact (ih.push (show Step.cycle ≠ .interrupt by simp)).push (by simp)

theorem performAll {s : Session} (h : s.past.Prompt) (as : List Action) :
    (s.performAll .real as).past.Prompt :=
  of_runByRun (RunByRun.start.performAll as) h

end History.Prompt

theorem Cpu.due_of_sample {c : Cpu} (hdue : c.sampleInterrupts.interruptDue = true) :
    Supervision.has c.sr .iee = true ∧ c.bus.interrupts &&& c.interrupts.mask ≠ 0 := by
  obtain ⟨hiee, hdue⟩ := Bool.and_eq_true_iff.mp hdue
  obtain ⟨-, hmasked⟩ := Bool.and_eq_true_iff.mp hdue
  have hmask : c.sampleInterrupts.interrupts.mask = c.interrupts.mask ∧
      c.sampleInterrupts.interrupts.status = c.bus.interrupts := by
    unfold sampleInterrupts InterruptController.sample
    dsimp only
    split
    · next hsame => exact ⟨rfl, hsame.symm⟩
    · exact ⟨rfl, rfl⟩
  rw [hmask.1, hmask.2] at hmasked
  exact ⟨hiee, bne_iff_ne.mp hmasked⟩

/-- External interrupts are neither repeated nor made up. As long as nothing but the samples of the
runs writes the status of the lines, there are at most as many of them as runs that sample an edge,
and each is taken at the sample of a run, with interrupts enabled and one of the sampled lines
unmasked. -/
theorem Session.interrupts_le_edges (start : Cpu) (pc : Word) (as : List Action) :
    let s := (Session.start (start.boot pc)).performAll .real as
    (∀ k, Action.call k ∈ as → k.Console) →
    s.past.statusKept = true →
    s.past.dispatches .externalInterrupt ≤ s.past.edges ∧
    ∀ (c : Cpu) (step : Step) (older : History), (c, step) :: older <:+ s.past →
      step.exception? c = some .externalInterrupt →
      ∃ (d : Cpu) (earlier : History), older = (d, .sample) :: earlier ∧ c = d.sampleInterrupts ∧
        Supervision.has d.sr .iee = true ∧ d.bus.interrupts &&& d.interrupts.mask ≠ 0 := by
  intro s hcalls hstatus
  have hrecorded : Recorded Call.Console (start.boot pc) s.past s.now :=
    Recorded.performAll (s := Session.start (start.boot pc)) .start hcalls
  constructor
  · exact Nat.le_trans (Nat.le_add_right _ _) (Latched.of_recorded hrecorded hstatus).dispatches_le
  · intro c step older hmoment hexception
    have hprompt : s.past.Prompt :=
      History.Prompt.performAll (s := Session.start (start.boot pc)) .nil as
    obtain ⟨-, hpossible⟩ := hrecorded.of_suffix hmoment
    cases step with
    | interrupt =>
      obtain ⟨d, earlier, holder, rfl⟩ := hprompt c older hmoment
      exact ⟨d, earlier, holder, rfl, Cpu.due_of_sample hpossible⟩
    | cycle => exact absurd hexception (Step.cycle_exception?_ne c)
    | call | sample | settle => cases hexception

/-- Two keys with a look at the line between them make two edges and two interrupts, and the line
that stays up behind the second one makes no third. -/
theorem Session.interrupts_le_edges_two_keys :
    let s := (Session.start ((Cpu.holding receiver).boot 0)).performAll .real
      (receiving [1] ++ [.run 1, .run 1])
    s.past.edges = 2 ∧ s.past.dispatches .externalInterrupt ≤ 2 ∧
    ∃ (c d : Cpu) (step : Step) (earlier : History),
      (c, step) :: (d, .sample) :: earlier <:+ s.past ∧
      step.exception? c = some .externalInterrupt ∧
      Supervision.has d.sr .iee = true ∧ d.bus.interrupts &&& d.interrupts.mask ≠ 0 := by
  intro s
  have hcalls (k : Call) (hk : Action.call k ∈ receiving [1] ++ [.run 1, .run 1]) : k.Console :=
    receiving_console [1] k (by simpa using hk)
  have hkept : s.past.statusKept = true := by decide +kernel
  have hedges : s.past.edges = 2 := by decide +kernel
  obtain ⟨hle, htaken⟩ := Session.interrupts_le_edges _ 0 _ hcalls hkept
  obtain ⟨c, step, older, hmoment, hexception⟩ := History.exists_moment s.past 4
    (fun c step _ => step.exception? c = some .externalInterrupt) (by decide +kernel)
  have hinterrupt := of_decide_eq_true hexception
  obtain ⟨d, earlier, rfl, -, henabled⟩ := htaken c step older hmoment hinterrupt
  exact ⟨hedges, hedges ▸ hle, c, d, step, earlier, hmoment, hinterrupt, henabled⟩

end Orbis
