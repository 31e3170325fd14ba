import Orbis.Proofs.Faults
import Orbis.Proofs.Session

/-!
# Exceptions in a delay slot

In a delay slot, dispatching an exception finds the jump one word before the program counter. So
it must find the program counter at the delay slot: every exception does, except a system call,
which has moved on already.
-/

namespace Orbis

namespace Cpu

/-- The program counter that the dispatch of an exception finds. -/
def faultPc (c : Cpu) (e : Exception) : Word := if e = .systemCall then c.pc + 4 else c.pc

theorem faultPc_of_ne (c : Cpu) {e : Exception} (h : e ≠ .systemCall) : c.faultPc e = c.pc :=
  if_neg h

theorem faultPc_of_mem (c : Cpu) {e : Exception} {side : Side} (h : e ∈ side.faults) :
    c.faultPc e = c.pc := by
  apply c.faultPc_of_ne
  rintro rfl
  cases side <;> exact absurd h (by decide)

def place (c : Cpu) : Word × Option Word := (c.pc, c.delaySlot)

theorem place_writeSpr (c : Cpu) (r : Spr) (v : Word) : (c.writeSpr r v).place = c.place := by
  obtain ⟨_, _, _, _, _, _, _, hframe⟩ := c.writeSpr_frame r v
  rw [hframe]
  rfl

theorem place_fetched (c : Cpu) : c.fetched.place = c.place := by
  obtain ⟨memo, last, s, hframe⟩ := c.fetched_frame
  rw [hframe]
  rfl

theorem transfer?_fetched (c : Cpu) (i : Instruction) : c.fetched.transfer? i = c.transfer? i := by
  obtain ⟨memo, last, s, hframe⟩ := c.fetched_frame
  rw [hframe]
  rfl

theorem stops_fetched (c : Cpu) (i : Instruction) : c.fetched.stops i ↔ c.stops i := by
  obtain ⟨memo, last, s, hframe⟩ := c.fetched_frame
  rw [hframe]
  rfl

theorem execute_of_transfer {c : Cpu} {i : Instruction} {t : Word} (h : c.transfer? i = some t) :
    c.execute i = ((if i.links then c.link else c).jump t, .next) := by
  cases i with
  | j n | jal n | jr b | jalr b =>
    cases h
    rfl
  | bnf n =>
    cases hflag : c.flag with
    | true => simp [transfer?, hflag] at h
    | false =>
      rw [transfer?, hflag] at h
      cases h
      simp [execute, hflag, Instruction.links]
  | bf n =>
    cases hflag : c.flag with
    | true =>
      rw [transfer?, hflag] at h
      cases h
      simp [execute, hflag, Instruction.links]
    | false => simp [transfer?, hflag] at h
  | _ => cases h

theorem execute_of_stops {c : Cpu} {i : Instruction} (h : c.stops i) :
    c.execute i = (c, .halt) := by
  rw [h.1]
  exact if_pos ⟨rfl, h.2⟩

namespace Effect

variable {c d : Cpu} {i : Instruction} {f : Flow} {e : Exception} {a : Word}

/-- A faulting instruction leaves the machine in the delay slot where it is, and all but a system
call leave the program counter. -/
theorem place_fault (h : c.Effect i d (.fault e a)) :
    d.place = (c.faultPc e, c.delaySlot) := by
  cases h with
  | sys k => rfl
  | mtsprTick _ => exact c.place_writeSpr _ _
  | illegal w => rfl
  | loadFault h =>
    rw [c.faultPc_of_mem (Mmu.load_error (congrArg Prod.fst h)), place]
  | storeFault h =>
    rw [c.faultPc_of_mem (Mmu.store_error (congrArg Prod.fst h)), place]

theorem delaySlot_none (h : c.Effect i d f) (ht : c.transfer? i = none) (hs : ¬c.stops i) :
    d.delaySlot = none ∨ ∃ e a, f = .fault e a := by
  cases h with
  | transfer h => cases h.symm.trans ht
  | stop h => exact absurd h hs
  | sys | loadFault | storeFault | mtsprTick | illegal => exact .inr ⟨_, _, rfl⟩
  | _ => exact .inl rfl

end Effect

/-! ### Cycles -/

section

variable {c : Cpu} {i : Instruction} {e : Exception} {a : Word}

theorem place_attempt_fault (h : c.attempt.2 = .fault e a) :
    c.attempt.1.place = (c.faultPc e, c.delaySlot) := by
  cases hi : c.issued? with
  | none =>
    obtain ⟨e', hissue, hattempt⟩ := attempt_of_not_issued hi
    obtain ⟨memo, last, s, hframe⟩ := c.issue_frame
    have hpc : c.faultPc e' = c.pc := by
      rcases issue_error hissue with rfl | he
      · rfl
      · exact c.faultPc_of_mem he
    rw [hattempt] at h ⊢
    cases h
    rw [hpc, hframe]
    rfl
  | some i =>
    have heffect := c.fetched.execute_effect i
    rw [attempt_of_issued hi] at h ⊢
    rw [h] at heffect
    rw [heffect.place_fault, faultPc,
      show c.fetched.pc = c.pc from congrArg Prod.fst c.place_fetched,
      show c.fetched.delaySlot = c.delaySlot from congrArg Prod.snd c.place_fetched]
    rfl

theorem cycle_of_transfer {t : Word} (hi : c.issued? = some i) (ht : c.transfer? i = some t) :
    c.cycle = ((if i.links then c.fetched.link else c.fetched).jump t, none) := by
  rw [cycle, attempt_of_issued hi, execute_of_transfer ((c.transfer?_fetched i).trans ht)]
  rfl

theorem cycle_of_stops (hi : c.issued? = some i) (hs : c.stops i) :
    c.cycle = (c.fetched, some .halted) := by
  rw [cycle, attempt_of_issued hi, execute_of_stops ((c.stops_fetched i).mpr hs)]
  rfl

theorem delaySlot_cycle (h : ∀ i, c.issued? = some i → c.transfer? i = none ∧ ¬c.stops i) :
    c.cycle.1.delaySlot = none := by
  have hdispatch : ∀ (d : Cpu) (f : Flow), (d.delaySlot = none ∨ ∃ e a, f = .fault e a) →
      (d.follow f).1.delaySlot = none := by
    rintro d f (hnone | ⟨e, a, rfl⟩)
    · cases f with
      | fault e a => rfl
      | _ => exact hnone
    · rfl
  apply hdispatch c.attempt.1 c.attempt.2
  cases hi : c.issued? with
  | none =>
    obtain ⟨e, -, hattempt⟩ := attempt_of_not_issued hi
    rw [hattempt]
    exact .inr ⟨e, c.pc, rfl⟩
  | some i =>
    obtain ⟨ht, hs⟩ := h i hi
    rw [attempt_of_issued hi]
    exact (c.fetched.execute_effect i).delaySlot_none ((c.transfer?_fetched i).trans ht)
      (mt (c.stops_fetched i).mp hs)

end

end Cpu

theorem Step.cycle_of_exception {c : Cpu} {e : Exception}
    (h : Step.exception? c .cycle = some e) :
    ∃ a, c.attempt.2 = .fault e a ∧ c.cycle.1 = c.attempt.1.raise e a := by
  simp only [Step.exception?] at h
  split at h
  · next hcycle =>
    cases h
    exact Cpu.cycle_of_exception hcycle
  · cases h

/-- Dispatching finds the place of the machine unmoved, except for system calls. -/
theorem Step.after_of_exception {c : Cpu} {step : Step} {e : Exception}
    (h : step.exception? c = some e) :
    ∃ (d : Cpu) (a : Word), d.place = (c.faultPc e, c.delaySlot) ∧ step.after c = d.raise e a := by
  cases step with
  | interrupt =>
    cases h
    exact ⟨{ c with interrupts := c.interrupts.accept }, c.pc, rfl, rfl⟩
  | cycle =>
    obtain ⟨a, hfault, hraise⟩ := Step.cycle_of_exception h
    exact ⟨c.attempt.1, a, Cpu.place_attempt_fault hfault, hraise⟩
  | call | sample | settle => cases h

/-! ### The jump of a delay slot -/

/-- The address of the jump in whose delay slot a history ends: the last cycle took that jump. To
stop the machine changes nothing about it. -/
def History.jump? : History → Option Word
  | [] => none
  | (_, .interrupt) :: _ => none
  | (c, .cycle) :: past =>
    match c.issued? with
    | none => none
    | some i =>
      if (c.transfer? i).isSome then some c.pc
      else if c.stops i then History.jump? past
      else none
  | _ :: past => History.jump? past

/-- The machine sits in a delay slot exactly when its history ends in one, one word behind the
jump. -/
structure SlotOf (past : History) (c : Cpu) : Prop where
  inDelaySlot : c.inDelaySlot = past.jump?.isSome
  pc_eq : ∀ j, past.jump? = some j → c.pc = j + 4

namespace SlotOf

variable {past : History} {c d : Cpu}

theorem of_none (hd : d.delaySlot = none) (hp : past.jump? = none) : SlotOf past d := by
  constructor
  · rw [hp, Cpu.inDelaySlot, hd, Option.isSome_none]
  · intro j hj
    cases hp.symm.trans hj

theorem of_place (h : SlotOf past c) (hd : d.place = c.place) : SlotOf past d := by
  have hpc : d.pc = c.pc := congrArg Prod.fst hd
  have hslot : d.delaySlot = c.delaySlot := congrArg Prod.snd hd
  constructor
  · rw [Cpu.inDelaySlot, hslot]
    exact h.inDelaySlot
  · intro j hj
    rw [hpc]
    exact h.pc_eq j hj

theorem cycle (h : SlotOf past c) : SlotOf ((c, .cycle) :: past) c.cycle.1 := by
  cases hi : c.issued? with
  | none =>
    apply of_none
    · exact Cpu.delaySlot_cycle fun i hi' => by cases hi.symm.trans hi'
    · simp only [History.jump?, hi]
  | some i =>
    cases ht : c.transfer? i with
    | some t =>
      have hjump : History.jump? ((c, .cycle) :: past) = some c.pc := by
        simp only [History.jump?, hi, ht, Option.isSome_some, if_true]
      rw [Cpu.cycle_of_transfer hi ht]
      constructor
      · rw [hjump]
        rfl
      · intro j hj
        cases hjump.symm.trans hj
        rw [← show c.fetched.pc = c.pc from congrArg Prod.fst c.place_fetched]
        split <;> rfl
    | none =>
      by_cases hs : c.stops i
      · -- The machine will issue the same instruction again, in the same delay slot.
        have hjump : History.jump? ((c, .cycle) :: past) = past.jump? := by
          simp only [History.jump?, hi, ht, Option.isSome_none, hs, if_true]
          rfl
        rw [Cpu.cycle_of_stops hi hs]
        have hkept := h.of_place c.place_fetched
        exact ⟨hjump ▸ hkept.inDelaySlot, hjump ▸ hkept.pc_eq⟩
      · apply of_none
        · apply Cpu.delaySlot_cycle
          intro i' hi'
          cases hi.symm.trans hi'
          exact ⟨ht, hs⟩
        · simp only [History.jump?, hi, ht, Option.isSome_none, hs, if_false]
          rfl

theorem of_recorded {start : Cpu} {pc : Word}
    (h : Recorded Call.Console (start.boot pc) past c) : SlotOf past c := by
  induction h with
  | start => exact of_none rfl rfl
  | @push past c s _ hs ih =>
    cases s with
    | call k r =>
      obtain ⟨uart, hconsole⟩ := c.answer_console hs.1
      rw [show (Step.call k r).after c = (c.answer k).2 from rfl, hconsole]
      exact ⟨ih.inDelaySlot, ih.pc_eq⟩
    | sample => exact ⟨ih.inDelaySlot, ih.pc_eq⟩
    | interrupt => exact of_none rfl rfl
    | cycle => exact ih.cycle
    | settle o => exact ⟨ih.inDelaySlot, ih.pc_eq⟩

end SlotOf

/-- In every session of runs and keys, an exception in the delay slot of a jump saves the address
of that jump exactly when it is not a system call; a system call saves the delay slot, and the
jump is lost. -/
theorem Session.dispatch_saves_jump_iff (start : Cpu) (pc : Word) (as : List Action) (c : Cpu)
    (step : Step) (older : History) (e : Exception) :
    let s := (Session.start (start.boot pc)).performAll .real as
    (∀ k, Action.call k ∈ as → k.Console) →
    (c, step) :: older <:+ s.past →
    step.exception? c = some e →
    c.inDelaySlot = older.jump?.isSome ∧
    ∀ j, older.jump? = some j →
      ((step.after c).context.pc = j ↔ e ≠ .systemCall) ∧
      (e = .systemCall → (step.after c).context.pc = j + 4) := by
  intro s hcalls hmoment hexception
  have hrecorded : Recorded Call.Console (start.boot pc) s.past s.now :=
    Recorded.performAll (s := Session.start (start.boot pc)) .start hcalls
  have hslot := SlotOf.of_recorded (hrecorded.of_suffix hmoment).1
  refine ⟨hslot.inDelaySlot, ?_⟩
  intro j hj
  obtain ⟨d, a, hplace, hafter⟩ := Step.after_of_exception hexception
  have hpc : d.pc = c.faultPc e := congrArg Prod.fst hplace
  have hin : d.inDelaySlot = true := by
    have hd : d.delaySlot = c.delaySlot := congrArg Prod.snd hplace
    have hc := hslot.inDelaySlot
    rw [hj] at hc
    rw [Cpu.inDelaySlot, hd]
    exact hc
  have hsaved : (step.after c).context.pc = c.faultPc e - 4 := by
    rw [hafter, show (d.raise e a).context.pc = d.resumption from rfl, Cpu.resumption, if_pos hin,
      hpc]
  rw [hsaved, Cpu.faultPc, hslot.pc_eq j hj]
  split
  · next he =>
    rw [he]
    refine ⟨iff_of_false ?_ (not_not_intro rfl), fun _ => ?_⟩
    · bv_omega
    · bv_omega
  · next he =>
    refine ⟨iff_of_true ?_ he, fun h => absurd h he⟩
    bv_omega

/-- A load that is not aligned, in a delay slot. -/
theorem Session.dispatch_saves_jump_unaligned :
    let s := (Session.start ((Cpu.holding [(0, .j 2), (4, .load .lwz 5 0 1)]).boot 0)).performAll
      .real [.run 2]
    ∃ (c : Cpu) (step : Step) (older : History), (c, step) :: older <:+ s.past ∧
      step.exception? c = some .alignment ∧ older.jump? = some 0 ∧
      (step.after c).context.pc = 0 := by
  intro s
  have hconsole : ∀ k, Action.call k ∈ [Action.run 2] → k.Console := by simp
  obtain ⟨c, step, older, hmoment, hfacts⟩ := History.exists_moment s.past 1
    (fun c step older => step.exception? c = some .alignment ∧ older.jump? = some 0)
    (by decide +kernel)
  obtain ⟨hexception, hjump⟩ := of_decide_eq_true hfacts
  have hsaved := (Session.dispatch_saves_jump_iff _ 0 [.run 2] c step older .alignment hconsole
    hmoment hexception).2 0 hjump
  exact ⟨c, step, older, hmoment, hexception, hjump, hsaved.1.mpr (by decide)⟩

/-- A system call in a delay slot: the return goes to the slot and not to the jump. -/
theorem Session.sys_loses_jump :
    ¬∀ (start : Cpu) (pc : Word) (as : List Action) (c : Cpu) (step : Step) (older : History)
        (e : Exception) (j : Word),
      let s := (Session.start (start.boot pc)).performAll .real as
      (∀ k, Action.call k ∈ as → k.Console) →
      (c, step) :: older <:+ s.past →
      step.exception? c = some e →
      older.jump? = some j →
      (step.after c).context.pc = j := by
  intro h
  let program : List (Nat × Instruction) := [(0, .j 2), (4, .sys 0)]
  obtain ⟨c, step, older, hmoment, hfacts⟩ := History.exists_moment
    ((Session.start ((Cpu.holding program).boot 0)).performAll .real [.run 2]).past 1
    (fun c step older => step.exception? c = some .systemCall ∧ older.jump? = some 0 ∧
      (step.after c).context.pc = 4)
    (by decide +kernel)
  obtain ⟨hexception, hjump, hsaved⟩ := of_decide_eq_true hfacts
  have hzero := h (Cpu.holding program) 0 [.run 2] c step older .systemCall 0 (by simp) hmoment
    hexception hjump
  exact absurd (hsaved.symm.trans hzero) (by decide)

end Orbis
