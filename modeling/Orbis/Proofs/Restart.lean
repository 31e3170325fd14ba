import Orbis.Proofs.DelaySlot
import Orbis.Proofs.Reference

/-!
# Restarting a delay slot

An exception that comes before any effect of the instruction in a delay slot goes back to the jump,
and the return takes the jump once more. By then the jump has had its own effects. They do not
matter to it, with one exception: a jump through the link register has overwritten its target.
-/

namespace Orbis

/-- Whether an instruction may have had an effect when it raises an exception. -/
def Instruction.actsFirst : Instruction → Bool
  | sys _ | mtspr _ _ _ => true
  | _ => false

/-- Whether a step dispatches an exception before the next instruction has had any effect. -/
def Step.dispatchesFirst (c : Cpu) : Step → Bool
  | .interrupt | .call (.raise _ _) _ => true
  | .cycle => (Step.exception? c .cycle).isSome && !c.issued?.any Instruction.actsFirst
  | _ => false

/-- Whether a step leaves the next instruction as it is: the borders of runs, the console, and an
instruction that stops the machine. -/
def Step.Quiet (c : Cpu) : Step → Prop
  | .settle _ | .sample => True
  | .call k _ => k.Console
  | .cycle => ∃ i, c.issued? = some i ∧ c.stops i
  | .interrupt => False

namespace Cpu

structure Agree (c d : Cpu) : Prop where
  registers : d.registers = c.registers
  place : d.place = c.place
  sr : d.sr = c.sr
  tlb : d.immu.tlb = c.immu.tlb
  ram : d.bus.ram = c.bus.ram

theorem link_registers (c : Cpu) :
    c.link.registers = c.registers.write .link (c.pc + 8) := rfl

theorem place_jump (c : Cpu) (t : Word) : (c.jump t).place = (c.pc + 4, some t) := rfl

namespace Agree

variable {c d e : Cpu}

theorem refl (c : Cpu) : c.Agree c := ⟨rfl, rfl, rfl, rfl, rfl⟩

theorem trans (h : c.Agree d) (h' : d.Agree e) : c.Agree e where
  registers := h'.registers.trans h.registers
  place := h'.place.trans h.place
  sr := h'.sr.trans h.sr
  tlb := h'.tlb.trans h.tlb
  ram := h'.ram.trans h.ram

theorem issue (c : Cpu) : c.Agree c.issue.2 := by
  obtain ⟨memo, last, s, hframe⟩ := c.issue_frame
  rw [hframe]
  exact ⟨rfl, rfl, rfl, rfl, rfl⟩

theorem fetched (c : Cpu) : c.Agree c.fetched := by
  obtain ⟨memo, last, s, hframe⟩ := c.fetched_frame
  rw [hframe]
  exact ⟨rfl, rfl, rfl, rfl, rfl⟩

theorem pc_eq (h : c.Agree d) : d.pc = c.pc := congrArg Prod.fst h.place

theorem delaySlot_eq (h : c.Agree d) : d.delaySlot = c.delaySlot := congrArg Prod.snd h.place

theorem link (h : c.Agree d) : c.link.Agree d.link where
  registers := by rw [link_registers, link_registers, h.registers, h.pc_eq]
  place := h.place
  sr := h.sr
  tlb := h.tlb
  ram := h.ram

theorem jump (h : c.Agree d) (t : Word) : (c.jump t).Agree (d.jump t) where
  registers := h.registers
  place := by rw [place_jump, place_jump, h.pc_eq]
  sr := h.sr
  tlb := h.tlb
  ram := h.ram

theorem cycle_of_transfer {i : Instruction} {t : Word} (hi : c.issued? = some i)
    (ht : c.transfer? i = some t) : ((if i.links then c.link else c).jump t).Agree c.cycle.1 := by
  rw [Cpu.cycle_of_transfer hi ht]
  by_cases hl : i.links = true
  · rw [if_pos hl, if_pos hl]
    exact (Agree.fetched c).link.jump t
  · rw [if_neg hl, if_neg hl]
    exact (Agree.fetched c).jump t

theorem fault {i : Instruction} {x : Exception} {a : Word} (h : c.Effect i d (.fault x a))
    (hi : i.actsFirst = false) : c.Agree d := by
  cases h with
  | sys | mtsprTick => cases hi
  | loadFault | storeFault | illegal => exact ⟨rfl, rfl, rfl, rfl, rfl⟩

theorem attempt {x : Exception} {a : Word} (h : c.attempt.2 = .fault x a)
    (hi : c.issued?.any Instruction.actsFirst = false) : c.Agree c.attempt.1 := by
  cases hissued : c.issued? with
  | none =>
    obtain ⟨y, -, hattempt⟩ := attempt_of_not_issued hissued
    rw [hattempt]
    exact .issue c
  | some i =>
    have heffect := c.fetched.execute_effect i
    rw [attempt_of_issued hissued] at h ⊢
    rw [h] at heffect
    rw [hissued] at hi
    exact (Agree.fetched c).trans (.fault heffect hi)

theorem after_quiet {step : Step} (h : step.Quiet c) : c.Agree (step.after c) := by
  cases step with
  | call k r =>
    obtain ⟨uart, hconsole⟩ := c.answer_console h
    rw [show (Step.call k r).after c = (c.answer k).2 from rfl, hconsole]
    exact ⟨rfl, rfl, rfl, rfl, rfl⟩
  | sample | settle => exact ⟨rfl, rfl, rfl, rfl, rfl⟩
  | interrupt => exact h.elim
  | cycle =>
    obtain ⟨i, hi, hs⟩ := h
    rw [show Step.cycle.after c = c.cycle.1 from rfl, cycle_of_stops hi hs]
    exact .fetched c

theorem of_quiet {allowed : Call → Prop} {start : Cpu} {quiet older : History}
    (h : Recorded allowed start (quiet ++ older) d) (hq : ∀ m ∈ quiet, m.2.Quiet m.1) :
    ∃ c, Recorded allowed start older c ∧ c.Agree d := by
  induction quiet generalizing d with
  | nil => exact ⟨d, h, .refl d⟩
  | cons m quiet ih =>
    obtain ⟨hrecorded, -, rfl⟩ := h.inv
    obtain ⟨c, hc, hagree⟩ := ih hrecorded fun n hn => hq n (List.mem_cons_of_mem m hn)
    exact ⟨c, hc, hagree.trans (.after_quiet (hq m List.mem_cons_self))⟩

end Agree

end Cpu

theorem Step.after_of_dispatchesFirst {c : Cpu} {step : Step}
    (h : step.dispatchesFirst c = true) :
    ∃ (d : Cpu) (x : Exception) (a : Word), c.Agree d ∧ step.after c = d.raise x a := by
  cases step with
  | interrupt =>
    exact ⟨{ c with interrupts := c.interrupts.accept }, .externalInterrupt, c.pc,
      ⟨rfl, rfl, rfl, rfl, rfl⟩, rfl⟩
  | cycle =>
    obtain ⟨hexception, hfirst⟩ := Bool.and_eq_true_iff.mp h
    obtain ⟨x, hx⟩ := Option.isSome_iff_exists.mp hexception
    obtain ⟨a, hfault, hraise⟩ := Step.cycle_of_exception hx
    exact ⟨c.attempt.1, x, a, .attempt hfault (by simpa using hfirst), hraise⟩
  | call k r =>
    cases k with
    | raise x a => exact ⟨c, x, a, .refl c, rfl⟩
    | _ => cases h
  | sample | settle => cases h

namespace Cpu

/-- What a return finds after an exception in the delay slot of a jump: the effects of the jump on
the registers, the machine at the jump again, and a mark in the supervision register. -/
structure Resumes (c : Cpu) (i : Instruction) (r : Cpu) : Prop where
  registers : r.registers = (if i.links then c.link else c).registers
  pc : r.pc = c.pc
  sr : r.sr = c.sr ||| Supervision.Bit.dsx.mask
  coherent : r.Coherent
  tlb : r.immu.tlb = c.immu.tlb
  ram : r.bus.ram = c.bus.ram

theorem issue_ok {c : Cpu} (h : c.Coherent) {word : Word} (hw : c.issue.1 = .ok word) :
    ∃ a, c.immu.resolve c.pc c.privilege .fetch = .ok a ∧ c.bus.ram.load .word a = .ok word := by
  have hfull : (Reference.issue c.bare).1 = .ok word := (congrArg Prod.fst (issue_bare h)).trans hw
  unfold Reference.issue at hfull
  split at hfull
  · cases hfull
  · unfold Reference.fetch at hfull
    split at hfull
    · split at hfull
      · next hbind =>
        cases hfull
        obtain ⟨a, ha, hload⟩ := ok_of_bind_eq_ok hbind
        exact ⟨a, ha, (Bus.load_word hload).2.2⟩
      · cases hfull
    · cases hfull

namespace Resumes

variable {c r : Cpu} {i i' : Instruction} {t : Word}

theorem has_sr (h : c.Resumes i r) {b : Supervision.Bit} (hb : b ≠ .dsx) :
    Supervision.has r.sr b = Supervision.has c.sr b := by
  rw [h.sr, Supervision.has_or, Supervision.has_mask, decide_eq_false hb.symm, Bool.or_false]

theorem issued_eq (h : c.Resumes i r) (hc : c.Coherent) (hi : c.issued? = some i)
    (hi' : r.issued? = some i') : i' = i := by
  obtain ⟨word, hword, rfl⟩ := issued?_eq_some_iff.mp hi
  obtain ⟨word', hword', rfl⟩ := issued?_eq_some_iff.mp hi'
  obtain ⟨a, ha, hload⟩ := issue_ok hc hword
  obtain ⟨a', ha', hload'⟩ := issue_ok h.coherent hword'
  have hresolve : r.immu.resolve = c.immu.resolve := by
    apply Mmu.resolve_eq_of_table
    · rw [h.coherent.immu_enabled, hc.immu_enabled, h.has_sr (by decide)]
    · exact h.tlb
  have hprivilege : r.privilege = c.privilege := by
    unfold privilege Supervision.privilege
    rw [h.has_sr (by decide)]
  rw [hresolve, h.pc, hprivilege, ha] at ha'
  cases ha'
  rw [h.ram, hload] at hload'
  cases hload'
  rfl

/-- The jump goes where it went before, unless it has overwritten its target. -/
theorem transfer?_eq (h : c.Resumes i r) (ht : c.transfer? i = some t) :
    r.transfer? i = some (if i = .jalr .link then c.pc + 8 else t) := by
  have hflag : r.flag = c.flag := h.has_sr (by decide)
  cases i with
  | j n | jal n =>
    cases ht
    simp [transfer?, relative, h.pc]
  | bnf n | bf n =>
    simp only [transfer?, relative, h.pc, hflag, reduceCtorEq, if_false]
    exact ht
  | jr b =>
    cases ht
    simp [transfer?, reg, h.registers, Instruction.links]
  | jalr b =>
    cases ht
    simp only [transfer?, reg, h.registers, Instruction.links, if_true, link_registers,
      Registers.read_write, Instruction.jalr.injEq]
    by_cases hb : b = .link
    · rw [if_pos hb.symm, if_pos hb]
    · rw [if_neg (Ne.symm hb), if_neg hb]
  | _ => cases ht

theorem write_link (h : c.Resumes i r) (hl : i.links = true) :
    r.registers.write .link (r.pc + 8) = r.registers := by
  have hr := h.registers
  rw [if_pos hl, link_registers] at hr
  rw [h.pc, hr]
  simp only [Registers.write, Vector.set_set]

theorem cycle_eq (h : c.Resumes i r) (hi : r.issued? = some i) (ht : c.transfer? i = some t) :
    r.cycle.1.registers = r.registers ∧
      r.cycle.1.place = (c.pc + 4, some (if i = .jalr .link then c.pc + 8 else t)) := by
  have hcycle := Agree.cycle_of_transfer hi (h.transfer?_eq ht)
  rw [← h.pc] at hcycle ⊢
  by_cases hl : i.links = true
  · rw [if_pos hl] at hcycle
    exact ⟨hcycle.registers.trans (h.write_link hl), hcycle.place⟩
  · rw [if_neg hl] at hcycle
    exact ⟨hcycle.registers, hcycle.place⟩

end Resumes

/-- The return from an exception that found all as the jump had left it. -/
theorem resumes_of_agree {c d : Cpu} {i : Instruction} {t : Word} (hi : c.issued? = some i)
    (ht : c.transfer? i = some t) (h : c.cycle.1.Agree d) (x : Exception) (a : Word) :
    c.Resumes i (d.raise x a).returnFromException := by
  have hjump := (Agree.cycle_of_transfer hi ht).trans h
  have hpc : d.pc = c.pc + 4 := by
    rw [hjump.pc_eq]
    split <;> rfl
  have hslot : d.inDelaySlot = true := by
    rw [inDelaySlot, hjump.delaySlot_eq]
    rfl
  constructor
  · exact hjump.registers
  · change d.resumption = c.pc
    rw [resumption, if_pos hslot, hpc]
    bv_omega
  · change d.savedSr = _
    rw [savedSr, if_pos hslot, hjump.sr]
    split <;> rfl
  · exact .returnFromException _
  · change d.immu.tlb = c.immu.tlb
    rw [hjump.tlb]
    split <;> rfl
  · change d.bus.ram = c.bus.ram
    rw [hjump.ram]
    split <;> rfl

end Cpu

def interrupting (program : List (Nat × Instruction)) : List Action :=
  program.map (fun (a, i) => .call (.poke .word a i.encode)) ++
    [.call (.poke .byte 0x90000001 1), .call (.setSpr 0x4800 4), .call (.setSr 0x8005), .run 2,
      .call (.press [0x78]), .run 1]

/-- Whether a moment is such an interrupt in the delay slot of a jump, and the return finds the
jump. -/
def interruptsJump (i : Instruction) (t : Word) (d : Cpu) (step : Step) : History → Bool
  | (_, .sample) :: (_, .call (.press _) _) :: (_, .settle _) :: (c, .cycle) :: _ =>
    c.issued? = some i && c.transfer? i = some t && step.dispatchesFirst d &&
      (step.after d).returnFromException.issued? = some i
  | _ => false

theorem interruptsJump_spec {i : Instruction} {t : Word} {d : Cpu} {step : Step} {rest : History}
    (h : interruptsJump i t d step rest = true) :
    ∃ (c : Cpu) (quiet older : History), rest = quiet ++ (c, .cycle) :: older ∧
      (∀ m ∈ quiet, m.2.Quiet m.1) ∧ c.issued? = some i ∧ c.transfer? i = some t ∧
      step.dispatchesFirst d = true ∧ (step.after d).returnFromException.issued? = some i := by
  unfold interruptsJump at h
  split at h
  · next e₁ e₂ keys r e₃ o c older =>
    simp only [Bool.and_eq_true, decide_eq_true_eq] at h
    obtain ⟨⟨⟨hi, ht⟩, hfirst⟩, hi'⟩ := h
    refine ⟨c, [(e₁, .sample), (e₂, .call (.press keys) r), (e₃, .settle o)], older, rfl, ?_, hi,
      ht, hfirst, hi'⟩
    simp [Step.Quiet, Call.Console]
  · cases h

/-- An exception in the delay slot of a jump, before any effect of the instruction there, can be
returned from: one more cycle takes the jump again, and registers, program counter and delay slot
are back as they were. The only jump for which this may fail is the one through the link register,
unless that register held the address behind the delay slot already. -/
theorem Session.restart_restores_iff (as : List Action) (c d : Cpu) (step : Step)
    (quiet older : History) (i i' : Instruction) (t : Word) :
    let s := (Session.start .initial).performAll .real as
    let r := (step.after d).returnFromException
    (d, step) :: (quiet ++ (c, .cycle) :: older) <:+ s.past →
    c.issued? = some i →
    c.transfer? i = some t →
    (∀ m ∈ quiet, m.2.Quiet m.1) →
    step.dispatchesFirst d = true →
    r.issued? = some i' →
    i' = i ∧ (r.cycle.1.registers = d.registers ∧ r.cycle.1.place = d.place ↔
      (i = .jalr .link → c.reg .link = c.pc + 8)) := by
  intro s r hmoment hi ht hquiet hfirst hi'
  have hrecorded : Recorded (fun _ => True) .initial s.past s.now :=
    Recorded.performAll (s := Session.start .initial) .start fun _ _ => trivial
  obtain ⟨hd, -⟩ := hrecorded.of_suffix hmoment
  obtain ⟨e, he, hagree⟩ := Cpu.Agree.of_quiet hd hquiet
  obtain ⟨hc, -, rfl⟩ := he.inv
  obtain ⟨f, x, a, hkept, hafter⟩ := Step.after_of_dispatchesFirst hfirst
  have hcoherent := hc.coherent (.reset _)
  have hresumes : c.Resumes i r := by
    have hr : r = (f.raise x a).returnFromException := congrArg Cpu.returnFromException hafter
    rw [hr]
    exact Cpu.resumes_of_agree hi ht (hagree.trans hkept) x a
  obtain rfl := hresumes.issued_eq hcoherent hi hi'
  refine ⟨rfl, ?_⟩
  obtain ⟨hregisters, hplace⟩ := hresumes.cycle_eq hi' ht
  have hjump := (Cpu.Agree.cycle_of_transfer hi ht).trans hagree
  have hback : r.cycle.1.registers = d.registers := by
    rw [hregisters, hresumes.registers, hjump.registers]
    rfl
  have hslot : d.place = (c.pc + 4, some t) := by
    rw [hjump.place, Cpu.place_jump]
    split <;> rfl
  rw [hplace, hslot, Prod.mk.injEq, Option.some.injEq]
  by_cases hlink : i' = .jalr .link
  · rw [if_pos hlink]
    rw [hlink] at ht
    have htarget : c.reg .link = t := Option.some.inj ht
    rw [htarget]
    exact ⟨fun h _ => h.2.2.symm, fun h => ⟨hback, rfl, (h hlink).symm⟩⟩
  · rw [if_neg hlink]
    exact ⟨fun _ h => absurd h hlink, fun _ => ⟨hback, rfl, rfl⟩⟩

/-- A call is restarted after an interrupt in its delay slot. -/
theorem Session.restart_restores_call :
    let s := (Session.start .initial).performAll .real
      (interrupting [(0, .nop 0), (4, .jal 2), (8, .nop 0)])
    ∃ (c d : Cpu) (step : Step) (quiet older : History),
      (d, step) :: (quiet ++ (c, .cycle) :: older) <:+ s.past ∧ c.issued? = some (.jal 2) ∧
      step.dispatchesFirst d = true ∧
      (step.after d).returnFromException.cycle.1.registers = d.registers ∧
      (step.after d).returnFromException.cycle.1.place = d.place := by
  intro s
  obtain ⟨d, step, rest, hmoment, hfacts⟩ := History.exists_moment s.past 1
    (interruptsJump (.jal 2) 12) (by decide +kernel)
  obtain ⟨c, quiet, older, rfl, hquiet, hi, ht, hfirst, hi'⟩ := interruptsJump_spec hfacts
  have hrestart := Session.restart_restores_iff _ c d step quiet older (.jal 2) (.jal 2) 12 hmoment
    hi ht hquiet hfirst hi'
  exact ⟨c, d, step, quiet, older, hmoment, hi, hfirst, hrestart.2.mpr nofun⟩

/-- A jump through the link register to another address than that behind the delay slot goes there
when it is restarted. -/
theorem Session.restart_loses_target :
    ¬∀ (as : List Action) (c d : Cpu) (step : Step) (quiet older : History) (i i' : Instruction)
        (t : Word),
      let s := (Session.start .initial).performAll .real as
      let r := (step.after d).returnFromException
      (d, step) :: (quiet ++ (c, .cycle) :: older) <:+ s.past →
      c.issued? = some i →
      c.transfer? i = some t →
      (∀ m ∈ quiet, m.2.Quiet m.1) →
      step.dispatchesFirst d = true →
      r.issued? = some i' →
      r.cycle.1.registers = d.registers ∧ r.cycle.1.place = d.place := by
  intro h
  let as := interrupting [(0, .ori 9 0 0x100), (4, .jalr 9), (8, .nop 0)]
  obtain ⟨d, step, rest, hmoment, hfacts⟩ := History.exists_moment
    ((Session.start .initial).performAll .real as).past 1
    (fun d step rest => interruptsJump (.jalr 9) 0x100 d step rest &&
      (step.after d).returnFromException.cycle.1.place ≠ d.place)
    (by decide +kernel)
  rw [Bool.and_eq_true, decide_eq_true_eq] at hfacts
  obtain ⟨hjump, hmoved⟩ := hfacts
  obtain ⟨c, quiet, older, rfl, hquiet, hi, ht, hfirst, hi'⟩ := interruptsJump_spec hjump
  exact hmoved (h as c d step quiet older (.jalr 9) (.jalr 9) 0x100 hmoment hi ht hquiet hfirst
    hi').2

end Orbis
