import Orbis.Proofs.Faults
import Orbis.Proofs.Session

/-!
# Precise faults

A fault of a fetch, of an access or of the decoder comes before any effect of its instruction. What
a cycle that ends in one has touched before the dispatch is the timer, the remembered pages and the
counters, and the dispatch then saves the state of the beginning of that cycle.
-/

namespace Orbis

/-- The exceptions that report where the fault lies. -/
def Exception.precise : List Exception :=
  [.busError, .dataPageFault, .instructionPageFault, .dataTlbMiss, .instructionTlbMiss, .alignment,
    .illegalInstruction]

theorem Exception.hasAddress_of_precise : ∀ e ∈ precise, e.hasAddress = true := by decide

namespace Cpu

variable {c d : Cpu} {i : Instruction} {e : Exception} {a : Word}

def accessAddress? (c : Cpu) : Instruction → Option Word
  | .load _ _ a i | .store _ a _ i => some (c.displaced a i)
  | _ => none

/-- Where a fault of the next cycle lies: at the address of an access that its instruction makes, or
else at the instruction itself. -/
def faultAddress (c : Cpu) : Word := (c.issued?.bind c.accessAddress?).getD c.pc

theorem accessAddress?_fetched (c : Cpu) (i : Instruction) :
    c.fetched.accessAddress? i = c.accessAddress? i := by
  obtain ⟨memo, last, s, hframe⟩ := c.fetched_frame
  rw [hframe]
  rfl

theorem Effect.precise_frame (h : c.Effect i d (.fault e a)) (he : e ∈ Exception.precise) :
    ∃ m, m.bare = c.dmmu.bare ∧ d = { c with dmmu := m } ∧
      a = (c.accessAddress? i).getD c.pc := by
  cases h with
  | sys => exact absurd he (by decide)
  | mtsprTick => exact absurd he (by decide)
  | illegal => exact ⟨c.dmmu, rfl, rfl, rfl⟩
  | @loadFault _ _ _ _ _ m h => exact ⟨m, Mmu.bare_of_load h, rfl, rfl⟩
  | @storeFault _ _ _ _ _ m h => exact ⟨m, Mmu.bare_of_store h, rfl, rfl⟩

theorem attempt_frame (h : c.attempt.2 = .fault e a) (he : e ∈ Exception.precise) :
    ∃ memo last m s, m.bare = c.dmmu.bare ∧ a = c.faultAddress ∧
      c.attempt.1 =
        { c with
          timer := c.timer.advance
          fetchMemo := memo
          immu := { c.immu with memo := last }
          dmmu := m
          statistics := s } := by
  cases hi : c.issued? with
  | none =>
    obtain ⟨e', -, hattempt⟩ := attempt_of_not_issued hi
    obtain ⟨memo, last, s, hframe⟩ := c.issue_frame
    rw [hattempt] at h ⊢
    cases h
    refine ⟨memo, last, c.dmmu, s, rfl, ?_, hframe⟩
    rw [faultAddress, hi]
    rfl
  | some i =>
    have heffect := c.fetched.execute_effect i
    rw [attempt_of_issued hi] at h ⊢
    rw [h] at heffect
    obtain ⟨m, hbare, hd, ha⟩ := heffect.precise_frame he
    obtain ⟨memo, last, s, hframe⟩ := c.fetched_frame
    refine ⟨memo, last, m, s, ?_, ?_, ?_⟩
    · rw [hbare, hframe]
    · rw [ha, accessAddress?_fetched, faultAddress, hi, hframe]
      rfl
    · rw [hd, hframe]

theorem control_eq_of_bare {m n : Mmu .data} (h : n.bare = m.bare) : n.control = m.control := by
  change n.bare.control = m.bare.control
  rw [h]

/-- What a fault leaves of a machine: everything as it was but for one tick of the timer, the
context of the exception, and the handler to go on in. -/
structure Precise (c : Cpu) (e : Exception) (d : Cpu) : Prop where
  registers : d.registers = c.registers
  bus : d.bus = c.bus
  interrupts : d.interrupts = c.interrupts
  immu_control : d.immu.control = c.immu.control
  immu_tlb : d.immu.tlb = c.immu.tlb
  dmmu_control : d.dmmu.control = c.dmmu.control
  dmmu_tlb : d.dmmu.tlb = c.dmmu.tlb
  timer : d.timer = c.timer.advance
  saved_sr : d.context.supervision =
    if c.inDelaySlot then c.sr ||| Supervision.Bit.dsx.mask else c.sr
  saved_pc : d.context.pc = if c.inDelaySlot then c.pc - 4 else c.pc
  address : d.context.address = c.faultAddress
  sr : d.sr = Supervision.Bit.fo.mask ||| Supervision.Bit.sm.mask
  pc : d.pc = e.vector
  delaySlot : d.delaySlot = none

/-- Faults are precise: a cycle that ends in one has had no other effect than its tick, and its
exception has saved the state in which the cycle began. -/
theorem cycle_precise (h : c.cycle.2 = some (.exception e)) (he : e ∈ Exception.precise) :
    c.Precise e c.cycle.1 := by
  obtain ⟨a, hfault, hcycle⟩ := cycle_of_exception h
  obtain ⟨memo, last, m, s, hbare, ha, hframe⟩ := attempt_frame hfault he
  have hcontrol : m.control = c.dmmu.control := control_eq_of_bare hbare
  have htlb : m.tlb = c.dmmu.tlb := Mmu.tlb_eq_of_bare hbare
  rw [hcycle, hframe, ha]
  constructor
  case address => exact if_pos (Exception.hasAddress_of_precise e he)
  case dmmu_control => exact hcontrol
  case dmmu_tlb => exact htlb
  all_goals rfl

/-- A user stores to a page that may only be read, in the delay slot of a jump. -/
theorem cycle_precise_store :
    let c := ((((holding [(0, .j 2), (4, .store .sw 0 0 8)]).setSpr 0x0a00 0x01).setSpr 0x0a80
      0x40).setSr 0x8020).cycle.1
    c.inDelaySlot = true ∧ c.cycle.2 = some (.exception .dataPageFault) ∧
      c.Precise .dataPageFault c.cycle.1 := by
  intro c
  have hslot : c.inDelaySlot = true := by decide +kernel
  have hfault : c.cycle.2 = some (.exception .dataPageFault) := by decide +kernel
  exact ⟨hslot, hfault, cycle_precise hfault (by decide)⟩

end Cpu

end Orbis
