import Orbis.Proofs.Outcomes

/-!
# Jumps and their delay slots

A jump or a branch and the instruction behind it take two cycles. What the second does besides
moving on does not depend on the delay slot, and where the machine goes then was settled by the
first, before either of them wrote a register.
-/

namespace Orbis

namespace Instruction

/-- The distance in words that a jump or a branch goes. -/
def distance? : Instruction → Option Word
  | j n | jal n | bnf n | bf n => some n
  | _ => none

/-- The register that a jump takes its target from. -/
def targetReg? : Instruction → Option Reg
  | jr b | jalr b => some b
  | _ => none

/-- Whether an instruction is a jump or a branch, taken or not. -/
def isTransfer (i : Instruction) : Bool := i.distance?.isSome || i.targetReg?.isSome

/-- The flag with which a branch is taken. -/
def condition? : Instruction → Option Bool
  | bnf _ => some false
  | bf _ => some true
  | _ => none

end Instruction

namespace Cpu

variable {c d : Cpu} {i s : Instruction} {t : Word}

/-! ### Targets -/

/-- A jump, or a branch that is taken, leads to a target. All is told by the state in which it is
issued, and distances count from the program counter there. -/
structure LeadsTo (c : Cpu) (i : Instruction) (t : Word) : Prop where
  taken (on : Bool) : i.condition? = some on → c.flag = on
  relative (n : Word) : i.distance? = some n →
    (t.toNat : Int) = (c.pc.toNat + 4 * n.toInt) % 4294967296
  register (b : Reg) : i.targetReg? = some b → t = c.reg b

theorem toNat_relative (c : Cpu) (n : Word) :
    ((c.relative n).toNat : Int) = (c.pc.toNat + 4 * n.toInt) % 4294967296 := by
  have hlt := n.isLt
  rw [relative, BitVec.toNat_add, BitVec.toNat_shiftLeft, Nat.shiftLeft_eq,
    BitVec.toInt_eq_toNat_cond]
  split <;> omega

theorem eq_relative_iff (c : Cpu) (n t : Word) :
    c.relative n = t ↔ (t.toNat : Int) = (c.pc.toNat + 4 * n.toInt) % 4294967296 := by
  rw [← c.toNat_relative, Int.ofNat_inj, BitVec.toNat_inj, eq_comm]

theorem LeadsTo.of_relative {n : Word} (ht : c.relative n = t) (hn : i.distance? = some n)
    (hreg : i.targetReg? = none) (htaken : ∀ on, i.condition? = some on → c.flag = on) :
    c.LeadsTo i t := by
  constructor
  · exact htaken
  · intro m hm
    obtain rfl := Option.some.inj (hn.symm.trans hm)
    exact (c.eq_relative_iff n t).mp ht
  · intro b hb
    cases hreg.symm.trans hb

theorem LeadsTo.of_register {b : Reg} (ht : c.reg b = t) (hb : i.targetReg? = some b)
    (hn : i.distance? = none) (htaken : i.condition? = none) : c.LeadsTo i t := by
  constructor
  · intro on hon
    cases htaken.symm.trans hon
  · intro n hn'
    cases hn.symm.trans hn'
  · intro a ha
    obtain rfl := Option.some.inj (hb.symm.trans ha)
    exact ht.symm

theorem transfer?_eq_some_iff (h : i.isTransfer = true) :
    c.transfer? i = some t ↔ c.LeadsTo i t := by
  constructor
  · intro ht
    cases i with
    | j n | jal n => exact .of_relative (Option.some.inj ht) rfl rfl (by intro on hon; cases hon)
    | jr b | jalr b => exact .of_register (Option.some.inj ht) rfl rfl rfl
    | bnf n =>
      simp only [transfer?, Option.ite_none_left_eq_some, Option.some.injEq] at ht
      apply LeadsTo.of_relative ht.2 rfl rfl
      intro on hon
      cases hon
      exact Bool.eq_false_iff.mpr ht.1
    | bf n =>
      simp only [transfer?, Option.ite_none_right_eq_some, Option.some.injEq] at ht
      apply LeadsTo.of_relative ht.2 rfl rfl
      intro on hon
      cases hon
      exact ht.1
    | _ => cases h
  · intro ht
    cases i with
    | j n | jal n => exact congrArg some ((c.eq_relative_iff n t).mpr (ht.relative n rfl))
    | jr b | jalr b => exact congrArg some (ht.register b rfl).symm
    | bnf n | bf n =>
      rw [transfer?, ht.taken _ rfl]
      exact congrArg some ((c.eq_relative_iff n t).mpr (ht.relative n rfl))
    | _ => cases h

/-! ### What the two instructions do -/

/-- The state behind a jump or a branch. The return address is left, and if the jump is taken the
next instruction sits in its delay slot. -/
def behind (c : Cpu) (i : Instruction) : Cpu :=
  { if i.links then c.link else c with
    pc := c.pc + 4
    delaySlot := c.transfer? i }

theorem execute_of_isTransfer (h : i.isTransfer = true) (hslot : c.delaySlot = none) :
    c.execute i = (c.behind i, .next) := by
  cases ht : c.transfer? i with
  | some t =>
    rw [execute_of_transfer ht, behind, ht]
    split <;> rfl
  | none =>
    -- Only branches are not taken.
    cases i with
    | bnf n =>
      have hflag : c.flag = true := by simpa [transfer?] using ht
      simp [behind, execute, advance, Instruction.links, ht, hflag, hslot]
    | bf n =>
      have hflag : c.flag = false := by simpa [transfer?] using ht
      simp [behind, execute, advance, Instruction.links, ht, hflag, hslot]
    | j | jal | jr | jalr => cases ht
    | _ => cases h

/-- The machine with no jump waiting. -/
def outside (c : Cpu) : Cpu := { c with delaySlot := none }

def movedTo (c : Cpu) (pc : Word) : Cpu := { c with pc := pc }

theorem writeSpr_outside (c : Cpu) (r : Spr) (v : Word) :
    c.outside.writeSpr r v = (c.writeSpr r v).outside := by
  cases r with
  | mmu side => cases side <;> rfl
  | _ => rfl

/-- The delay slot only says where an instruction moves on to. -/
theorem execute_in_slot (hs : s.isTransfer = false) (hrfe : s ≠ .rfe)
    (hnext : (c.execute s).2 = .next) :
    c.execute s = ((c.outside.execute s).1.movedTo (c.delaySlot.getD (c.pc + 4)), .next) := by
  cases s with
  | load op d a k =>
    cases h : c.dmmu.load c.bus op.width (c.displaced a k) c.privilege with
    | mk result m =>
      have h' : c.outside.dmmu.load c.outside.bus op.width (c.outside.displaced a k)
          c.outside.privilege = (result, m) := h
      simp only [execute, load, h] at hnext
      simp only [execute, load, h, h']
      cases result with
      | ok r => rfl
      | error e => cases hnext
  | store op a b k =>
    cases h : c.dmmu.store c.bus op.width (c.displaced a k) c.privilege (c.reg b) with
    | mk result m =>
      have h' : c.outside.dmmu.store c.outside.bus op.width (c.outside.displaced a k)
          c.outside.privilege (c.outside.reg b) = (result, m) := h
      simp only [execute, store, h] at hnext
      simp only [execute, store, h, h']
      cases result with
      | ok bus => rfl
      | error e => cases hnext
  | mtspr a b k =>
    simp only [execute] at hnext ⊢
    split at hnext
    · cases hnext
    · next h =>
      have hwrite : c.outside.setSpr (c.outside.sprAddress a k) (c.outside.reg b) =
          (c.setSpr (c.sprAddress a k) (c.reg b)).outside := c.writeSpr_outside _ _
      have hplace : (c.setSpr (c.sprAddress a k) (c.reg b)).place = c.place :=
        c.place_writeSpr _ _
      obtain ⟨hpc, hslot⟩ := Prod.mk.inj hplace
      have h' : ¬(c.setSpr (c.sprAddress a k) (c.reg b)).outside.tickDue = true := h
      rw [hwrite, if_neg h, if_neg h', ← hpc, ← hslot]
      rfl
  | nop k =>
    simp only [execute] at hnext ⊢
    split at hnext
    · cases hnext
    · next h =>
      have h' : ¬(k = haltImmediate ∧ c.outside.privilege = .supervisor) := h
      rw [if_neg h, if_neg h']
      rfl
  | rfe => exact absurd rfl hrfe
  | j | jal | bnf | bf | jr | jalr => cases hs
  | sys | trap | illegal => cases hnext
  | _ => rfl

/-- What is left of an instruction that moves on is a machine outside of delay slots. -/
theorem place_execute (hs : s.isTransfer = false) (hrfe : s ≠ .rfe)
    (hnext : (c.execute s).2 = .next) :
    (c.execute s).1.place = (c.delaySlot.getD (c.pc + 4), none) := by
  have htransfer : c.transfer? s = none := by
    cases s with
    | j | jal | bnf | bf | jr | jalr => cases hs
    | _ => rfl
  have hstops : ¬c.stops s := by
    intro h
    rw [execute_of_stops h] at hnext
    cases hnext
  rcases (c.execute_effect s).delaySlot_none htransfer hstops with hslot | ⟨e, a, hfault⟩
  · rw [place, hslot, execute_in_slot hs hrfe hnext]
    rfl
  · cases hfault.symm.trans hnext

/-! ### What is fetched -/

/-- The address that is fetched from: on the remembered page, or else translated. -/
def located (c : Cpu) : Except Exception Word :=
  (Memo.address? c.fetchMemo c.pc).elim (c.immu.translate c.pc c.privilege .fetch).1 .ok

theorem fst_locateFetch (c : Cpu) : c.locateFetch.1 = c.located := by
  unfold locateFetch located
  cases Memo.address? c.fetchMemo c.pc with
  | some physical => rfl
  | none =>
    simp only [Option.elim_none]
    split <;> next h => rw [h]

theorem fst_fetch (c : Cpu) :
    c.fetch.1 =
      if Mmu.aligned .word c.pc then (c.located.bind (c.bus.load .word)).map Prod.fst
      else .error .alignment := by
  obtain ⟨memo, last, s, hframe⟩ := c.locateFetch_frame
  have hbus : c.locateFetch.2.bus = c.bus := by rw [hframe]
  unfold fetch
  split
  · rw [← fst_locateFetch, ← hbus]
    simp only
    split <;> next h => rw [h]; rfl
  · rfl

theorem issued?_sampleInterrupts (c : Cpu) : c.sampleInterrupts.issued? = c.issued? := by
  have hfetch : c.sampleInterrupts.ticked.fetch.1 = c.ticked.fetch.1 := by
    rw [fst_fetch, fst_fetch]
    rfl
  rw [issued?, issued?, issue_eq, issue_eq, apply_ite Prod.fst, apply_ite Prod.fst, hfetch]
  rfl

/-! ### Two cycles -/

theorem behind_fetched (c : Cpu) (i : Instruction) :
    ∃ memo last stats, c.sampleInterrupts.fetched.behind i =
      { c.behind i with
        interrupts := c.interrupts.sample c.bus.interrupts
        timer := c.timer.advance
        fetchMemo := memo
        immu := { c.immu with memo := last }
        statistics := stats } := by
  obtain ⟨memo, last, stats, hframe⟩ := c.sampleInterrupts.fetched_frame
  refine ⟨memo, last, stats, ?_⟩
  rw [hframe, behind, behind]
  split <;> rfl

theorem place_behind (c : Cpu) (i : Instruction) :
    (c.sampleInterrupts.fetched.behind i).place = (c.pc + 4, c.transfer? i) := by
  obtain ⟨memo, last, stats, hframe⟩ := c.behind_fetched i
  rw [hframe]
  rfl

theorem cycle_of_next (hi : c.issued? = some i) (hnext : (c.fetched.execute i).2 = .next) :
    c.cycle = ((c.fetched.execute i).1, none) := by
  rw [cycle, attempt_of_issued hi]
  generalize c.fetched.execute i = r at hnext ⊢
  obtain ⟨d, f⟩ := r
  cases hnext
  rfl

theorem counted_execute (c : Cpu) (i : Instruction) :
    (c.fetched.execute i).1.statistics.cycles = c.statistics.cycles + 1 ∧
      (c.fetched.execute i).1.statistics.instructions = c.statistics.instructions + 1 := by
  obtain ⟨fast, slow, hfetched⟩ := c.statistics_fetched
  rw [(c.fetched.execute_effect i).statistics_eq, hfetched]
  exact ⟨rfl, rfl⟩

/-- Two cycles take a machine through a jump or a branch and the instruction behind it, and no
further. That instruction finds the return address written, does what it does elsewhere, and then
the machine is at the target that the jump had in the beginning, or behind the two instructions if
there was none. -/
theorem run_through_slot (c : Cpu) (i s : Instruction) (hslot : c.inDelaySlot = false)
    (hquiet : c.sampleInterrupts.interruptDue = false)
    (hi : c.issued? = some i) (hjump : i.isTransfer = true)
    (hs : (c.sampleInterrupts.fetched.behind i).issued? = some s)
    (hplain : s.isTransfer = false) (hrfe : s ≠ .rfe)
    (hnext : ((c.sampleInterrupts.fetched.behind i).fetched.execute s).2 = .next) :
    let d := c.sampleInterrupts.fetched.behind i
    let e := (d.fetched.execute s).1
    c.sampleInterrupts.cycle = (d, none) ∧ d.cycle = (e, none) ∧
      c.run 2 = (e.settle .completed, .completed) ∧
      (e.statistics.cycles = c.statistics.cycles + 2 ∧
        e.statistics.instructions = c.statistics.instructions + 2) ∧
      (∃ memo last stats, d =
        { c.behind i with
          interrupts := c.interrupts.sample c.bus.interrupts
          timer := c.timer.advance
          fetchMemo := memo
          immu := { c.immu with memo := last }
          statistics := stats }) ∧
      e = (d.fetched.outside.execute s).1.movedTo ((c.transfer? i).getD (c.pc + 8)) ∧
      e.place = ((c.transfer? i).getD (c.pc + 8), none) ∧
      ∀ t, c.transfer? i = some t ↔ c.LeadsTo i t := by
  intro d e
  have hb : c.sampleInterrupts.fetched.execute i = (d, .next) := by
    apply execute_of_isTransfer hjump
    rw [show c.sampleInterrupts.fetched.delaySlot = c.delaySlot from
      congrArg Prod.snd c.sampleInterrupts.place_fetched]
    exact Option.not_isSome_iff_eq_none.mp (Bool.eq_false_iff.mp hslot)
  have hfirst : c.sampleInterrupts.cycle = (d, none) := by
    rw [cycle_of_next (c.issued?_sampleInterrupts.trans hi) (congrArg Prod.snd hb), hb]
  have hsecond : d.cycle = (e, none) := cycle_of_next hs hnext
  have hgoes : c.sampleInterrupts.GoesOn 2 e := .step hfirst (.step hsecond (.refl e))
  obtain ⟨hpc, hdelay⟩ := Prod.mk.inj (d.place_fetched.trans (c.place_behind i))
  have height : d.fetched.delaySlot.getD (d.fetched.pc + 4) = (c.transfer? i).getD (c.pc + 8) := by
    rw [hpc, hdelay, BitVec.add_assoc]
    rfl
  refine ⟨hfirst, hsecond, ?_, ?_, c.behind_fetched i, ?_, ?_, fun t => transfer?_eq_some_iff hjump⟩
  · rw [run_of_not_due hquiet, hgoes.cycles_eq]
  · have hcounted := c.sampleInterrupts.counted_execute i
    rw [hb] at hcounted
    obtain ⟨hcycles, hinstructions⟩ := d.counted_execute s
    rw [hcounted.1] at hcycles
    rw [hcounted.2] at hinstructions
    exact ⟨hcycles, hinstructions⟩
  · rw [← height]
    exact congrArg Prod.fst (execute_in_slot hplain hrfe hnext)
  · rw [← height]
    exact place_execute hplain hrfe hnext

/-- A call whose slot overwrites the return address with one more than that. -/
theorem run_through_slot_call :
    let c := Cpu.holding [(0, .jal 3), (4, .addi .link .link 1)]
    (c.run 2).2 = .completed ∧ (c.run 2).1.place = (12, none) ∧ (c.run 2).1.reg .link = 9 := by
  intro c
  obtain ⟨-, -, hrun, -, -, -, hplace, -⟩ :=
    c.run_through_slot (.jal 3) (.addi .link .link 1) (by decide +kernel) (by decide +kernel)
      (by decide +kernel) rfl (by decide +kernel) rfl nofun (by decide +kernel)
  have htarget : c.transfer? (.jal 3) = some 12 := by decide +kernel
  rw [htarget] at hplace
  refine ⟨congrArg Prod.snd hrun, ?_, by decide +kernel⟩
  rw [hrun]
  exact hplace

end Cpu

end Orbis
