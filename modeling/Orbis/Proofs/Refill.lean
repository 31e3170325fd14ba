import Orbis.Proofs.PreciseFaults
import Orbis.Proofs.Reference
import Orbis.Proofs.UserAccess

/-!
# Misses and refills

The handler of a miss writes both registers of the set that the effective address picks, and
returns. The table then has an entry for the page of that address, and the rest of the machine is as
it was before the miss, so the same instruction is issued again and its access completes.
-/

namespace Orbis

/-! ### New entries -/

namespace Word

theorem or_one_eq_address (a : Word) : (a &&& 0xffffe000) ||| 1 = a.page.address 1 := by
  rw [and_pageMask, show (1 : Word) = 0#19 ++ 1#13 from rfl, BitVec.or_append, BitVec.or_zero,
    BitVec.zero_or]
  rfl

@[simp] theorem pageOffset_address (p : Page) (o : BitVec 13) : (p.address o).pageOffset = o :=
  BitVec.extractLsb'_append_eq_right

end Word

def Side.group : Side → Word
  | .data => 1
  | .instruction => 2

theorem Spr.ofAddress_address (side : Side) {i : Word} (h : i.toNat < 2048) :
    ofAddress (address side.group i) = .mmu side i.toNat := by
  have hgroup : group (address side.group i) = side.group.toNat := by
    rw [group, address, BitVec.extractLsb'_append_eq_of_le (by decide),
      BitVec.extractLsb'_append_eq_right]
    cases side <;> rfl
  have hindex : index (address side.group i) = i.toNat := by
    rw [index, address, BitVec.extractLsb'_append_eq_right, BitVec.extractLsb'_toNat]
    exact Nat.mod_eq_of_lt h
  rw [ofAddress, hgroup, hindex]
  cases side <;> rfl

namespace Tlb

/-- A table with an entry for the page of an address. -/
def enter (t : Tlb) (a frame : Word) : Tlb :=
  (t.write (.tag (setAt a)) ((a &&& 0xffffe000) ||| 1)).write (.frame (setAt a)) frame

theorem slot?_tag (set : Fin 128) : slot? (512 + set) = some (.tag set) := by
  have hbound : tagBase ≤ 512 + set.val ∧ 512 + set.val - tagBase < 128 := by
    simp only [tagBase]
    omega
  rw [slot?, dif_pos hbound]
  exact congrArg (fun set => some (Slot.tag set)) (Fin.ext (Nat.add_sub_cancel_left ..))

theorem slot?_frame (set : Fin 128) : slot? (640 + set) = some (.frame set) := by
  have htag : ¬(tagBase ≤ 640 + set.val ∧ 640 + set.val - tagBase < 128) := by
    simp only [tagBase]
    omega
  have hbound : frameBase ≤ 640 + set.val ∧ 640 + set.val - frameBase < 128 := by
    simp only [frameBase]
    omega
  rw [slot?, dif_neg htag, dif_pos hbound]
  exact congrArg (fun set => some (Slot.frame set)) (Fin.ext (Nat.add_sub_cancel_left ..))

theorem lookup_enter (t : Tlb) (a frame : Word) : (t.enter a frame).lookup a = some frame := by
  have hvalid : ((a &&& 0xffffe000) ||| 1).getLsbD 0 = true := by
    rw [BitVec.getLsbD_or]
    exact Bool.or_true _
  have hpage : ((a &&& 0xffffe000) ||| 1).page = a.page := by
    rw [Word.or_one_eq_address, Page.page_address]
  have htag : (t.enter a frame).read (.tag (setAt a)) = (a &&& 0xffffe000) ||| 1 :=
    Vector.getElem_set_self ..
  have hframe : (t.enter a frame).read (.frame (setAt a)) = frame := Vector.getElem_set_self ..
  rw [lookup, setOf_page, htag, hframe]
  exact if_pos ⟨hvalid, hpage⟩

end Tlb

namespace Mmu

variable {side : Side} {m : Mmu side} {a frame : Word} {p : Privilege} {x : Access}

def enter (m : Mmu side) (a frame : Word) : Mmu side :=
  { m with tlb := m.tlb.enter a frame, memo := none }

theorem writeAt_enter (m : Mmu side) (a frame : Word) :
    (m.writeAt (512 + Tlb.setAt a) ((a &&& 0xffffe000) ||| 1)).writeAt (640 + Tlb.setAt a) frame =
      m.enter a frame := by
  have htag : register? (512 + Tlb.setAt a) = some (.entry (.tag (Tlb.setAt a))) := by
    rw [register?, if_neg (by omega), Tlb.slot?_tag]
    rfl
  have hframe : register? (640 + Tlb.setAt a) = some (.entry (.frame (Tlb.setAt a))) := by
    rw [register?, if_neg (by omega), Tlb.slot?_frame]
    rfl
  rw [writeAt, writeAt, htag, hframe]
  rfl

theorem resolve_of_enter {t : Tlb} (hon : m.enabled = true) (ht : m.tlb = t.enter a frame)
    (hx : frame &&& side.permission p x ≠ 0) :
    m.resolve a p x = .ok (frame.page.address a.pageOffset) := by
  have hlookup : m.tlb.lookup a = some frame := ht ▸ t.lookup_enter a frame
  rw [resolve, if_pos hon, hlookup]
  exact if_neg hx

theorem enabled_of_fault {w : Width} {β : Type} {f : Word → Except Exception β} {e : Exception}
    (h : (if aligned w a then (m.resolve a p x).bind f else .error .alignment) = .error e)
    (hf : ∀ b e, f b = .error e → e = .busError) (halign : e ≠ .alignment) (hbus : e ≠ .busError) :
    aligned w a = true ∧ m.enabled = true := by
  split at h
  · next haligned =>
    refine ⟨haligned, ?_⟩
    rcases error_of_bind h with hresolve | ⟨physical, -, hb⟩
    · unfold resolve at hresolve
      split at hresolve
      · next hon => exact hon
      · cases hresolve
    · exact absurd (hf physical e hb) hbus
  · cases h
    exact absurd rfl halign

theorem of_load_miss {m n : Mmu .data} (h : m.Coherent p) {b : Bus} {w : Width}
    (hl : m.load b w a p = (.error .dataTlbMiss, n)) : aligned w a = true ∧ m.enabled = true := by
  have hfst := load_fst h b w a
  rw [hl] at hfst
  exact enabled_of_fault hfst.symm (fun _ _ => Bus.load_error) (by decide) (by decide)

theorem of_store_miss {m n : Mmu .data} {b : Bus} {w : Width} {v : Word}
    (hs : m.store b w a p v = (.error .dataTlbMiss, n)) :
    aligned w a = true ∧ m.enabled = true := by
  have hfst := m.store_fst b w a p v
  rw [hs] at hfst
  exact enabled_of_fault hfst.symm (fun _ _ => Bus.store_error) (by decide) (by decide)

theorem aligned_eq_offset (w : Width) (a : Word) :
    aligned w a = (a.pageOffset.toNat % w.size == 0) := by
  have hoffset : a.pageOffset.toNat = a.toNat % 8192 := by
    rw [Word.pageOffset, BitVec.extractLsb'_toNat]
    rfl
  rw [aligned, hoffset]
  cases w <;> simp only [Width.size] <;> congr 1 <;> omega

theorem aligned_address (w : Width) (f : Page) (a : Word) :
    aligned w (f.address a.pageOffset) = aligned w a := by
  rw [aligned_eq_offset, aligned_eq_offset, Word.pageOffset_address]

end Mmu

namespace Bus

theorem isRam_address (frame : Word) (o : BitVec 13) :
    isRam (frame.page.address o) = isRam frame :=
  isRam_congr (Page.page_address ..)

theorem aligned_lt {w : Width} {a : Word} (hram : isRam a = true) (ha : Mmu.aligned w a = true) :
    a.toNat + w.size ≤ ramSize := by
  have hle : a.toNat ≤ 33554431 := of_decide_eq_true hram
  have hmod : a.toNat % w.size = 0 := by simpa [Mmu.aligned] using ha
  have hsize : ramSize = 33554432 := rfl
  cases w <;> simp only [Width.size] at hmod ⊢ <;> omega

theorem load_ok (b : Bus) {w : Width} {a : Word} (hram : isRam a = true)
    (ha : Mmu.aligned w a = true) : ∃ v, b.ram.load w a = .ok v ∧ b.load w a = .ok (v, b) := by
  have hram' : b.ram.load w a = .ok (b.ram.read w a.toNat) := if_pos (aligned_lt hram ha)
  refine ⟨_, hram', ?_⟩
  rw [load, route?, if_pos hram]
  simp only [hram']
  rfl

theorem store_ok (b : Bus) {w : Width} {a : Word} (v : Word) (hram : isRam a = true)
    (ha : Mmu.aligned w a = true) : ∃ b', b.store w a v = .ok b' := by
  have hram' : b.ram.store w a v = .ok (b.ram.write w a.toNat v) := if_pos (aligned_lt hram ha)
  rw [store, route?, if_pos hram]
  simp only [hram']
  exact ⟨_, rfl⟩

end Bus

/-- The width and the kind of the access that an instruction makes. -/
def Instruction.access? : Instruction → Option (Width × Access)
  | load op _ _ _ => some (op.width, .read)
  | store op _ _ _ => some (op.width, .write)
  | _ => none

namespace Cpu

variable {c d r : Cpu} {i : Instruction} {w : Width} {x : Access} {a physical frame : Word}

/-! ### Misses -/

/-- A data miss comes from an aligned access of a load or a store, with paging on. -/
theorem access_of_miss (hc : c.Coherent) (h : c.cycle.2 = some (.exception .dataTlbMiss)) :
    ∃ i w x a, c.issued? = some i ∧ i.access? = some (w, x) ∧ c.accessAddress? i = some a ∧
      Mmu.aligned w a = true ∧ c.dmmu.enabled = true := by
  obtain ⟨a, hfault, -⟩ := cycle_of_exception h
  cases hi : c.issued? with
  | none =>
    -- The fetch has failed, and with another exception.
    obtain ⟨e, hissue, hattempt⟩ := attempt_of_not_issued hi
    rw [hattempt] at hfault
    cases hfault
    exact absurd (issue_error hissue) (by decide)
  | some i =>
    have heffect := c.fetched.execute_effect i
    rw [attempt_of_issued hi] at hfault
    rw [hfault] at heffect
    have hfetched := hc.fetched
    have haddress := c.accessAddress?_fetched i
    have henabled : c.fetched.dmmu.enabled = c.dmmu.enabled := by
      obtain ⟨memo, last, s, hframe⟩ := c.fetched_frame
      rw [hframe]
    generalize (c.fetched.execute i).1 = d at heffect
    cases heffect with
    | loadFault hload =>
      obtain ⟨haligned, hon⟩ := Mmu.of_load_miss hfetched.load_sound hload
      exact ⟨_, _, _, _, rfl, rfl, haddress.symm, haligned, henabled ▸ hon⟩
    | storeFault hstore =>
      obtain ⟨haligned, hon⟩ := Mmu.of_store_miss hstore
      exact ⟨_, _, _, _, rfl, rfl, haddress.symm, haligned, henabled ▸ hon⟩

theorem fetch_of_miss (hc : c.Coherent) (h : c.cycle.2 = some (.exception .instructionTlbMiss)) :
    c.issued? = none ∧ Mmu.aligned .word c.pc = true ∧ c.immu.enabled = true := by
  obtain ⟨a, hfault, -⟩ := cycle_of_exception h
  cases hi : c.issued? with
  | some i =>
    have heffect := c.fetched.execute_effect i
    rw [attempt_of_issued hi] at hfault
    rw [hfault] at heffect
    rcases heffect.fault with he | he
    · exact absurd he (by decide)
    · exact absurd he (by decide)
  | none =>
    obtain ⟨e, hissue, hattempt⟩ := attempt_of_not_issued hi
    rw [hattempt] at hfault
    cases hfault
    rw [issue_fst hc] at hissue
    split at hissue
    · cases hissue
    · refine ⟨rfl, Mmu.enabled_of_fault hissue (fun b e hb => ?_) (by decide) (by decide)⟩
      cases hload : c.bus.load .word b with
      | ok r =>
        rw [hload] at hb
        cases hb
      | error e' =>
        rw [hload] at hb
        cases hb
        exact Bus.load_error hload

/-! ### Accesses that complete -/

theorem load_completes (hc : c.Coherent) {op : LoadOp} {v : Word} {b : Bus}
    (haligned : Mmu.aligned op.width a = true)
    (hresolve : c.dmmu.resolve a c.privilege .read = .ok physical)
    (hb : c.bus.load op.width physical = .ok (v, b)) :
    ∃ m, c.load op a = (.ok (op.extend v), { c with dmmu := m, bus := b }) := by
  have hfst := Mmu.load_fst hc.load_sound c.bus op.width a
  rw [if_pos haligned, show Side.data.readAccess = .read from rfl, hresolve] at hfst
  unfold load
  generalize c.dmmu.load c.bus op.width a c.privilege = l at hfst
  obtain ⟨result, m⟩ := l
  obtain rfl : result = .ok (v, b) := hfst.trans hb
  exact ⟨m, rfl⟩

theorem store_completes {op : StoreOp} {v : Word} {b : Bus}
    (haligned : Mmu.aligned op.width a = true)
    (hresolve : c.dmmu.resolve a c.privilege .write = .ok physical)
    (hb : c.bus.store op.width physical v = .ok b) :
    ∃ m, c.store op a v = (.ok (), { c with dmmu := m, bus := b }) := by
  have hfst := c.dmmu.store_fst c.bus op.width a c.privilege v
  rw [if_pos haligned, hresolve] at hfst
  unfold store
  generalize c.dmmu.store c.bus op.width a c.privilege v = l at hfst
  obtain ⟨result, m⟩ := l
  obtain rfl : result = .ok b := hfst.trans hb
  exact ⟨m, rfl⟩

/-- What a load or a store at a physical address leaves behind. -/
inductive Accesses (c d : Cpu) (physical : Word) : Instruction → Prop
  | load {op : LoadOp} {t y : Reg} {k : Half} {v : Word}
      (h : c.bus.load op.width physical = .ok (v, d.bus)) (ht : d.reg t = op.extend v) :
      Accesses c d physical (.load op t y k)
  | store {op : StoreOp} {y b : Reg} {k : Half}
      (h : c.bus.store op.width physical (c.reg b) = .ok d.bus) :
      Accesses c d physical (.store op y b k)

theorem execute_access (hc : c.Coherent) (hx : i.access? = some (w, x))
    (ha : c.accessAddress? i = some a) (haligned : Mmu.aligned w a = true)
    (hresolve : c.dmmu.resolve a c.privilege x = .ok physical) (hram : Bus.isRam physical = true)
    (hphysical : Mmu.aligned w physical = true) :
    ∃ d, c.execute i = (d, .next) ∧ d.pc = c.delaySlot.getD (c.pc + 4) ∧
      c.Accesses d physical i := by
  cases i with
  | load op t y k =>
    cases hx
    cases ha
    obtain ⟨v, -, hb⟩ := c.bus.load_ok hram hphysical
    obtain ⟨m, hload⟩ := load_completes hc haligned hresolve hb
    simp only [execute, hload, complete]
    refine ⟨_, rfl, rfl, .load hb ?_⟩
    change (c.registers.write t (op.extend v)).read t = _
    rw [Registers.read_write, if_pos rfl]
  | store op y b k =>
    cases hx
    cases ha
    obtain ⟨bus, hb⟩ := c.bus.store_ok (c.reg b) hram hphysical
    obtain ⟨m, hstore⟩ := store_completes haligned hresolve hb
    simp only [execute, hstore]
    exact ⟨_, rfl, rfl, .store hb⟩
  | _ => cases hx

theorem cycle_of_access (hc : c.Coherent) (hi : c.issued? = some i) (hx : i.access? = some (w, x))
    (ha : c.accessAddress? i = some a) (haligned : Mmu.aligned w a = true)
    (hresolve : c.dmmu.resolve a c.privilege x = .ok physical) (hram : Bus.isRam physical = true)
    (hphysical : Mmu.aligned w physical = true) :
    ∃ d, c.cycle = (d, none) ∧ d.pc = c.delaySlot.getD (c.pc + 4) ∧ c.Accesses d physical i := by
  obtain ⟨memo, last, s, hframe⟩ := c.fetched_frame
  have hfetched := hc.fetched
  have hattempt := attempt_of_issued hi
  rw [hframe] at hfetched hattempt
  obtain ⟨d, hexecute, hpc, haccess⟩ :=
    execute_access hfetched hx ha haligned hresolve hram hphysical
  refine ⟨d, ?_, hpc, ?_⟩
  · rw [cycle, hattempt, hexecute]
    rfl
  · cases haccess with
    | load h ht => exact .load h ht
    | store h => exact .store h

/-! ### Runs of one cycle -/

theorem run_one (hdue : c.sampleInterrupts.interruptDue = false) :
    c.run 1 =
      (c.sampleInterrupts.cycle.1.settle (c.sampleInterrupts.cycle.2.getD .completed),
        c.sampleInterrupts.cycle.2.getD .completed) := by
  simp only [run, cycles, hdue, Bool.false_eq_true, if_false]
  generalize c.sampleInterrupts.cycle = r
  obtain ⟨d, stop⟩ := r
  cases stop <;> rfl

theorem run_one_exception {e : Exception} (h : (c.run 1).2 = .exception e)
    (he : e ≠ .externalInterrupt) :
    c.sampleInterrupts.cycle.2 = some (.exception e) ∧
      (c.run 1).1 = c.sampleInterrupts.cycle.1.settle (.exception e) := by
  cases hdue : c.sampleInterrupts.interruptDue with
  | true =>
    simp only [run, hdue, if_true, Outcome.exception.injEq] at h
    exact absurd h.symm he
  | false =>
    rw [run_one hdue] at h ⊢
    cases hstop : c.sampleInterrupts.cycle.2 with
    | none =>
      rw [hstop] at h
      cases h
    | some o =>
      rw [hstop] at h
      obtain rfl : o = .exception e := h
      exact ⟨rfl, rfl⟩

/-- What a fault outside of a delay slot leaves to its handler. -/
structure Missed (c d : Cpu) : Prop where
  registers : d.registers = c.registers
  bus : d.bus = c.bus
  immu_tlb : d.immu.tlb = c.immu.tlb
  pc : d.context.pc = c.pc
  supervision : d.context.supervision = c.sr
  address : d.context.address = c.faultAddress

theorem missed_of_run_one {e : Exception} (hslot : c.inDelaySlot = false)
    (h : (c.run 1).2 = .exception e) (he : e ∈ Exception.precise) :
    c.sampleInterrupts.cycle.2 = some (.exception e) ∧ c.sampleInterrupts.Missed (c.run 1).1 := by
  obtain ⟨hcycle, hrun⟩ := run_one_exception h (by rintro rfl; exact absurd he (by decide))
  obtain ⟨a, hfault, hraise⟩ := cycle_of_exception hcycle
  obtain ⟨memo, last, m, s, -, ha, hframe⟩ := attempt_frame hfault he
  have hslot' : ¬c.sampleInterrupts.inDelaySlot = true := ne_true_of_eq_false hslot
  have haddress : e.hasAddress = true := Exception.hasAddress_of_precise e he
  refine ⟨hcycle, ?_⟩
  rw [hrun, hraise, hframe, ha]
  exact ⟨rfl, rfl, rfl, if_neg hslot', if_neg hslot', if_pos haddress⟩

/-- Whether the next run takes an interrupt before it has carried out an instruction. -/
def preempted (c : Cpu) : Bool :=
  c.sampleInterrupts.interruptDue || (c.ticked.timer.expired && Supervision.has c.sr .tee)

-- What is issued depends on the entries, the enable and the privilege, all of which the return from
-- the handler brings back.
theorem issued?_congr (hc : c.Coherent) (hr : r.Coherent) (hi : c.issued? = some i)
    (htick : (r.ticked.timer.expired && Supervision.has r.sr .tee) = false) (hpc : r.pc = c.pc)
    (hsr : r.sr = c.sr) (hbus : r.bus = c.bus) (htlb : r.immu.tlb = c.immu.tlb) :
    r.issued? = some i := by
  have hresolve : r.immu.resolve = c.immu.resolve := by
    apply Mmu.resolve_eq_of_table _ htlb
    rw [hr.immu_enabled, hc.immu_enabled, hsr]
  have hprivilege : r.privilege = c.privilege := congrArg Supervision.privilege hsr
  unfold issued? at hi ⊢
  rw [issue_fst hc] at hi
  rw [issue_fst hr, htick, hpc, hresolve, hprivilege, hbus]
  split at hi
  · cases hi
  · exact hi

/-! ### Handlers -/

/-- What the handler of a miss does: it writes the match and the translate register of the set that
the effective address picks, and returns. -/
def refill (c : Cpu) (side : Side) (frame : Word) : Cpu :=
  let a := c.context.address
  let set := (a >>> 13) % 64
  ((c.setSpr (Spr.address side.group (512 + set)) ((a &&& 0xffffe000) ||| 1)).setSpr
    (Spr.address side.group (640 + set)) frame).returnFromException

theorem ofAddress_set (side : Side) {base : Word} (h : base.toNat ≤ 640) (a : Word) :
    Spr.ofAddress (Spr.address side.group (base + (a >>> 13) % 64)) =
      .mmu side (base.toNat + Tlb.setAt a) := by
  have hset : ((a >>> 13) % 64).toNat = Tlb.setAt a := BitVec.toNat_umod
  have hindex : (base + (a >>> 13) % 64).toNat = base.toNat + Tlb.setAt a := by
    rw [BitVec.toNat_add, hset]
    exact Nat.mod_eq_of_lt (by omega)
  rw [Spr.ofAddress_address side (by omega), hindex]

theorem refill_data (c : Cpu) (frame : Word) :
    c.refill .data frame =
      { c with
        dmmu := c.dmmu.enter c.context.address frame
        fetchMemo := none }.returnFromException := by
  dsimp only [refill, setSpr]
  rw [ofAddress_set .data (by decide), ofAddress_set .data (by decide), ← Mmu.writeAt_enter]
  rfl

theorem refill_instruction (c : Cpu) (frame : Word) :
    c.refill .instruction frame =
      { c with
        immu := c.immu.enter c.context.address frame
        fetchMemo := none }.returnFromException := by
  dsimp only [refill, setSpr]
  rw [ofAddress_set .instruction (by decide), ofAddress_set .instruction (by decide),
    ← Mmu.writeAt_enter]
  rfl

/-- What a handler returns to: the machine as it was at the beginning of the cycle of the miss. -/
structure Returned (c r : Cpu) : Prop where
  coherent : r.Coherent
  registers : r.registers = c.registers
  bus : r.bus = c.bus
  pc : r.pc = c.pc
  sr : r.sr = c.sr
  delaySlot : r.delaySlot = none

theorem Missed.returned (h : c.Missed d) (side : Side) (frame : Word) :
    c.Returned (d.refill side frame) := by
  cases side with
  | data =>
    rw [refill_data]
    exact ⟨.returnFromException _, h.registers, h.bus, h.pc, h.supervision, rfl⟩
  | instruction =>
    rw [refill_instruction]
    exact ⟨.returnFromException _, h.registers, h.bus, h.pc, h.supervision, rfl⟩

/-! ### Retries -/

theorem not_preempted (h : r.preempted = false) :
    r.sampleInterrupts.interruptDue = false ∧
      (r.sampleInterrupts.ticked.timer.expired && Supervision.has r.sampleInterrupts.sr .tee) =
        false :=
  Bool.or_eq_false_iff.mp h

theorem accessAddress?_congr (h : r.registers = c.registers) (i : Instruction) :
    r.accessAddress? i = c.accessAddress? i := by
  cases i with
  | load | store => simp only [accessAddress?, displaced, reg, h]
  | _ => rfl

theorem Returned.issued? (h : c.Returned r) (hc : c.Coherent) (hi : c.issued? = some i)
    (himmu : r.immu.tlb = c.immu.tlb) (hpreempted : r.preempted = false) :
    r.sampleInterrupts.issued? = some i :=
  issued?_congr hc h.coherent.sampleInterrupts hi (not_preempted hpreempted).2 h.pc h.sr h.bus himmu

theorem Returned.run_one {t : Tlb} (h : c.Returned r) (hc : c.Coherent)
    (hi : r.sampleInterrupts.issued? = some i) (hx : i.access? = some (w, x))
    (ha : c.accessAddress? i = some a) (haligned : Mmu.aligned w a = true)
    (hon : c.dmmu.enabled = true) (ht : r.dmmu.tlb = t.enter a frame)
    (hright : frame &&& Side.permission .data (Supervision.privilege c.sr) x ≠ 0)
    (hram : Bus.isRam frame = true) (hpreempted : r.preempted = false) :
    ∃ d, r.run 1 = (d, .completed) ∧ d.pc = c.pc + 4 ∧
      r.Accesses d (frame.page.address a.pageOffset) i := by
  have hon' : r.dmmu.enabled = true := by
    rw [h.coherent.dmmu_enabled, h.sr, ← hc.dmmu_enabled, hon]
  have hresolve : r.dmmu.resolve a r.privilege x = .ok (frame.page.address a.pageOffset) := by
    rw [privilege, h.sr]
    exact Mmu.resolve_of_enter hon' ht hright
  have ha' : r.sampleInterrupts.accessAddress? i = some a :=
    (accessAddress?_congr h.registers i).trans ha
  have hram' : Bus.isRam (frame.page.address a.pageOffset) = true := by
    rw [Bus.isRam_address, hram]
  have haligned' : Mmu.aligned w (frame.page.address a.pageOffset) = true := by
    rw [Mmu.aligned_address, haligned]
  obtain ⟨d, hcycle, hpc, haccess⟩ :=
    cycle_of_access h.coherent.sampleInterrupts hi hx ha' haligned hresolve hram' haligned'
  refine ⟨d.settle .completed, ?_, ?_, ?_⟩
  · rw [Cpu.run_one (not_preempted hpreempted).1, hcycle]
    rfl
  · have hnext : d.pc = r.delaySlot.getD (r.pc + 4) := hpc
    rw [h.delaySlot, h.pc] at hnext
    exact hnext
  · cases haccess with
    | load hload ht => exact .load hload ht
    | store hstore => exact .store hstore

theorem Returned.issue {t : Tlb} (h : c.Returned r) (hc : c.Coherent)
    (haligned : Mmu.aligned .word c.pc = true) (hon : c.immu.enabled = true)
    (ht : r.immu.tlb = t.enter c.pc frame) (hright : frame &&& 0x0c0 ≠ 0)
    (hram : Bus.isRam frame = true) (hpreempted : r.preempted = false) :
    ∃ word, r.bus.ram.load .word (frame.page.address c.pc.pageOffset) = .ok word ∧
      r.sampleInterrupts.issue.1 = .ok word := by
  have hon' : r.immu.enabled = true := by
    rw [h.coherent.immu_enabled, h.sr, ← hc.immu_enabled, hon]
  have hresolve : r.immu.resolve c.pc r.privilege .fetch =
      .ok (frame.page.address c.pc.pageOffset) := Mmu.resolve_of_enter hon' ht hright
  have hram' : Bus.isRam (frame.page.address c.pc.pageOffset) = true := by
    rw [Bus.isRam_address, hram]
  have haligned' : Mmu.aligned .word (frame.page.address c.pc.pageOffset) = true := by
    rw [Mmu.aligned_address, haligned]
  obtain ⟨word, hword, hload⟩ := r.bus.load_ok hram' haligned'
  refine ⟨word, hword, ?_⟩
  rw [issue_fst h.coherent.sampleInterrupts, (not_preempted hpreempted).2]
  have hpc : r.sampleInterrupts.pc = c.pc := h.pc
  rw [hpc, if_neg Bool.false_ne_true, if_pos haligned]
  change (r.immu.resolve c.pc r.privilege .fetch).bind _ = _
  rw [hresolve]
  exact congrArg (Except.map Prod.fst) hload

theorem retry_of_dataMiss (hc : c.Coherent) (hslot : c.inDelaySlot = false)
    (h : (c.run 1).2 = .exception .dataTlbMiss) (hram : Bus.isRam frame = true) :
    let d := (c.run 1).1
    ∃ i w x, c.sampleInterrupts.issued? = some i ∧ i.access? = some (w, x) ∧
      c.accessAddress? i = some d.context.address ∧
      (frame &&& Side.permission .data (Supervision.privilege d.context.supervision) x ≠ 0 →
        let r := d.refill .data frame
        r.preempted = false →
        r.sampleInterrupts.issued? = some i ∧
        ∃ e, r.run 1 = (e, .completed) ∧ e.pc = c.pc + 4 ∧
          r.Accesses e (frame.page.address d.context.address.pageOffset) i) := by
  intro d
  obtain ⟨hcycle, hmissed⟩ := missed_of_run_one hslot h (by decide)
  obtain ⟨i, w, x, a, hi, hx, ha, haligned, hon⟩ := access_of_miss hc.sampleInterrupts hcycle
  have haddress : d.context.address = a := by
    rw [hmissed.address, faultAddress, hi, Option.bind_some, ha, Option.getD_some]
  have hsr : d.context.supervision = c.sr := hmissed.supervision
  rw [haddress, hsr]
  refine ⟨i, w, x, hi, hx, ha, ?_⟩
  intro hright r hpreempted
  have hrefill : r = _ := d.refill_data frame
  have himmu : r.immu.tlb = c.immu.tlb := by
    rw [hrefill]
    exact hmissed.immu_tlb
  have hdmmu : r.dmmu.tlb = d.dmmu.tlb.enter a frame := by
    rw [hrefill, ← haddress]
    rfl
  have hreturned : c.sampleInterrupts.Returned r := hmissed.returned .data frame
  have hissued := hreturned.issued? hc.sampleInterrupts hi himmu hpreempted
  exact ⟨hissued, hreturned.run_one hc.sampleInterrupts hissued hx ha haligned hon hdmmu hright
    hram hpreempted⟩

theorem retry_of_fetchMiss (hc : c.Coherent) (hslot : c.inDelaySlot = false)
    (h : (c.run 1).2 = .exception .instructionTlbMiss) (hram : Bus.isRam frame = true) :
    let d := (c.run 1).1
    d.context.address = c.pc ∧
      (frame &&& 0x0c0 ≠ 0 →
        let r := d.refill .instruction frame
        r.preempted = false →
        ∃ word, r.bus.ram.load .word (frame.page.address d.context.address.pageOffset) = .ok word ∧
          r.sampleInterrupts.issue.1 = .ok word) := by
  intro d
  obtain ⟨hcycle, hmissed⟩ := missed_of_run_one hslot h (by decide)
  obtain ⟨hnone, haligned, hon⟩ := fetch_of_miss hc.sampleInterrupts hcycle
  have haddress : d.context.address = c.pc := by
    rw [hmissed.address, faultAddress, hnone]
    rfl
  rw [haddress]
  refine ⟨rfl, ?_⟩
  intro hright r hpreempted
  have himmu : r.immu.tlb = d.immu.tlb.enter c.pc frame := by
    rw [show r = _ from d.refill_instruction frame, ← haddress]
    rfl
  have hreturned : c.sampleInterrupts.Returned r := hmissed.returned .instruction frame
  exact hreturned.issue hc.sampleInterrupts haligned hon himmu hright hram hpreempted

end Cpu

/-- A miss can be served by its handler. Outside of a delay slot it reports the address of the
access, or that of the fetch. Once the handler has given the page of that address a frame of memory
with the right, and has returned, the same instruction is issued again and completes, with its
access at the new frame; or the word at the new frame is fetched. -/
theorem Session.refill_retries (as : List Action) (frame : Word) :
    let c := ((Session.start .initial).performAll .real as).now
    let d := (c.run 1).1
    c.inDelaySlot = false →
    Bus.isRam (frame &&& 0xffffe000) = true →
    ((c.run 1).2 = .exception .dataTlbMiss →
      ∃ i w x, c.sampleInterrupts.issued? = some i ∧ i.access? = some (w, x) ∧
        c.accessAddress? i = some d.context.address ∧
        (frame &&& Side.permission .data (Supervision.privilege d.context.supervision) x ≠ 0 →
          let r := d.refill .data frame
          r.preempted = false →
          r.sampleInterrupts.issued? = some i ∧
          ∃ e, r.run 1 = (e, .completed) ∧ e.pc = c.pc + 4 ∧
            r.Accesses e ((frame &&& 0xffffe000) ||| (d.context.address &&& 0x1fff)) i)) ∧
    ((c.run 1).2 = .exception .instructionTlbMiss →
      d.context.address = c.pc ∧
      (frame &&& 0x0c0 ≠ 0 →
        let r := d.refill .instruction frame
        r.preempted = false →
        ∃ word,
          r.bus.ram.load .word ((frame &&& 0xffffe000) ||| (d.context.address &&& 0x1fff)) =
            .ok word ∧
          r.sampleInterrupts.issue.1 = .ok word)) := by
  intro c d hslot hframe
  have hrecorded : Recorded (fun _ => True) .initial _ c :=
    Recorded.performAll (s := Session.start .initial) .start fun _ _ => trivial
  have hc := hrecorded.coherent (.reset _)
  have hram : Bus.isRam frame = true := by
    rw [← hframe, Word.and_pageMask]
    exact (Bus.isRam_address frame 0).symm
  rw [Word.masks_eq_address]
  exact ⟨fun h => Cpu.retry_of_dataMiss hc hslot h hram,
    fun h => Cpu.retry_of_fetchMiss hc hslot h hram⟩

/-- Puts a store into memory, and into the frame that its page is to have, with paging on. -/
def missing (sr : Word) : List Action :=
  [0x0004, 0x6004].map (fun a => .call (.poke .word a (Instruction.store .sw 0 5 0x200c).encode)) ++
    [.call (.setPc 0x0004), .call (.setSr sr)]

/-- A user's store misses, and completes behind the handler; a fetch misses, and finds its word. -/
theorem Session.refill_retries_store_and_fetch :
    (let c := ((Session.start .initial).performAll .real (missing 0x8020)).now
      let r := (c.run 1).1.refill .data 0x6080
      (c.run 1).2 = .exception .dataTlbMiss ∧
      ∃ e, r.run 1 = (e, .completed) ∧ e.pc = 0x0008 ∧
        r.Accesses e 0x600c (.store .sw 0 5 0x200c)) ∧
    (let c := ((Session.start .initial).performAll .real (missing 0x8041)).now
      let r := (c.run 1).1.refill .instruction 0x60c0
      (c.run 1).2 = .exception .instructionTlbMiss ∧
      r.bus.ram.load .word 0x6004 = r.sampleInterrupts.issue.1) := by
  constructor
  · have h := Session.refill_retries (missing 0x8020) 0x6080
    have hfacts :
        let c := ((Session.start .initial).performAll .real (missing 0x8020)).now
        let d := (c.run 1).1
        c.inDelaySlot = false ∧ (c.run 1).2 = .exception .dataTlbMiss ∧
          c.sampleInterrupts.issued? = some (.store .sw 0 5 0x200c) ∧ c.pc = 0x0004 ∧
          d.context.address = 0x200c ∧ Supervision.privilege d.context.supervision = .user ∧
          (d.refill .data 0x6080).preempted = false := by
      decide +kernel
    generalize ((Session.start .initial).performAll .real (missing 0x8020)).now = c at h hfacts ⊢
    dsimp only at h hfacts ⊢
    obtain ⟨hslot, hmiss, hstore, hpc, haddress, hprivilege, hpreempted⟩ := hfacts
    obtain ⟨i, w, x, hi, hx, -, hretry⟩ := (h hslot (by decide)).1 hmiss
    obtain rfl : Instruction.store .sw 0 5 0x200c = i := Option.some.inj (hstore.symm.trans hi)
    cases hx
    rw [hprivilege, hpc, haddress] at hretry
    obtain ⟨-, e, hrun, he, haccess⟩ := hretry (by decide) hpreempted
    exact ⟨hmiss, e, hrun, he, haccess⟩
  · have h := Session.refill_retries (missing 0x8041) 0x60c0
    have hfacts :
        let c := ((Session.start .initial).performAll .real (missing 0x8041)).now
        let d := (c.run 1).1
        c.inDelaySlot = false ∧ (c.run 1).2 = .exception .instructionTlbMiss ∧ c.pc = 0x0004 ∧
          (d.refill .instruction 0x60c0).preempted = false := by
      decide +kernel
    generalize ((Session.start .initial).performAll .real (missing 0x8041)).now = c at h hfacts ⊢
    dsimp only at h hfacts ⊢
    obtain ⟨hslot, hmiss, hpc, hpreempted⟩ := hfacts
    obtain ⟨haddress, hretry⟩ := (h hslot (by decide)).2 hmiss
    rw [haddress, hpc] at hretry
    obtain ⟨word, hword, hissue⟩ := hretry (by decide) hpreempted
    exact ⟨hmiss, hword.trans hissue.symm⟩

end Orbis
