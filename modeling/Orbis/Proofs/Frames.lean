import Orbis.Proofs.ExceptionTurns
import Orbis.Proofs.FlatMemory
import Orbis.Proofs.Refill

/-!
# Frames of instructions

Which parts of the machine an instruction may change. Each part has a set of instructions that may
touch it, read off their operands, and every other instruction leaves it as it was. This is shown
for the effects of instructions, part by part. A cycle adds its tick, which comes before.
-/

namespace Orbis

namespace Instruction

/-- The register that an instruction may change. -/
def destination? : Instruction → Option Reg
  | movhi d _ | load _ d _ _ | addi d _ _ | andi d _ _ | ori d _ _ | xori d _ _ | mfspr d _ _ |
    shiftImm _ d _ _ | alu _ d _ _ => some d
  | jal _ | jalr _ => some .link
  | _ => none

theorem destination?_of_result? {i : Instruction} {d : Reg} (h : i.result? = some d) :
    i.destination? = some d := by
  cases i <;> first | exact h | cases h

theorem destination?_of_links {i : Instruction} (h : i.links = true) :
    i.destination? = some .link := by
  cases i <;> first | rfl | cases h

end Instruction

namespace Tlb

/-- The index of a register of the table. -/
def Slot.index : Slot → Nat
  | tag set => tagBase + set
  | frame set => frameBase + set

theorem index_of_slot? {i : Nat} {s : Slot} (h : slot? i = some s) : s.index = i := by
  unfold slot? at h
  split at h
  · next hin =>
    cases h
    exact Nat.add_sub_of_le hin.1
  · split at h
    · next hin =>
      cases h
      exact Nat.add_sub_of_le hin.1
    · cases h

theorem read_write_of_ne (t : Tlb) {s s' : Slot} (h : s' ≠ s) (v : Word) :
    (t.write s v).read s' = t.read s' := by
  cases s with
  | tag k =>
    cases s' with
    | tag k' =>
      have hk : (k : Nat) ≠ k' := fun hk => h (congrArg Slot.tag (Fin.ext hk.symm))
      exact Vector.getElem_set_ne k.isLt k'.isLt hk
    | frame k' => rfl
  | frame k =>
    cases s' with
    | tag k' => rfl
    | frame k' =>
      have hk : (k : Nat) ≠ k' := fun hk => h (congrArg Slot.frame (Fin.ext hk.symm))
      exact Vector.getElem_set_ne k.isLt k'.isLt hk

end Tlb

namespace Mmu

variable {side : Side}

def Register.index : Register → Nat
  | control => 0
  | entry s => s.index

theorem index_of_register? {i : Nat} {r : Register} (h : register? i = some r) : r.index = i := by
  unfold register? at h
  split at h
  · next hi =>
    cases h
    exact hi.symm
  · obtain ⟨s, hs, rfl⟩ := Option.map_eq_some_iff.mp h
    exact Tlb.index_of_slot? hs

theorem read_write_of_ne (m : Mmu side) {r r' : Register} (h : r' ≠ r) (v : Word) :
    (m.write r v).read r' = m.read r' := by
  cases r with
  | control =>
    cases r' with
    | control => exact absurd rfl h
    | entry s' => rfl
  | entry s =>
    cases r' with
    | control => rfl
    | entry s' => exact m.tlb.read_write_of_ne (fun hs => h (congrArg _ hs)) v

theorem readAt_writeAt_of_ne (m : Mmu side) {i j : Nat} (h : j ≠ i) (v : Word) :
    (m.writeAt i v).readAt j = m.readAt j := by
  unfold writeAt readAt
  cases hi : register? i with
  | none => rfl
  | some r =>
    cases hj : register? j with
    | none => rfl
    | some r' =>
      refine m.forget.read_write_of_ne (fun hr => h ?_) v
      rw [← index_of_register? hi, ← index_of_register? hj, hr]

theorem readAt_of_bare {m n : Mmu side} (h : n.bare = m.bare) : n.readAt = m.readAt := by
  change n.bare.readAt = m.bare.readAt
  rw [h]

end Mmu

namespace Bus

variable {b b' : Bus} {w : Width} {a v : Word}

theorem uart_load (h : b.load w a = .ok (v, b')) :
    b'.uart = b.uart ∨ (w = .byte ∧ ∃ offset, route? a = some (.uart, offset)) := by
  unfold load at h
  split at h
  · next offset _ =>
    cases hl : b.ram.load w offset <;> rw [hl] at h <;> cases h
    exact .inl rfl
  · next offset hroute =>
    cases w with
    | byte => exact .inr ⟨rfl, offset, hroute⟩
    | half | word => cases h
  · cases h

theorem uart_store (h : b.store w a v = .ok b') :
    b'.uart = b.uart ∨ (w = .byte ∧ ∃ offset, route? a = some (.uart, offset)) := by
  unfold store at h
  split at h
  · next offset _ =>
    cases hs : b.ram.store w offset v <;> rw [hs] at h <;> cases h
    exact .inl rfl
  · next offset hroute =>
    cases w with
    | byte => exact .inr ⟨rfl, offset, hroute⟩
    | half | word => cases h
  · cases h

end Bus

namespace Supervision

theorem getLsbD_put_of_ne (sr : Word) {b : Bit} {k : Nat} (h : k ≠ b.position) (on : Bool) :
    (put sr b on).getLsbD k = sr.getLsbD k := by
  have hmask : b.mask.getLsbD k = false := by
    rw [Bit.mask, BitVec.getLsbD_twoPow]
    simp [h.symm]
  cases on with
  | true =>
    change (sr ||| b.mask).getLsbD k = _
    rw [BitVec.getLsbD_or, hmask, Bool.or_false]
  | false =>
    change (sr &&& ~~~b.mask).getLsbD k = _
    by_cases hk : k < 32
    · rw [BitVec.getLsbD_and, BitVec.getLsbD_not, hmask, decide_eq_true hk]
      simp
    · rw [BitVec.getLsbD_of_ge _ _ (Nat.le_of_not_lt hk),
        BitVec.getLsbD_of_ge _ _ (Nat.le_of_not_lt hk)]

end Supervision

namespace Cpu

variable {c d : Cpu} {i : Instruction} {f : Flow} {r : Spr}

/-- Whether an instruction writes a special register. -/
def Writes (c : Cpu) (i : Instruction) (r : Spr) : Prop :=
  ∃ a b k, i = .mtspr a b k ∧ .ofAddress (c.sprAddress a k) = r

/-- Whether an instruction stores to a byte of memory. -/
def StoresTo (c : Cpu) (i : Instruction) (j : Nat) : Prop :=
  ∃ op a b k physical, i = .store op a b k ∧
    c.dmmu.resolve (c.displaced a k) c.privilege .write = .ok physical ∧
    physical.toNat ≤ j ∧ j < physical.toNat + op.width.size

/-- Whether an instruction loads or stores a byte at the serial line. -/
def ReachesUart (c : Cpu) (i : Instruction) : Prop :=
  ∃ x a physical offset, i.access? = some (.byte, x) ∧ c.accessAddress? i = some a ∧
    c.dmmu.resolve a c.privilege x = .ok physical ∧ Bus.route? physical = some (.uart, offset)

/-! ### Special registers -/

theorem readSpr_writeSpr_of_ne (c : Cpu) {r s : Spr} (h : s ≠ r) (v : Word) :
    (c.writeSpr r v).readSpr s = c.readSpr s := by
  cases s with
  | mmu side j =>
    cases r with
    | mmu side' i =>
      cases side <;> cases side'
      · exact c.immu.readAt_writeAt_of_ne (fun hj => h (by rw [hj])) v
      · rfl
      · rfl
      · exact c.dmmu.readAt_writeAt_of_ne (fun hj => h (by rw [hj])) v
    | _ => cases side <;> rfl
  | _ =>
    cases r with
    | mmu side i => cases side <;> rfl
    | _ => first | rfl | exact absurd rfl h

/-- The special registers are these parts of a machine. -/
theorem readSpr_congr (hcontext : d.context = c.context)
    (hinterrupts : d.interrupts = c.interrupts) (htimer : d.timer = c.timer)
    (himmu : d.immu.readAt = c.immu.readAt) (hdmmu : d.dmmu.readAt = c.dmmu.readAt)
    (hr : r ≠ .supervision) : d.readSpr r = c.readSpr r := by
  cases r with
  | supervision => exact absurd rfl hr
  | mmu side i => cases side <;> simp only [readSpr, himmu, hdmmu]
  | savedPc | savedAddress | savedSupervision => simp only [readSpr, hcontext]
  | interruptMask | interruptStatus => simp only [readSpr, hinterrupts]
  | timerMode | timerCount => simp only [readSpr, htimer]
  | identification | cacheInvalidate | unknown => rfl

theorem reg_setSpr (c : Cpu) (a v : Word) (t : Reg) : (c.setSpr a v).reg t = c.reg t := by
  obtain ⟨_, _, _, _, _, _, _, hframe⟩ := c.writeSpr_frame (.ofAddress a) v
  rw [setSpr, hframe]
  rfl

theorem modes_writeSpr (c : Cpu) (hr : r ≠ .supervision) (v : Word) :
    (c.writeSpr r v).sr = c.sr ∧ (c.writeSpr r v).immu.enabled = c.immu.enabled ∧
      (c.writeSpr r v).dmmu.enabled = c.dmmu.enabled := by
  cases r with
  | supervision => exact absurd rfl hr
  | mmu side i =>
    cases side with
    | instruction => exact ⟨rfl, Coherent.writeAt_enabled c.immu i v, rfl⟩
    | data => exact ⟨rfl, rfl, Coherent.writeAt_enabled c.dmmu i v⟩
  | _ => exact ⟨rfl, rfl, rfl⟩

/-! ### What an instruction leaves alone -/

namespace Effect

theorem reg_eq (h : c.Effect i d f) {t : Reg} (ht : i.destination? ≠ some t) :
    d.reg t = c.reg t := by
  have hne {s : Reg} (hs : i.destination? = some s) : s ≠ t := fun heq => ht (heq ▸ hs)
  cases h with
  | @compute _ s v h =>
    have hs := hne (Instruction.destination?_of_result? h)
    exact (c.registers.read_write s t v).trans (if_neg hs)
  | @load _ s _ _ v b m h => exact (c.registers.read_write s t _).trans (if_neg (hne rfl))
  | transfer h =>
    split
    · next hlinks =>
      exact (c.registers.read_write .link t _).trans
        (if_neg (hne (Instruction.destination?_of_links hlinks)))
    · rfl
  | mtspr | mtsprTick => exact c.reg_setSpr _ _ t
  | _ => rfl

theorem sr_eq (h : c.Effect i d f) (hi : i ≠ .rfe) (hw : ¬c.Writes i .supervision) {k : Nat}
    (hk : i.compares = true → k ≠ Supervision.Bit.f.position) :
    d.sr.getLsbD k = c.sr.getLsbD k := by
  cases h with
  | compare on h => exact Supervision.getLsbD_put_of_ne c.sr (hk h) on
  | transfer => split <;> rfl
  | rfe => exact absurd rfl hi
  | @mtspr a b n | @mtsprTick a b n =>
    have hsr := (c.modes_writeSpr (fun hr => hw ⟨a, b, n, rfl, hr⟩) (c.reg b)).1
    exact congrArg (BitVec.getLsbD · k) hsr
  | _ => rfl

theorem enabled_eq (h : c.Effect i d f) (hi : i ≠ .rfe) (hw : ¬c.Writes i .supervision) :
    d.immu.enabled = c.immu.enabled ∧ d.dmmu.enabled = c.dmmu.enabled := by
  cases h with
  | transfer => split <;> exact ⟨rfl, rfl⟩
  | rfe => exact absurd rfl hi
  | @mtspr a b n | @mtsprTick a b n =>
    exact (c.modes_writeSpr (fun hr => hw ⟨a, b, n, rfl, hr⟩) (c.reg b)).2
  | load h | loadFault h => exact ⟨rfl, Mmu.enabled_eq_of_bare (Mmu.bare_of_load h)⟩
  | store h | storeFault h => exact ⟨rfl, Mmu.enabled_eq_of_bare (Mmu.bare_of_store h)⟩
  | _ => exact ⟨rfl, rfl⟩

theorem readSpr_eq (h : c.Effect i d f) (hr : r ≠ .supervision) (hw : ¬c.Writes i r) :
    d.readSpr r = c.readSpr r := by
  cases h with
  | transfer => split <;> exact readSpr_congr rfl rfl rfl rfl rfl hr
  | @mtspr a b n | @mtsprTick a b n =>
    exact c.readSpr_writeSpr_of_ne (fun heq => hw ⟨a, b, n, rfl, heq.symm⟩) (c.reg b)
  | load h | loadFault h =>
    exact readSpr_congr rfl rfl rfl rfl (Mmu.readAt_of_bare (Mmu.bare_of_load h)) hr
  | store h | storeFault h =>
    exact readSpr_congr rfl rfl rfl rfl (Mmu.readAt_of_bare (Mmu.bare_of_store h)) hr
  | _ => exact readSpr_congr rfl rfl rfl rfl rfl hr

theorem byte_eq (h : c.Effect i d f) {j : Nat} (hj : j < Bus.ramSize) (hs : ¬c.StoresTo i j) :
    d.bus.ram.byte j = c.bus.ram.byte j := by
  cases h with
  | @store op x y n b m h =>
    obtain ⟨physical, hresolve, hstore⟩ := Mmu.exists_store h
    by_cases hout : j < physical.toNat ∨ physical.toNat + op.width.size ≤ j
    · exact Bus.byte_store hstore hj hout
    · exact absurd ⟨op, x, y, n, physical, rfl, hresolve, by omega, by omega⟩ hs
  | load h =>
    obtain ⟨physical, -, hload⟩ := Mmu.exists_load h
    exact congrArg (Ram.byte · j) (Bus.ram_load hload)
  | transfer => split <;> rfl
  | mtspr | mtsprTick => exact congrArg (·.ram.byte j) (c.bus_writeSpr _ _)
  | _ => rfl

theorem uart_eq (h : c.Effect i d f) (hs : ¬c.ReachesUart i) : d.bus.uart = c.bus.uart := by
  cases h with
  | store h =>
    obtain ⟨physical, hresolve, hstore⟩ := Mmu.exists_store h
    refine (Bus.uart_store hstore).resolve_right fun ⟨hw, offset, hroute⟩ => hs ?_
    exact ⟨.write, _, physical, offset, by rw [Instruction.access?, hw], rfl, hresolve, hroute⟩
  | load h =>
    obtain ⟨physical, hlocate, hload⟩ := Mmu.exists_load h
    refine (Bus.uart_load hload).resolve_right fun ⟨hw, offset, hroute⟩ => hs ?_
    rw [c.dmmu.locate_fst_of_ne_word (by rw [hw]; nofun)] at hlocate
    exact ⟨.read, _, physical, offset, by rw [Instruction.access?, hw], rfl, hlocate, hroute⟩
  | transfer => split <;> rfl
  | mtspr | mtsprTick => exact congrArg Bus.uart (c.bus_writeSpr _ _)
  | _ => rfl

end Effect

/-- What an instruction may change of a machine at most: its destination; the special register that
it writes; the flag, if it compares; the bytes of memory that it stores to; the serial line, if it
loads or stores a byte there. A return from an exception also restores the supervision register. -/
structure Framed (c : Cpu) (i : Instruction) (d : Cpu) : Prop where
  reg (t : Reg) (ht : i.destination? ≠ some t) : d.reg t = c.reg t
  sr (hi : i ≠ .rfe) (hw : ¬c.Writes i .supervision) (k : Nat)
    (hk : i.compares = true → k ≠ Supervision.Bit.f.position) :
    d.sr.getLsbD k = c.sr.getLsbD k
  special (r : Spr) (hr : r ≠ .supervision) (hw : ¬c.Writes i r) : d.readSpr r = c.readSpr r
  enabled (hi : i ≠ .rfe) (hw : ¬c.Writes i .supervision) :
    d.immu.enabled = c.immu.enabled ∧ d.dmmu.enabled = c.dmmu.enabled
  ram (j : Nat) (hj : j < Bus.ramSize) (hs : ¬c.StoresTo i j) :
    d.bus.ram.byte j = c.bus.ram.byte j
  uart (hs : ¬c.ReachesUart i) : d.bus.uart = c.bus.uart

theorem Effect.framed (h : c.Effect i d f) : c.Framed i d :=
  ⟨fun _ => h.reg_eq, fun hi hw _ => h.sr_eq hi hw, fun _ => h.readSpr_eq, h.enabled_eq,
    fun _ => h.byte_eq, h.uart_eq⟩

/-- Fetching comes before, and no part of this depends on memos and counters. -/
theorem Framed.of_fetched (h : c.fetched.Framed i d) : c.ticked.Framed i d := by
  obtain ⟨memo, last, s, hframe⟩ := c.fetched_frame
  rw [hframe] at h
  refine ⟨h.reg, h.sr, fun r hr hw => ?_, h.enabled, h.ram, h.uart⟩
  rw [h.special r hr hw]
  exact readSpr_congr rfl rfl rfl rfl rfl hr

/-- A cycle whose instruction does not fault changes nothing but what that instruction may change,
save for its tick. -/
theorem cycle_framed (h : c.issued? = some i) (hc : ∀ e, c.cycle.2 ≠ some (.exception e)) :
    c.ticked.Framed i c.cycle.1 := by
  have heffect := c.fetched.execute_effect i
  rw [← attempt_of_issued h] at heffect
  have hcycle : c.cycle.1 = c.attempt.1 := (follow_of_no_exception hc).2
  rw [hcycle]
  exact heffect.framed.of_fetched

/-- A word is stored, and its last byte changes. -/
theorem cycle_framed_store :
    let i : Instruction := .store .sw 0 2 0x40
    let c := (holding [(0, i)]).setReg 2 0x11223344
    c.issued? = some i ∧ c.cycle.1.bus.ram.byte 0x43 ≠ c.bus.ram.byte 0x43 ∧
      c.ticked.Framed i c.cycle.1 := by
  intro i c
  have hissued : c.issued? = some i := by decide +kernel
  have hnone : c.cycle.2 = none := by decide +kernel
  refine ⟨hissued, by decide +kernel, cycle_framed hissued fun e he => ?_⟩
  cases hnone.symm.trans he

end Cpu

end Orbis
