import Orbis.Proofs.Frames

/-!
# The special registers as a store

Which pairs of a group and an index select a register that keeps what is written to it, and that
these registers are a store: a write is read back at its own pair, changes nothing at any other, and
has no further effect when it is repeated. Every register that is known is at one pair only.
-/

namespace Orbis

namespace Spr

/-- Whether the register at an index of a group keeps what is written to it. -/
def Writable (group index : Nat) : Prop :=
  (group = 0 ∧ (index = 17 ∨ index = 32 ∨ index = 48 ∨ index = 64)) ∨
    ((group = 1 ∨ group = 2) ∧ (index = 0 ∨ (512 ≤ index ∧ index < 768))) ∨
    (group = 9 ∧ (index = 0 ∨ index = 2)) ∨
    (group = 10 ∧ (index = 0 ∨ index = 1))

instance (group index : Nat) : Decidable (Writable group index) :=
  inferInstanceAs (Decidable (_ ∨ _))

/-- The group and the index at which a register is found. -/
def place? : Spr → Option (Nat × Nat)
  | identification i _ => some (0, i)
  | supervision => some (0, 17)
  | savedPc => some (0, 32)
  | savedAddress => some (0, 48)
  | savedSupervision => some (0, 64)
  | mmu .data i => some (1, i)
  | mmu .instruction i => some (2, i)
  | cacheInvalidate => some (4, 2)
  | interruptMask => some (9, 0)
  | interruptStatus => some (9, 2)
  | timerMode => some (10, 0)
  | timerCount => some (10, 1)
  | unknown => none

/-- Whether a register keeps what is written to it. -/
def keeps : Spr → Bool
  | identification _ _ | cacheInvalidate | unknown => false
  | mmu _ i => (Mmu.register? i).isSome
  | _ => true

end Spr

namespace Mmu

variable {side : Side}

theorem isSome_register?_iff (i : Nat) :
    (register? i).isSome = true ↔ i = 0 ∨ (512 ≤ i ∧ i < 768) := by
  unfold register? Tlb.slot?
  simp only [Tlb.tagBase, Tlb.frameBase]
  by_cases hzero : i = 0
  · simp [hzero]
  · by_cases htag : 512 ≤ i ∧ i - 512 < 128
    · simp [hzero, htag]
      omega
    · by_cases hframe : 640 ≤ i ∧ i - 640 < 128
      · simp [hzero, htag, hframe]
        omega
      · simp [hzero, htag, hframe]
        omega

end Mmu

namespace Spr

/-- The system group holds constants, four registers that are written, and nothing else. -/
theorem ofSystem_cases (i : Nat) :
    (ofSystem i = unknown ∧ ¬Writable 0 i) ∨
      ((ofSystem i).place? = some (0, i) ∧ ((ofSystem i).keeps = true ↔ Writable 0 i)) := by
  unfold ofSystem
  split
  case h_5 h17 h32 h48 h64 =>
    have hnot : ¬Writable 0 i := by simpa [Writable] using ⟨h17, h32, h48, h64⟩
    cases constant? i with
    | none => exact .inl ⟨rfl, hnot⟩
    | some v => exact .inr ⟨rfl, by simp [keeps, hnot]⟩
  all_goals exact .inr ⟨rfl, by decide⟩

/-- A register is found at the pair that selects it, and it keeps what is written to it if that pair
is writable. -/
theorem ofAddress_cases (a : Word) :
    (ofAddress a = unknown ∧ ¬Writable (group a) (index a)) ∨
      ((ofAddress a).place? = some (group a, index a) ∧
        ((ofAddress a).keeps = true ↔ Writable (group a) (index a))) := by
  unfold ofAddress
  generalize group a = g
  generalize index a = i
  split
  case h_1 => exact ofSystem_cases _
  case h_2 => exact .inr ⟨rfl, by simp [keeps, Writable, Mmu.isSome_register?_iff]⟩
  case h_3 => exact .inr ⟨rfl, by simp [keeps, Writable, Mmu.isSome_register?_iff]⟩
  case h_9 h0 h1 h2 _ h90 h92 h100 h101 =>
    -- All pairs of known registers are taken by the cases before.
    refine .inl ⟨rfl, ?_⟩
    rintro (⟨hg, -⟩ | ⟨hg | hg, -⟩ | ⟨hg, hi | hi⟩ | ⟨hg, hi | hi⟩)
    · exact h0 hg
    · exact h1 hg
    · exact h2 hg
    · exact h90 hg hi
    · exact h92 hg hi
    · exact h100 hg hi
    · exact h101 hg hi
  all_goals exact .inr ⟨rfl, by decide⟩

theorem place_inj {a b : Word} (h : ofAddress b = ofAddress a)
    (hkeeps : (ofAddress a).keeps = true) : group b = group a ∧ index b = index a := by
  have hplace (x : Word) (hx : ofAddress x = ofAddress a) :
      (ofAddress a).place? = some (group x, index x) := by
    rcases ofAddress_cases x with ⟨hunknown, -⟩ | ⟨hplace, -⟩
    · rw [← hx, hunknown] at hkeeps
      cases hkeeps
    · rw [← hx, hplace]
  have hpair := (hplace b h).symm.trans (hplace a rfl)
  simpa using hpair

theorem ofAddress_congr {a b : Word} (hgroup : group b = group a) (hindex : index b = index a) :
    ofAddress b = ofAddress a := by
  simp only [ofAddress, hgroup, hindex]

theorem keeps_iff_writable (a : Word) :
    (ofAddress a).keeps = true ↔ Writable (group a) (index a) := by
  rcases ofAddress_cases a with ⟨hunknown, hnot⟩ | ⟨-, hkeeps⟩
  · simp [hunknown, keeps, hnot]
  · exact hkeeps

end Spr

namespace Tlb

theorem read_write_self (t : Tlb) (s : Slot) (v : Word) : (t.write s v).read s = v := by
  cases s <;> simp [read, write]

theorem write_write (t : Tlb) (s : Slot) (v : Word) : (t.write s v).write s v = t.write s v := by
  cases s <;> simp [write]

end Tlb

namespace Mmu

variable {side : Side}

theorem readAt_writeAt_self (m : Mmu side) (i : Nat) (v : Word) :
    (m.writeAt i v).readAt i = if (register? i).isSome then v else m.readAt i := by
  unfold writeAt readAt
  cases register? i with
  | none => rfl
  | some r =>
    cases r with
    | control => rfl
    | entry s => exact m.tlb.read_write_self s v

theorem writeAt_writeAt (m : Mmu side) (i : Nat) (v : Word) :
    (m.writeAt i v).writeAt i v = m.writeAt i v := by
  unfold writeAt
  cases register? i with
  | none => rfl
  | some r =>
    cases r with
    | control => rfl
    | entry s => simp [forget, write, Tlb.write_write]

end Mmu

namespace Cpu

theorem readSpr_writeSpr_self (c : Cpu) (r : Spr) (v : Word) :
    (c.writeSpr r v).readSpr r = if r.keeps then v else c.readSpr r := by
  cases r with
  | mmu side i =>
    cases side with
    | instruction => exact c.immu.readAt_writeAt_self i v
    | data => exact c.dmmu.readAt_writeAt_self i v
  | _ => rfl

theorem writeSpr_writeSpr (c : Cpu) (r : Spr) (v : Word) :
    (c.writeSpr r v).writeSpr r v = c.writeSpr r v := by
  cases r with
  | mmu side i => cases side <;> simp [writeSpr, Mmu.writeAt_writeAt]
  | _ => rfl

theorem spr_setSpr (c : Cpu) (a b v : Word) :
    (c.setSpr a v).spr b =
      if (Spr.group b = Spr.group a ∧ Spr.index b = Spr.index a) ∧
          Spr.Writable (Spr.group a) (Spr.index a) then v
      else c.spr b := by
  unfold spr setSpr
  by_cases hsame : Spr.ofAddress b = Spr.ofAddress a
  · rw [hsame, readSpr_writeSpr_self]
    by_cases hkeeps : (Spr.ofAddress a).keeps = true
    · rw [if_pos hkeeps, if_pos ⟨Spr.place_inj hsame hkeeps, (Spr.keeps_iff_writable a).mp hkeeps⟩]
    · rw [if_neg hkeeps, if_neg fun h => hkeeps ((Spr.keeps_iff_writable a).mpr h.2)]
  · rw [c.readSpr_writeSpr_of_ne hsame,
      if_neg fun h => hsame (Spr.ofAddress_congr h.1.1 h.1.2)]

/-- The special registers are a store. A write is read back at its group and index if the register
there is writable, and is lost otherwise; at any other group or index the same is read as before.
Registers, program counter, delay slot and bus are left alone, and the same write once more changes
nothing at all. -/
theorem setSpr_stores (c : Cpu) (a v : Word) :
    (∀ b, (c.setSpr a v).spr b =
      if (Spr.group b = Spr.group a ∧ Spr.index b = Spr.index a) ∧
          Spr.Writable (Spr.group a) (Spr.index a) then v
      else c.spr b) ∧
    (c.setSpr a v).registers = c.registers ∧ (c.setSpr a v).pc = c.pc ∧
    (c.setSpr a v).delaySlot = c.delaySlot ∧ (c.setSpr a v).bus = c.bus ∧
    (c.setSpr a v).setSpr a v = c.setSpr a v := by
  refine ⟨fun b => c.spr_setSpr a b v, ?_, ?_, ?_, ?_, c.writeSpr_writeSpr _ v⟩
  all_goals
    obtain ⟨_, _, _, _, _, _, _, hframe⟩ := c.writeSpr_frame (.ofAddress a) v
    rw [setSpr, hframe]

end Cpu

end Orbis
