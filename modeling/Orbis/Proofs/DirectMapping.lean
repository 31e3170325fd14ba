import Orbis.Proofs.Frames

/-!
# The table as a map

The table of one side holds at most one page of each residue modulo 64. An entry for a page serves
all its addresses, drives out any other page of that residue, and leaves the rest of the map alone.
Registers of the upper sets have no part in it, and clearing the table empties the map.
-/

namespace Orbis

namespace Page

theorem shift_or_one (p : Page) : (p.setWidth 32 <<< 13) ||| 1 = p.address 1 := by
  have hshift : p.setWidth 32 <<< 13 = p ++ 0#13 := by
    have happend : (p ++ 0#13 : Word).toNat = p.toNat <<< 13 :=
      (BitVec.toNat_append p 0#13).trans (Nat.or_zero _)
    have hlt := p.isLt
    apply BitVec.eq_of_toNat_eq
    rw [happend, BitVec.toNat_shiftLeft, BitVec.toNat_setWidth]
    simp only [Nat.shiftLeft_eq]
    omega
  rw [hshift, show (1 : Word) = 0#19 ++ 1#13 from rfl, BitVec.or_append, BitVec.or_zero,
    BitVec.zero_or]
  rfl

end Page

namespace Tlb

/-- Writes the register at an index, to no effect where there is none. -/
def writeAt (t : Tlb) (index : Nat) (v : Word) : Tlb := (slot? index).elim t (t.write · v)

/-- The register at an index, if there is one. -/
def readAt? (t : Tlb) (index : Nat) : Option Word := (slot? index).map t.read

/-- The set that a register belongs to. -/
def Slot.set : Slot → Fin 128
  | tag set => set
  | frame set => set

end Tlb

namespace Mmu

variable {side : Side} (m : Mmu side) (index : Nat)

/-- The unit of a side writes its table so, and keeps its control word elsewhere. -/
theorem tlb_writeAt (v : Word) : (m.writeAt index v).tlb = m.tlb.writeAt index v := by
  unfold writeAt register? Tlb.writeAt
  by_cases hzero : index = 0
  · subst hzero
    rfl
  · rw [if_neg hzero]
    cases Tlb.slot? index <;> rfl

theorem readAt_eq_readAt? (h : index ≠ 0) : m.readAt index = (m.tlb.readAt? index).getD 0 := by
  unfold readAt register? Tlb.readAt?
  rw [if_neg h]
  cases Tlb.slot? index <;> rfl

end Mmu

namespace Tlb

theorem setOf_lt (p : Page) : (setOf p).val < 64 := Nat.mod_lt _ (by decide)

theorem setOf_eq_iff (p q : Page) : setOf p = setOf q ↔ p.toNat % 64 = q.toNat % 64 := Fin.ext_iff

theorem lookup_write_of_ne (t : Tlb) {s : Slot} {a : Word} (h : setOf a.page ≠ s.set) (v : Word) :
    (t.write s v).lookup a = t.lookup a := by
  have hread (s' : Slot) (hset : s'.set = setOf a.page) : (t.write s v).read s' = t.read s' := by
    apply t.read_write_of_ne
    rintro rfl
    exact h hset.symm
  simp only [lookup, hread (.tag (setOf a.page)) rfl, hread (.frame (setOf a.page)) rfl]

/-- What the two registers of a set hold is the entry of every page that picks it. -/
theorem lookup_of_set (t : Tlb) (set : Fin 128) (tag frame : Word) {a : Word}
    (h : setOf a.page = set) :
    ((t.write (.tag set) tag).write (.frame set) frame).lookup a =
      if tag.getLsbD 0 ∧ tag.page = a.page then some frame else none := by
  subst h
  simp [lookup, write, read]

theorem lookup_entry (t : Tlb) (p : Page) (frame a : Word) :
    ((t.write (.tag (setOf p)) (p.address 1)).write (.frame (setOf p)) frame).lookup a =
      if a.page = p then some frame
      else if a.page.toNat % 64 = p.toNat % 64 then none
      else t.lookup a := by
  by_cases hset : setOf a.page = setOf p
  · have hvalid : (p.address 1).getLsbD 0 = true := by
      rw [← p.shift_or_one, BitVec.getLsbD_or]
      exact Bool.or_true _
    rw [t.lookup_of_set _ _ _ hset, hvalid, Page.page_address, if_pos ((setOf_eq_iff _ _).mp hset)]
    simp only [true_and, eq_comm]
  · have hpage : a.page ≠ p := fun h => hset (congrArg setOf h)
    rw [if_neg hpage, if_neg (mt (setOf_eq_iff _ _).mpr hset), lookup_write_of_ne _ hset,
      lookup_write_of_ne _ hset]

theorem writeAt_tag (t : Tlb) (p : Page) (v : Word) :
    t.writeAt (512 + p.toNat % 64) v = t.write (.tag (setOf p)) v := by
  rw [writeAt, show 512 + p.toNat % 64 = 512 + (setOf p).val from rfl, slot?_tag]
  rfl

theorem writeAt_frame (t : Tlb) (p : Page) (v : Word) :
    t.writeAt (640 + p.toNat % 64) v = t.write (.frame (setOf p)) v := by
  rw [writeAt, show 640 + p.toNat % 64 = 640 + (setOf p).val from rfl, slot?_frame]
  rfl

theorem lookup_writeAt_of_unused (t : Tlb) {index : Nat} (v a : Word)
    (h : index < 512 ∨ (576 ≤ index ∧ index < 640) ∨ 704 ≤ index) :
    (t.writeAt index v).lookup a = t.lookup a := by
  unfold writeAt
  cases hs : slot? index with
  | none => rfl
  | some s =>
    apply t.lookup_write_of_ne
    intro hset
    have hindex : s.index = index := index_of_slot? hs
    have hlt := setOf_lt a.page
    rw [hset] at hlt
    cases s <;> simp only [Slot.index, Slot.set, tagBase, frameBase] at hindex hlt <;> omega

theorem lookup_clear (t : Tlb) (a : Word) : t.clear.lookup a = none := by
  simp [lookup, clear, read]

theorem readAt?_clear (t : Tlb) {index : Nat} (h : 640 ≤ index) :
    t.clear.readAt? index = t.readAt? index := by
  unfold readAt?
  cases hs : slot? index with
  | none => rfl
  | some s =>
    have hindex : s.index = index := index_of_slot? hs
    cases s with
    | tag set =>
      simp only [Slot.index, tagBase] at hindex
      omega
    | frame set => rfl

/-- The table is a direct-mapped map from pages to translate registers. An entry that is written for
a page is found at every address of that page, and at no address of another page of its residue; at
all other addresses lookups stay as they were. Writes to the upper sets, or where there is no
register, change no lookup; a cleared table has no entries and keeps its translate registers. So
does a unit write, read and clear the table that it has. -/
theorem direct_mapped (t : Tlb) (p : Page) (frame : Word) :
    (∀ a, ((t.writeAt (512 + p.toNat % 64) ((p.setWidth 32 <<< 13) ||| 1)).writeAt
        (640 + p.toNat % 64) frame).lookup a =
      if a.page = p then some frame
      else if a.page.toNat % 64 = p.toNat % 64 then none
      else t.lookup a) ∧
    (∀ index v a, (index < 512 ∨ (576 ≤ index ∧ index < 640) ∨ 704 ≤ index) →
      (t.writeAt index v).lookup a = t.lookup a) ∧
    (∀ a, t.clear.lookup a = none) ∧
    (∀ index, 640 ≤ index → t.clear.readAt? index = t.readAt? index) ∧
    ∀ (side : Side) (m : Mmu side), m.tlb = t →
      (∀ index v, (m.writeAt index v).tlb = t.writeAt index v) ∧
      (∀ index, index ≠ 0 → m.readAt index = (t.readAt? index).getD 0) ∧ m.reset.tlb = t.clear := by
  refine ⟨fun a => ?_, fun index v a h => t.lookup_writeAt_of_unused v a h, t.lookup_clear,
    fun index h => t.readAt?_clear h, ?_⟩
  · rw [writeAt_tag, writeAt_frame, p.shift_or_one]
    exact t.lookup_entry p frame a
  · rintro side m rfl
    exact ⟨m.tlb_writeAt, m.readAt_eq_readAt?, rfl⟩

/-- The second page has an entry, which that of page 65 drives out; the upper set does not bring it
back. -/
theorem direct_mapped_driven_out :
    let t := (empty.writeAt 513 0x2001).writeAt 641 0x60c0
    let t' := (t.writeAt 513 0x82001).writeAt 641 0x80c0
    t.lookup 0x2004 = some 0x60c0 ∧ t'.lookup 0x82004 = some 0x80c0 ∧ t'.lookup 0x2004 = none ∧
      (t'.writeAt 577 0x2001).lookup 0x2004 = none := by
  intro t t'
  have hentry : ∀ a, t'.lookup a = _ := (direct_mapped t 65 0x80c0).1
  have hgone : t'.lookup 0x2004 = none := by
    rw [hentry]
    rfl
  refine ⟨by decide, ?_, hgone, ?_⟩
  · rw [hentry]
    rfl
  · rw [(direct_mapped t' 65 0).2.1 577 0x2001 0x2004 (by decide), hgone]

end Tlb

end Orbis
