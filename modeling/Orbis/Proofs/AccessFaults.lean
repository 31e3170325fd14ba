import Orbis.Proofs.Refill

/-!
# How accesses end

An access passes four checks in this order: its alignment, the entry of its page, the permission in
that entry, and the device at the physical address. Each exception is exactly that of the first
check that fails, and an access that passes all of them succeeds. The offset in a page survives
translation and pages are multiples of every width, so an aligned access that leads into memory is
inside memory with all of its bytes.
-/

namespace Orbis

namespace Bus

/-- Whether no device takes an access: it leads outside of memory, and either outside of the window
of the serial line as well, or there with more than a byte. -/
def Refuses (w : Width) (a : Word) : Prop :=
  ramSize ≤ a.toNat ∧ (a < uartBase ∨ uartEnd < a ∨ w ≠ .byte)

instance (w : Width) (a : Word) : Decidable (Refuses w a) :=
  inferInstanceAs (Decidable (_ ∧ _))

theorem isRam_iff (a : Word) : isRam a = true ↔ a.toNat < ramSize := by
  have hend : ramEnd.toNat + 1 = ramSize := rfl
  rw [isRam, decide_eq_true_iff, BitVec.le_def]
  omega

theorem route?_of_refuses {w : Width} {a : Word} (h : Refuses w a) :
    route? a = none ∨ (w ≠ .byte ∧ route? a = some (.uart, a - uartBase)) := by
  obtain ⟨hout, hdevice⟩ := h
  have hram : ¬isRam a = true := by
    rw [isRam_iff]
    omega
  unfold route?
  rw [if_neg hram]
  by_cases hwindow : uartBase ≤ a ∧ a ≤ uartEnd
  · rw [if_pos hwindow]
    rcases hdevice with hlow | hhigh | hw
    · exact absurd hwindow.1 (BitVec.not_le.mpr hlow)
    · exact absurd hwindow.2 (BitVec.not_le.mpr hhigh)
    · exact .inr ⟨hw, rfl⟩
  · rw [if_neg hwindow]
    exact .inl rfl

theorem route?_of_not_refuses {w : Width} {a : Word} (h : ¬Refuses w a)
    (hram : ¬isRam a = true) : w = .byte ∧ route? a = some (.uart, a - uartBase) := by
  rw [isRam_iff] at hram
  simp only [Refuses, not_and, not_or, BitVec.not_lt, Decidable.not_not] at h
  obtain ⟨hlow, hhigh, hw⟩ := h (Nat.le_of_not_lt hram)
  rw [← isRam_iff] at hram
  exact ⟨hw, by rw [route?, if_neg hram, if_pos ⟨hlow, hhigh⟩]⟩

variable {w : Width} {a : Word}

theorem load_of_refuses (b : Bus) (h : Refuses w a) : b.load w a = .error .busError := by
  unfold load
  rcases route?_of_refuses h with hroute | ⟨hw, hroute⟩
  · rw [hroute]
  · rw [hroute]
    cases w <;> simp_all [Uart.loadAt, Except.map]

theorem store_of_refuses (b : Bus) (v : Word) (h : Refuses w a) :
    b.store w a v = .error .busError := by
  unfold store
  rcases route?_of_refuses h with hroute | ⟨hw, hroute⟩
  · rw [hroute]
  · rw [hroute]
    cases w <;> simp_all [Uart.storeAt, Except.map]

theorem exists_load_of_not_refuses (b : Bus) (ha : Mmu.aligned w a = true) (h : ¬Refuses w a) :
    ∃ r, b.load w a = .ok r := by
  by_cases hram : isRam a = true
  · obtain ⟨v, -, hload⟩ := b.load_ok hram ha
    exact ⟨_, hload⟩
  · obtain ⟨rfl, hroute⟩ := route?_of_not_refuses h hram
    unfold load
    rw [hroute]
    exact ⟨_, rfl⟩

theorem exists_store_of_not_refuses (b : Bus) (v : Word) (ha : Mmu.aligned w a = true)
    (h : ¬Refuses w a) : ∃ r, b.store w a v = .ok r := by
  by_cases hram : isRam a = true
  · exact b.store_ok v hram ha
  · obtain ⟨rfl, hroute⟩ := route?_of_not_refuses h hram
    unfold store
    rw [hroute]
    exact ⟨_, rfl⟩

end Bus

namespace Mmu

variable {side : Side} (m : Mmu side) (w : Width) (a : Word) (p : Privilege) (x : Access)

/-- Whether paging is on and the set that an address picks has no valid entry for its page. -/
def Unmapped : Prop :=
  m.enabled = true ∧ ¬(m.tlb.tags[Tlb.setOf a.page].getLsbD 0 = true ∧
    m.tlb.tags[Tlb.setOf a.page].page = a.page)

/-- Whether paging is on and the set that an address picks has none of the rights that would do. -/
def Denies : Prop := m.enabled = true ∧ m.tlb.frames[Tlb.setOf a.page] &&& side.permission p x = 0

/-- Where an address leads if it has an entry. -/
def physical : Word :=
  if m.enabled then (m.tlb.frames[Tlb.setOf a.page] &&& 0xffffe000) ||| (a &&& 0x1fff) else a

instance : Decidable (m.Unmapped a) := inferInstanceAs (Decidable (_ ∧ _))

instance : Decidable (m.Denies a p x) := inferInstanceAs (Decidable (_ ∧ _))

/-- How an access ends, by the first check that it fails. -/
inductive Ending {α : Type} : Except Exception α → Prop
  | misaligned (h : ¬w.size ∣ a.toNat) : Ending (.error .alignment)
  | unmapped (ha : w.size ∣ a.toNat) (h : m.Unmapped a) : Ending (.error side.miss)
  | denied (ha : w.size ∣ a.toNat) (hm : ¬m.Unmapped a) (h : m.Denies a p x) :
      Ending (.error side.pageFault)
  | refused (ha : w.size ∣ a.toNat) (hm : ¬m.Unmapped a) (hd : ¬m.Denies a p x)
      (h : Bus.Refuses w (m.physical a)) : Ending (.error .busError)
  | done (ha : w.size ∣ a.toNat) (hm : ¬m.Unmapped a) (hd : ¬m.Denies a p x)
      (h : ¬Bus.Refuses w (m.physical a)) (v : α) : Ending (.ok v)

/-- What the result of an access tells, and when each result comes about. An aligned access whose
address translates into memory succeeds. -/
structure Verdict {α : Type} (r : Except Exception α) : Prop where
  alignment : r = .error .alignment ↔ ¬w.size ∣ a.toNat
  miss : r = .error side.miss ↔ w.size ∣ a.toNat ∧ m.Unmapped a
  pageFault : r = .error side.pageFault ↔ w.size ∣ a.toNat ∧ ¬m.Unmapped a ∧ m.Denies a p x
  busError : r = .error .busError ↔
    w.size ∣ a.toNat ∧ ¬m.Unmapped a ∧ ¬m.Denies a p x ∧ Bus.Refuses w (m.physical a)
  success : (∃ v, r = .ok v) ↔
    w.size ∣ a.toNat ∧ ¬m.Unmapped a ∧ ¬m.Denies a p x ∧ ¬Bus.Refuses w (m.physical a)
  memory : w.size ∣ a.toNat → ∀ physical, (m.translate a p x).1 = .ok physical →
    physical.toNat < Bus.ramSize → ∃ v, r = .ok v

variable {m w a p x}

theorem resolve_eq :
    m.resolve a p x =
      if m.Unmapped a then .error side.miss
      else if m.Denies a p x then .error side.pageFault
      else .ok (m.physical a) := by
  unfold resolve Unmapped Denies physical
  by_cases hon : m.enabled = true
  · simp only [hon, true_and, if_true]
    by_cases hentry : m.tlb.tags[Tlb.setOf a.page].getLsbD 0 = true ∧
        m.tlb.tags[Tlb.setOf a.page].page = a.page
    · have hlookup : m.tlb.lookup a = some m.tlb.frames[Tlb.setOf a.page] := if_pos hentry
      rw [hlookup, if_neg (not_not_intro hentry), Word.masks_eq_address]
    · have hlookup : m.tlb.lookup a = none := if_neg hentry
      rw [hlookup, if_pos hentry]
  · simp [hon]

theorem aligned_iff : aligned w a = true ↔ w.size ∣ a.toNat := by
  rw [aligned, beq_iff_eq, Nat.dvd_iff_mod_eq_zero]

theorem aligned_physical : aligned w (m.physical a) = aligned w a := by
  unfold physical
  split
  · rw [Word.masks_eq_address, aligned_address]
  · rfl

/-- The checks are made one after the other. -/
theorem Ending.of_bind {α : Type} {f : Word → Except Exception α} {r : Except Exception α}
    (hr : r = if aligned w a then (m.resolve a p x).bind f else .error .alignment)
    (hrefused : Bus.Refuses w (m.physical a) → f (m.physical a) = .error .busError)
    (htaken : aligned w (m.physical a) = true → ¬Bus.Refuses w (m.physical a) →
      ∃ v, f (m.physical a) = .ok v) :
    m.Ending w a p x r := by
  by_cases haligned : aligned w a = true
  · have ha := aligned_iff.mp haligned
    rw [if_pos haligned, resolve_eq] at hr
    by_cases hmiss : m.Unmapped a
    · rw [if_pos hmiss] at hr
      exact hr ▸ .unmapped ha hmiss
    rw [if_neg hmiss] at hr
    by_cases hdenied : m.Denies a p x
    · rw [if_pos hdenied] at hr
      exact hr ▸ .denied ha hmiss hdenied
    rw [if_neg hdenied] at hr
    by_cases hbus : Bus.Refuses w (m.physical a)
    · have herror : r = .error .busError := hr.trans (hrefused hbus)
      exact herror ▸ .refused ha hmiss hdenied hbus
    · -- The device sees the translated address, which is aligned as the virtual one is.
      obtain ⟨v, hv⟩ := htaken (aligned_physical.trans haligned) hbus
      have hok : r = .ok v := hr.trans hv
      exact hok ▸ .done ha hmiss hdenied hbus v
  · rw [if_neg haligned] at hr
    exact hr ▸ .misaligned (mt aligned_iff.mpr haligned)

theorem translate_eq_ok_iff {f : Word} :
    (m.translate a p x).1 = .ok f ↔ ¬m.Unmapped a ∧ ¬m.Denies a p x ∧ m.physical a = f := by
  rw [translate_fst, resolve_eq]
  by_cases hmiss : m.Unmapped a
  · simp [hmiss]
  · by_cases hdenied : m.Denies a p x <;> simp [hmiss, hdenied]

/-- The endings have different results, and their conditions exclude each other. -/
theorem Ending.verdict {α : Type} {r : Except Exception α} (h : m.Ending w a p x r) :
    m.Verdict w a p x r := by
  have hsuccess : (∃ v, r = .ok v) ↔
      w.size ∣ a.toNat ∧ ¬m.Unmapped a ∧ ¬m.Denies a p x ∧ ¬Bus.Refuses w (m.physical a) := by
    cases h <;> simp_all
  constructor
  case success => exact hsuccess
  case memory =>
    intro ha physical htranslate hram
    obtain ⟨hmiss, hdenied, rfl⟩ := translate_eq_ok_iff.mp htranslate
    exact hsuccess.mpr ⟨ha, hmiss, hdenied, fun hbus => absurd hram (Nat.not_lt.mpr hbus.1)⟩
  all_goals cases h <;> cases side <;> simp_all [Side.miss, Side.pageFault]

theorem locate_fst_of_not_remembered (hmemo : ∀ memo, m.memo = some memo → memo.page ≠ a.page) :
    (m.locate w a p).1 = m.resolve a p side.readAccess := by
  have hnone : Memo.address? m.memo a = none := by
    unfold Memo.address?
    cases h : m.memo with
    | none => rfl
    | some memo => exact if_neg (Ne.symm (hmemo memo h))
  unfold locate
  rw [hnone]
  split
  · exact translate_fst _ _ _ _
  · exact translate_fst _ _ _ _

/-- Accesses end with the first check that they fail, and succeed if they pass all: alignment, the
entry of the page, the permission, the device. This is so for loads and stores of every width, at
either privilege and on either side, whatever the unit and the bus hold, as long as the unit does
not remember the page. -/
theorem access_verdict (m : Mmu side) (b : Bus) (w : Width) (a : Word) (p : Privilege) (v : Word)
    (hmemo : ∀ memo, m.memo = some memo → memo.page ≠ a.page) :
    m.Verdict w a p side.readAccess (m.load b w a p).1 ∧
      m.Verdict w a p .write (m.store b w a p v).1 := by
  constructor
  · apply Ending.verdict
    apply Ending.of_bind (load_fst_of_locate (locate_fst_of_not_remembered hmemo) b)
    · exact fun hbus => b.load_of_refuses hbus
    · exact fun ha hbus => b.exists_load_of_not_refuses ha hbus
  · apply Ending.verdict
    apply Ending.of_bind (m.store_fst b w a p v)
    · exact fun hbus => b.store_of_refuses v hbus
    · exact fun ha hbus => b.exists_store_of_not_refuses v ha hbus

/-- The last word of a page that is mapped to the last page of memory can be stored to, and the
half-word across the end of that page cannot be. -/
theorem access_verdict_at_end :
    let m : Mmu .data := ((Mmu.initial.writeAt 513 0x2001).writeAt 641 0x01ffe080).setEnabled true
    (∃ b, (m.store .initial .word 0x3ffc .user 7).1 = .ok b) ∧
      (m.store .initial .half 0x3fff .user 7).1 = .error .alignment ∧
      (m.load .initial .word 0x3ffc .user).1 = .error .dataPageFault := by
  intro m
  have hmemo (a : Word) : ∀ memo, m.memo = some memo → memo.page ≠ a.page := nofun
  refine ⟨?_, ?_, ?_⟩
  · apply (access_verdict m .initial .word 0x3ffc .user 7 (hmemo _)).2.memory (by decide) 0x01fffffc
    · exact translate_eq_ok_iff.mpr ⟨by decide, by decide, by decide⟩
    · decide
  · exact (access_verdict m .initial .half 0x3fff .user 7 (hmemo _)).2.alignment.mpr (by decide)
  · exact (access_verdict m .initial .word 0x3ffc .user 7 (hmemo _)).1.pageFault.mpr (by decide)

end Mmu

end Orbis
