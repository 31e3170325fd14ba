import Orbis.Mmu

/-!
# Translation page by page

Whether an access may be made, and where it goes, is the same for all addresses of a page: they
share the entry of the table, and memory begins and ends on page boundaries. A remembered page is
sound when it answers as the table would, and every access keeps it so.
-/

namespace Orbis

namespace Page

@[simp] theorem page_address (p : Page) (o : BitVec 13) : (p.address o).page = p :=
  BitVec.extractLsb'_append_eq_left

end Page

namespace Word

@[simp] theorem address_pageOffset (a : Word) : a.page.address a.pageOffset = a := by
  unfold Page.address page pageOffset
  rw [BitVec.extractLsb'_append_extractLsb'_eq_extractLsb' (by rfl)]
  exact BitVec.extractLsb'_eq_self

end Word

namespace Bus

theorem isRam_eq_page (a : Word) : isRam a = decide (a.page.toNat < 4096) := by
  have hend : ramEnd.toNat = 33554431 := rfl
  have hpage : a.page.toNat = a.toNat / 8192 % 524288 := by
    rw [Word.page, BitVec.extractLsb'_toNat, Nat.shiftRight_eq_div_pow]
  have := a.isLt
  apply decide_eq_decide.mpr
  rw [BitVec.le_def, hend, hpage]
  omega

theorem isRam_congr {a b : Word} (h : a.page = b.page) : isRam a = isRam b := by
  rw [isRam_eq_page, isRam_eq_page, h]

end Bus

namespace Memo

/-- A remembered page answers as a given translation does, and leads to memory. -/
def Sound (memo : Option Memo) (translation : Word → Except Exception Word) : Prop :=
  ∀ m, memo = some m → ∀ a : Word, a.page = m.page →
    translation a = .ok (m.frame.address a.pageOffset) ∧
      Bus.isRam (m.frame.address a.pageOffset) = true

theorem Sound.none (translation : Word → Except Exception Word) : Sound none translation :=
  nofun

theorem Sound.of_address? {memo : Option Memo} {translation : Word → Except Exception Word}
    (h : Sound memo translation) {a physical : Word} (ha : address? memo a = some physical) :
    translation a = .ok physical ∧ Bus.isRam physical = true := by
  obtain ⟨m, hm, hp⟩ := Option.bind_eq_some_iff.mp ha
  split at hp
  · next hpage =>
    cases hp
    exact h m hm a hpage
  · cases hp

end Memo

namespace Mmu

variable {side : Side}

theorem lookup_congr (t : Tlb) {a b : Word} (h : a.page = b.page) : t.lookup a = t.lookup b := by
  simp only [Tlb.lookup, h]

/-- All addresses of a page translate alike. -/
theorem resolve_congr (m : Mmu side) {a b physical : Word} {p : Privilege} {x : Access}
    (h : m.resolve a p x = .ok physical) (hb : b.page = a.page) :
    m.resolve b p x = .ok (physical.page.address b.pageOffset) := by
  unfold resolve at h ⊢
  rw [lookup_congr m.tlb hb]
  split at h
  · next hon =>
    rw [if_pos hon]
    split at h
    · cases h
    · split at h
      · cases h
      · next hok =>
        cases h
        simp only [if_neg hok, Page.page_address]
  · next hoff =>
    cases h
    rw [if_neg hoff, ← hb, Word.address_pageOffset]

theorem resolve_eq_of_table {m n : Mmu side} (he : n.enabled = m.enabled) (ht : n.tlb = m.tlb) :
    n.resolve = m.resolve := by
  funext a p x
  simp only [resolve, he, ht]

/-- A page that was just read from is remembered soundly. -/
theorem sound_of_resolve (m : Mmu side) {a physical : Word} {p : Privilege} {x : Access}
    (h : m.resolve a p x = .ok physical) (hram : Bus.isRam physical = true) :
    Memo.Sound (some ⟨a.page, physical.page⟩) (m.resolve · p x) := by
  intro memo hmemo b hb
  cases hmemo
  refine ⟨m.resolve_congr h hb, ?_⟩
  rw [Bus.isRam_congr (Page.page_address physical.page b.pageOffset), hram]

/-- The unit without its memo and the counters that tell of it. -/
def bare (m : Mmu side) : Mmu side := { m with memo := none, hits := 0, misses := 0 }

theorem enabled_eq_of_bare {m n : Mmu side} (h : n.bare = m.bare) : n.enabled = m.enabled := by
  change n.bare.enabled = m.bare.enabled
  rw [h]

theorem tlb_eq_of_bare {m n : Mmu side} (h : n.bare = m.bare) : n.tlb = m.tlb := by
  change n.bare.tlb = m.bare.tlb
  rw [h]

/-- The remembered page is sound for reads at a privilege. -/
def Coherent (m : Mmu side) (p : Privilege) : Prop :=
  Memo.Sound m.memo (m.resolve · p side.readAccess)

theorem Coherent.of_memo_none {m : Mmu side} (h : m.memo = none) (p : Privilege) :
    m.Coherent p := by
  unfold Coherent
  rw [h]
  exact Memo.Sound.none _

/-! ### Accesses answer as the table does -/

@[simp] theorem translate_fst (m : Mmu side) (a : Word) (p : Privilege) (x : Access) :
    (m.translate a p x).1 = m.resolve a p x := by
  unfold translate
  split <;> next h => exact h.symm

theorem translate_snd (m : Mmu side) (a : Word) (p : Privilege) (x : Access) :
    (m.translate a p x).2 = { m with memo := (m.translate a p x).2.memo } := by
  unfold translate remember
  split
  · rfl
  · split
    · rfl
    · split <;> rfl

theorem translate_bare (m : Mmu side) (a : Word) (p : Privilege) (x : Access) :
    (m.translate a p x).2.bare = m.bare := by
  rw [translate_snd]
  rfl

/-- Reads leave a sound memo behind, and writes at most drop it. -/
theorem Coherent.translate {m : Mmu side} {p : Privilege} (h : m.Coherent p) (a : Word)
    {x : Access} (hx : x = side.readAccess ∨ x = .write) : (m.translate a p x).2.Coherent p := by
  unfold Mmu.translate
  split
  · exact h
  · next physical hok =>
    unfold remember
    split
    · exact .of_memo_none rfl p
    · next hram =>
      split
      · exact h
      · next hread =>
        rw [Bool.not_eq_true, Bool.not_eq_false'] at hram
        rw [hx.resolve_right hread] at hok
        exact m.sound_of_resolve hok hram

theorem locate_fst {m : Mmu side} {p : Privilege} (h : m.Coherent p) (w : Width) (a : Word) :
    (m.locate w a p).1 = m.resolve a p side.readAccess := by
  unfold locate
  split
  · split
    · next hmemo => exact (h.of_address? hmemo).1.symm
    · exact translate_fst _ _ _ _
  · exact translate_fst _ _ _ _

theorem locate_fst_of_ne_word (m : Mmu side) {w : Width} (hw : w ≠ .word) (a : Word)
    (p : Privilege) : (m.locate w a p).1 = m.resolve a p side.readAccess := by
  unfold locate
  rw [if_neg hw]
  exact m.translate_fst a p side.readAccess

theorem load_fst_of_locate {m : Mmu side} {w : Width} {a : Word} {p : Privilege}
    {located : Except Exception Word} (h : (m.locate w a p).1 = located) (b : Bus) :
    (m.load b w a p).1 =
      if aligned w a then located.bind (b.load w) else .error .alignment := by
  unfold load
  split
  · exact congrArg (Except.bind · (b.load w)) h
  · rfl

theorem locate_bare (m : Mmu side) (w : Width) (a : Word) (p : Privilege) :
    (m.locate w a p).2.bare = m.bare := by
  unfold locate
  split
  · split
    · rfl
    · exact translate_bare _ _ _ _
  · exact translate_bare _ _ _ _

theorem Coherent.locate {m : Mmu side} {p : Privilege} (h : m.Coherent p) (w : Width) (a : Word) :
    (m.locate w a p).2.Coherent p := by
  unfold Mmu.locate
  split
  · split
    · exact h
    · exact Coherent.translate (m := { m with misses := m.misses + 1 }) h a (.inl rfl)
  · exact h.translate a (.inl rfl)

theorem load_fst {m : Mmu side} {p : Privilege} (h : m.Coherent p) (b : Bus) (w : Width)
    (a : Word) :
    (m.load b w a p).1 =
      if aligned w a then (m.resolve a p side.readAccess).bind (b.load w)
      else .error .alignment :=
  load_fst_of_locate (locate_fst h w a) b

theorem load_bare (m : Mmu side) (b : Bus) (w : Width) (a : Word) (p : Privilege) :
    (m.load b w a p).2.bare = m.bare := by
  unfold load
  split
  · exact m.locate_bare w a p
  · rfl

theorem bare_of_load {m n : Mmu side} {b : Bus} {w : Width} {a : Word} {p : Privilege}
    {r : Except Exception (Word × Bus)} (h : m.load b w a p = (r, n)) : n.bare = m.bare := by
  rw [← m.load_bare b w a p, h]

theorem Coherent.load {m : Mmu side} {p : Privilege} (h : m.Coherent p) (b : Bus) (w : Width)
    (a : Word) : (m.load b w a p).2.Coherent p := by
  unfold Mmu.load
  split
  · exact h.locate w a
  · exact h

theorem Coherent.of_load_eq {m n : Mmu side} {p : Privilege} (h : m.Coherent p) {b : Bus}
    {w : Width} {a : Word} {r : Except Exception (Word × Bus)} (hl : m.load b w a p = (r, n)) :
    n.bare = m.bare ∧ n.Coherent p := by
  have hcoherent := h.load b w a
  rw [hl] at hcoherent
  exact ⟨bare_of_load hl, hcoherent⟩

theorem store_fst (m : Mmu side) (b : Bus) (w : Width) (a : Word) (p : Privilege) (v : Word) :
    (m.store b w a p v).1 =
      if aligned w a then (m.resolve a p .write).bind (b.store w · v) else .error .alignment := by
  unfold store
  split
  · exact congrArg (Except.bind · (b.store w · v)) (m.translate_fst a p .write)
  · rfl

theorem store_bare (m : Mmu side) (b : Bus) (w : Width) (a : Word) (p : Privilege) (v : Word) :
    (m.store b w a p v).2.bare = m.bare := by
  unfold store
  split
  · exact m.translate_bare a p .write
  · rfl

theorem bare_of_store {m n : Mmu side} {b : Bus} {w : Width} {a v : Word} {p : Privilege}
    {r : Except Exception Bus} (h : m.store b w a p v = (r, n)) : n.bare = m.bare := by
  rw [← m.store_bare b w a p v, h]

theorem Coherent.store {m : Mmu side} {p : Privilege} (h : m.Coherent p) (b : Bus) (w : Width)
    (a v : Word) : (m.store b w a p v).2.Coherent p := by
  unfold Mmu.store
  split
  · exact h.translate a (.inr rfl)
  · exact h

theorem Coherent.of_store_eq {m n : Mmu side} {p : Privilege} (h : m.Coherent p) {b : Bus}
    {w : Width} {a v : Word} {r : Except Exception Bus} (hs : m.store b w a p v = (r, n)) :
    n.bare = m.bare ∧ n.Coherent p := by
  have hcoherent := h.store b w a v
  rw [hs] at hcoherent
  exact ⟨bare_of_store hs, hcoherent⟩

end Mmu

end Orbis
