import Orbis.Proofs.DirectMapping
import Orbis.Proofs.LoadedPrograms

/-!
# Images, wholly or not at all

An image is copied to memory byte for byte, or it is refused and memory stays as it was. What is
wrong with a refused image is told by its length first and by the room for it second. A simulator
has been reset by the time it refuses an image, and keeps its memory and its serial line.
-/

namespace Orbis

namespace Ram

variable {size : Nat} {image : ByteArray} {offset : Word}

/-- The memory behind an attempt to load an image. -/
def afterImage (r : Ram size) (image : ByteArray) (offset : Word) : Ram size :=
  (r.loadImage image offset).toOption.getD r

/-- Whether an image consists of whole words and lies inside a memory of some size. -/
def Fits (size : Nat) (image : ByteArray) (offset : Word) : Prop :=
  4 ∣ image.size ∧ offset.toNat + image.size ≤ size

/-- What is wrong with an image that does not fit. -/
def refusal (size : Nat) (image : ByteArray) (offset : Word) : ImageError :=
  if 4 ∣ image.size then .tooLarge offset image.size size else .unaligned image.size

theorem loadImage_of_fits (r : Ram size) (h : Fits size image offset) :
    r.loadImage image offset = .ok (r.copy image offset.toNat) := by
  have hwords : image.size % 4 = 0 := Nat.mod_eq_zero_of_dvd h.1
  rw [loadImage, if_neg (not_not_intro hwords), if_neg (Nat.not_lt.mpr h.2)]

theorem loadImage_of_not_fits (r : Ram size) (h : ¬Fits size image offset) :
    r.loadImage image offset = .error (refusal size image offset) := by
  by_cases hwords : 4 ∣ image.size
  · have hroom : size < offset.toNat + image.size :=
      Nat.lt_of_not_le fun hroom => h ⟨hwords, hroom⟩
    rw [loadImage, if_neg (not_not_intro (Nat.mod_eq_zero_of_dvd hwords)), if_pos hroom, refusal,
      if_pos hwords]
  · have hmod : image.size % 4 ≠ 0 := fun hmod => hwords (Nat.dvd_of_mod_eq_zero hmod)
    rw [loadImage, if_pos hmod, refusal, if_neg hwords]

theorem exists_loadImage_iff (r : Ram size) (image : ByteArray) (offset : Word) :
    (∃ r', r.loadImage image offset = .ok r') ↔ Fits size image offset := by
  constructor
  · rintro ⟨r', hr'⟩
    refine Classical.byContradiction fun h => ?_
    cases (r.loadImage_of_not_fits h).symm.trans hr'
  · exact fun h => ⟨_, r.loadImage_of_fits h⟩

theorem byte_afterImage (r : Ram size) (h : Fits size image offset) {j : Nat} (hj : j < size) :
    (r.afterImage image offset).byte j =
      if h : offset.toNat ≤ j ∧ j < offset.toNat + image.size then
        image[j - offset.toNat].toBitVec
      else r.byte j := by
  rw [afterImage, r.loadImage_of_fits h]
  exact r.byte_copy image h.2 hj

theorem afterImage_of_not_fits (r : Ram size) (h : ¬Fits size image offset) :
    r.afterImage image offset = r := by
  rw [afterImage, r.loadImage_of_not_fits h]
  rfl

end Ram

namespace Cpu

/-- A machine out of reset, whatever its memory, its serial line and its counters hold. -/
structure OutOfReset (c : Cpu) : Prop where
  reg (r : Reg) : c.reg r = 0
  sr : c.sr = Supervision.resetValue
  context : c.context = ⟨0, 0, 0⟩
  interrupts : c.interrupts = .initial
  timer : c.timer = .initial
  delaySlot : c.delaySlot = none
  fetchMemo : c.fetchMemo = none
  immu_enabled : c.immu.enabled = false
  immu_lookup (a : Word) : c.immu.tlb.lookup a = none
  immu_memo : c.immu.memo = none
  dmmu_enabled : c.dmmu.enabled = false
  dmmu_lookup (a : Word) : c.dmmu.tlb.lookup a = none
  dmmu_memo : c.dmmu.memo = none

theorem outOfReset_boot (c : Cpu) (pc : Word) : (c.boot pc).OutOfReset where
  reg r := by
    have hzero : r.toNat < 32 := r.isLt
    exact Vector.getElem_replicate ..
  sr := rfl
  context := rfl
  interrupts := rfl
  timer := rfl
  delaySlot := rfl
  fetchMemo := rfl
  immu_enabled := rfl
  immu_lookup := c.immu.tlb.lookup_clear
  immu_memo := rfl
  dmmu_enabled := rfl
  dmmu_lookup := c.dmmu.tlb.lookup_clear
  dmmu_memo := rfl

end Cpu

/-- A simulator that refuses an image has been reset, and that is all. -/
theorem Simulator.loadImage_refused {s : Simulator} {image : ByteArray} {pc : Word} {e : ImageError}
    (h : (s.loadImage image pc).1 = .error e) :
    (s.loadImage image pc).2 = { s with cpu := s.cpu.boot pc } := by
  unfold loadImage at h ⊢
  simp only at h ⊢
  split at h
  · cases h
  · rfl

/-- Loading an image is all or nothing. It succeeds exactly if the image consists of whole words and
lies inside the memory. On success the image is in its place, and every byte outside of it is as it
was; otherwise every byte is, and the length of the image is reported if it is no whole number of
words, and else the lack of room. A simulator that refuses an image keeps its memory and its serial
line, and its machine is out of reset at the address where it was to start. -/
theorem Ram.loadImage_all_or_nothing {size : Nat} (r : Ram size) (image : ByteArray)
    (offset : Word) (s : Simulator) (pc : Word) :
    ((∃ r', r.loadImage image offset = .ok r') ↔
      4 ∣ image.size ∧ offset.toNat + image.size ≤ size) ∧
    (∀ r', r.loadImage image offset = .ok r' → r.afterImage image offset = r' ∧
      (∀ (k : Nat) (hk : k < image.size), r'.byte (offset.toNat + k) = image[k].toBitVec) ∧
      ∀ j < size, j < offset.toNat ∨ offset.toNat + image.size ≤ j → r'.byte j = r.byte j) ∧
    (∀ e, r.loadImage image offset = .error e → r.afterImage image offset = r ∧
      (e = .unaligned image.size ↔ ¬4 ∣ image.size) ∧
      (e = .tooLarge offset image.size size ↔ 4 ∣ image.size)) ∧
    ∀ e, (s.loadImage image pc).1 = .error e →
      (s.loadImage image pc).2 = { s with cpu := s.cpu.boot pc } ∧
      (s.loadImage image pc).2.cpu.bus = s.cpu.bus ∧
      (s.loadImage image pc).2.cpu.OutOfReset ∧ (s.loadImage image pc).2.cpu.pc = pc := by
  refine ⟨r.exists_loadImage_iff image offset, ?_, ?_, ?_⟩
  · intro r' hr'
    have hfits : Fits size image offset := (r.exists_loadImage_iff image offset).mp ⟨r', hr'⟩
    have hafter : r.afterImage image offset = r' := by
      rw [afterImage, hr']
      rfl
    refine ⟨hafter, fun k hk => ?_, fun j hj hout => ?_⟩
    · have hroom := hfits.2
      rw [← hafter, r.byte_afterImage hfits (by omega), dif_pos (by omega)]
      simp only [Nat.add_sub_cancel_left]
    · rw [← hafter, r.byte_afterImage hfits hj, dif_neg (by omega)]
  · intro e he
    have hfits : ¬Fits size image offset := by
      intro h
      cases (r.loadImage_of_fits h).symm.trans he
    have hrefusal : refusal size image offset = e :=
      Except.error.inj ((r.loadImage_of_not_fits hfits).symm.trans he)
    rw [← hrefusal, refusal]
    refine ⟨r.afterImage_of_not_fits hfits, ?_⟩
    by_cases hwords : 4 ∣ image.size <;> simp [hwords]
  · intro e he
    rw [Simulator.loadImage_refused he]
    exact ⟨rfl, rfl, s.cpu.outOfReset_boot pc, rfl⟩

/-- The last four of ten bytes take an image of one word and the last three do not. A machine in the
handler of a system call refuses half a word and begins anew. -/
theorem Ram.loadImage_all_or_nothing_at_end :
    let r : Ram 10 := Ram.zero.setByte 5 0xaa
    let word : ByteArray := ⟨#[1, 2, 3, 4]⟩
    let s : Simulator := ((Cpu.holding [(0, .addi 3 0 5), (4, .sys 0)]).run 2).1.hosted
    (∃ r', r.loadImage word 6 = .ok r' ∧ r'.byte 9 = 4 ∧ r'.byte 5 = 0xaa) ∧
    r.loadImage word 7 = .error (.tooLarge 7 4 10) ∧ r.afterImage word 7 = r ∧
    s.cpu.pc = 0xc00 ∧ s.cpu.reg 3 = 5 ∧
    (s.loadImage ⟨#[1, 2]⟩ 0x100).1 = .error (.unaligned 2) ∧
    (s.loadImage ⟨#[1, 2]⟩ 0x100).2.cpu.OutOfReset ∧
    (s.loadImage ⟨#[1, 2]⟩ 0x100).2.cpu.pc = 0x100 := by
  intro r word s
  obtain ⟨haccepted, hloaded, -, -⟩ := r.loadImage_all_or_nothing word 6 s 0
  obtain ⟨r', hr'⟩ := haccepted.mpr ⟨by decide, by decide⟩
  obtain ⟨-, hplaced, hkept⟩ := hloaded r' hr'
  have hlast : r'.byte 9 = 4 := hplaced 3 (by decide)
  have hbefore : r'.byte 5 = 0xaa := by
    rw [hkept 5 (by decide) (.inl (by decide))]
    decide
  have hfits : ¬Ram.Fits 10 word 7 := fun h => absurd h.2 (by decide)
  have hroom : r.loadImage word 7 = .error (.tooLarge 7 4 10) := by
    rw [r.loadImage_of_not_fits hfits, Ram.refusal, if_pos (by decide)]
    rfl
  obtain ⟨-, -, hrefused, -⟩ := r.loadImage_all_or_nothing word 7 s 0
  have hhalf : (s.loadImage ⟨#[1, 2]⟩ 0x100).1 = .error (.unaligned 2) := rfl
  obtain ⟨-, -, -, hreset⟩ := r.loadImage_all_or_nothing ⟨#[1, 2]⟩ 0 s 0x100
  obtain ⟨-, -, hfresh, hpc⟩ := hreset _ hhalf
  exact ⟨⟨r', hr', hlast, hbefore⟩, hroom, (hrefused _ hroom).1, by decide +kernel,
    by decide +kernel, hhalf, hfresh, hpc⟩

end Orbis
