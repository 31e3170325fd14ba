import Orbis.Alu

/-!
# Exact arithmetic

The arithmetic unit works on words, and this is what it works out in terms of integers. A word can
be read with or without a sign. Sums, differences and products are the low bits of the exact result
whichever way the operands are read; quotients, right shifts and comparisons choose one reading.
-/

namespace Orbis

/-- The two ways to read a word as an integer. -/
inductive Reading where
  | unsigned | signed
  deriving DecidableEq

namespace Reading

def value (r : Reading) (w : Word) : Int :=
  match r with
  | unsigned => w.toNat
  | signed => w.toInt

theorem ofInt_value (r : Reading) (w : Word) : BitVec.ofInt 32 (r.value w) = w := by
  cases r with
  | unsigned =>
    rw [value, BitVec.ofInt_natCast, BitVec.ofNat_toNat, BitVec.setWidth_eq]
  | signed => exact BitVec.ofInt_toInt

end Reading

namespace Condition

/-- The reading of the operands of a comparison. -/
def reading : Condition → Reading
  | eq | ne | gtu | geu | ltu | leu => .unsigned
  | gts | ges | lts | les => .signed

/-- The relation of integers that a comparison decides. -/
def Relates : Condition → Int → Int → Prop
  | eq, x, y => x = y
  | ne, x, y => x ≠ y
  | gtu, x, y | gts, x, y => y < x
  | geu, x, y | ges, x, y => y ≤ x
  | ltu, x, y | lts, x, y => x < y
  | leu, x, y | les, x, y => x ≤ y

theorem holds_iff (c : Condition) (a b : Word) :
    c.holds a b = true ↔ c.Relates (c.reading.value a) (c.reading.value b) := by
  cases c with
  | eq => exact beq_iff_eq.trans (BitVec.toNat_inj.symm.trans Int.ofNat_inj.symm)
  | ne =>
    have heq : a = b ↔ (a.toNat : Int) = b.toNat := BitVec.toNat_inj.symm.trans Int.ofNat_inj.symm
    exact bne_iff_ne.trans (not_congr heq)
  | gtu | ltu => exact decide_eq_true_iff.trans Int.ofNat_lt.symm
  | geu | leu => exact decide_eq_true_iff.trans Int.ofNat_le.symm
  | gts | ges | lts | les => exact decide_eq_true_iff

end Condition

/-! ### Shifts -/

/-- What a shift by the second operand multiplies or divides by. -/
def shiftFactor (b : Word) : Nat := Nat.pow 2 (b.toNat % 32)

theorem shiftDistance_eq (b : Word) : shiftDistance b = b.toNat % 32 := by
  rw [shiftDistance, BitVec.extractLsb'_toNat, Nat.shiftRight_zero]

namespace AluOp

theorem eval_sll (a b : Word) :
    sll.eval a b = .ofInt 32 (Reading.unsigned.value a * shiftFactor b) := by
  apply BitVec.eq_of_toNat_eq
  rw [eval, shiftDistance_eq, BitVec.toNat_shiftLeft, Nat.shiftLeft_eq, Reading.value,
    ← Int.natCast_mul, BitVec.ofInt_natCast, BitVec.toNat_ofNat]
  rfl

theorem value_srl (a b : Word) :
    Reading.unsigned.value (srl.eval a b) = (Reading.unsigned.value a).fdiv (shiftFactor b) := by
  rw [eval, shiftDistance_eq, Reading.value, Reading.value, BitVec.toNat_ushiftRight,
    Nat.shiftRight_eq_div_pow, ← Int.ofNat_fdiv]
  rfl

theorem value_sra (a b : Word) :
    Reading.signed.value (sra.eval a b) = (Reading.signed.value a).fdiv (shiftFactor b) := by
  rw [eval, shiftDistance_eq, Reading.value, Reading.value, BitVec.toInt_sshiftRight,
    Int.shiftRight_eq_div_pow, Int.fdiv_eq_ediv_of_nonneg _ (Int.natCast_nonneg _)]
  rfl

/-! ### Quotients -/

/-- The one quotient that is out of range, of the least number by minus one, wraps around. -/
theorem eval_div (a b : Word) :
    div.eval a b = .ofInt 32 ((Reading.signed.value a).tdiv (Reading.signed.value b)) := by
  apply BitVec.eq_of_toInt_eq
  rw [eval, BitVec.toInt_sdiv, BitVec.toInt_ofInt]
  rfl

example : div.eval 0x80000000 0xffffffff = 0x80000000 := by decide

theorem value_divu (a b : Word) :
    Reading.unsigned.value (divu.eval a b) =
      (Reading.unsigned.value a).fdiv (Reading.unsigned.value b) := by
  rw [eval, Reading.value, Reading.value, Reading.value, BitVec.toNat_udiv, ← Int.ofNat_fdiv]

end AluOp

/-! ### Bit scans -/

/-- Whether a word is the position of a bit that is set in another one, counted from one, such that
no bit is set at any position before it; it is zero if no bit is set at all. -/
def IsFirstSet (before : Nat → Nat → Prop) (a v : Word) : Prop :=
  (a = 0 → v = 0) ∧
    (a ≠ 0 → ∃ k, v.toNat = k + 1 ∧ a.toNat.testBit k = true ∧
      ∀ j, before j k → a.toNat.testBit j = false)

theorem isFirstSet_firstSet {before : Nat → Nat → Prop} {positions : List Nat}
    (hordered : positions.Pairwise before) (hbefore : ∀ j k, before j k → ¬before k j ∧ j ≠ k)
    (hmem : ∀ k, k ∈ positions ↔ k < 32) (a : Word) :
    IsFirstSet before a (firstSet positions a) := by
  unfold firstSet
  cases hfind : positions.find? a.getLsbD with
  | none =>
    refine ⟨fun _ => rfl, fun hne => absurd ?_ hne⟩
    apply BitVec.eq_of_getLsbD_eq
    intro k hk
    have hclear := List.find?_eq_none.mp hfind k ((hmem k).mpr hk)
    exact (eq_false_of_ne_true hclear).trans BitVec.getLsbD_zero.symm
  | some k =>
    obtain ⟨hset, earlier, later, hsplit, hclear⟩ := List.find?_eq_some_iff_append.mp hfind
    have hk : k < 32 := (hmem k).mp (List.mem_of_find?_eq_some hfind)
    refine ⟨?_, fun _ => ⟨k, ?_, hset, ?_⟩⟩
    · rintro rfl
      cases BitVec.getLsbD_zero.symm.trans hset
    · exact Nat.mod_eq_of_lt (Nat.lt_trans (Nat.succ_lt_succ hk) (by decide))
    · intro j hj
      by_cases hlt : j < 32
      · -- A position before the one that was found has been looked at earlier.
        have hjmem : j ∈ earlier ++ k :: later := hsplit ▸ (hmem j).mpr hlt
        rcases List.mem_append.mp hjmem with hearlier | hlater
        · exact (Bool.not_eq_true' _).mp (hclear j hearlier)
        · rw [hsplit, List.pairwise_append, List.pairwise_cons] at hordered
          rcases List.mem_cons.mp hlater with heq | hlater
          · exact absurd heq (hbefore j k hj).2
          · exact absurd (hordered.2.1.1 j hlater) (hbefore j k hj).1
      · exact BitVec.getLsbD_of_ge a j (Nat.le_of_not_lt hlt)

namespace AluOp

theorem isFirstSet_ff1 (a b : Word) : IsFirstSet (· < ·) a (ff1.eval a b) :=
  isFirstSet_firstSet List.pairwise_lt_range (fun _ _ h => ⟨Nat.lt_asymm h, Nat.ne_of_lt h⟩)
    (fun _ => List.mem_range) a

theorem isFirstSet_fl1 (a b : Word) : IsFirstSet (· > ·) a (fl1.eval a b) :=
  isFirstSet_firstSet (List.pairwise_reverse.mpr List.pairwise_lt_range)
    (fun _ _ h => ⟨Nat.lt_asymm h, Nat.ne_of_gt h⟩)
    (fun _ => List.mem_reverse.trans List.mem_range) a

/-! ### All operations -/

/-- What the arithmetic unit computes from two words, in terms of the integers that they can be read
as. An integer is brought back to a word by its low 32 bits. -/
structure Exact (a b : Word) : Prop where
  add (r : Reading) : add.eval a b = .ofInt 32 (r.value a + r.value b)
  sub (r : Reading) : sub.eval a b = .ofInt 32 (r.value a - r.value b)
  mul (r : Reading) : mul.eval a b = .ofInt 32 (r.value a * r.value b)
  div : div.eval a b =
    if b = 0 then 0 else .ofInt 32 ((Reading.signed.value a).tdiv (Reading.signed.value b))
  divu : Reading.unsigned.value (divu.eval a b) =
    if b = 0 then 0 else (Reading.unsigned.value a).fdiv (Reading.unsigned.value b)
  sll : sll.eval a b = .ofInt 32 (Reading.unsigned.value a * shiftFactor b)
  srl : Reading.unsigned.value (srl.eval a b) = (Reading.unsigned.value a).fdiv (shiftFactor b)
  sra : Reading.signed.value (sra.eval a b) = (Reading.signed.value a).fdiv (shiftFactor b)
  ff1 : IsFirstSet (· < ·) a (ff1.eval a b)
  fl1 : IsFirstSet (· > ·) a (fl1.eval a b)
  compare (c : Condition) :
    c.holds a b = true ↔ c.Relates (c.reading.value a) (c.reading.value b)

/-- The arithmetic unit computes exactly, up to what a word can hold, for all operands. -/
theorem eval_exact (a b : Word) : Exact a b where
  add r := by
    rw [BitVec.ofInt_add, r.ofInt_value, r.ofInt_value]
    rfl
  sub r := by
    rw [Int.sub_eq_add_neg, BitVec.ofInt_add, BitVec.ofInt_neg, r.ofInt_value, r.ofInt_value,
      ← BitVec.sub_eq_add_neg]
    rfl
  mul r := by
    rw [BitVec.ofInt_mul, r.ofInt_value, r.ofInt_value]
    rfl
  div := by
    split
    · next hb =>
      rw [hb]
      exact BitVec.sdiv_zero
    · exact eval_div a b
  divu := by
    split
    · next hb =>
      rw [hb]
      exact (value_divu a 0).trans (Int.fdiv_zero _)
    · exact value_divu a b
  sll := eval_sll a b
  srl := value_srl a b
  sra := value_sra a b
  ff1 := isFirstSet_ff1 a b
  fl1 := isFirstSet_fl1 a b
  compare c := c.holds_iff a b

end AluOp

end Orbis
