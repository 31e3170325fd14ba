import Orbis.Proofs.RoundTrip

/-!
# Canonical words

An instruction leaves some bits of its word unused. Encoding writes zeros there, or the fixed bit of
`l.nop`, and keeps all other bits of the word that was decoded. So encoding what a word means gives
the canonical word with that meaning, and two words mean the same when they share it.
-/

namespace Orbis

namespace Word

/-- The word in which the bits from one position to another are set. -/
def span (low high : Nat) : Word := (BitVec.allOnes (high + 1 - low)).setWidth 32 <<< low

/-! ### A word put together of its fields -/

theorem eq_jump (w : Word) : w.opcode ++ w.extractLsb' 0 26 = w :=
  BitVec.extractLsb'_append_extractLsb'

theorem eq_tagged (w : Word) : w.high ++ w.immediate = w :=
  BitVec.extractLsb'_append_extractLsb'

theorem eq_immediate (w : Word) : w.opcode ++ w.rd ++ w.ra ++ w.immediate = w := by
  rw [opcode, rd, ra, immediate, BitVec.extractLsb'_append_extractLsb'_eq_extractLsb' (by rfl),
    BitVec.extractLsb'_append_extractLsb'_eq_extractLsb' (by rfl)]
  exact BitVec.extractLsb'_append_extractLsb'

theorem eq_register (w : Word) :
    w.opcode ++ w.rd ++ w.ra ++ w.rb ++ w.extractLsb' 0 11 = w := by
  rw [opcode, rd, ra, rb, BitVec.extractLsb'_append_extractLsb'_eq_extractLsb' (by rfl),
    BitVec.extractLsb'_append_extractLsb'_eq_extractLsb' (by rfl),
    BitVec.extractLsb'_append_extractLsb'_eq_extractLsb' (by rfl)]
  exact BitVec.extractLsb'_append_extractLsb'

theorem setWidth_jumpOffset (w : Word) : w.jumpOffset.setWidth 26 = w.extractLsb' 0 26 :=
  setWidth_signExtend _ (by decide)

theorem and_immediate (w : Word) (o : BitVec 6) (d a : BitVec 5) (i : Half) :
    w &&& (o ++ d ++ a ++ i) =
      (w.opcode &&& o) ++ (w.rd &&& d) ++ (w.ra &&& a) ++ (w.immediate &&& i) := by
  conv => lhs; rw [← eq_immediate w]
  rw [BitVec.and_append, BitVec.and_append, BitVec.and_append]

theorem and_register (w : Word) (o : BitVec 6) (d a b : BitVec 5) (m : BitVec 11) :
    w &&& (o ++ d ++ a ++ b ++ m) =
      (w.opcode &&& o) ++ (w.rd &&& d) ++ (w.ra &&& a) ++ (w.rb &&& b) ++
        (w.extractLsb' 0 11 &&& m) := by
  conv => lhs; rw [← eq_register w]
  rw [BitVec.and_append, BitVec.and_append, BitVec.and_append, BitVec.and_append]

theorem immediate_and_shift (w : Word) :
    w.immediate &&& (0#8 ++ BitVec.allOnes 2 ++ 0#1 ++ BitVec.allOnes 5) =
      0#8 ++ w.shiftKind ++ 0#1 ++ w.shiftAmount := by
  have hfields : w.immediate =
      w.extractLsb' 8 8 ++ w.shiftKind ++ w.extractLsb' 5 1 ++ w.shiftAmount := by
    rw [shiftKind, shiftAmount, BitVec.extractLsb'_append_extractLsb'_eq_extractLsb' (by rfl),
      BitVec.extractLsb'_append_extractLsb'_eq_extractLsb' (by rfl),
      BitVec.extractLsb'_append_extractLsb'_eq_extractLsb' (by rfl)]
    rfl
  rw [hfields, BitVec.and_append, BitVec.and_append, BitVec.and_append, BitVec.and_zero,
    BitVec.and_zero, BitVec.and_allOnes, BitVec.and_allOnes]

theorem extractLsb'_and_alu (w : Word) :
    w.extractLsb' 0 11 &&& (0#1 ++ BitVec.allOnes 4 ++ 0#2 ++ BitVec.allOnes 4) =
      0#1 ++ w.extractLsb' 6 4 ++ 0#2 ++ w.extractLsb' 0 4 := by
  have hfields : w.extractLsb' 0 11 =
      w.extractLsb' 10 1 ++ w.extractLsb' 6 4 ++ w.extractLsb' 4 2 ++ w.extractLsb' 0 4 := by
    rw [BitVec.extractLsb'_append_extractLsb'_eq_extractLsb' (by rfl),
      BitVec.extractLsb'_append_extractLsb'_eq_extractLsb' (by rfl),
      BitVec.extractLsb'_append_extractLsb'_eq_extractLsb' (by rfl)]
  rw [hfields, BitVec.and_append, BitVec.and_append, BitVec.and_append, BitVec.and_zero,
    BitVec.and_zero, BitVec.and_allOnes, BitVec.and_allOnes]

end Word

namespace Format

variable {w : Word} {op : Opcode}

theorem jump_jumpOffset (h : w.opcode = op.code) : jump op w.jumpOffset = w := by
  rw [jump, Word.setWidth_jumpOffset, ← h, Word.eq_jump]

theorem immediate_fields (h : w.opcode = op.code) :
    immediate op w.rd w.ra w.immediate = w := by
  rw [immediate, ← h, Word.eq_immediate]

theorem split_fields (h : w.opcode = op.code) : split op w.ra w.rb w.splitImmediate = w := by
  have hhigh : w.splitImmediate.extractLsb' 11 5 = w.rd := BitVec.extractLsb'_append_eq_left
  have hlow : w.splitImmediate.extractLsb' 0 11 = w.extractLsb' 0 11 :=
    BitVec.extractLsb'_append_eq_right
  rw [split, hhigh, hlow, ← h, Word.eq_register]

end Format

namespace Instruction

/-! ### Unused bits -/

/-- The bits of a word that an instruction does not use. -/
def unused : Instruction → Word
  | nop _ => Word.span 16 25
  | movhi _ _ => Word.span 16 20
  | rfe => Word.span 0 25
  | jr _ | jalr _ => Word.span 0 10 ||| Word.span 16 25
  | shiftImm _ _ _ _ => Word.span 5 5 ||| Word.span 8 15
  | alu _ _ _ _ => Word.span 4 5 ||| Word.span 10 10
  | setFlag _ _ _ => Word.span 0 10
  | _ => 0#32

/-- What the unused bits hold in a canonical word. -/
def filling : Instruction → Word
  | nop _ => 0x100#32 <<< 16
  | _ => 0#32

/-- Encoding what a word means keeps its used bits and fills in the others. -/
def Recodes (w : Word) (i : Instruction) : Prop := i.encode = w &&& ~~~i.unused ||| i.filling

namespace Recodes

variable {w : Word}

theorem of_eq {i : Instruction} (h : i.encode = w) (hu : i.unused = 0#32)
    (hf : i.filling = 0#32) : Recodes w i := by
  rw [Recodes, h, hu, hf, BitVec.not_zero, BitVec.and_allOnes, BitVec.or_zero]

theorem of_illegal (w : Word) : Recodes w (.illegal w) := of_eq rfl rfl rfl

theorem of_nop (h : w.opcode = Opcode.nop.code) : Recodes w (.nop w.immediate) := by
  have hmask : ~~~Word.span 16 25 =
      BitVec.allOnes 6 ++ 0#5 ++ 0#5 ++ BitVec.allOnes 16 := by decide
  change nopTag ++ w.immediate = w &&& ~~~Word.span 16 25 ||| (0x100#16 ++ 0#16)
  rw [hmask, Word.and_immediate, h, BitVec.and_allOnes, BitVec.and_allOnes, BitVec.and_zero,
    BitVec.and_zero, BitVec.or_append, BitVec.or_zero]
  rfl

theorem of_movhi (h : w.opcode = Opcode.movhi.code) : Recodes w (.movhi w.rd w.immediate) := by
  have hmask : ~~~Word.span 16 20 =
      BitVec.allOnes 6 ++ BitVec.allOnes 5 ++ 0#5 ++ BitVec.allOnes 16 := by decide
  change Format.immediate .movhi w.rd 0 w.immediate = w &&& ~~~Word.span 16 20 ||| 0#32
  rw [hmask, Word.and_immediate, h, BitVec.and_allOnes, BitVec.and_allOnes, BitVec.and_allOnes,
    BitVec.and_zero, BitVec.or_zero]
  rfl

theorem of_rfe (h : w.opcode = Opcode.rfe.code) : Recodes w .rfe := by
  have hmask : ~~~Word.span 0 25 = BitVec.allOnes 6 ++ 0#5 ++ 0#5 ++ 0#16 := by decide
  change Format.immediate .rfe 0 0 0 = w &&& ~~~Word.span 0 25 ||| 0#32
  rw [hmask, Word.and_immediate, h, BitVec.and_allOnes, BitVec.and_zero, BitVec.and_zero,
    BitVec.and_zero, BitVec.or_zero]
  rfl

theorem of_jr {op : Opcode} (h : w.opcode = op.code) :
    Format.register op 0 0 w.rb 0 = w &&& ~~~(Word.span 0 10 ||| Word.span 16 25) ||| 0#32 := by
  have hmask : ~~~(Word.span 0 10 ||| Word.span 16 25) =
      BitVec.allOnes 6 ++ 0#5 ++ 0#5 ++ BitVec.allOnes 5 ++ 0#11 := by decide
  rw [hmask, Word.and_register, h, BitVec.and_allOnes, BitVec.and_allOnes, BitVec.and_zero,
    BitVec.and_zero, BitVec.and_zero, BitVec.or_zero]
  rfl

theorem of_shiftImm {op : ShiftOp} (h : w.opcode = Opcode.shiftImm.code)
    (hop : op.code = w.shiftKind) :
    Recodes w (.shiftImm op w.rd w.ra (w.shiftAmount.setWidth 8)) := by
  have hmask : ~~~(Word.span 5 5 ||| Word.span 8 15) =
      BitVec.allOnes 6 ++ BitVec.allOnes 5 ++ BitVec.allOnes 5 ++
        (0#8 ++ BitVec.allOnes 2 ++ 0#1 ++ BitVec.allOnes 5) := by decide
  have hamount : (w.shiftAmount.setWidth 8).extractLsb' 0 5 = w.shiftAmount := by
    rw [← BitVec.setWidth_eq_extractLsb' (by decide)]
    simp
  change Format.immediate .shiftImm w.rd w.ra (0#8 ++ op.code ++ 0#1 ++ _) =
    w &&& ~~~(Word.span 5 5 ||| Word.span 8 15) ||| 0#32
  rw [hmask, Word.and_immediate, h, Word.immediate_and_shift, BitVec.and_allOnes,
    BitVec.and_allOnes, BitVec.and_allOnes, BitVec.or_zero, hamount, hop]
  rfl

theorem of_alu {op : AluOp} (h : w.opcode = Opcode.alu.code) (hop : op.code = w.aluCode) :
    Recodes w (.alu op w.rd w.ra w.rb) := by
  have hmask : ~~~(Word.span 4 5 ||| Word.span 10 10) =
      BitVec.allOnes 6 ++ BitVec.allOnes 5 ++ BitVec.allOnes 5 ++ BitVec.allOnes 5 ++
        (0#1 ++ BitVec.allOnes 4 ++ 0#2 ++ BitVec.allOnes 4) := by decide
  have hhigh : op.code.extractLsb' 4 4 = w.extractLsb' 6 4 := by
    rw [hop]
    exact BitVec.extractLsb'_append_eq_left
  have hlow : op.code.extractLsb' 0 4 = w.extractLsb' 0 4 := by
    rw [hop]
    exact BitVec.extractLsb'_append_eq_right
  change Format.register .alu w.rd w.ra w.rb (0#1 ++ _ ++ 0#2 ++ _) =
    w &&& ~~~(Word.span 4 5 ||| Word.span 10 10) ||| 0#32
  rw [hmask, Word.and_register, h, Word.extractLsb'_and_alu, BitVec.and_allOnes,
    BitVec.and_allOnes, BitVec.and_allOnes, BitVec.and_allOnes, BitVec.or_zero, hhigh, hlow]
  rfl

theorem of_setFlag {c : Condition} (h : w.opcode = Opcode.setFlag.code)
    (hc : c.code = w.selector) : Recodes w (.setFlag c w.ra w.rb) := by
  have hmask : ~~~Word.span 0 10 =
      BitVec.allOnes 6 ++ BitVec.allOnes 5 ++ BitVec.allOnes 5 ++ BitVec.allOnes 5 ++ 0#11 := by
    decide
  change Format.register .setFlag c.code w.ra w.rb 0 = w &&& ~~~Word.span 0 10 ||| 0#32
  rw [hmask, Word.and_register, h, BitVec.and_allOnes, BitVec.and_allOnes, BitVec.and_allOnes,
    BitVec.and_allOnes, BitVec.and_zero, BitVec.or_zero, hc]
  rfl

theorem of_meaning {i : Instruction} (hi : Meaning w i) : Recodes w i := by
  cases hi with
  | @family op h hs =>
    cases op with
    | j | jal | bnf | bf => exact of_eq (Format.jump_jumpOffset h) rfl rfl
    | nop => exact of_nop h
    | movhi => exact of_movhi h
    | rfe => exact of_rfe h
    | jr | jalr => exact of_jr h
    | load | addi | andi | ori | xori | mfspr =>
      exact of_eq (Format.immediate_fields h) rfl rfl
    | mtspr | store => exact of_eq (Format.split_fields h) rfl rfl
    | system | shiftImm | setFlagImm | alu | setFlag => cases hs
  | sys h | trap h =>
    refine of_eq ?_ rfl rfl
    rw [encode, Format.tagged, ← h, Word.eq_tagged]
  | shiftImm h hop => exact of_shiftImm h hop
  | setFlagImm h hc =>
    refine of_eq ?_ rfl rfl
    rw [encode, hc]
    exact Format.immediate_fields h
  | alu h hop => exact of_alu h hop
  | setFlag h hc => exact of_setFlag h hc
  | illegal => exact of_illegal w

end Recodes

/-! ### Canonical words -/

theorem filling_and_not_unused (i : Instruction) : i.filling &&& ~~~i.unused = 0#32 := by
  cases i with
  | nop k =>
    change 0x100#32 <<< 16 &&& ~~~Word.span 16 25 = 0#32
    decide
  | _ => exact BitVec.zero_and

/-- A word is put together of the bits that a mask takes and of those that it leaves. -/
theorem masked_or_eq_self_iff {w u f : Word} (hf : f &&& ~~~u = 0#32) :
    w &&& ~~~u ||| f = w ↔ w &&& u = f := by
  have hinside : f &&& u = f := by
    have hsplit : f = f &&& u ||| f &&& ~~~u := by
      rw [← BitVec.and_or_distrib_left, BitVec.or_not_self, BitVec.and_allOnes]
    rw [hf, BitVec.or_zero] at hsplit
    exact hsplit.symm
  constructor
  · intro h
    have hcut : (w &&& ~~~u ||| f) &&& u = f := by
      rw [BitVec.and_or_distrib_right, BitVec.and_assoc, BitVec.not_and_self, hinside]
      exact (congrArg (· ||| f) BitVec.and_zero).trans BitVec.zero_or
    rw [← hcut, h]
  · intro h
    rw [← h, ← BitVec.and_or_distrib_left, BitVec.not_or_self, BitVec.and_allOnes]

theorem Meaning.reduced_eq_self {w : Word} {i : Instruction} (hi : Meaning w i) :
    i.reduced = i := by
  cases hi with
  | @family op h hs =>
    have hjump : residue w.jumpOffset = w.jumpOffset := by
      rw [← signExtend_setWidth, Word.setWidth_jumpOffset, Word.jumpOffset]
    cases op with
    | j => exact congrArg j hjump
    | jal => exact congrArg jal hjump
    | bnf => exact congrArg bnf hjump
    | bf => exact congrArg bf hjump
    | system | shiftImm | setFlagImm | alu | setFlag => cases hs
    | _ => rfl
  | @shiftImm op h hop =>
    have hamount : w.shiftAmount.setWidth 8 % 32 = w.shiftAmount.setWidth 8 := by
      have hlt : w.shiftAmount.toNat < 32 := w.shiftAmount.isLt
      rw [umod_eq_self_iff, BitVec.toNat_setWidth_of_le (by decide)]
      omega
    exact congrArg (Instruction.shiftImm op w.rd w.ra) hamount
  | illegal h => exact h
  | _ => rfl

/-- A word in which the bits that its meaning does not use are filled in. -/
def IsCanonical (w : Word) : Prop := w &&& (decode w).unused = (decode w).filling

theorem encode_decode_eq_self_iff (w : Word) : (decode w).encode = w ↔ IsCanonical w := by
  have hrecoded : (decode w).encode = w &&& ~~~(decode w).unused ||| (decode w).filling :=
    Recodes.of_meaning (Meaning.of_decode w)
  rw [hrecoded]
  exact masked_or_eq_self_iff (filling_and_not_unused (decode w))

theorem isCanonical_of_illegal {w v : Word} (h : decode w = illegal v) : IsCanonical w := by
  rw [IsCanonical, h]
  exact BitVec.and_zero

theorem encode_decode_and_not_unused (w : Word) :
    (decode w).encode &&& ~~~(decode w).unused = w &&& ~~~(decode w).unused := by
  have hrecoded : (decode w).encode = w &&& ~~~(decode w).unused ||| (decode w).filling :=
    Recodes.of_meaning (Meaning.of_decode w)
  rw [hrecoded, BitVec.and_or_distrib_right, BitVec.and_assoc, BitVec.and_self,
    filling_and_not_unused, BitVec.or_zero]

theorem decode_encode_decode (w : Word) : decode (decode w).encode = decode w := by
  rw [decode_encode_eq_reduced]
  exact (Meaning.of_decode w).reduced_eq_self

/-- Encoding undoes decoding exactly on the canonical words. Of any other word it changes unused
bits only and keeps the meaning, so words mean the same exactly if they are recoded to the same. -/
theorem encode_decode (w v : Word) :
    ((decode w).encode = w ↔ (∃ u, decode w = illegal u) ∨ IsCanonical w) ∧
      (decode w).encode &&& ~~~(decode w).unused = w &&& ~~~(decode w).unused ∧
      decode (decode w).encode = decode w ∧
      (decode v = decode w ↔ (decode v).encode = (decode w).encode) := by
  refine ⟨?_, encode_decode_and_not_unused w, decode_encode_decode w, congrArg encode, ?_⟩
  · rw [encode_decode_eq_self_iff, or_iff_right_of_imp]
    rintro ⟨u, hu⟩
    exact isCanonical_of_illegal hu
  · intro h
    rw [← decode_encode_decode v, h, decode_encode_decode]

end Instruction

end Orbis
