import Orbis.Isa.Encoding

/-!
# From instructions to words and back

Every field of a word can be read off the layout that it was put together with. So decoding finds
the opcode of an encoded instruction and then its operands, as far as they fit their fields: of a
jump offset the signed residue of 26 bits comes back, and of a shift amount the residue modulo 32.
-/

namespace Orbis

/-! ### The fields of a layout -/

namespace Format

variable (op : Opcode) (offset : Word) (d a b : BitVec 5) (i : Half) (m : BitVec 11)

@[simp] theorem opcode_jump : (jump op offset).opcode = op.code :=
  BitVec.extractLsb'_append_eq_left

@[simp] theorem jumpOffset_jump :
    (jump op offset).jumpOffset = (offset.setWidth 26).signExtend 32 := by
  rw [jump, Word.jumpOffset, BitVec.extractLsb'_append_eq_right]

@[simp] theorem opcode_immediate : (immediate op d a i).opcode = op.code := by
  rw [immediate, Word.opcode, BitVec.extractLsb'_append_eq_of_le (by decide),
    BitVec.extractLsb'_append_eq_of_le (by decide), BitVec.extractLsb'_append_eq_left]

@[simp] theorem rd_immediate : (immediate op d a i).rd = d := by
  rw [immediate, Word.rd, BitVec.extractLsb'_append_eq_of_le (by decide),
    BitVec.extractLsb'_append_eq_of_le (by decide), BitVec.extractLsb'_append_eq_right]

@[simp] theorem selector_immediate : (immediate op d a i).selector = d := rd_immediate ..

@[simp] theorem ra_immediate : (immediate op d a i).ra = a := by
  rw [immediate, Word.ra, BitVec.extractLsb'_append_eq_of_le (by decide),
    BitVec.extractLsb'_append_eq_right]

@[simp] theorem immediate_immediate : (immediate op d a i).immediate = i :=
  BitVec.extractLsb'_append_eq_right

@[simp] theorem shiftKind_immediate (kind : BitVec 2) (amount : BitVec 5) :
    (immediate op d a (0#8 ++ kind ++ 0#1 ++ amount)).shiftKind = kind := by
  rw [immediate, Word.shiftKind, BitVec.extractLsb'_append_eq_of_add_le (by decide),
    BitVec.extractLsb'_append_eq_of_le (by decide), BitVec.extractLsb'_append_eq_of_le (by decide),
    BitVec.extractLsb'_append_eq_right]

@[simp] theorem shiftAmount_immediate (kind : BitVec 2) (amount : BitVec 5) :
    (immediate op d a (0#8 ++ kind ++ 0#1 ++ amount)).shiftAmount = amount := by
  rw [immediate, Word.shiftAmount, BitVec.extractLsb'_append_eq_of_add_le (by decide),
    BitVec.extractLsb'_append_eq_right]

@[simp] theorem opcode_register : (register op d a b m).opcode = op.code := by
  rw [register, Word.opcode, BitVec.extractLsb'_append_eq_of_le (by decide),
    BitVec.extractLsb'_append_eq_of_le (by decide), BitVec.extractLsb'_append_eq_of_le (by decide),
    BitVec.extractLsb'_append_eq_left]

@[simp] theorem rd_register : (register op d a b m).rd = d := by
  rw [register, Word.rd, BitVec.extractLsb'_append_eq_of_le (by decide),
    BitVec.extractLsb'_append_eq_of_le (by decide), BitVec.extractLsb'_append_eq_of_le (by decide),
    BitVec.extractLsb'_append_eq_right]

@[simp] theorem selector_register : (register op d a b m).selector = d := rd_register ..

@[simp] theorem ra_register : (register op d a b m).ra = a := by
  rw [register, Word.ra, BitVec.extractLsb'_append_eq_of_le (by decide),
    BitVec.extractLsb'_append_eq_of_le (by decide), BitVec.extractLsb'_append_eq_right]

@[simp] theorem rb_register : (register op d a b m).rb = b := by
  rw [register, Word.rb, BitVec.extractLsb'_append_eq_of_le (by decide),
    BitVec.extractLsb'_append_eq_right]

@[simp] theorem aluCode_register (high low : BitVec 4) :
    (register op d a b (0#1 ++ high ++ 0#2 ++ low)).aluCode = high ++ low := by
  have hhigh : (register op d a b (0#1 ++ high ++ 0#2 ++ low)).extractLsb' 6 4 = high := by
    rw [register, BitVec.extractLsb'_append_eq_of_add_le (by decide),
      BitVec.extractLsb'_append_eq_of_le (by decide),
      BitVec.extractLsb'_append_eq_of_le (by decide), BitVec.extractLsb'_append_eq_right]
  have hlow : (register op d a b (0#1 ++ high ++ 0#2 ++ low)).extractLsb' 0 4 = low := by
    rw [register, BitVec.extractLsb'_append_eq_of_add_le (by decide),
      BitVec.extractLsb'_append_eq_right]
  rw [Word.aluCode, hhigh, hlow]

@[simp] theorem opcode_split : (split op a b i).opcode = op.code := opcode_register ..

@[simp] theorem ra_split : (split op a b i).ra = a := ra_register ..

@[simp] theorem rb_split : (split op a b i).rb = b := rb_register ..

@[simp] theorem splitImmediate_split : (split op a b i).splitImmediate = i := by
  have hhigh : (split op a b i).extractLsb' 21 5 = i.extractLsb' 11 5 :=
    rd_register ..
  have hlow : (split op a b i).extractLsb' 0 11 = i.extractLsb' 0 11 :=
    BitVec.extractLsb'_append_eq_right
  rw [Word.splitImmediate, hhigh, hlow, BitVec.extractLsb'_append_extractLsb']

@[simp] theorem opcode_tagged (tag k : Half) : (tagged tag k).opcode = tag.extractLsb' 10 6 :=
  BitVec.extractLsb'_append_eq_of_le (by decide)

@[simp] theorem high_tagged (tag k : Half) : (tagged tag k).high = tag :=
  BitVec.extractLsb'_append_eq_left

@[simp] theorem immediate_tagged (tag k : Half) : (tagged tag k).immediate = k :=
  BitVec.extractLsb'_append_eq_right

end Format

/-! ### Codes that were found -/

theorem code_of_find? {α : Type} {n : Nat} {code : α → BitVec n} {c : BitVec n} {all : List α}
    {op : α} (h : all.find? (code · == c) = some op) : code op = c := by
  simpa using List.find?_some h

theorem Opcode.code_of_ofCode? {c : BitVec 6} {op : Opcode} (h : ofCode? c = some op) :
    op.code = c := code_of_find? h

theorem ShiftOp.code_of_ofCode? {c : BitVec 2} {op : ShiftOp} (h : ofCode? c = some op) :
    op.code = c := code_of_find? h

theorem Condition.code_of_ofCode? {c : BitVec 5} {op : Condition} (h : ofCode? c = some op) :
    op.code = c := code_of_find? h

theorem AluOp.code_of_ofCode? {c : BitVec 8} {op : AluOp} (h : ofCode? c = some op) :
    op.code = c := code_of_find? h

/-- Whether the words of a family are told apart by a further selector. -/
def Opcode.selects : Opcode → Bool
  | system | shiftImm | setFlagImm | alu | setFlag => true
  | _ => false

namespace Instruction

/-! ### What a word means -/

/-- The meanings of a word: those of its family, the one that its selector picks there, or none. -/
inductive Meaning (w : Word) : Instruction → Prop
  | family {op : Opcode} (h : w.opcode = op.code) (hs : op.selects = false) :
      Meaning w (decodeAs w op)
  | sys (h : w.high = sysTag) : Meaning w (sys w.immediate)
  | trap (h : w.high = trapTag) : Meaning w (trap w.immediate)
  | shiftImm {op : ShiftOp} (h : w.opcode = Opcode.shiftImm.code) (hop : op.code = w.shiftKind) :
      Meaning w (shiftImm op w.rd w.ra (w.shiftAmount.setWidth 8))
  | setFlagImm {c : Condition} (h : w.opcode = Opcode.setFlagImm.code) (hc : c.code = w.selector) :
      Meaning w (setFlagImm c w.ra w.immediate)
  | alu {op : AluOp} (h : w.opcode = Opcode.alu.code) (hop : op.code = w.aluCode) :
      Meaning w (alu op w.rd w.ra w.rb)
  | setFlag {c : Condition} (h : w.opcode = Opcode.setFlag.code) (hc : c.code = w.selector) :
      Meaning w (setFlag c w.ra w.rb)
  | illegal (h : decode w = illegal w) : Meaning w (illegal w)

theorem decode_of_opcode {w : Word} {op : Opcode} (h : w.opcode = op.code) :
    decode w = decodeAs w op := by
  rw [decode, h, Opcode.ofCode?_code, Option.elim_some]

theorem Meaning.of_illegal {w : Word} (h : decode w = .illegal w) : Meaning w (decode w) := by
  rw [h]
  exact .illegal h

theorem Meaning.of_decode (w : Word) : Meaning w (decode w) := by
  cases hfound : Opcode.ofCode? w.opcode with
  | none => exact of_illegal (by rw [decode, hfound, Option.elim_none])
  | some op =>
    have h : w.opcode = op.code := (Opcode.code_of_ofCode? hfound).symm
    have hd : decode w = decodeAs w op := decode_of_opcode h
    cases op with
    | system =>
      rw [decodeAs, decodeSystem] at hd
      by_cases hsys : w.high = sysTag
      · rw [hd, if_pos hsys]
        exact .sys hsys
      · by_cases htrap : w.high = trapTag
        · rw [hd, if_neg hsys, if_pos htrap]
          exact .trap htrap
        · exact of_illegal (by rw [hd, if_neg hsys, if_neg htrap])
    | shiftImm =>
      rw [decodeAs] at hd
      cases hop : ShiftOp.ofCode? w.shiftKind with
      | none => exact of_illegal (by rw [hd, hop, Option.elim_none])
      | some op =>
        rw [hd, hop]
        exact .shiftImm h (ShiftOp.code_of_ofCode? hop)
    | setFlagImm =>
      rw [decodeAs] at hd
      cases hc : Condition.ofCode? w.selector with
      | none => exact of_illegal (by rw [hd, hc, Option.elim_none])
      | some c =>
        rw [hd, hc]
        exact .setFlagImm h (Condition.code_of_ofCode? hc)
    | alu =>
      rw [decodeAs] at hd
      cases hop : AluOp.ofCode? w.aluCode with
      | none => exact of_illegal (by rw [hd, hop, Option.elim_none])
      | some op =>
        rw [hd, hop]
        exact .alu h (AluOp.code_of_ofCode? hop)
    | setFlag =>
      rw [decodeAs] at hd
      cases hc : Condition.ofCode? w.selector with
      | none => exact of_illegal (by rw [hd, hc, Option.elim_none])
      | some c =>
        rw [hd, hc]
        exact .setFlag h (Condition.code_of_ofCode? hc)
    | _ =>
      rw [hd]
      exact .family h rfl

theorem eq_of_decode_eq_illegal {w v : Word} (h : decode w = .illegal v) : v = w := by
  have hmeaning := Meaning.of_decode w
  rw [h] at hmeaning
  generalize hi : Instruction.illegal v = i at hmeaning
  cases hmeaning with
  | @family op _ hs =>
    cases op with
    | system | shiftImm | setFlagImm | alu | setFlag => cases hs
    | _ => cases hi
  | illegal => exact Instruction.illegal.inj hi
  | _ => cases hi

/-! ### What comes back -/

/-- The signed residue of a jump offset modulo the 26 bits of its field. -/
def residue (n : Word) : Word := .ofInt 32 (n.toInt.bmod 0x4000000)

/-- An instruction as it comes back from its word. -/
def reduced : Instruction → Instruction
  | j n => j (residue n)
  | jal n => jal (residue n)
  | bnf n => bnf (residue n)
  | bf n => bf (residue n)
  | shiftImm op d a l => shiftImm op d a (l % 32)
  | illegal w => decode w
  | i => i

/-- Whether the operands of an instruction fit their fields. What is kept as a word without meaning
has to be one. -/
def Fits : Instruction → Prop
  | j n | jal n | bnf n | bf n => -0x2000000 ≤ n.toInt ∧ n.toInt < 0x2000000
  | shiftImm _ _ _ l => l.toNat ≤ 31
  | illegal w => ∃ v, decode w = illegal v
  | _ => True

theorem bmod_bounds (n : Word) :
    -0x2000000 ≤ n.toInt.bmod 0x4000000 ∧ n.toInt.bmod 0x4000000 < 0x2000000 := by
  have hlow := Int.le_bmod (x := n.toInt) (m := 0x4000000) (by decide)
  have hhigh := Int.bmod_lt (x := n.toInt) (m := 0x4000000) (by decide)
  omega

theorem toInt_residue (n : Word) : (residue n).toInt = n.toInt.bmod 0x4000000 := by
  obtain ⟨hlow, hhigh⟩ := bmod_bounds n
  rw [residue, BitVec.toInt_ofInt]
  exact Int.bmod_eq_of_le (by omega) (by omega)

theorem signExtend_setWidth (n : Word) : (n.setWidth 26).signExtend 32 = residue n := by
  apply BitVec.eq_of_toInt_eq
  rw [toInt_residue, BitVec.toInt_signExtend_of_le (by decide), BitVec.toInt_setWidth,
    BitVec.toInt_eq_toNat_bmod]
  exact (Int.bmod_bmod_of_dvd (by decide)).symm

theorem residue_eq_self_iff (n : Word) :
    residue n = n ↔ -0x2000000 ≤ n.toInt ∧ n.toInt < 0x2000000 := by
  rw [← BitVec.toInt_inj, toInt_residue]
  constructor
  · intro h
    rw [← h]
    exact bmod_bounds n
  · intro ⟨hlow, hhigh⟩
    exact Int.bmod_eq_of_le (by omega) (by omega)

theorem setWidth_shiftAmount (l : Byte) : (l.extractLsb' 0 5).setWidth 8 = l % 32 := by
  apply BitVec.eq_of_toNat_eq
  have hlt : l.toNat % 32 < 256 := by omega
  rw [BitVec.toNat_setWidth, BitVec.extractLsb'_toNat, BitVec.toNat_umod]
  exact Nat.mod_eq_of_lt hlt

theorem umod_eq_self_iff (l : Byte) : l % 32 = l ↔ l.toNat ≤ 31 := by
  have hmod : (l % 32).toNat = l.toNat % 32 := BitVec.toNat_umod
  rw [← BitVec.toNat_inj, hmod]
  omega

/-- Encoding loses nothing but what does not fit its field. -/
theorem decode_encode_eq_reduced (i : Instruction) : decode i.encode = i.reduced := by
  cases i with
  | j n | jal n | bnf n | bf n =>
    rw [encode, decode_of_opcode (Format.opcode_jump _ n)]
    simp [decodeAs, reduced, signExtend_setWidth]
  | nop k =>
    have hop : (Format.tagged nopTag k).opcode = Opcode.nop.code := Format.opcode_tagged ..
    rw [encode, decode_of_opcode hop]
    simp [decodeAs, reduced]
  | sys k =>
    have hop : (Format.tagged sysTag k).opcode = Opcode.system.code := Format.opcode_tagged ..
    rw [encode, decode_of_opcode hop]
    simp [decodeAs, decodeSystem, reduced]
  | trap k =>
    have hop : (Format.tagged trapTag k).opcode = Opcode.system.code := Format.opcode_tagged ..
    have htag : trapTag ≠ sysTag := by decide
    rw [encode, decode_of_opcode hop]
    simp [decodeAs, decodeSystem, htag, reduced]
  | rfe | movhi | load | addi | andi | ori | xori | mfspr =>
    rw [encode, decode_of_opcode (Format.opcode_immediate ..)]
    simp [decodeAs, reduced]
  | shiftImm op d a l =>
    rw [encode, decode_of_opcode (Format.opcode_immediate ..)]
    simp [decodeAs, ShiftOp.ofCode?_code, setWidth_shiftAmount, reduced]
  | setFlagImm c a i =>
    rw [encode, decode_of_opcode (Format.opcode_immediate ..)]
    simp [decodeAs, Condition.ofCode?_code, reduced]
  | jr | jalr =>
    rw [encode, decode_of_opcode (Format.opcode_register ..)]
    simp [decodeAs, reduced]
  | mtspr | store =>
    rw [encode, decode_of_opcode (Format.opcode_split ..)]
    simp [decodeAs, reduced]
  | alu op d a b =>
    have hcode : op.code.extractLsb' 4 4 ++ op.code.extractLsb' 0 4 = op.code :=
      BitVec.extractLsb'_append_extractLsb'
    rw [encode, decode_of_opcode (Format.opcode_register ..)]
    simp [decodeAs, hcode, AluOp.ofCode?_code, reduced]
  | setFlag c a b =>
    rw [encode, decode_of_opcode (Format.opcode_register ..)]
    simp [decodeAs, Condition.ofCode?_code, reduced]
  | illegal w => rfl

theorem reduced_eq_self_iff (i : Instruction) : i.reduced = i ↔ i.Fits := by
  cases i with
  | j n | jal n | bnf n | bf n =>
    simp only [reduced, Fits, j.injEq, jal.injEq, bnf.injEq, bf.injEq]
    exact residue_eq_self_iff n
  | shiftImm op d a l =>
    simp only [reduced, Fits, shiftImm.injEq, true_and]
    exact umod_eq_self_iff l
  | illegal w =>
    constructor
    · intro h
      exact ⟨w, h⟩
    · intro ⟨v, hv⟩
      rw [reduced, hv, eq_of_decode_eq_illegal hv]
  | _ => exact iff_of_true rfl trivial

/-- Decoding undoes encoding up to what does not fit: of a jump offset the signed residue of 26 bits
comes back, of a shift amount the residue modulo 32, and from a word kept as illegal what that word
means. So it gives back exactly the instructions whose operands fit their fields. -/
theorem decode_encode (i : Instruction) :
    decode i.encode = i.reduced ∧ (decode i.encode = i ↔ i.Fits) := by
  refine ⟨decode_encode_eq_reduced i, ?_⟩
  rw [decode_encode_eq_reduced]
  exact reduced_eq_self_iff i

end Instruction

end Orbis
