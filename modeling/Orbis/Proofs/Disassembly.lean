import Mathlib.Data.List.Nodup
import Orbis.Cpu.Execute
import Orbis.Isa.Assembly
import Orbis.Proofs.NumeralTexts

/-!
# Reading assembly text

The text of an instruction says which one it is. Blanks and commas occur between the parts of a text
only, so the text falls apart into mnemonic and operands again; the mnemonic names the operation,
and each operand shows its value. What a text leaves out is a second source where there is none.
-/

namespace Orbis

/-! ### Parts of a text -/

theorem not_mem_intercalate {c sep : Char} (hsep : c ≠ sep) {parts : List (List Char)}
    (h : ∀ s ∈ parts, c ∉ s) : c ∉ [sep].intercalate parts := by
  induction parts with
  | nil => exact List.not_mem_nil
  | cons s rest ih =>
    have hs : c ∉ s := h s List.mem_cons_self
    have hrest := ih fun t ht => h t (List.mem_cons_of_mem s ht)
    cases rest with
    | nil =>
      rw [List.intercalate_singleton]
      exact hs
    | cons t rest =>
      rw [List.intercalate_cons_cons, List.mem_append, List.mem_append, List.mem_singleton]
      rintro ((hc | hc) | hc)
      · exact hs hc
      · exact hsep hc
      · exact hrest hc

/-- A text determines its parts if the separator occurs in none of them. -/
theorem parts_of_intercalate {sep : String} {c : Char} (hsep : sep.toList = [c])
    {parts parts' : List String} (hne : parts ≠ []) (hne' : parts' ≠ [])
    (h : ∀ s ∈ parts, c ∉ s.toList) (h' : ∀ s ∈ parts', c ∉ s.toList)
    (heq : sep.intercalate parts = sep.intercalate parts') : parts = parts' := by
  have hsplit : ∀ {l : List String}, l ≠ [] → (∀ s ∈ l, c ∉ s.toList) →
      (sep.intercalate l).toList.splitOn c = l.map String.toList := by
    intro l hl hc
    rw [String.toList_intercalate, hsep]
    exact List.splitOn_intercalate c (by simpa using hc) (by simpa using hl)
  have hlists : parts.map String.toList = parts'.map String.toList := by
    rw [← hsplit hne h, ← hsplit hne' h', heq]
  exact List.map_injective_iff.mpr (fun _ _ => String.toList_inj.mp) hlists

theorem Plain.not_mem {s : String} (h : Plain s) {c : Char} (hc : c.isAlphanum = false)
    (hne : c ≠ '-') : c ∉ s.toList := by
  intro hmem
  rcases h c hmem with halnum | heq
  · cases hc.symm.trans halnum
  · exact hne heq

/-- Whether a text has neither blanks nor commas. -/
def Unbroken (s : String) : Prop := ' ' ∉ s.toList ∧ ',' ∉ s.toList

theorem Plain.unbroken {s : String} (h : Plain s) : Unbroken s :=
  ⟨h.not_mem rfl (by decide), h.not_mem rfl (by decide)⟩

namespace Instruction

theorem displaced_eq (i : Half) (a : Reg) :
    displaced i a = "(".intercalate [Numeral.signed i.toInt, a.name] ++ ")" := by
  rw [displaced, String.intercalate_cons_cons, String.intercalate_singleton]

theorem displaced_inj {i j : Half} {a b : Reg} :
    displaced i a = displaced j b ↔ i = j ∧ a = b := by
  refine ⟨fun h => ?_, fun h => by rw [h.1, h.2]⟩
  have hopen : ∀ (i : Half) (a : Reg), ∀ s ∈ [Numeral.signed i.toInt, a.name], '(' ∉ s.toList := by
    intro i a s hs
    rcases List.mem_pair.mp hs with rfl | rfl
    · exact (Numeral.plain_signed _).not_mem rfl (by decide)
    · exact a.plain_name.not_mem rfl (by decide)
  rw [displaced_eq, displaced_eq, String.append_left_inj] at h
  have hparts := parts_of_intercalate (c := '(') rfl (List.cons_ne_nil _ _) (List.cons_ne_nil _ _)
    (hopen i a) (hopen j b) h
  obtain ⟨hi, ha⟩ := List.cons.inj hparts
  exact ⟨BitVec.toInt_inj.mp (Numeral.signed_inj.mp hi), Reg.name_inj.mp (List.cons.inj ha).1⟩

theorem unbroken_displaced (i : Half) (a : Reg) : Unbroken (displaced i a) := by
  have hi := (Numeral.plain_signed i.toInt).unbroken
  have ha := a.plain_name.unbroken
  simp [Unbroken, displaced, hi.1, hi.2, ha.1, ha.2]

/-! ### Mnemonics -/

/-- The operands that instructions have, each some of them. -/
structure Operands where
  word : Word
  d : Reg
  a : Reg
  b : Reg
  immediate : Half
  amount : Byte

/-- The operands of an instruction, and zeros for those that it does not have. -/
def fields : Instruction → Operands
  | j n | jal n | bnf n | bf n => ⟨n, 0, 0, 0, 0, 0⟩
  | nop k | sys k | trap k => ⟨0, 0, 0, 0, k, 0⟩
  | movhi d k => ⟨0, d, 0, 0, k, 0⟩
  | rfe => ⟨0, 0, 0, 0, 0, 0⟩
  | jr b | jalr b => ⟨0, 0, 0, b, 0, 0⟩
  | load _ d a i | addi d a i | xori d a i => ⟨0, d, a, 0, i, 0⟩
  | andi d a k | ori d a k | mfspr d a k => ⟨0, d, a, 0, k, 0⟩
  | shiftImm _ d a l => ⟨0, d, a, 0, 0, l⟩
  | setFlagImm _ a i => ⟨0, 0, a, 0, i, 0⟩
  | mtspr a b k => ⟨0, 0, a, b, k, 0⟩
  | store _ a b i => ⟨0, 0, a, b, i, 0⟩
  | alu _ d a b => ⟨0, d, a, b, 0, 0⟩
  | setFlag _ a b => ⟨0, 0, a, b, 0, 0⟩
  | illegal w => ⟨w, 0, 0, 0, 0, 0⟩

/-- The same operation on other operands. -/
def withFields (i : Instruction) (f : Operands) : Instruction :=
  match i with
  | j _ => j f.word
  | jal _ => jal f.word
  | bnf _ => bnf f.word
  | bf _ => bf f.word
  | nop _ => nop f.immediate
  | movhi _ _ => movhi f.d f.immediate
  | sys _ => sys f.immediate
  | trap _ => trap f.immediate
  | rfe => rfe
  | jr _ => jr f.b
  | jalr _ => jalr f.b
  | load op _ _ _ => load op f.d f.a f.immediate
  | addi _ _ _ => addi f.d f.a f.immediate
  | andi _ _ _ => andi f.d f.a f.immediate
  | ori _ _ _ => ori f.d f.a f.immediate
  | xori _ _ _ => xori f.d f.a f.immediate
  | mfspr _ _ _ => mfspr f.d f.a f.immediate
  | shiftImm op _ _ _ => shiftImm op f.d f.a f.amount
  | setFlagImm c _ _ => setFlagImm c f.a f.immediate
  | mtspr _ _ _ => mtspr f.a f.b f.immediate
  | store op _ _ _ => store op f.a f.b f.immediate
  | alu op _ _ _ => alu op f.d f.a f.b
  | setFlag c _ _ => setFlag c f.a f.b
  | illegal _ => illegal f.word

/-- An instruction without its operands. -/
def operation (i : Instruction) : Instruction := i.withFields ⟨0, 0, 0, 0, 0, 0⟩

theorem withFields_operation (i : Instruction) : i.operation.withFields i.fields = i := by
  cases i <;> rfl

def operations : List Instruction :=
  [j 0, jal 0, bnf 0, bf 0, nop 0, movhi 0 0, sys 0, trap 0, rfe, jr 0, jalr 0] ++
    LoadOp.all.map (load · 0 0 0) ++ [addi 0 0 0, andi 0 0 0, ori 0 0 0, xori 0 0 0, mfspr 0 0 0] ++
    ShiftOp.all.map (shiftImm · 0 0 0) ++ Condition.all.map (setFlagImm · 0 0) ++ [mtspr 0 0 0] ++
    StoreOp.all.map (store · 0 0 0) ++ AluOp.all.map (alu · 0 0 0) ++
    Condition.all.map (setFlag · 0 0) ++ [illegal 0]

theorem operation_mem (i : Instruction) : i.operation ∈ operations := by
  have hall : (∀ op, load op 0 0 0 ∈ operations) ∧ (∀ op, shiftImm op 0 0 0 ∈ operations) ∧
      (∀ c, setFlagImm c 0 0 ∈ operations) ∧ (∀ op, store op 0 0 0 ∈ operations) ∧
      (∀ op, alu op 0 0 0 ∈ operations) ∧ (∀ c, setFlag c 0 0 ∈ operations) := by
    refine ⟨?_, ?_, ?_, ?_, ?_, ?_⟩ <;> intro op <;> cases op <;> decide +kernel
  obtain ⟨hload, hshift, hcompareImm, hstore, halu, hcompare⟩ := hall
  cases i with
  | load op => exact hload op
  | shiftImm op => exact hshift op
  | setFlagImm c => exact hcompareImm c
  | store op => exact hstore op
  | alu op => exact halu op
  | setFlag c => exact hcompare c
  | _ => exact of_decide_eq_true rfl

theorem mnemonic_operation (i : Instruction) : i.operation.mnemonic = i.mnemonic := by
  cases i <;> rfl

theorem nodup_mnemonics : (operations.map mnemonic).Nodup := by decide +kernel

theorem operation_of_mnemonic {x y : Instruction} (h : x.mnemonic = y.mnemonic) :
    x.operation = y.operation := by
  apply List.inj_on_of_nodup_map nodup_mnemonics x.operation_mem y.operation_mem
  rw [mnemonic_operation, mnemonic_operation, h]

theorem blank_not_mem_mnemonic (i : Instruction) : ' ' ∉ i.mnemonic.toList := by
  have hall : ∀ i ∈ operations, ' ' ∉ i.mnemonic.toList := by decide +kernel
  rw [← mnemonic_operation]
  exact hall i.operation i.operation_mem

/-! ### Operands -/

theorem unbroken_operand {i : Instruction} {s : String} (hs : s ∈ i.operands) : Unbroken s := by
  have hname (r : Reg) : Unbroken r.name := r.plain_name.unbroken
  have hsigned (n : Int) : Unbroken (Numeral.signed n) := (Numeral.plain_signed n).unbroken
  have hhex (n : Nat) : Unbroken (Numeral.hex n) := (Numeral.plain_hex n).unbroken
  have hdecimal (n : Nat) : Unbroken (Numeral.decimal n) := (Numeral.plain_decimal n).unbroken
  have hword (w : Word) : Unbroken (Numeral.hexWord w) := (Numeral.plain_hexWord w).unbroken
  revert s
  cases i with
  | alu op d a b => simp only [operands]; split <;> simp [hname]
  | _ => simp [operands, hname, hsigned, hhex, hdecimal, hword, unbroken_displaced]

/-- Whether two instructions are the same but for a second source that the operation ignores. -/
inductive Agrees : Instruction → Instruction → Prop
  | refl (i : Instruction) : Agrees i i
  | unary {op : AluOp} (h : op.isUnary = true) (d a b b' : Reg) :
      Agrees (alu op d a b) (alu op d a b')

/-- Operands of one operation differ in their texts if they differ. -/
theorem agrees_of_operands {i : Instruction} {f g : Operands}
    (h : (i.withFields f).operands = (i.withFields g).operands) :
    (i.withFields f).Agrees (i.withFields g) := by
  cases i with
  | alu op d a b =>
    simp only [withFields, operands] at h ⊢
    split at h
    · next hunary =>
      simp only [List.cons.injEq, Reg.name_inj, and_true] at h
      rw [h.1, h.2]
      exact .unary hunary _ _ _ _
    · simp only [List.cons.injEq, Reg.name_inj, and_true] at h
      rw [h.1, h.2.1, h.2.2]
      exact .refl _
  | _ =>
    simp only [withFields, operands, List.cons.injEq, and_true, Reg.name_inj, displaced_inj,
      Numeral.signed_inj, Numeral.hex_inj, Numeral.decimal_inj, Numeral.hexWord_inj,
      BitVec.toInt_inj, BitVec.toNat_inj] at h
    simp only [withFields, h]
    exact .refl _

/-! ### Texts -/

/-- The parts of a text between its blanks. -/
def words (i : Instruction) : List String :=
  i.mnemonic :: (if i.operands = [] then [] else [",".intercalate i.operands])

theorem blank_not_mem_words {i : Instruction} {s : String} (hs : s ∈ i.words) :
    ' ' ∉ s.toList := by
  rcases List.mem_cons.mp hs with rfl | hs
  · exact i.blank_not_mem_mnemonic
  · split at hs
    · cases hs
    · rw [List.mem_singleton.mp hs, String.toList_intercalate]
      change ' ' ∉ [','].intercalate _
      refine not_mem_intercalate (by decide) fun l hl => ?_
      obtain ⟨t, ht, rfl⟩ := List.mem_map.mp hl
      exact (unbroken_operand ht).1

theorem operands_of_words {x y : Instruction} (h : x.words = y.words) :
    x.operands = y.operands := by
  have htail := (List.cons.inj h).2
  split at htail
  · next hx =>
    split at htail
    · next hy => rw [hx, hy]
    · cases htail
  · next hx =>
    split at htail
    · cases htail
    · next hy =>
      exact parts_of_intercalate (c := ',') rfl hx hy (fun s hs => (unbroken_operand hs).2)
        (fun s hs => (unbroken_operand hs).2) (List.cons.inj htail).1

theorem agrees_of_text {x y : Instruction} (h : x.text = y.text) : x.Agrees y := by
  have hwords : x.words = y.words :=
    parts_of_intercalate (c := ' ') rfl (List.cons_ne_nil _ _) (List.cons_ne_nil _ _)
      (fun s hs => blank_not_mem_words hs) (fun s hs => blank_not_mem_words hs) h
  have hoperation : x.operation = y.operation :=
    operation_of_mnemonic (List.cons.inj hwords).1
  have hoperands := operands_of_words hwords
  rw [← x.withFields_operation, ← y.withFields_operation, ← hoperation] at hoperands ⊢
  exact agrees_of_operands hoperands

namespace Agrees

variable {x y : Instruction}

theorem text_eq (h : x.Agrees y) : x.text = y.text := by
  cases h with
  | refl => rfl
  | unary hunary => simp only [text, operands, mnemonic, hunary, if_true]

theorem execute_eq (h : x.Agrees y) (c : Cpu) : c.execute x = c.execute y := by
  cases h with
  | refl => rfl
  | @unary op hunary =>
    cases op with
    | ff1 | fl1 => rfl
    | _ => cases hunary

end Agrees

/-- A text identifies its instruction, up to the second source of a bit scan. Words of one
disassembly therefore decode alike and do the same. -/
theorem text_eq_iff :
    (∀ x y : Instruction, x.text = y.text ↔ x.Agrees y) ∧
    ∀ w v : Word, (decode w).text = (decode v).text →
      (decode w).Agrees (decode v) ∧ ∀ c : Cpu, c.execute (decode w) = c.execute (decode v) :=
  ⟨fun _ _ => ⟨agrees_of_text, Agrees.text_eq⟩,
    fun _ _ h => ⟨agrees_of_text h, (agrees_of_text h).execute_eq⟩⟩

/-- The text of a bit scan does not show its second source. -/
theorem text_eq_of_scan :
    let w : Word := 0xe022000f
    let v : Word := 0xe022180f
    decode w ≠ decode v ∧ (decode w).text = "l.ff1 r1,r2" ∧ (decode w).text = (decode v).text ∧
      (decode w).Agrees (decode v) ∧ ∀ c : Cpu, c.execute (decode w) = c.execute (decode v) := by
  intro w v
  have htext : (decode w).text = (decode v).text := by decide +kernel
  exact ⟨by decide +kernel, by decide +kernel, htext, text_eq_iff.2 w v htext⟩

end Instruction

end Orbis
