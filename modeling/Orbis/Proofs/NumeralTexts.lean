import Orbis.Numeral
import Orbis.Isa.Instruction

/-!
# What numerals show

A numeral shows its number: digits of any radix up to sixteen give the number back, with or without
zeros in front of them. So two numbers never share a numeral. Numerals consist of letters, digits
and minus signs only, which leaves other characters free to separate them.
-/

namespace Orbis

/-- Whether a text consists of the characters of numerals and of the names of registers. -/
def Plain (s : String) : Prop := ∀ c ∈ s.toList, c.isAlphanum = true ∨ c = '-'

theorem Plain.append {s t : String} (hs : Plain s) (ht : Plain t) : Plain (s ++ t) := by
  intro c hc
  rw [String.toList_append, List.mem_append] at hc
  exact hc.elim (hs c) (ht c)

namespace Numeral

variable {radix : Nat}

/-- The number that some digits write, the most significant one first. -/
def ofDigits (radix : Nat) (cs : List Char) : Nat :=
  cs.foldl (fun n c => n * radix + (digit? radix c).getD 0) 0

theorem digit?_digitChar {d : Nat} (hd : d < radix) (hr : radix ≤ 16) :
    digit? radix d.digitChar = some d := by
  have hdigit : ∀ d : Fin 16, ∀ r : Fin 17, d.val < r.val →
      digit? r.val (Nat.digitChar d.val) = some d.val := by decide
  exact hdigit ⟨d, Nat.lt_of_lt_of_le hd hr⟩ ⟨radix, Nat.lt_succ_of_le hr⟩ hd

theorem ofDigits_concat (cs : List Char) (c : Char) :
    ofDigits radix (cs ++ [c]) = ofDigits radix cs * radix + (digit? radix c).getD 0 := by
  rw [ofDigits, List.foldl_append]
  rfl

theorem ofDigits_toDigits (hlt : 1 < radix) (hr : radix ≤ 16) (n : Nat) :
    ofDigits radix (Nat.toDigits radix n) = n := by
  induction n using Nat.strongRecOn with
  | ind n ih =>
    have hlast : digit? radix (n % radix).digitChar = some (n % radix) :=
      digit?_digitChar (Nat.mod_lt n (Nat.zero_lt_of_lt hlt)) hr
    by_cases hn : n < radix
    · rw [Nat.toDigits_of_lt_base hn, ← List.nil_append [n.digitChar], ofDigits_concat]
      rw [Nat.mod_eq_of_lt hn] at hlast
      rw [hlast, ofDigits, List.foldl_nil, Nat.zero_mul, Nat.zero_add, Option.getD_some]
    · have hle := Nat.le_of_not_lt hn
      rw [Nat.toDigits_of_base_le hlt hle, ofDigits_concat, hlast, Option.getD_some,
        ih (n / radix) (Nat.div_lt_self (Nat.lt_of_lt_of_le (Nat.zero_lt_of_lt hlt) hle) hlt)]
      exact Nat.div_add_mod' n radix

theorem ofDigits_leftpad (hlt : 1 < radix) (hr : radix ≤ 16) (width : Nat) (cs : List Char) :
    ofDigits radix (cs.leftpad width '0') = ofDigits radix cs := by
  have hzero : digit? radix '0' = some 0 := digit?_digitChar (Nat.zero_lt_of_lt hlt) hr
  rw [List.leftpad]
  induction width - cs.length with
  | zero => rfl
  | succ k ih =>
    rw [← ih, List.replicate_succ, List.cons_append, ofDigits, List.foldl_cons, hzero]
    simp [ofDigits]

theorem decimal_inj {n m : Nat} : decimal n = decimal m ↔ n = m := by
  refine ⟨fun h => ?_, congrArg decimal⟩
  rw [← ofDigits_toDigits (by decide : 1 < 10) (by decide) n,
    ← ofDigits_toDigits (by decide : 1 < 10) (by decide) m]
  exact congrArg _ (String.ofList_injective h)

theorem hexDigits_inj {width n m : Nat} : hexDigits width n = hexDigits width m ↔ n = m := by
  refine ⟨fun h => ?_, congrArg _⟩
  have hdigits := congrArg (ofDigits 16) (String.ofList_injective h)
  rwa [ofDigits_leftpad (by decide) (by decide), ofDigits_leftpad (by decide) (by decide),
    ofDigits_toDigits (by decide) (by decide), ofDigits_toDigits (by decide) (by decide)] at hdigits

theorem hex_inj {n m : Nat} : hex n = hex m ↔ n = m :=
  (String.append_right_inj _).trans hexDigits_inj

theorem hexWord_inj {w v : BitVec 32} : hexWord w = hexWord v ↔ w = v :=
  (String.append_right_inj _).trans (hexDigits_inj.trans BitVec.toNat_inj)

/-! ### Characters -/

theorem exists_digitChar_of_mem {c : Char} {n : Nat} (hlt : 1 < radix)
    (h : c ∈ Nat.toDigits radix n) : ∃ d, d < radix ∧ c = d.digitChar := by
  induction n using Nat.strongRecOn with
  | ind n ih =>
    have hpos := Nat.zero_lt_of_lt hlt
    by_cases hn : n < radix
    · rw [Nat.toDigits_of_lt_base hn] at h
      exact ⟨n, hn, List.mem_singleton.mp h⟩
    · have hle := Nat.le_of_not_lt hn
      rw [Nat.toDigits_of_base_le hlt hle, List.mem_append] at h
      rcases h with h | h
      · exact ih (n / radix) (Nat.div_lt_self (Nat.lt_of_lt_of_le hpos hle) hlt) h
      · exact ⟨n % radix, Nat.mod_lt n hpos, List.mem_singleton.mp h⟩

theorem isAlphanum_of_mem {c : Char} {n : Nat} (hlt : 1 < radix) (hr : radix ≤ 16)
    (h : c ∈ Nat.toDigits radix n) : c.isAlphanum = true := by
  obtain ⟨d, hd, rfl⟩ := exists_digitChar_of_mem hlt h
  have hall : ∀ d : Fin 16, (Nat.digitChar d.val).isAlphanum = true := by decide
  exact hall ⟨d, Nat.lt_of_lt_of_le hd hr⟩

theorem isAlphanum_decimal {c : Char} {n : Nat} (h : c ∈ (decimal n).toList) :
    c.isAlphanum = true := by
  rw [decimal, String.toList_ofList] at h
  exact isAlphanum_of_mem (by decide) (by decide) h

theorem plain_decimal (n : Nat) : Plain (decimal n) := fun _ hc => .inl (isAlphanum_decimal hc)

theorem plain_signed (i : Int) : Plain (signed i) := by
  cases i with
  | ofNat n => exact plain_decimal n
  | negSucc n =>
    have hminus : Plain "-" := fun c hc => .inr (List.mem_singleton.mp hc)
    exact hminus.append (plain_decimal (n + 1))

theorem plain_hexDigits (width n : Nat) : Plain (hexDigits width n) := by
  intro c hc
  rw [hexDigits, String.toList_ofList, List.leftpad, List.mem_append] at hc
  rcases hc with hc | hc
  · rw [List.eq_of_mem_replicate hc]
    exact .inl rfl
  · exact .inl (isAlphanum_of_mem (by decide) (by decide) hc)

theorem plain_hexMark : Plain "0x" := by
  intro c hc
  rcases List.mem_cons.mp (show c ∈ ['0', 'x'] from hc) with rfl | hx
  · exact .inl rfl
  · rw [List.mem_singleton.mp hx]
    exact .inl rfl

theorem plain_hex (n : Nat) : Plain (hex n) := plain_hexMark.append (plain_hexDigits 1 n)

theorem plain_hexWord (w : BitVec 32) : Plain (hexWord w) :=
  plain_hexMark.append (plain_hexDigits 8 w.toNat)

/-- A minus sign is no digit. -/
theorem signed_inj {i j : Int} : signed i = signed j ↔ i = j := by
  have hsign : ∀ n m, decimal n ≠ "-" ++ decimal m := by
    intro n m h
    have hmem : '-' ∈ (decimal n).toList := by
      rw [h, String.toList_append]
      exact List.mem_append_left _ List.mem_cons_self
    exact absurd (isAlphanum_decimal hmem) (by decide)
  refine ⟨fun h => ?_, congrArg signed⟩
  cases i with
  | ofNat n =>
    cases j with
    | ofNat m => exact congrArg Int.ofNat (decimal_inj.mp h)
    | negSucc m => exact absurd h (hsign n (m + 1))
  | negSucc n =>
    cases j with
    | ofNat m => exact absurd h.symm (hsign m (n + 1))
    | negSucc m =>
      have hsucc := decimal_inj.mp ((String.append_right_inj _).mp h)
      exact congrArg Int.negSucc (Nat.succ.inj hsucc)

end Numeral

namespace Reg

theorem name_inj {r s : Reg} : r.name = s.name ↔ r = s :=
  (String.append_right_inj _).trans (Numeral.decimal_inj.trans BitVec.toNat_inj)

theorem plain_name (r : Reg) : Plain r.name := by
  have hmark : Plain "r" := by
    intro c hc
    rw [List.mem_singleton.mp hc]
    exact .inl rfl
  exact hmark.append (Numeral.plain_decimal r.toNat)

end Reg

end Orbis
