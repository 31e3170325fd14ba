import Mathlib.Algebra.Group.Nat.Defs
import Orbis.Proofs.LoadedPrograms

/-!
# Positions of programs

The position of a program is a word, and the number of its words is not bounded. As long as they are
fewer than `2 ^ 30`, the position is where they end as integers have it. Padding to an address
brings it to that address, rounded up, unless the program was there before; but the last three
addresses are rounded up to where there is no address, and there the position wraps around.
-/

namespace Orbis

def Word.roundUp (a : Word) : Nat := a.toNat + (4 - a.toNat % 4) % 4

/-- Where words that ended at an integer end behind a directive. -/
def Directive.behind (n : Nat) : Directive → Nat
  | emit _ | data _ => n + 4
  | padTo a => max n a.roundUp

namespace Program

variable {p : Program} {a : Word}

/-- The position is computed without loss: the number of words is one of 32 bits, and so is the
product with the size of a word. -/
structure Exact (p : Program) : Prop where
  count : (BitVec.ofNat 32 p.size).toNat = p.size
  product : (BitVec.ofNat 32 p.size).umulOverflow 4 = false

/-- Padding to an address is computed without loss: the number of words below the address, the
positions before and behind, and the latter as the larger one of the former and the address rounded
up to a multiple of four. -/
structure PadsExactly (p : Program) (a : Word) : Prop where
  before : p.Exact
  after : (p.padTo a).Exact
  quotient : (a / 4).uaddOverflow 1 = false
  rounded : (if a % 4 = 0 then a / 4 else a / 4 + 1).toNat = wordsBelow a
  size_eq : 4 * (p.padTo a).size = (p.padTo a).position.toNat
  position_eq : (p.padTo a).position.toNat = max p.position.toNat a.roundUp

/-! ### Numbers of words -/

theorem four_mul_wordsBelow (a : Word) : 4 * wordsBelow a = a.roundUp := by
  unfold wordsBelow Word.roundUp
  omega

theorem size_padTo (p : Program) (a : Word) : (p.padTo a).size = max p.size (wordsBelow a) := by
  unfold padTo size
  rw [Array.size_append, Array.size_replicate]
  omega

theorem four_mul_size_apply (p : Program) (d : Directive) :
    4 * (p.apply d).size = d.behind (4 * p.size) := by
  cases d with
  | emit | data =>
    rw [size_apply]
    rfl
  | padTo a =>
    change 4 * (p.padTo a).size = max (4 * p.size) a.roundUp
    rw [size_padTo, ← four_mul_wordsBelow]
    omega

theorem four_mul_size_build (ds : List Directive) :
    4 * (build ds).size = ds.foldl Directive.behind 0 := by
  have hfrom (p : Program) :
      4 * (ds.foldl apply p).size = ds.foldl Directive.behind (4 * p.size) := by
    induction ds generalizing p with
    | nil => rfl
    | cons d ds ih => rw [List.foldl_cons, List.foldl_cons, ih, four_mul_size_apply]
  exact hfrom .empty

/-! ### Positions -/

theorem exact_iff (p : Program) : p.Exact ↔ p.size < 2 ^ 30 := by
  constructor
  · rintro ⟨hcount, hproduct⟩
    have hlt := of_decide_eq_false hproduct
    rw [hcount] at hlt
    change ¬p.size * 4 ≥ 2 ^ 32 at hlt
    omega
  · intro h
    have hcount : (BitVec.ofNat 32 p.size).toNat = p.size := Nat.mod_eq_of_lt (by omega)
    refine ⟨hcount, decide_eq_false ?_⟩
    rw [hcount]
    change ¬p.size * 4 ≥ 2 ^ 32
    omega

theorem Exact.toNat_position (h : p.Exact) : p.position.toNat = 4 * p.size := by
  have hproduct : ¬(BitVec.ofNat 32 p.size).umulOverflow 4 = true := by
    rw [h.product]
    decide
  rw [position, BitVec.toNat_mul_of_not_umulOverflow hproduct, h.count]
  exact Nat.mul_comm p.size 4

theorem position_eq (p : Program) : p.position = .ofNat 32 (4 * p.size) := by
  apply BitVec.eq_of_toNat_eq
  rw [position, BitVec.toNat_mul, BitVec.toNat_ofNat, BitVec.toNat_ofNat]
  change p.size % 2 ^ 32 * 4 % 2 ^ 32 = 4 * p.size % 2 ^ 32
  omega

theorem toNat_rounded (a : Word) :
    (a / 4).uaddOverflow 1 = false ∧
      (if a % 4 = 0 then a / 4 else a / 4 + 1).toNat = wordsBelow a := by
  have hquotient : (a / 4).toNat = a.toNat / 4 := BitVec.toNat_udiv
  have hremainder : a % 4 = 0 ↔ a.toNat % 4 = 0 := by
    rw [← BitVec.toNat_inj, BitVec.toNat_umod]
    rfl
  have hbound := a.isLt
  have hfits : (a / 4).uaddOverflow 1 = false := by
    refine decide_eq_false ?_
    rw [hquotient]
    change ¬a.toNat / 4 + 1 ≥ 2 ^ 32
    omega
  have hnext : (a / 4 + 1).toNat = a.toNat / 4 + 1 := by
    rw [BitVec.toNat_add_of_not_uaddOverflow (by rw [hfits]; decide), hquotient]
    rfl
  refine ⟨hfits, ?_⟩
  unfold wordsBelow
  split
  · next hzero =>
    have hmod := hremainder.mp hzero
    omega
  · next hnonzero =>
    have hmod := mt hremainder.mpr hnonzero
    omega

theorem size_padTo_lt_iff (p : Program) (a : Word) :
    (p.padTo a).size < 2 ^ 30 ↔ p.size < 2 ^ 30 ∧ a.toNat ≤ 2 ^ 32 - 4 := by
  rw [size_padTo, wordsBelow]
  omega

theorem PadsExactly.of_lt (hp : p.size < 2 ^ 30) (ha : a.toNat ≤ 2 ^ 32 - 4) :
    p.PadsExactly a := by
  have hbefore : p.Exact := p.exact_iff.mpr hp
  have hfew : (p.padTo a).size < 2 ^ 30 := (p.size_padTo_lt_iff a).mpr ⟨hp, ha⟩
  have hafter : (p.padTo a).Exact := (p.padTo a).exact_iff.mpr hfew
  obtain ⟨hquotient, hrounded⟩ := toNat_rounded a
  refine ⟨hbefore, hafter, hquotient, hrounded, hafter.toNat_position.symm, ?_⟩
  rw [hafter.toNat_position, hbefore.toNat_position]
  exact p.four_mul_size_apply (.padTo a)

/-- Padding a program of fewer than `2 ^ 30` words is exact for every address but the last three,
and for no other program. In any case the words end where the directives that the program was put
together of lead as integers, and the position is what a word has of that: zero, where padding to
one of the last three addresses has filled all the address space. -/
theorem padsExactly_iff (ds : List Directive) (a : Word) :
    let p := build ds
    let q := p.padTo a
    (p.PadsExactly a ↔ p.size < 2 ^ 30 ∧ a.toNat ≤ 2 ^ 32 - 4) ∧
      4 * p.size = ds.foldl Directive.behind 0 ∧
      4 * q.size = max (4 * p.size) a.roundUp ∧
      q.position = .ofNat 32 (4 * q.size) := by
  intro p q
  refine ⟨⟨fun h => ?_, fun ⟨hp, ha⟩ => .of_lt hp ha⟩, four_mul_size_build ds,
    p.four_mul_size_apply (.padTo a), q.position_eq⟩
  exact (p.size_padTo_lt_iff a).mp (q.exact_iff.mp h.after)

/-- Padded to the second byte of the last word, an empty program fills all the address space, and
its position is the first one again. -/
theorem position_wraps :
    let p := build []
    let q := p.padTo 0xfffffffd
    p.size < 2 ^ 30 ∧ ¬p.PadsExactly 0xfffffffd ∧ q.size = 2 ^ 30 ∧ q.position = 0 ∧
      max p.position.toNat (Word.roundUp 0xfffffffd) = 2 ^ 32 := by
  intro p q
  have hsize : q.size = 2 ^ 30 := p.size_padTo 0xfffffffd
  have hposition : q.position = 0 := by
    rw [q.position_eq, hsize]
    rfl
  refine ⟨Nat.two_pow_pos 30, fun h => ?_, hsize, hposition, rfl⟩
  exact Nat.lt_irrefl _ (hsize ▸ q.exact_iff.mp h.after)

end Program

end Orbis
