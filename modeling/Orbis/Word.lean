/-!
# Machine words

The machine handles words of 32 bits, half-words of 16 and bytes of 8. Memory order is big-endian:
the first byte of a word is its most significant one.
-/
namespace Orbis

/-- A machine word: an address, a register value or an instruction word. -/
abbrev Word := BitVec 32

/-- A half-word: a 16-bit datum or immediate. -/
abbrev Half := BitVec 16

/-- A byte of memory or of the console. -/
abbrev Byte := BitVec 8

def bits? (width n : Nat) : Option (BitVec width) :=
  if (BitVec.ofNat width n).toNat = n then some (.ofNat width n) else none

theorem bits?_eq_some_iff {width n : Nat} {v : BitVec width} :
    bits? width n = some v ↔ v.toNat = n := by
  unfold bits?
  split
  · next h =>
    rw [Option.some_inj]
    exact ⟨fun e => e ▸ h, fun e => by rw [← e, BitVec.ofNat_toNat, BitVec.setWidth_eq]⟩
  · next h =>
    refine ⟨nofun, fun e => absurd ?_ h⟩
    rw [← e, BitVec.ofNat_toNat, BitVec.setWidth_eq]

namespace Word

/-- The word whose bytes in memory order are the four given ones. -/
def ofBytes (b₀ b₁ b₂ b₃ : Byte) : Word := b₀ ++ b₁ ++ b₂ ++ b₃

def bytes (w : Word) : List Byte :=
  [w.extractLsb' 24 8, w.extractLsb' 16 8, w.extractLsb' 8 8, w.extractLsb' 0 8]

/-- Extending a narrow datum to a word keeps its bits. -/
theorem setWidth_signExtend {width : Nat} (v : BitVec width) (h : width ≤ 32) :
    (v.signExtend 32).setWidth width = v := by
  ext i hi
  have hlt : i < 32 := Nat.lt_of_lt_of_le hi h
  rw [BitVec.getElem_setWidth, BitVec.getLsbD_signExtend, decide_eq_true hlt, Bool.true_and,
    if_pos hi, BitVec.getLsbD_eq_getElem hi]

end Word

/-!
## Pages

Memory is translated in pages of 8 KiB. An address is the number of its page followed by 13 bits of
offset, so an address is put together again from the two.
-/

/-- The number of a page, virtual or physical. -/
abbrev Page := BitVec 19

namespace Page

def offsetBits : Nat := 13

def size : Nat := 1 <<< offsetBits

def address (p : Page) (offset : BitVec 13) : Word := p ++ offset

def base (p : Page) : Word := p.address 0

end Page

namespace Word

def page (a : Word) : Page := a.extractLsb' 13 19

def pageOffset (a : Word) : BitVec 13 := a.extractLsb' 0 13

end Word

end Orbis
