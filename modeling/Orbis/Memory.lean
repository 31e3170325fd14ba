import Orbis.Exception
import Orbis.File
import Orbis.Isa.Instruction
/-!
# Memory

A memory is a sparse array of bytes with accesses of three widths.
-/
namespace Orbis

/-!
## Sparse byte arrays

A binary tree over the bits of an index, most significant first, in which a whole subtree of zero
bytes is one node. A tree of depth `d` behaves like an array of `2 ^ d` bytes: `get_set` says that
a write changes exactly the byte at its index, of which the lowest `d` bits count.
-/

/-- An array of `2 ^ depth` bytes. -/
inductive Sparse : (depth : Nat) → Type
  | zero {depth : Nat} : Sparse depth
  | leaf (b : Byte) : Sparse 0
  /-- The halves in which the next bit of the index is clear and set. -/
  | node {depth : Nat} (low high : Sparse depth) : Sparse (depth + 1)

namespace Sparse

/-- The byte at an index, whose bits above the depth do not count. -/
def get : {depth : Nat} → Sparse depth → Nat → Byte
  | _, .zero, _ => 0
  | _, .leaf b, _ => b
  | depth + 1, .node low high, i => if i.testBit depth then high.get i else low.get i

/-- Replaces the byte at an index. A zero written to a zero subtree leaves it as it is. -/
def set : {depth : Nat} → Sparse depth → Nat → Byte → Sparse depth
  | 0, _, _, b => .leaf b
  | depth + 1, .zero, i, b =>
    if b = 0 then .zero
    else if i.testBit depth then .node .zero (set .zero i b) else .node (set .zero i b) .zero
  | depth + 1, .node low high, i, b =>
    if i.testBit depth then .node low (high.set i b) else .node (low.set i b) high

@[simp] theorem get_zero {depth : Nat} (i : Nat) : (zero : Sparse depth).get i = 0 := by
  cases depth <;> rfl

private theorem ofNat_eq_ofNat_iff (d i j : Nat) :
    BitVec.ofNat d i = BitVec.ofNat d j ↔ ∀ k, k < d → i.testBit k = j.testBit k := by
  rw [BitVec.eq_of_getLsbD_eq_iff]
  refine forall_congr' fun k => imp_congr_right fun hk => ?_
  rw [BitVec.getLsbD_ofNat, BitVec.getLsbD_ofNat, decide_eq_true hk, Bool.true_and, Bool.true_and]

private theorem ofNat_succ_eq_iff (d i j : Nat) :
    BitVec.ofNat (d + 1) i = BitVec.ofNat (d + 1) j ↔
      i.testBit d = j.testBit d ∧ BitVec.ofNat d i = BitVec.ofNat d j := by
  rw [ofNat_eq_ofNat_iff, ofNat_eq_ofNat_iff, Nat.forall_lt_succ_right, and_comm]

/-- Two indices lead to the same byte when they agree in the bits that count. -/
theorem get_set {depth : Nat} (t : Sparse depth) (i j : Nat) (b : Byte) :
    (t.set i b).get j =
      if BitVec.ofNat depth i = BitVec.ofNat depth j then b else t.get j := by
  induction depth with
  | zero => cases t <;> simp [set, get, BitVec.of_length_zero]
  | succ d ih =>
    simp only [ofNat_succ_eq_iff]
    cases t with
    | zero =>
      by_cases hb : b = 0#8
      · simp [set, hb]
      · cases hi : i.testBit d <;> cases hj : j.testBit d <;> simp [set, get, hb, hi, hj, ih]
    | node low high =>
      cases hi : i.testBit d <;> cases hj : j.testBit d <;> simp [set, get, hi, hj, ih]

end Sparse

/-!
## Random-access memory

A memory of a fixed number of bytes, read and written in bytes, half-words and words at any offset.
`byte` is the view in which all of this is stated: a wide access is the big-endian composition of
its bytes, and an access that does not lie wholly inside the memory is refused and changes nothing.
-/

/-- A memory of `size` bytes. -/
structure Ram (size : Nat) where
  /-- The bytes, in an array of at least the memory's size. -/
  bytes : Sparse (size.log2 + 1)

namespace Ram

variable {size : Nat}

def zero : Ram size := ⟨.zero⟩

def byte (r : Ram size) (i : Nat) : Byte := r.bytes.get i

def setByte (r : Ram size) (i : Nat) (b : Byte) : Ram size := ⟨r.bytes.set i b⟩

theorem byte_setByte (r : Ram size) {i j : Nat} (b : Byte) (hi : i < size) (hj : j < size) :
    (r.setByte i b).byte j = if i = j then b else r.byte j := by
  have toNat {n : Nat} (h : n < size) : (BitVec.ofNat (size.log2 + 1) n).toNat = n :=
    Nat.mod_eq_of_lt (Nat.lt_trans h Nat.lt_log2_self)
  simp only [byte, setByte, Sparse.get_set, ← BitVec.toNat_inj, toNat hi, toNat hj]

/-- The datum of a width at an offset, extended by zeros. -/
def read (r : Ram size) (w : Width) (i : Nat) : Word :=
  match w with
  | .byte => (r.byte i).setWidth 32
  | .half => (r.byte i ++ r.byte (i + 1)).setWidth 32
  | .word => Word.ofBytes (r.byte i) (r.byte (i + 1)) (r.byte (i + 2)) (r.byte (i + 3))

/-- Writes the low bytes of a word, as many as the width has, at an offset. -/
def write (r : Ram size) (w : Width) (i : Nat) (v : Word) : Ram size :=
  match w with
  | .byte => r.setByte i (v.extractLsb' 0 8)
  | .half => (r.setByte i (v.extractLsb' 8 8)).setByte (i + 1) (v.extractLsb' 0 8)
  | .word =>
    (((r.setByte i (v.extractLsb' 24 8)).setByte (i + 1) (v.extractLsb' 16 8)).setByte (i + 2)
      (v.extractLsb' 8 8)).setByte (i + 3) (v.extractLsb' 0 8)

/-- Loads from an offset, or reports that the access leaves the memory. -/
def load (r : Ram size) (w : Width) (offset : Word) : Except Exception Word :=
  if offset.toNat + w.size ≤ size then .ok (r.read w offset.toNat) else .error .busError

/-- Stores at an offset, or reports that the access leaves the memory. -/
def store (r : Ram size) (w : Width) (offset v : Word) : Except Exception (Ram size) :=
  if offset.toNat + w.size ≤ size then .ok (r.write w offset.toNat v) else .error .busError

def copy (r : Ram size) (image : ByteArray) (offset : Nat) : Ram size :=
  Nat.fold image.size (fun i h m => m.setByte (offset + i) image[i].toBitVec) r

/-- Loads a whole image at an offset, or refuses it. A length that is no whole number of words is
reported before a lack of room. -/
def loadImage (r : Ram size) (image : ByteArray) (offset : Word) :
    Except ImageError (Ram size) :=
  if image.size % 4 ≠ 0 then .error (.unaligned image.size)
  else if size < offset.toNat + image.size then
    .error (.tooLarge offset image.size size)
  else .ok (r.copy image offset.toNat)

/-- The bytes from an offset on, `count` of them or as many as there are. -/
def slice (r : Ram size) (offset count : Nat) : List Byte :=
  (List.range (min count (size - offset))).map fun i => r.byte (offset + i)

/-- The text that stands for a memory, which shows its size only. -/
def text (_ : Ram size) : String := "Ram \x7b size: " ++ Numeral.decimal size ++ " \x7d"

end Ram

end Orbis
