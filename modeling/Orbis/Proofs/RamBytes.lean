import Orbis.Memory

/-!
# Bytes of memory

What accesses and images do to memory, byte by byte: a read is the number that its bytes write to
the base 256, the first byte being the highest digit, and what is written replaces exactly the
bytes that it addresses.
-/

namespace Orbis

/-- The number that bytes write to the base 256, the highest digit first. -/
def bigEndian (bs : List Byte) : Nat := bs.foldl (fun n b => 256 * n + b.toNat) 0

/-- The bytes of an array from an address on. -/
def bytesFrom (m : Nat → Byte) (a count : Nat) : List Byte :=
  (List.range count).map fun k => m (a + k)

theorem bytesFrom_congr {m n : Nat → Byte} {a count : Nat}
    (h : ∀ j, a ≤ j → j < a + count → m j = n j) : bytesFrom m a count = bytesFrom n a count := by
  refine List.map_congr_left fun k hk => ?_
  have hlt := List.mem_range.mp hk
  exact h (a + k) (by omega) (by omega)

theorem bytesFrom_succ (m : Nat → Byte) (a count : Nat) :
    bytesFrom m a (count + 1) = m a :: bytesFrom m (a + 1) count := by
  unfold bytesFrom
  rw [List.range_succ_eq_map, List.map_cons, List.map_map, Nat.add_zero]
  congr 1
  refine List.map_congr_left fun k _ => congrArg m ?_
  change a + (k + 1) = a + 1 + k
  omega

theorem toNat_append_byte {width : Nat} (v : BitVec width) (b : Byte) :
    (v ++ b).toNat = 256 * v.toNat + b.toNat := by
  rw [BitVec.toNat_append, ← Nat.shiftLeft_add_eq_or_of_lt b.isLt, Nat.shiftLeft_eq]
  omega

namespace Ram

variable {size : Nat}

theorem toNat_read (r : Ram size) (w : Width) (i : Nat) :
    (r.read w i).toNat = bigEndian (bytesFrom r.byte i w.size) := by
  cases w with
  | byte =>
    have hlt : (r.byte i).toNat < 4294967296 := Nat.lt_trans (r.byte i).isLt (by decide)
    simp [read, bytesFrom, bigEndian, Width.size, Nat.mod_eq_of_lt hlt]
  | half =>
    have hlt : (r.byte i ++ r.byte (i + 1)).toNat < 4294967296 :=
      Nat.lt_trans (BitVec.isLt _) (by decide)
    rw [read, BitVec.toNat_setWidth, Nat.mod_eq_of_lt hlt, toNat_append_byte]
    simp [bytesFrom, bigEndian, Width.size, List.range_succ]
  | word =>
    rw [read, Word.ofBytes, toNat_append_byte, toNat_append_byte, toNat_append_byte]
    simp [bytesFrom, bigEndian, Width.size, List.range_succ]

theorem read_congr {r r' : Ram size} {w : Width} {i : Nat}
    (h : ∀ j, i ≤ j → j < i + w.size → r.byte j = r'.byte j) : r.read w i = r'.read w i := by
  apply BitVec.eq_of_toNat_eq
  rw [toNat_read, toNat_read, bytesFrom_congr h]

/-- A write replaces the bytes that it addresses, the last of them by the lowest byte. -/
theorem byte_write (r : Ram size) (w : Width) {i j : Nat} (v : Word) (hi : i + w.size ≤ size)
    (hj : j < size) :
    (r.write w i v).byte j =
      if i ≤ j ∧ j < i + w.size then v.extractLsb' (8 * (i + w.size - 1 - j)) 8 else r.byte j := by
  split
  · next hin =>
    cases w with
    | byte =>
      simp only [Width.size] at hi hin ⊢
      simp (disch := omega) only [write, byte_setByte]
      obtain rfl : j = i := by omega
      simp
    | half =>
      simp only [Width.size] at hi hin ⊢
      simp (disch := omega) only [write, byte_setByte]
      obtain rfl | rfl : j = i ∨ j = i + 1 := by omega
      all_goals simp
    | word =>
      simp only [Width.size] at hi hin ⊢
      simp (disch := omega) only [write, byte_setByte]
      obtain rfl | rfl | rfl | rfl : j = i ∨ j = i + 1 ∨ j = i + 2 ∨ j = i + 3 := by omega
      all_goals simp
  · next hout =>
    cases w with
    | byte | half | word =>
      simp only [Width.size] at hi hout
      simp (disch := omega) only [write, byte_setByte, if_neg]

theorem byte_store {r r' : Ram size} {w : Width} {a v : Word} (h : r.store w a v = .ok r')
    {j : Nat} (hj : j < size) (hout : j < a.toNat ∨ a.toNat + w.size ≤ j) :
    r'.byte j = r.byte j := by
  unfold store at h
  split at h
  · next hi =>
    cases h
    rw [byte_write _ _ _ hi hj, if_neg (by omega)]
  · cases h

theorem byte_copy (r : Ram size) (image : ByteArray) {offset j : Nat}
    (hin : offset + image.size ≤ size) (hj : j < size) :
    (r.copy image offset).byte j =
      if h : offset ≤ j ∧ j < offset + image.size then image[j - offset].toBitVec
      else r.byte j := by
  -- The first bytes of the image have been copied.
  have hprefix (n : Nat) (hn : n ≤ image.size) :
      (Nat.fold n (fun i h m => m.setByte (offset + i) image[i].toBitVec) r).byte j =
        if h : offset ≤ j ∧ j < offset + n then image[j - offset].toBitVec else r.byte j := by
    induction n with
    | zero =>
      rw [dif_neg (by omega)]
      rfl
    | succ n ih =>
      rw [Nat.fold_succ, byte_setByte _ _ (by omega) hj, ih (by omega)]
      by_cases hlast : offset + n = j
      · subst hlast
        simp
      · simp only [if_neg hlast, show j < offset + (n + 1) ↔ j < offset + n by omega]
  exact hprefix image.size (Nat.le_refl _)

end Ram

end Orbis
