import Orbis.Proofs.RamBytes

/-!
# Wide accesses made of bytes

Loads and stores of all widths agree on the bytes of a memory, whatever its size: a wide load is
made of the loads of its bytes, the highest first, and a wide store does what the stores of its
bytes do. Near the end of the memory an access is made as a whole or not at all.
-/

namespace Orbis

theorem Width.size_pos (w : Width) : 0 < w.size := by
  cases w <;> decide

theorem extractLsb'_setWidth_byte (b : Byte) : (b.setWidth 32).extractLsb' 0 8 = b := by
  rw [← BitVec.setWidth_eq_extractLsb' (by decide)]
  exact BitVec.setWidth_setWidth_of_le b (by decide)

namespace Ram

variable {size : Nat}

/-- The memory behind an attempt to store. -/
def afterStore (r : Ram size) (w : Width) (offset v : Word) : Ram size :=
  (r.store w offset v).toOption.getD r

/-- The bytes of a datum of some width, the highest first, each as a word of its own. -/
def digits (w : Width) (v : Word) : List Word :=
  (v.bytes.drop (4 - w.size)).map (·.setWidth 32)

/-- The datum whose bytes are the lowest ones of some words, the highest first. -/
def ofDigits (vs : List Word) : Word := .ofNat 32 (bigEndian (vs.map (·.setWidth 8)))

/-- Writes the lowest bytes of some words one after the other. -/
def writeDigits (r : Ram size) (i : Nat) : List Word → Ram size
  | [] => r
  | v :: vs => (r.setByte i (v.extractLsb' 0 8)).writeDigits (i + 1) vs

@[simp] theorem length_digits (w : Width) (v : Word) : (digits w v).length = w.size := by
  cases w <;> rfl

theorem write_eq_writeDigits (r : Ram size) (w : Width) (i : Nat) (v : Word) :
    r.write w i v = r.writeDigits i (digits w v) := by
  cases w with
  | byte | half | word =>
    simp [write, digits, Word.bytes, Width.size, writeDigits, extractLsb'_setWidth_byte,
      Nat.add_assoc]

/-! ### One byte after the other -/

theorem mapM_load_byte (r : Ram size) {os : List Word} {i count : Nat}
    (h : os.map BitVec.toNat = List.range' i count) :
    os.mapM (r.load .byte) =
      if count = 0 ∨ i + count ≤ size then
        .ok ((bytesFrom r.byte i count).map (·.setWidth 32))
      else .error .busError := by
  induction count generalizing os i with
  | zero =>
    obtain rfl : os = [] := List.map_eq_nil_iff.mp h
    rfl
  | succ count ih =>
    rw [List.range'_succ] at h
    obtain ⟨o, rest, rfl, ho, hrest⟩ := List.map_eq_cons_iff.mp h
    have hload : r.load .byte o =
        if i + 1 ≤ size then .ok ((r.byte i).setWidth 32) else .error .busError := by
      rw [load, ho]
      rfl
    rw [List.mapM_cons, hload, ih hrest, bytesFrom_succ]
    -- The first byte that is outside ends it all, and which one that is cannot be told afterwards.
    by_cases hfirst : i + 1 ≤ size
    · rw [if_pos hfirst]
      by_cases hall : count = 0 ∨ i + 1 + count ≤ size
      · rw [if_pos hall, if_pos (by omega)]
        rfl
      · rw [if_neg hall, if_neg (by omega)]
        rfl
    · have hnone : ¬(count + 1 = 0 ∨ i + (count + 1) ≤ size) := by omega
      rw [if_neg hfirst, if_neg hnone]
      rfl

theorem foldlM_store_byte (r : Ram size) {os vs : List Word} {i : Nat}
    (h : os.map BitVec.toNat = List.range' i vs.length) :
    (os.zip vs).foldlM (fun s x => s.store .byte x.1 x.2) r =
      if vs.length = 0 ∨ i + vs.length ≤ size then .ok (r.writeDigits i vs)
      else .error .busError := by
  induction vs generalizing r os i with
  | nil =>
    rw [List.zip_nil_right]
    rfl
  | cons v vs ih =>
    rw [List.length_cons, List.range'_succ] at h
    obtain ⟨o, rest, rfl, ho, hrest⟩ := List.map_eq_cons_iff.mp h
    have hstore : r.store .byte o v =
        if i + 1 ≤ size then .ok (r.setByte i (v.extractLsb' 0 8)) else .error .busError := by
      rw [store, ho]
      rfl
    rw [List.zip_cons_cons, List.foldlM_cons, hstore, List.length_cons]
    by_cases hfirst : i + 1 ≤ size
    · have hbounds : (vs.length = 0 ∨ i + 1 + vs.length ≤ size) ↔
          (vs.length + 1 = 0 ∨ i + (vs.length + 1) ≤ size) := by omega
      rw [if_pos hfirst]
      change (rest.zip vs).foldlM _ (r.setByte i (v.extractLsb' 0 8)) = _
      simp only [ih _ hrest, writeDigits, hbounds]
    · rw [if_neg hfirst, if_neg (by omega)]
      rfl

/-! ### Accesses of all widths -/

theorem exists_load_iff (r : Ram size) (w : Width) (o : Word) :
    (∃ u, r.load w o = .ok u) ↔ o.toNat + w.size ≤ size := by
  unfold load
  split
  · next hin => exact ⟨fun _ => hin, fun _ => ⟨_, rfl⟩⟩
  · next hout => exact ⟨nofun, fun hin => absurd hin hout⟩

theorem exists_store_iff (r : Ram size) (w : Width) (o v : Word) :
    (∃ s, r.store w o v = .ok s) ↔ o.toNat + w.size ≤ size := by
  unfold store
  split
  · next hin => exact ⟨fun _ => hin, fun _ => ⟨_, rfl⟩⟩
  · next hout => exact ⟨nofun, fun hin => absurd hin hout⟩

theorem ofDigits_map_setWidth (bs : List Byte) :
    ofDigits (bs.map (·.setWidth 32)) = .ofNat 32 (bigEndian bs) := by
  have hlow : (fun b : Byte => (b.setWidth 32).setWidth 8) = id :=
    funext fun b => BitVec.setWidth_setWidth_of_le b (by decide)
  rw [ofDigits, List.map_map]
  change BitVec.ofNat 32 (bigEndian (bs.map fun b => (b.setWidth 32).setWidth 8)) = _
  rw [hlow, List.map_id]

/-- A wide load loads its bytes and puts them together. -/
theorem load_eq_mapM (r : Ram size) (w : Width) {o : Word} {os : List Word}
    (h : os.map BitVec.toNat = List.range' o.toNat w.size) :
    r.load w o = (os.mapM (r.load .byte)).map ofDigits := by
  have hpos := w.size_pos
  rw [r.mapM_load_byte h, load]
  by_cases hin : o.toNat + w.size ≤ size
  · rw [if_pos hin, if_pos (.inr hin)]
    change _ = Except.ok (ofDigits _)
    rw [ofDigits_map_setWidth, ← toNat_read, BitVec.ofNat_toNat, BitVec.setWidth_eq]
  · have hnone : ¬(w.size = 0 ∨ o.toNat + w.size ≤ size) := by omega
    rw [if_neg hin, if_neg hnone]
    rfl

theorem store_eq_foldlM (r : Ram size) (w : Width) {o : Word} (v : Word) {os : List Word}
    (h : os.map BitVec.toNat = List.range' o.toNat w.size) :
    r.store w o v = (os.zip (digits w v)).foldlM (fun s x => s.store .byte x.1 x.2) r := by
  have hpos := w.size_pos
  rw [← length_digits w v] at h
  rw [r.foldlM_store_byte h, length_digits, store]
  by_cases hin : o.toNat + w.size ≤ size
  · rw [if_pos hin, if_pos (.inr hin), write_eq_writeDigits]
  · have hnone : ¬(w.size = 0 ∨ o.toNat + w.size ≤ size) := by omega
    rw [if_neg hin, if_neg hnone]

theorem byte_afterStore (r : Ram size) (w : Width) (o v : Word) {j : Nat} (hj : j < size) :
    (r.afterStore w o v).byte j =
      if o.toNat + w.size ≤ size ∧ o.toNat ≤ j ∧ j < o.toNat + w.size then
        v.extractLsb' (8 * (o.toNat + w.size - 1 - j)) 8
      else r.byte j := by
  unfold afterStore store
  by_cases hin : o.toNat + w.size ≤ size
  · rw [if_pos hin]
    simp only [hin, true_and]
    exact r.byte_write w v hin hj
  · rw [if_neg hin, if_neg fun h => hin h.1]
    rfl

end Ram

/-- All widths agree on the bytes of a memory of any size. A load or a store is accepted exactly if
it lies wholly inside the memory and is a bus error otherwise. A load is the loads of its bytes, put
together with the highest one first, and a store is the stores of its bytes; the memory may go on
behind the last offset that there is, and there too a load gives the bytes of its place. A store
that is accepted replaces just the bytes of its place, and one that is refused replaces none. -/
theorem Ram.wide_accesses {size : Nat} (r : Ram size) (w : Width) (o v : Word) :
    ((∃ u, r.load w o = .ok u) ↔ o.toNat + w.size ≤ size) ∧
    ((∃ s, r.store w o v = .ok s) ↔ o.toNat + w.size ≤ size) ∧
    (¬o.toNat + w.size ≤ size →
      r.load w o = .error .busError ∧ r.store w o v = .error .busError) ∧
    (∀ os : List Word, os.map BitVec.toNat = List.range' o.toNat w.size →
      r.load w o = (os.mapM (r.load .byte)).map ofDigits ∧
      r.store w o v = (os.zip (digits w v)).foldlM (fun s x => s.store .byte x.1 x.2) r) ∧
    (∀ u, r.load w o = .ok u → u.toNat = bigEndian (bytesFrom r.byte o.toNat w.size)) ∧
    ∀ j < size, (r.afterStore w o v).byte j =
      if o.toNat + w.size ≤ size ∧ o.toNat ≤ j ∧ j < o.toNat + w.size then
        v.extractLsb' (8 * (o.toNat + w.size - 1 - j)) 8
      else r.byte j := by
  refine ⟨r.exists_load_iff w o, r.exists_store_iff w o v, ?_, ?_, ?_, ?_⟩
  · intro hout
    exact ⟨if_neg hout, if_neg hout⟩
  · intro os hos
    exact ⟨r.load_eq_mapM w hos, r.store_eq_foldlM w v hos⟩
  · intro u hu
    have hin := (r.exists_load_iff w o).mp ⟨u, hu⟩
    rw [load, if_pos hin] at hu
    cases hu
    exact r.toNat_read w o.toNat
  · intro j hj
    exact r.byte_afterStore w o v hj

/-- In a memory of seven bytes the last word begins at the fourth one, and a word behind it is
refused although three of its bytes are inside. -/
theorem Ram.wide_accesses_at_end :
    let r : Ram 7 := Ram.zero.setByte 6 0xaa
    r.load .word 3 = .ok 0xaa ∧
    r.load .word 3 = ([3, 4, 5, 6].mapM (r.load .byte)).map ofDigits ∧
    r.store .word 3 0x11223344 =
      [(3, 0x11), (4, 0x22), (5, 0x33), (6, 0x44)].foldlM (fun s x => s.store .byte x.1 x.2) r ∧
    bytesFrom (r.afterStore .word 3 0x11223344).byte 0 7 = [0, 0, 0, 0x11, 0x22, 0x33, 0x44] ∧
    r.store .word 4 0x11223344 = .error .busError ∧
    ∀ j < 7, (r.afterStore .word 4 0x11223344).byte j = r.byte j := by
  intro r
  obtain ⟨-, -, -, hbytes, -, -⟩ := r.wide_accesses .word 3 0x11223344
  obtain ⟨hload, hstore⟩ := hbytes [3, 4, 5, 6] (by decide)
  obtain ⟨-, -, hrefused, -, -, hkept⟩ := r.wide_accesses .word 4 0x11223344
  have hlast : r.read .word 3 = 0xaa := by decide +kernel
  have hvalue : r.load .word 3 = .ok 0xaa := (if_pos (by decide)).trans (congrArg Except.ok hlast)
  refine ⟨hvalue, hload, hstore, by decide +kernel, (hrefused (by decide)).2, fun j hj => ?_⟩
  rw [hkept j hj, if_neg fun h => absurd h.1 (by decide)]

end Orbis
