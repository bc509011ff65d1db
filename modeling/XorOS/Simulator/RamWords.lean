import XorOS.Library.Bits
import XorOS.Simulator.MemoryModel

/- MemoryModel<32> outside its MMIO regions, read and written as aligned words. -/
namespace XorOS.MemoryModel
open Bits
variable {Dev : Type} (m : MemoryModel 32 Dev)

def wordAt (a : BitVec 32) : WordT := leWord fun i => m.byteAt (a + BitVec.ofNat 32 i)

abbrev block (a : BitVec 32) : BitVec 32 := a &&& ~~~3#32

theorem block_toNat (a : BitVec 32) : (block a).toNat = a.toNat - a.toNat % 4 :=
  toNat_and_not_mask (w := 32) (k := 2) (by omega) a

theorem block_clear (a : BitVec 32) : LowClear 2 (block a) :=
  lowClear_and_not_mask (w := 32) (k := 2) (by omega) a

theorem offset_toNat (a : BitVec 32) : (a &&& 3#32).toNat = a.toNat % 4 :=
  toNat_and_mask (w := 32) (k := 2) (by omega) a

theorem clear_mod {a : BitVec 32} (clear : LowClear 2 a) : a.toNat % 4 = 0 :=
  (lowClear_iff_mod 2 a).mp clear

theorem block_eq_self {a : BitVec 32} (clear : LowClear 2 a) : block a = a := by
  apply BitVec.eq_of_toNat_eq
  rw [block_toNat, clear_mod clear, Nat.sub_zero]

theorem shift_toNat (a : BitVec 32) : ((a &&& 3#32) * 8#32).toNat = 8 * (a.toNat % 4) := by
  rw [BitVec.toNat_mul, offset_toNat]
  simp only [BitVec.toNat_ofNat]
  omega

theorem even_offset {a : BitVec 32} (even : LowClear 1 a) : a &&& 2#32 = a &&& 3#32 := by
  apply BitVec.eq_of_getLsbD_eq
  intro i hi
  by_cases low : i = 0
  · subst low
    simp only [BitVec.getLsbD_and, even 0 (by omega), Bool.false_and]
  · have bit : (2#32).getLsbD i = (3#32).getLsbD i := by
      have : ∀ i < 32, i ≠ 0 → (2#32).getLsbD i = (3#32).getLsbD i := by decide
      exact this i hi low
    simp [BitVec.getLsbD_and, bit]

theorem toNat_add_small {a : BitVec 32} (clear : LowClear 2 a) {i : Nat} (bound : i < 4) :
    (a + BitVec.ofNat 32 i).toNat = a.toNat + i :=
  toNat_add_of_clear (by omega) clear bound

theorem findMmio_empty (ram : m.mmio = []) (a : BitVec 32) : m.findMmio a = none := by
  simp [findMmio, ram]

theorem checkBounds_eq (a : BitVec 32) {width : Nat} (small : width ≤ 4) :
    m.checkBounds a width =
      if a.toNat + width ≤ m.size then .ok () else .error ⟨a.toNat, width, m.size⟩ := by
  have fits : (a.toNat + width) % 2 ^ 64 = a.toNat + width := by
    have := a.isLt
    omega
  simp only [checkBounds, fits]
  by_cases inside : a.toNat + width ≤ m.size
  · simp [inside]
  · simp [inside, Nat.lt_of_not_le inside]

theorem readByte_ram {a : BitVec 32} (ram : m.findMmio a = none) :
    m.readByte a =
      if a.toNat + 1 ≤ m.size then .ok (m.byteAt a) else .error ⟨a.toNat, 1, m.size⟩ := by
  simp only [readByte, ram, m.checkBounds_eq a (show 1 ≤ 4 by omega)]
  split <;> rfl

theorem readHalf_ram {a : BitVec 32} (ram : m.findMmio a = none) :
    m.readHalf a =
      if a.toNat + 2 ≤ m.size then
        .ok ((m.byteAt a).setWidth 16 ||| ((m.byteAt (a + 1#32)).setWidth 16 <<< 8))
      else .error ⟨a.toNat, 2, m.size⟩ := by
  simp only [readHalf, ram, m.checkBounds_eq a (show 2 ≤ 4 by omega)]
  split <;> rfl

theorem readWord_ram {a : BitVec 32} (ram : m.findMmio a = none) :
    m.readWord a =
      if a.toNat + 4 ≤ m.size then .ok (m.wordAt a) else .error ⟨a.toNat, 4, m.size⟩ := by
  simp only [readWord, ram, m.checkBounds_eq a (Nat.le_refl 4)]
  split
  · simp only [wordAt, leWord, BitVec.add_zero]
    rfl
  · rfl

theorem writeByte_ram {a : BitVec 32} (ram : m.findMmio a = none) (v : ByteT) :
    m.writeByte a v =
      if a.toNat + 1 ≤ m.size then (.ok (), m.setByte a v)
      else (.error ⟨a.toNat, 1, m.size⟩, m) := by
  simp only [writeByte, ram, m.checkBounds_eq a (show 1 ≤ 4 by omega)]
  by_cases inside : a.toNat + 1 ≤ m.size
  · simp only [inside, if_true]
  · simp only [inside, if_false]

theorem writeHalf_ram {a : BitVec 32} (ram : m.findMmio a = none) (v : HalfT) :
    m.writeHalf a v =
      if a.toNat + 2 ≤ m.size then
        (.ok (), (m.setByte a ((v &&& 0xFF#16).setWidth 8)).setByte (a + 1#32)
          (((v >>> 8) &&& 0xFF#16).setWidth 8))
      else (.error ⟨a.toNat, 2, m.size⟩, m) := by
  simp only [writeHalf, ram, m.checkBounds_eq a (show 2 ≤ 4 by omega)]
  by_cases inside : a.toNat + 2 ≤ m.size
  · simp only [inside, if_true]
  · simp only [inside, if_false]

theorem writeWord_ram {a : BitVec 32} (ram : m.findMmio a = none) (v : WordT) :
    m.writeWord a v =
      if a.toNat + 4 ≤ m.size then
        (.ok (), (((m.setByte a ((v &&& 0xFF#32).setWidth 8)).setByte (a + 1#32)
          (((v >>> 8) &&& 0xFF#32).setWidth 8)).setByte (a + 2#32)
          (((v >>> 16) &&& 0xFF#32).setWidth 8)).setByte (a + 3#32)
          (((v >>> 24) &&& 0xFF#32).setWidth 8))
      else (.error ⟨a.toNat, 4, m.size⟩, m) := by
  simp only [writeWord, ram, m.checkBounds_eq a (Nat.le_refl 4)]
  by_cases inside : a.toNat + 4 ≤ m.size
  · simp only [inside, if_true]
  · simp only [inside, if_false]

theorem writeWord_of_readWord {m : MemoryModel 32 Dev} {a : BitVec 32} {w : WordT}
    (read : m.readWord a = .ok w) (v : WordT) : ∃ m', m.writeWord a v = (.ok (), m') := by
  unfold readWord at read
  unfold writeWord
  split at read
  · exact ⟨_, rfl⟩
  · cases bounds : m.checkBounds a 4 with
    | error e => simp [bounds, bind, Except.bind] at read
    | ok => exact ⟨_, rfl⟩

theorem writeByte_error {m m' : MemoryModel 32 Dev} {a : BitVec 32} {v : ByteT} {e : OutOfRange}
    (threw : m.writeByte a v = (.error e, m')) : m' = m := by
  unfold writeByte at threw
  split at threw
  · simp at threw
  · split at threw
    · simp only [Prod.mk.injEq] at threw
      exact threw.2.symm
    · simp at threw

theorem writeHalf_error {m m' : MemoryModel 32 Dev} {a : BitVec 32} {v : HalfT} {e : OutOfRange}
    (threw : m.writeHalf a v = (.error e, m')) : m' = m := by
  unfold writeHalf at threw
  split at threw
  · simp at threw
  · split at threw
    · simp only [Prod.mk.injEq] at threw
      exact threw.2.symm
    · simp at threw

theorem writeWord_error {m m' : MemoryModel 32 Dev} {a : BitVec 32} {v : WordT} {e : OutOfRange}
    (threw : m.writeWord a v = (.error e, m')) : m' = m := by
  unfold writeWord at threw
  split at threw
  · simp at threw
  · split at threw
    · simp only [Prod.mk.injEq] at threw
      exact threw.2.symm
    · simp at threw

theorem byteAt_of_word (a : BitVec 32) :
    ((m.wordAt (block a) >>> ((a &&& 3#32) * 8#32)) &&& 0xFF#32).setWidth 8 = m.byteAt a := by
  have off : a.toNat % 4 < 4 := Nat.mod_lt _ (by omega)
  rw [BitVec.ushiftRight_eq', shift_toNat, wordAt, byte_of_leWord _ _ off]
  congr 1
  apply BitVec.eq_of_toNat_eq
  rw [toNat_add_small (block_clear a) off, block_toNat]
  omega

theorem half_of_word {a : BitVec 32} (even : LowClear 1 a) :
    ((m.wordAt (block a) >>> ((a &&& 3#32) * 8#32)) &&& 0xFFFF#32).setWidth 16 =
      (m.byteAt a).setWidth 16 ||| ((m.byteAt (a + 1#32)).setWidth 16 <<< 8) := by
  have par : a.toNat % 2 = 0 := (lowClear_iff_mod 1 a).mp even
  have off : a.toNat % 4 < 3 := by omega
  have bound := a.isLt
  have first : block a + BitVec.ofNat 32 (a.toNat % 4) = a := by
    apply BitVec.eq_of_toNat_eq
    rw [toNat_add_small (block_clear a) (by omega), block_toNat]
    omega
  have second : block a + BitVec.ofNat 32 (a.toNat % 4 + 1) = a + 1#32 := by
    apply BitVec.eq_of_toNat_eq
    rw [toNat_add_small (block_clear a) (by omega), block_toNat, BitVec.toNat_add]
    simp only [BitVec.toNat_ofNat]
    omega
  rw [BitVec.ushiftRight_eq', shift_toNat, wordAt, half_of_leWord _ _ off, first, second]

theorem wordAt_setByte {t : BitVec 32} (clear : LowClear 2 t) (a : BitVec 32) (v : ByteT) :
    (m.setByte a v).wordAt t =
      if t = block a then
        leWord fun i => if i = a.toNat % 4 then v else m.byteAt (t + BitVec.ofNat 32 i)
      else m.wordAt t := by
  have rem := clear_mod clear
  split
  · rename_i same
    apply leWord_congr
    intro i hi
    have here : (t + BitVec.ofNat 32 i).toNat = a.toNat ↔ i = a.toNat % 4 := by
      rw [toNat_add_small clear hi, same, block_toNat]
      omega
    simp only [byteAt, setByte, here]
  · rename_i other
    apply leWord_congr
    intro i hi
    have away : (t + BitVec.ofNat 32 i).toNat ≠ a.toNat := by
      intro eq
      apply other
      apply BitVec.eq_of_toNat_eq
      rw [toNat_add_small clear hi] at eq
      rw [block_toNat]
      omega
    simp only [byteAt, setByte, away, if_false]

theorem wordAt_setByte_patch {t : BitVec 32} (clear : LowClear 2 t) (a : BitVec 32) (v : ByteT) :
    (m.setByte a v).wordAt t =
      if t = block a then
        (m.wordAt t &&& ~~~(0xFF#32 <<< ((a &&& 3#32) * 8#32))) |||
          (v.setWidth 32 <<< ((a &&& 3#32) * 8#32))
      else m.wordAt t := by
  rw [m.wordAt_setByte clear]
  split
  · rw [BitVec.shiftLeft_eq', BitVec.shiftLeft_eq', shift_toNat, wordAt, leWord_set_byte]
  · rfl

theorem block_succ {a : BitVec 32} (even : LowClear 1 a) : block (a + 1#32) = block a := by
  have par : a.toNat % 2 = 0 := (lowClear_iff_mod 1 a).mp even
  have bound := a.isLt
  have succ : (a + 1#32).toNat = a.toNat + 1 := by
    rw [BitVec.toNat_add]
    simp only [BitVec.toNat_ofNat]
    omega
  apply BitVec.eq_of_toNat_eq
  rw [block_toNat, block_toNat, succ]
  omega

theorem wordAt_setHalf_patch {t : BitVec 32} (clear : LowClear 2 t) {a : BitVec 32}
    (even : LowClear 1 a) (v : HalfT) :
    ((m.setByte a ((v &&& 0xFF#16).setWidth 8)).setByte (a + 1#32)
        (((v >>> 8) &&& 0xFF#16).setWidth 8)).wordAt t =
      if t = block a then
        (m.wordAt t &&& ~~~(0xFFFF#32 <<< ((a &&& 3#32) * 8#32))) |||
          (v.setWidth 32 <<< ((a &&& 3#32) * 8#32))
      else m.wordAt t := by
  have par : a.toNat % 2 = 0 := (lowClear_iff_mod 1 a).mp even
  have bound := a.isLt
  have succ : (a + 1#32).toNat = a.toNat + 1 := by
    rw [BitVec.toNat_add]
    simp only [BitVec.toNat_ofNat]
    omega
  rw [wordAt_setByte _ clear, block_succ even]
  split
  · rename_i same
    rw [BitVec.shiftLeft_eq', BitVec.shiftLeft_eq', shift_toNat, wordAt, leWord_set_half]
    apply leWord_congr
    intro i hi
    have low : (t + BitVec.ofNat 32 i).toNat = a.toNat ↔ i = a.toNat % 4 := by
      rw [toNat_add_small clear hi, same, block_toNat]
      omega
    have high : (a + 1#32).toNat % 4 = a.toNat % 4 + 1 := by omega
    simp only [high, byteAt, setByte, low]
    by_cases first : i = a.toNat % 4
    · rw [if_neg (by omega), if_pos first, if_pos first]
    · simp only [first, if_false]
  · rename_i other
    rw [wordAt_setByte _ clear, if_neg other]

theorem wordAt_setWord {t : BitVec 32} (clear : LowClear 2 t) {a : BitVec 32}
    (aligned : LowClear 2 a) (v : WordT) :
    ((((m.setByte a ((v &&& 0xFF#32).setWidth 8)).setByte (a + 1#32)
        (((v >>> 8) &&& 0xFF#32).setWidth 8)).setByte (a + 2#32)
        (((v >>> 16) &&& 0xFF#32).setWidth 8)).setByte (a + 3#32)
        (((v >>> 24) &&& 0xFF#32).setWidth 8)).wordAt t =
      if t = a then v else m.wordAt t := by
  have hsucc (k : Nat) (hk : k < 4) : (a + BitVec.ofNat 32 k).toNat = a.toNat + k :=
    toNat_add_small aligned hk
  have h1 := hsucc 1 (by omega)
  have h2 := hsucc 2 (by omega)
  have h3 := hsucc 3 (by omega)
  have rem := clear_mod aligned
  have remt := clear_mod clear
  have here (i : Nat) (hi : i < 4) : (t + BitVec.ofNat 32 i).toNat = t.toNat + i :=
    toNat_add_small clear hi
  split
  · rename_i same
    subst same
    conv => rhs; rw [← leWord_bytes v]
    apply leWord_congr
    intro i hi
    have cases4 : i = 0 ∨ i = 1 ∨ i = 2 ∨ i = 3 := by omega
    simp only [byteAt, setByte, here i hi, h1, h2, h3]
    rcases cases4 with rfl | rfl | rfl | rfl <;> simp
  · rename_i other
    have apart : t.toNat ≠ a.toNat := fun eq => other (BitVec.eq_of_toNat_eq eq)
    apply leWord_congr
    intro i hi
    simp only [byteAt, setByte, here i hi, h1, h2, h3]
    rw [if_neg (by omega), if_neg (by omega), if_neg (by omega), if_neg (by omega)]

theorem writeWord_word {a : BitVec 32} (aligned : LowClear 2 a) (ram : m.findMmio a = none)
    (inside : a.toNat + 4 ≤ m.size) (v : WordT) :
    ∃ m', m.writeWord a v = (.ok (), m') ∧ m'.layout = m.layout ∧
      ∀ t, LowClear 2 t → m'.wordAt t = if t = a then v else m.wordAt t := by
  have wrote := m.writeWord_ram ram v
  rw [if_pos inside] at wrote
  have kept := writeWord_layout m a v
  rw [wrote] at kept
  exact ⟨_, wrote, kept, fun t clear => wordAt_setWord m clear aligned v⟩

end XorOS.MemoryModel
