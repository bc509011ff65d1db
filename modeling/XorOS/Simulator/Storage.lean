import XorOS.Library.IntHart
import XorOS.Simulator.RamWords

/- The memory as a store of numbers: little-endian bytes in RAM, and in an MMIO region the bytes of
   the word that the device shows at the block. -/
namespace XorOS
open Bits IntHart
variable {Dev : Type}

/-- What an access can see of a MemoryModel: all but the reservation. -/
structure Storage (Dev : Type) where
  size : Nat
  byte : Nat → Nat
  mmio : List (MmioRegion 32 Dev)
  dev : Dev

namespace Storage

def region (s : Storage Dev) (addr : Nat) : Option (MmioRegion 32 Dev) :=
  s.mmio.find? fun r => decide (r.base.toNat ≤ addr ∧ addr < r.endAddr.toNat)

def deviceWord (s : Storage Dev) (r : MmioRegion 32 Dev) (addr : Nat) : Nat :=
  (r.onRead (BitVec.ofNat 32 (addr - addr % 4)) s.dev).toNat

def read (addr width : Nat) (s : Storage Dev) : Option Nat :=
  match s.region addr with
  | some r => some (littleEndian (fun k => byteOf (s.deviceWord r addr) (addr % 4 + k)) width)
  | none =>
      if addr + width ≤ s.size then some (littleEndian (fun k => s.byte (addr + k)) width) else none

def write (addr width v : Nat) (s : Storage Dev) : Option (Storage Dev) :=
  match s.region addr with
  | some r =>
      let word := littleEndian (fun k =>
        if addr % 4 ≤ k ∧ k < addr % 4 + width then byteOf v (k - addr % 4)
        else byteOf (s.deviceWord r addr) k) 4
      some { s with
        dev := r.onWrite (BitVec.ofNat 32 (addr - addr % 4)) (BitVec.ofNat 32 word) s.dev }
  | none =>
      if addr + width ≤ s.size then
        some { s with byte := fun a =>
          if addr ≤ a ∧ a < addr + width then byteOf v (a - addr) else s.byte a }
      else none

instance : IntHart.Memory (Storage Dev) := ⟨read, write⟩

end Storage

namespace MemoryModel

def storage (m : MemoryModel 32 Dev) : Storage Dev :=
  ⟨m.size, fun a => (m.data a).toNat, m.mmio, m.dev⟩

theorem region_storage (m : MemoryModel 32 Dev) (a : BitVec 32) :
    m.storage.region a.toNat = m.findMmio a := rfl

theorem toNat_byte (w : WordT) (k : Nat) :
    (((w >>> (8 * k)) &&& 0xFF#32).setWidth 8).toNat = byteOf w.toNat k := by
  have mask : ((w >>> (8 * k)) &&& 0xFF#32).toNat = (w >>> (8 * k)).toNat % 2 ^ 8 :=
    toNat_and_mask (w := 32) (k := 8) (by omega) _
  have base : 2 ^ (8 * k) = 256 ^ k := by rw [Nat.pow_mul]
  rw [BitVec.toNat_setWidth, mask, BitVec.toNat_ushiftRight, Nat.shiftRight_eq_div_pow, base]
  unfold byteOf
  omega

theorem toNat_half (w : WordT) (k : Nat) :
    (((w >>> (8 * k)) &&& 0xFFFF#32).setWidth 16).toNat =
      littleEndian (fun i => byteOf w.toNat (k + i)) 2 := by
  have mask : ((w >>> (8 * k)) &&& 0xFFFF#32).toNat = (w >>> (8 * k)).toNat % 2 ^ 16 :=
    toNat_and_mask (w := 32) (k := 16) (by omega) _
  have base : 2 ^ (8 * k) = 256 ^ k := by rw [Nat.pow_mul]
  have second : w.toNat / 256 ^ (k + 1) = w.toNat / 256 ^ k / 256 := by
    rw [Nat.pow_succ, Nat.div_div_eq_div_mul]
  rw [BitVec.toNat_setWidth, mask, BitVec.toNat_ushiftRight, Nat.shiftRight_eq_div_pow, base]
  simp only [littleEndian, byteOf, Finset.sum_range_succ, Finset.sum_range_zero, Nat.add_zero,
    second]
  omega

theorem littleEndian_bytes {v : Nat} (small : v < 2 ^ 32) : littleEndian (byteOf v) 4 = v := by
  simp only [littleEndian, byteOf, Finset.sum_range_succ, Finset.sum_range_zero]
  omega

theorem toNat_leWord (b : Nat → ByteT) :
    (leWord b).toNat = littleEndian (fun k => (b k).toNat) 4 := by
  rw [← littleEndian_bytes (leWord b).isLt]
  unfold littleEndian
  refine Finset.sum_congr rfl fun k inside => ?_
  rw [← toNat_byte, byte_of_leWord b k (Finset.mem_range.mp inside)]

theorem leWord_eq (b : Nat → ByteT) :
    leWord b = BitVec.ofNat 32 (littleEndian (fun k => (b k).toNat) 4) := by
  rw [← toNat_leWord, BitVec.ofNat_toNat, BitVec.setWidth_eq]

theorem byte_of_block (m : MemoryModel 32 Dev) {a : BitVec 32} {k : Nat}
    (inside : a.toNat % 4 + k < 4) :
    byteOf (m.wordAt (block a)).toNat (a.toNat % 4 + k) = m.storage.byte (a.toNat + k) := by
  rw [← toNat_byte, wordAt, byte_of_leWord _ _ inside, byteAt,
    toNat_add_small (block_clear a) inside, block_toNat]
  unfold storage
  congr 2
  omega

theorem ofNat_block (a : BitVec 32) :
    BitVec.ofNat 32 (a.toNat - a.toNat % 4) = block a := by
  apply BitVec.eq_of_toNat_eq
  have := a.isLt
  rw [block_toNat, BitVec.toNat_ofNat]
  omega

theorem readByte_storage (m : MemoryModel 32 Dev) (a : BitVec 32) :
    (m.readByte a).toOption.map BitVec.toNat = m.storage.read a.toNat 1 := by
  have small : a.toNat % 4 + 0 < 4 := Nat.mod_lt _ (by omega)
  unfold Storage.read
  rw [region_storage]
  cases found : m.findMmio a with
  | some r =>
    simp only [readByte, found, Except.toOption, Option.map_some, Option.some.injEq]
    rw [BitVec.ushiftRight_eq', shift_toNat, toNat_byte]
    simp only [littleEndian, Finset.sum_range_one, Nat.pow_zero, Nat.mul_one, Nat.add_zero,
      Storage.deviceWord, ofNat_block]
    rfl
  | none =>
    rw [readByte_ram m found]
    split
    · rename_i inside
      have fits : a.toNat + 1 ≤ m.storage.size := inside
      simp only [if_pos fits, Except.toOption, Option.map_some, byteAt, littleEndian,
        Finset.sum_range_one, Nat.pow_zero, Nat.mul_one, Nat.add_zero]
      rfl
    · rename_i outside
      have past : ¬a.toNat + 1 ≤ m.storage.size := outside
      simp only [past, if_false]
      rfl

theorem readHalf_storage (m : MemoryModel 32 Dev) {a : BitVec 32} (even : a.toNat % 2 = 0) :
    (m.readHalf a).toOption.map BitVec.toNat = m.storage.read a.toNat 2 := by
  have clear : LowClear 1 a := (lowClear_iff_mod 1 a).mpr even
  unfold Storage.read
  rw [region_storage]
  cases found : m.findMmio a with
  | some r =>
    simp only [readHalf, found, Except.toOption, Option.map_some, Option.some.injEq]
    rw [even_offset clear, BitVec.ushiftRight_eq', shift_toNat, toNat_half]
    simp only [Storage.deviceWord, ofNat_block]
    rfl
  | none =>
    rw [readHalf_ram m found, ← half_of_word m clear, BitVec.ushiftRight_eq', shift_toNat]
    split
    · rename_i inside
      have fits : a.toNat + 2 ≤ m.storage.size := inside
      simp only [Except.toOption, Option.map_some, toNat_half, if_pos fits, Option.some.injEq]
      unfold littleEndian
      refine Finset.sum_congr rfl fun k bound => ?_
      have below := Finset.mem_range.mp bound
      have byte := byte_of_block m (a := a) (k := k) (by omega)
      dsimp only
      rw [byte]
    · rename_i outside
      have past : ¬a.toNat + 2 ≤ m.storage.size := outside
      simp only [past, if_false]
      rfl

theorem readWord_storage (m : MemoryModel 32 Dev) {a : BitVec 32} (aligned : a.toNat % 4 = 0) :
    (m.readWord a).toOption.map BitVec.toNat = m.storage.read a.toNat 4 := by
  have clear : LowClear 2 a := (lowClear_iff_mod 2 a).mpr aligned
  unfold Storage.read
  rw [region_storage]
  cases found : m.findMmio a with
  | some r =>
    simp only [readWord, found, Except.toOption, Option.map_some, Option.some.injEq, aligned,
      Nat.zero_add, Storage.deviceWord, Nat.sub_zero, BitVec.ofNat_toNat, BitVec.setWidth_eq]
    exact (littleEndian_bytes (r.onRead a m.dev).isLt).symm
  | none =>
    rw [readWord_ram m found]
    split
    · rename_i inside
      have fits : a.toNat + 4 ≤ m.storage.size := inside
      simp only [Except.toOption, Option.map_some, if_pos fits, Option.some.injEq]
      rw [← littleEndian_bytes (m.wordAt a).isLt]
      unfold littleEndian
      refine Finset.sum_congr rfl fun k bound => ?_
      have below := Finset.mem_range.mp bound
      have byte := byte_of_block m (a := a) (k := k) (by omega)
      rw [block_eq_self clear, aligned, Nat.zero_add] at byte
      rw [byte]
    · rename_i outside
      have past : ¬a.toNat + 4 ≤ m.storage.size := outside
      simp only [past, if_false]
      rfl

def Writes (m : MemoryModel 32 Dev) (stored : Option (Storage Dev))
    (r : Except OutOfRange Unit × MemoryModel 32 Dev) : Prop :=
  match stored with
  | some t => r.1 = .ok () ∧ r.2.storage = t ∧ r.2.lrAddr = m.lrAddr ∧ r.2.lrValid = m.lrValid
  | none => (∃ e, r.1 = .error e) ∧ r.2 = m

theorem leWord_replace {w : WordT} {b : Nat → ByteT} {off width v : Nat}
    (inside : ∀ k, k < 4 → off ≤ k ∧ k < off + width → (b k).toNat = byteOf v (k - off))
    (outside : ∀ k, k < 4 → ¬(off ≤ k ∧ k < off + width) →
      b k = ((w >>> (8 * k)) &&& 0xFF#32).setWidth 8) :
    leWord b = BitVec.ofNat 32 (littleEndian (fun k =>
      if off ≤ k ∧ k < off + width then byteOf v (k - off) else byteOf w.toNat k) 4) := by
  rw [leWord_eq]
  congr 1
  unfold littleEndian
  refine Finset.sum_congr rfl fun k bound => ?_
  have below := Finset.mem_range.mp bound
  dsimp only
  split
  · rename_i here
    rw [inside k below here]
  · rename_i elsewhere
    rw [outside k below elsewhere, toNat_byte]

theorem writeByte_storage (m : MemoryModel 32 Dev) (a : BitVec 32) {b : ByteT} {v : Nat}
    (value : b.toNat = byteOf v 0) :
    Writes m (m.storage.write a.toNat 1 v) (m.writeByte a b) := by
  unfold Storage.write
  rw [region_storage]
  cases found : m.findMmio a with
  | some r =>
    simp only [writeByte, found]
    refine ⟨rfl, ?_, rfl, rfl⟩
    have word := leWord_set_byte (fun i => ((r.onRead (block a) m.dev >>> (8 * i)) &&&
      0xFF#32).setWidth 8) (a.toNat % 4) b
    rw [leWord_bytes] at word
    simp only [BitVec.shiftLeft_eq', shift_toNat, word, storage, Storage.deviceWord, ofNat_block]
    congr 2
    refine leWord_replace (fun k below here => ?_) fun k below elsewhere => ?_
    · obtain rfl : k = a.toNat % 4 := by omega
      simp [value]
    · rw [if_neg (by omega)]
  | none =>
    rw [writeByte_ram m found]
    by_cases inside : a.toNat + 1 ≤ m.size
    · have fits : a.toNat + 1 ≤ m.storage.size := inside
      simp only [if_pos inside, if_pos fits]
      refine ⟨rfl, ?_, rfl, rfl⟩
      unfold storage setByte
      congr 1
      funext i
      dsimp only
      by_cases here : i = a.toNat
      · simp [here, value]
      · rw [if_neg here, if_neg (by omega)]
    · have past : ¬a.toNat + 1 ≤ m.storage.size := inside
      simp only [if_neg inside, if_neg past]
      exact ⟨⟨_, rfl⟩, rfl⟩

theorem writeHalf_storage (m : MemoryModel 32 Dev) {a : BitVec 32} (even : a.toNat % 2 = 0)
    {h : HalfT} {v : Nat} (low : ((h &&& 0xFF#16).setWidth 8).toNat = byteOf v 0)
    (high : (((h >>> 8) &&& 0xFF#16).setWidth 8).toNat = byteOf v 1) :
    Writes m (m.storage.write a.toNat 2 v) (m.writeHalf a h) := by
  have clear : LowClear 1 a := (lowClear_iff_mod 1 a).mpr even
  unfold Storage.write
  rw [region_storage]
  cases found : m.findMmio a with
  | some r =>
    simp only [writeHalf, found]
    refine ⟨rfl, ?_, rfl, rfl⟩
    have word := leWord_set_half (fun i => ((r.onRead (block a) m.dev >>> (8 * i)) &&&
      0xFF#32).setWidth 8) (a.toNat % 4) h
    rw [leWord_bytes] at word
    simp only [even_offset clear, BitVec.shiftLeft_eq', shift_toNat, word, storage,
      Storage.deviceWord, ofNat_block]
    congr 2
    refine leWord_replace (fun k below here => ?_) fun k below elsewhere => ?_
    · obtain rfl | rfl : k = a.toNat % 4 ∨ k = a.toNat % 4 + 1 := by omega
      · rw [if_pos rfl, low, Nat.sub_self]
      · rw [if_neg (by omega), if_pos rfl, high, Nat.add_sub_cancel_left]
    · rw [if_neg (by omega), if_neg (by omega)]
  | none =>
    rw [writeHalf_ram m found]
    by_cases inside : a.toNat + 2 ≤ m.size
    · have fits : a.toNat + 2 ≤ m.storage.size := inside
      have next : (a + 1#32).toNat = a.toNat + 1 := by
        have := a.isLt
        rw [BitVec.toNat_add, BitVec.toNat_ofNat]
        omega
      simp only [if_pos inside, if_pos fits]
      refine ⟨rfl, ?_, rfl, rfl⟩
      unfold storage setByte
      congr 1
      funext i
      dsimp only
      rw [next]
      by_cases second : i = a.toNat + 1
      · rw [if_pos second, if_pos (by omega), high, second, Nat.add_sub_cancel_left]
      · by_cases first : i = a.toNat
        · rw [if_neg second, if_pos first, if_pos (by omega), low, first, Nat.sub_self]
        · rw [if_neg second, if_neg first, if_neg (by omega)]
    · have past : ¬a.toNat + 2 ≤ m.storage.size := inside
      simp only [if_neg inside, if_neg past]
      exact ⟨⟨_, rfl⟩, rfl⟩

theorem writeWord_storage (m : MemoryModel 32 Dev) {a : BitVec 32} (aligned : a.toNat % 4 = 0)
    (w : WordT) : Writes m (m.storage.write a.toNat 4 w.toNat) (m.writeWord a w) := by
  have clear : LowClear 2 a := (lowClear_iff_mod 2 a).mpr aligned
  unfold Storage.write
  rw [region_storage]
  cases found : m.findMmio a with
  | some r =>
    simp only [writeWord, found]
    refine ⟨rfl, ?_, rfl, rfl⟩
    have whole (other : Nat → Nat) : littleEndian (fun k =>
        if a.toNat % 4 ≤ k ∧ k < a.toNat % 4 + 4 then byteOf w.toNat (k - a.toNat % 4)
        else other k) 4 = w.toNat := by
      refine Eq.trans ?_ (littleEndian_bytes w.isLt)
      unfold littleEndian
      refine Finset.sum_congr rfl fun k bound => ?_
      have below := Finset.mem_range.mp bound
      dsimp only
      rw [if_pos (by omega), aligned, Nat.sub_zero]
    simp only [storage, ofNat_block, block_eq_self clear, whole, BitVec.ofNat_toNat,
      BitVec.setWidth_eq]
  | none =>
    rw [writeWord_ram m found]
    by_cases inside : a.toNat + 4 ≤ m.size
    · have fits : a.toNat + 4 ≤ m.storage.size := inside
      have next (k : Nat) (below : k < 4) : (a + BitVec.ofNat 32 k).toNat = a.toNat + k :=
        toNat_add_small clear below
      have byte (k : Nat) : (((w >>> (8 * k)) &&& 0xFF#32).setWidth 8).toNat = byteOf w.toNat k :=
        toNat_byte w k
      simp only [if_pos inside, if_pos fits]
      refine ⟨rfl, ?_, rfl, rfl⟩
      unfold storage setByte
      congr 1
      funext i
      dsimp only
      have n1 : (a + 1#32).toNat = a.toNat + 1 := next 1 (by omega)
      have n2 : (a + 2#32).toNat = a.toNat + 2 := next 2 (by omega)
      have n3 : (a + 3#32).toNat = a.toNat + 3 := next 3 (by omega)
      have b0 : ((w &&& 0xFF#32).setWidth 8).toNat = byteOf w.toNat 0 := byte 0
      rw [n1, n2, n3]
      by_cases touched : a.toNat ≤ i ∧ i < a.toNat + 4
      · rw [if_pos touched]
        obtain rfl | rfl | rfl | rfl : i = a.toNat ∨ i = a.toNat + 1 ∨ i = a.toNat + 2 ∨
          i = a.toNat + 3 := by omega
        · rw [if_neg (by omega), if_neg (by omega), if_neg (by omega), if_pos rfl, b0, Nat.sub_self]
        · rw [if_neg (by omega), if_neg (by omega), if_pos rfl, Nat.add_sub_cancel_left]
          exact byte 1
        · rw [if_neg (by omega), if_pos rfl, Nat.add_sub_cancel_left]
          exact byte 2
        · rw [if_pos rfl, Nat.add_sub_cancel_left]
          exact byte 3
      · rw [if_neg (by omega), if_neg (by omega), if_neg (by omega), if_neg (by omega),
          if_neg touched]
    · have past : ¬a.toNat + 4 ≤ m.storage.size := inside
      simp only [if_neg inside, if_neg past]
      exact ⟨⟨_, rfl⟩, rfl⟩

end MemoryModel

end XorOS
