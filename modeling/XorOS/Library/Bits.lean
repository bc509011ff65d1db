import Mathlib.Tactic

/- Bit vectors whose low bits are clear, masks of low bits, and little-endian words.
   Nothing here depends on the processor. -/
namespace Bits
variable {w : Nat}

/-- The lowest k bits are zero: x is a multiple of 2 ^ k. -/
def LowClear (k : Nat) (x : BitVec w) : Prop := ∀ i, i < k → x.getLsbD i = false

instance (k : Nat) (x : BitVec w) : Decidable (LowClear k x) :=
  inferInstanceAs (Decidable (∀ i, i < k → _ = false))

theorem lowClear_iff_mod (k : Nat) (x : BitVec w) : LowClear k x ↔ x.toNat % 2 ^ k = 0 := by
  constructor
  · intro clear
    apply Nat.eq_of_testBit_eq
    intro i
    by_cases low : i < k
    · have bit := clear i low
      simp only [BitVec.getLsbD] at bit
      simp [Nat.testBit_mod_two_pow, low, bit]
    · simp [Nat.testBit_mod_two_pow, low]
  · intro zero i low
    have bit := congrArg (fun n => n.testBit i) zero
    simpa [Nat.testBit_mod_two_pow, low, BitVec.getLsbD] using bit

theorem getLsbD_mask (k i : Nat) (fit : k ≤ w) :
    (BitVec.ofNat w (2 ^ k - 1)).getLsbD i = decide (i < k) := by
  simp only [BitVec.getLsbD_ofNat, Nat.testBit_two_pow_sub_one]
  by_cases low : i < k
  · simp [low, show i < w by omega]
  · simp [low]

theorem and_mask_eq_zero_iff {k : Nat} (fit : k ≤ w) (x : BitVec w) :
    x &&& BitVec.ofNat w (2 ^ k - 1) = 0#w ↔ LowClear k x := by
  constructor
  · intro zero i low
    have bit := congrArg (fun y => y.getLsbD i) zero
    simpa [getLsbD_mask k i fit, low] using bit
  · intro clear
    apply BitVec.eq_of_getLsbD_eq
    intro i hi
    by_cases low : i < k
    · simp [clear i low]
    · simp only [BitVec.getLsbD_and, getLsbD_mask k i fit, low]
      simp

theorem and_bit_eq_zero_iff (x : BitVec w) (k : Nat) :
    x &&& BitVec.ofNat w (2 ^ k) = 0#w ↔ x.getLsbD k = false := by
  constructor
  · intro zero
    by_cases inside : k < w
    · have bit := congrArg (fun y => y.getLsbD k) zero
      simpa only [BitVec.getLsbD_and, BitVec.getLsbD_ofNat, inside, decide_true,
        Nat.testBit_two_pow_self, Bool.and_true, Nat.zero_testBit, Bool.and_false] using bit
    · exact BitVec.getLsbD_of_ge x k (by omega)
  · intro clear
    apply BitVec.eq_of_getLsbD_eq
    intro i hi
    simp only [BitVec.getLsbD_and, BitVec.getLsbD_ofNat, Nat.testBit_two_pow]
    by_cases same : k = i
    · subst same
      simp [clear]
    · simp [same]

theorem toNat_and_mask {k : Nat} (fit : k ≤ w) (x : BitVec w) :
    (x &&& BitVec.ofNat w (2 ^ k - 1)).toNat = x.toNat % 2 ^ k := by
  have bound : 2 ^ k - 1 < 2 ^ w := by
    have := Nat.pow_le_pow_right (n := 2) (by omega) fit
    have := Nat.two_pow_pos k
    omega
  rw [BitVec.toNat_and, BitVec.toNat_ofNat, Nat.mod_eq_of_lt bound, Nat.and_two_pow_sub_one_eq_mod]

theorem lowClear_or {k : Nat} {x y : BitVec w} (hx : LowClear k x) (hy : LowClear k y) :
    LowClear k (x ||| y) := by
  intro i low
  simp [hx i low, hy i low]

theorem lowClear_and_left {k : Nat} {x : BitVec w} (y : BitVec w) (hx : LowClear k x) :
    LowClear k (x &&& y) := by
  intro i low
  simp [hx i low]

theorem lowClear_shiftLeft {k n : Nat} (x : BitVec w) (le : k ≤ n) : LowClear k (x <<< n) := by
  intro i low
  simp [show i < n by omega]

theorem lowClear_and_not_mask {k : Nat} (fit : k ≤ w) (x : BitVec w) :
    LowClear k (x &&& ~~~BitVec.ofNat w (2 ^ k - 1)) := by
  intro i low
  rw [BitVec.getLsbD_and, BitVec.getLsbD_not, getLsbD_mask k i fit]
  simp [low]

theorem lowClear_mono {j k : Nat} {x : BitVec w} (le : j ≤ k) (hx : LowClear k x) :
    LowClear j x := fun i low => hx i (by omega)

theorem toNat_and_not_mask {k : Nat} (fit : k ≤ w) (x : BitVec w) :
    (x &&& ~~~BitVec.ofNat w (2 ^ k - 1)).toNat = x.toNat - x.toNat % 2 ^ k := by
  have disjoint (y : BitVec w) : (x &&& ~~~y) &&& (x &&& y) = 0#w := by
    ext i hi
    simp
    grind
  have join (y : BitVec w) : (x &&& ~~~y) ||| (x &&& y) = x := by
    ext i hi
    simp
    grind
  have sum := BitVec.toNat_add_of_and_eq_zero (disjoint (BitVec.ofNat w (2 ^ k - 1)))
  rw [BitVec.add_eq_or_of_and_eq_zero _ _ (disjoint _), join, toNat_and_mask fit] at sum
  omega

theorem shiftLeft_ushiftRight {k : Nat} (fit : k ≤ w) (x : BitVec w) :
    (x >>> k) <<< k = x &&& ~~~BitVec.ofNat w (2 ^ k - 1) := by
  apply BitVec.eq_of_getLsbD_eq
  intro i hi
  rw [BitVec.getLsbD_shiftLeft, BitVec.getLsbD_ushiftRight, BitVec.getLsbD_and,
    BitVec.getLsbD_not, getLsbD_mask k i fit]
  by_cases low : i < k
  · simp [low]
  · simp [low, hi, show k + (i - k) = i by omega]

theorem shiftLeft_ushiftRight_of_clear {k : Nat} {x : BitVec w} (clear : LowClear k x) :
    (x >>> k) <<< k = x := by
  apply BitVec.eq_of_getLsbD_eq
  intro i hi
  rw [BitVec.getLsbD_shiftLeft, BitVec.getLsbD_ushiftRight]
  by_cases low : i < k
  · simp [low, clear i low]
  · simp [low, hi, show k + (i - k) = i by omega]

/-- Below a value whose k low bits are clear, adding k bits is the same as setting them. -/
theorem add_eq_or_of_clear {k : Nat} {x y : BitVec w} (clear : LowClear k x)
    (small : y >>> k = 0#w) : x + y = x ||| y := by
  apply BitVec.add_eq_or_of_and_eq_zero
  apply BitVec.eq_of_getLsbD_eq
  intro i hi
  rw [BitVec.getLsbD_and]
  by_cases low : i < k
  · simp [clear i low]
  · have bit := congrArg (fun z => z.getLsbD (i - k)) small
    simp only [BitVec.getLsbD_ushiftRight, show k + (i - k) = i by omega] at bit
    simp [bit]

theorem setWidth_and_mask {k : Nat} (fit : k ≤ w) (x : BitVec k) :
    x.setWidth w &&& BitVec.ofNat w (2 ^ k - 1) = x.setWidth w := by
  apply BitVec.eq_of_getLsbD_eq
  intro i hi
  rw [BitVec.getLsbD_and, getLsbD_mask k i fit, BitVec.getLsbD_setWidth]
  by_cases low : i < k
  · simp [low]
  · simp [low, BitVec.getLsbD_of_ge x i (by omega)]

theorem toNat_or_of_lt (k : Nat) {x y : BitVec w} (clear : x.toNat % 2 ^ k = 0)
    (small : y.toNat < 2 ^ k) : (x ||| y).toNat = x.toNat + y.toNat := by
  obtain ⟨q, same⟩ := Nat.dvd_of_mod_eq_zero clear
  rw [BitVec.toNat_or, same, Nat.two_pow_add_eq_or_of_lt small]

/-- Nor does adding them wrap round. -/
theorem toNat_add_of_clear {k i : Nat} {x : BitVec w} (fit : k ≤ w) (clear : LowClear k x)
    (small : i < 2 ^ k) : (x + BitVec.ofNat w i).toNat = x.toNat + i := by
  obtain ⟨q, same⟩ := Nat.dvd_of_mod_eq_zero ((lowClear_iff_mod k x).mp clear)
  have split : 2 ^ w = 2 ^ k * 2 ^ (w - k) := by
    rw [← Nat.pow_add, Nat.add_sub_cancel' fit]
  have bound : 2 ^ k * q < 2 ^ k * 2 ^ (w - k) := by
    rw [← same, ← split]
    exact x.isLt
  have next : q + 1 ≤ 2 ^ (w - k) := Nat.lt_of_mul_lt_mul_left bound
  have room : 2 ^ k * (q + 1) ≤ 2 ^ k * 2 ^ (w - k) := Nat.mul_le_mul_left _ next
  rw [Nat.mul_succ] at room
  rw [BitVec.toNat_add, BitVec.toNat_ofNat, Nat.add_mod_mod, Nat.mod_eq_of_lt]
  omega

theorem toNat_shiftLeft_of_lt {x : BitVec w} {k : Nat} (fits : x.toNat * 2 ^ k < 2 ^ w) :
    (x <<< k).toNat = x.toNat * 2 ^ k := by
  rw [BitVec.toNat_shiftLeft, Nat.shiftLeft_eq, Nat.mod_eq_of_lt fits]

/-- Four bytes, least significant first. -/
def leWord (b : Nat → BitVec 8) : BitVec 32 :=
  (b 0).setWidth 32 ||| ((b 1).setWidth 32 <<< 8) ||| ((b 2).setWidth 32 <<< 16) |||
    ((b 3).setWidth 32 <<< 24)

theorem getLsbD_leWord (b : Nat → BitVec 8) (i : Nat) (bound : i < 32) :
    (leWord b).getLsbD i = (b (i / 8)).getLsbD (i % 8) := by
  have block : i / 8 = 0 ∨ i / 8 = 1 ∨ i / 8 = 2 ∨ i / 8 = 3 := by omega
  simp only [leWord, BitVec.getLsbD_or, BitVec.getLsbD_shiftLeft, BitVec.getLsbD_setWidth]
  have high (j : Nat) (c : BitVec 8) (le : 8 ≤ j) : c.getLsbD j = false :=
    BitVec.getLsbD_of_ge c j le
  rcases block with h | h | h | h
  · simp [h, bound, show i < 8 by omega, show i < 16 by omega, show i < 24 by omega,
      Nat.mod_eq_of_lt (show i < 8 by omega)]
  · simp [h, bound, show ¬ i < 8 by omega, show i < 16 by omega, show i < 24 by omega,
      high i _ (by omega), show i - 8 = i % 8 by omega, show i % 8 < 32 by omega]
  · simp [h, bound, show ¬ i < 8 by omega, show ¬ i < 16 by omega, show i < 24 by omega,
      high i _ (by omega), high (i - 8) _ (by omega), show i - 16 = i % 8 by omega,
      show i % 8 < 32 by omega]
  · simp [h, bound, show ¬ i < 8 by omega, show ¬ i < 16 by omega, show ¬ i < 24 by omega,
      high i _ (by omega), high (i - 8) _ (by omega), high (i - 16) _ (by omega),
      show i - 24 = i % 8 by omega, show i % 8 < 32 by omega]

theorem leWord_congr {b c : Nat → BitVec 8} (same : ∀ i, i < 4 → b i = c i) :
    leWord b = leWord c := by
  simp [leWord, same 0 (by omega), same 1 (by omega), same 2 (by omega), same 3 (by omega)]

theorem byte_of_leWord (b : Nat → BitVec 8) (k : Nat) (bound : k < 4) :
    ((leWord b >>> (8 * k)) &&& 0xFF#32).setWidth 8 = b k := by
  apply BitVec.eq_of_getLsbD_eq
  intro i hi
  have mask : (0xFF#32).getLsbD i = decide (i < 8) := getLsbD_mask (w := 32) 8 i (by omega)
  simp only [BitVec.getLsbD_setWidth, BitVec.getLsbD_and, BitVec.getLsbD_ushiftRight, mask]
  rw [getLsbD_leWord b (8 * k + i) (by omega)]
  simp [hi, show (8 * k + i) / 8 = k by omega, show (8 * k + i) % 8 = i by omega]

theorem half_of_leWord (b : Nat → BitVec 8) (k : Nat) (bound : k < 3) :
    ((leWord b >>> (8 * k)) &&& 0xFFFF#32).setWidth 16 =
      (b k).setWidth 16 ||| ((b (k + 1)).setWidth 16 <<< 8) := by
  apply BitVec.eq_of_getLsbD_eq
  intro i hi
  have mask : (0xFFFF#32).getLsbD i = decide (i < 16) := getLsbD_mask (w := 32) 16 i (by omega)
  simp only [BitVec.getLsbD_setWidth, BitVec.getLsbD_and, BitVec.getLsbD_ushiftRight, mask,
    BitVec.getLsbD_or, BitVec.getLsbD_shiftLeft]
  rw [getLsbD_leWord b (8 * k + i) (by omega)]
  by_cases low : i < 8
  · simp [hi, low, show (8 * k + i) / 8 = k by omega, show (8 * k + i) % 8 = i by omega]
  · rw [show (8 * k + i) / 8 = k + 1 by omega, show (8 * k + i) % 8 = i - 8 by omega,
      BitVec.getLsbD_of_ge (b k) i (by omega)]
    simp [hi, low, show i - 8 < 16 by omega]

theorem getLsbD_low_byte (v : BitVec w) (fit : 8 ≤ w) (i : Nat) (bound : i < 8) :
    ((v &&& BitVec.ofNat w 0xFF).setWidth 8).getLsbD i = v.getLsbD i := by
  have mask : (BitVec.ofNat w 0xFF).getLsbD i = decide (i < 8) := getLsbD_mask 8 i fit
  simp only [BitVec.getLsbD_setWidth, BitVec.getLsbD_and, mask, bound]
  simp

theorem leWord_set_byte (b : Nat → BitVec 8) (k : Nat) (v : BitVec 8) :
    (leWord b &&& ~~~(0xFF#32 <<< (8 * k))) ||| (v.setWidth 32 <<< (8 * k)) =
      leWord (fun i => if i = k then v else b i) := by
  apply BitVec.eq_of_getLsbD_eq
  intro i hi
  have mask (j : Nat) : (0xFF#32).getLsbD j = decide (j < 8) :=
    getLsbD_mask (w := 32) 8 j (by omega)
  simp only [BitVec.getLsbD_or, BitVec.getLsbD_and, BitVec.getLsbD_not, BitVec.getLsbD_shiftLeft,
    BitVec.getLsbD_setWidth, getLsbD_leWord _ i hi, mask]
  by_cases block : i / 8 = k
  · simp [block, hi, show ¬ i < 8 * k by omega, show i - 8 * k = i % 8 by omega,
      Nat.mod_lt i (show 0 < 8 by omega), show i % 8 < 32 by omega]
  · by_cases low : i < 8 * k
    · simp [block, hi, low]
    · simp [block, hi, low, show ¬ i - 8 * k < 8 by omega,
        BitVec.getLsbD_of_ge v (i - 8 * k) (by omega)]

theorem leWord_set_half (b : Nat → BitVec 8) (k : Nat) (v : BitVec 16) :
    (leWord b &&& ~~~(0xFFFF#32 <<< (8 * k))) ||| (v.setWidth 32 <<< (8 * k)) =
      leWord (fun i => if i = k then (v &&& 0xFF#16).setWidth 8
        else if i = k + 1 then ((v >>> 8) &&& 0xFF#16).setWidth 8 else b i) := by
  apply BitVec.eq_of_getLsbD_eq
  intro i hi
  have mask (j : Nat) : (0xFFFF#32).getLsbD j = decide (j < 16) :=
    getLsbD_mask (w := 32) 16 j (by omega)
  have byte (x : BitVec 16) : ((x &&& 0xFF#16).setWidth 8).getLsbD (i % 8) = x.getLsbD (i % 8) :=
    getLsbD_low_byte x (by omega) _ (Nat.mod_lt i (by omega))
  have small : i % 8 < 8 := Nat.mod_lt i (by omega)
  simp only [BitVec.getLsbD_or, BitVec.getLsbD_and, BitVec.getLsbD_not, BitVec.getLsbD_shiftLeft,
    BitVec.getLsbD_setWidth, getLsbD_leWord _ i hi, mask]
  by_cases first : i / 8 = k
  · rw [if_pos first, byte]
    simp [first, hi, small, show ¬ i < 8 * k by omega, show i - 8 * k = i % 8 by omega,
      show i % 8 < 16 by omega, show i % 8 < 32 by omega]
  · rw [if_neg first]
    by_cases second : i / 8 = k + 1
    · rw [if_pos second, byte, BitVec.getLsbD_ushiftRight]
      simp [hi, show ¬ i < 8 * k by omega, show i - 8 * k = 8 + i % 8 by omega,
        show 8 + i % 8 < 16 by omega, show 8 + i % 8 < 32 by omega]
    · rw [if_neg second]
      by_cases low : i < 8 * k
      · simp [hi, low]
      · simp [hi, low, show ¬ i - 8 * k < 16 by omega,
          BitVec.getLsbD_of_ge v (i - 8 * k) (by omega)]

theorem leWord_bytes (v : BitVec 32) :
    leWord (fun i => ((v >>> (8 * i)) &&& 0xFF#32).setWidth 8) = v := by
  apply BitVec.eq_of_getLsbD_eq
  intro i hi
  rw [getLsbD_leWord _ i hi]
  have byte := getLsbD_low_byte (v >>> (8 * (i / 8))) (by omega) (i % 8) (Nat.mod_lt i (by omega))
  rw [byte, BitVec.getLsbD_ushiftRight, show 8 * (i / 8) + i % 8 = i by omega]

end Bits
