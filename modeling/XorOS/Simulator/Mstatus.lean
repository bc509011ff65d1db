import XorOS.Library.Bits
import XorOS.Simulator.RvModel

/- The bits of mstatus that trap entry and MRET touch: MIE (3), MPIE (7) and MPP (11, 12). -/
namespace XorOS.RVModel
open Bits
variable {xlen : Nat}

theorem testBit_trapBits (i : Nat) :
    (CSR.MSTATUS_MIE ||| CSR.MSTATUS_MPIE ||| CSR.MSTATUS_MPP).testBit i =
      decide (i = 3 ∨ i = 7 ∨ i = 11 ∨ i = 12) := by
  change (0x1888).testBit i = _
  by_cases small : i < 13
  · have table : ∀ i < 13, (0x1888).testBit i = decide (i = 3 ∨ i = 7 ∨ i = 11 ∨ i = 12) := by
      decide
    exact table i small
  · have large : 0x1888 < 2 ^ i :=
      Nat.lt_of_lt_of_le (by decide : 0x1888 < 2 ^ 13) (Nat.pow_le_pow_right (by omega) (by omega))
    rw [Nat.testBit_lt_two_pow large]
    symm
    rw [decide_eq_false_iff_not]
    omega

theorem getLsbD_trapBits {i : Nat} (inside : i < xlen) :
    (uword (CSR.MSTATUS_MIE ||| CSR.MSTATUS_MPIE ||| CSR.MSTATUS_MPP) : BitVec xlen).getLsbD i =
      decide (i = 3 ∨ i = 7 ∨ i = 11 ∨ i = 12) := by
  rw [BitVec.getLsbD_ofNat, testBit_trapBits, decide_eq_true inside, Bool.true_and]

theorem getLsbD_bit {i : Nat} (inside : i < xlen) (k : Nat) :
    (uword (2 ^ k) : BitVec xlen).getLsbD i = decide (i = k) := by
  rw [BitVec.getLsbD_ofNat, Nat.testBit_two_pow, decide_eq_true inside, Bool.true_and]
  simp only [eq_comm]

theorem mie_eq : CSR.MSTATUS_MIE = 2 ^ 3 := rfl
theorem mpie_eq : CSR.MSTATUS_MPIE = 2 ^ 7 := rfl

theorem getLsbD_mretMstatus (x : BitVec xlen) {i : Nat} (inside : i < xlen) :
    (mretMstatus x).getLsbD i =
      if i = 7 then true else if i = 3 then x.getLsbD 7
      else if i = 11 ∨ i = 12 then false else x.getLsbD i := by
  unfold mretMstatus
  cases bit : x.getLsbD 7 with
  | true =>
    have set : x &&& uword CSR.MSTATUS_MPIE ≠ 0#(xlen) := by
      rw [mpie_eq, Ne, and_bit_eq_zero_iff, bit]
      simp
    simp only [set, ne_eq, not_false_eq_true, if_true]
    rw [BitVec.getLsbD_or, BitVec.getLsbD_or, BitVec.getLsbD_and, BitVec.getLsbD_not,
      getLsbD_trapBits inside, mie_eq, mpie_eq, getLsbD_bit inside, getLsbD_bit inside]
    by_cases h7 : i = 7
    · simp [h7]
    by_cases h3 : i = 3
    · simp [h3]
    by_cases mpp : i = 11 ∨ i = 12
    · simp [h7, h3, mpp]
    · simp [h7, h3, mpp, inside]
  | false =>
    have clear : x &&& uword CSR.MSTATUS_MPIE = 0#(xlen) := by
      rw [mpie_eq, and_bit_eq_zero_iff, bit]
    simp only [clear, ne_eq, not_true_eq_false, if_false]
    rw [BitVec.getLsbD_or, BitVec.getLsbD_and, BitVec.getLsbD_not,
      getLsbD_trapBits inside, mpie_eq, getLsbD_bit inside]
    by_cases h7 : i = 7
    · simp [h7]
    by_cases h3 : i = 3
    · simp [h3]
    by_cases mpp : i = 11 ∨ i = 12
    · simp [h7, h3, mpp]
    · simp [h7, h3, mpp, inside]

theorem getLsbD_trapMstatus (x : BitVec xlen) (priv : PrivMode) {i : Nat} (inside : i < xlen) :
    (trapMstatus x priv).getLsbD i =
      if i = 3 then false else if i = 7 then x.getLsbD 3
      else if i = 11 ∨ i = 12 then priv.getLsbD (i - 11) else x.getLsbD i := by
  have shifted : (priv.setWidth xlen <<< 11).getLsbD i =
      (decide (i = 11 ∨ i = 12) && priv.getLsbD (i - 11)) := by
    rw [BitVec.getLsbD_shiftLeft, BitVec.getLsbD_setWidth]
    by_cases low : i < 11
    · have apart : ¬(i = 11 ∨ i = 12) := by omega
      simp [low, apart]
    by_cases high : 12 < i
    · have apart : ¬(i = 11 ∨ i = 12) := by omega
      have beyond : priv.getLsbD (i - 11) = false := BitVec.getLsbD_of_ge _ _ (by omega)
      simp [beyond]
    · have here : i = 11 ∨ i = 12 := by omega
      simp [low, here, inside, show i - 11 < xlen by omega]
  unfold trapMstatus
  cases bit : x.getLsbD 3 with
  | true =>
    have set : x &&& uword CSR.MSTATUS_MIE ≠ 0#(xlen) := by
      rw [mie_eq, Ne, and_bit_eq_zero_iff, bit]
      simp
    simp only [set, ne_eq, not_false_eq_true, if_true]
    rw [BitVec.getLsbD_or, BitVec.getLsbD_or, BitVec.getLsbD_and, BitVec.getLsbD_not,
      getLsbD_trapBits inside, mpie_eq, getLsbD_bit inside, shifted]
    by_cases h3 : i = 3
    · simp [h3]
    by_cases h7 : i = 7
    · simp [h7]
    by_cases mpp : i = 11 ∨ i = 12
    · simp [h7, h3, mpp]
    · simp [h7, h3, mpp, inside]
  | false =>
    have clear : x &&& uword CSR.MSTATUS_MIE = 0#(xlen) := by
      rw [mie_eq, and_bit_eq_zero_iff, bit]
    simp only [clear, ne_eq, not_true_eq_false, if_false]
    rw [BitVec.getLsbD_or, BitVec.getLsbD_and, BitVec.getLsbD_not, getLsbD_trapBits inside, shifted]
    by_cases h3 : i = 3
    · simp [h3]
    by_cases h7 : i = 7
    · simp [h7]
    by_cases mpp : i = 11 ∨ i = 12
    · simp [h7, h3, mpp]
    · simp [h7, h3, mpp, inside]

theorem mie_trapMstatus (wide : 8 ≤ xlen) (x : BitVec xlen) (priv : PrivMode) :
    (trapMstatus x priv).getLsbD 3 = false := by
  rw [getLsbD_trapMstatus x priv (by omega)]
  rfl

theorem getLsbD_mpp (x : BitVec xlen) {i : Nat} (small : i < 2) :
    (mpp x).getLsbD i = x.getLsbD (11 + i) := by
  have mask : (3#32).getLsbD i = true := by
    have table : ∀ i < 2, (3#32).getLsbD i = true := by decide
    exact table i small
  unfold mpp
  simp only [BitVec.getLsbD_setWidth, BitVec.getLsbD_and, BitVec.getLsbD_ushiftRight, mask, small,
    decide_true, Bool.true_and, Bool.and_true, show 11 + i < 32 by omega]

theorem mpp_eq_zero_iff (x : BitVec xlen) :
    mpp x = 0#2 ↔ x.getLsbD 11 = false ∧ x.getLsbD 12 = false := by
  rw [BitVec.eq_of_getLsbD_eq_iff]
  constructor
  · intro zero
    have h0 := zero 0 (by omega)
    have h1 := zero 1 (by omega)
    rw [getLsbD_mpp x (by omega)] at h0 h1
    simpa using ⟨h0, h1⟩
  · rintro ⟨h11, h12⟩ i small
    rw [getLsbD_mpp x small]
    have : i = 0 ∨ i = 1 := by omega
    rcases this with rfl | rfl
    · simpa using h11
    · simpa using h12

theorem mpp_trapMstatus (wide : 13 ≤ xlen) (x : BitVec xlen) (priv : PrivMode) :
    mpp (trapMstatus x priv) = priv := by
  apply BitVec.eq_of_getLsbD_eq
  intro i small
  rw [getLsbD_mpp _ small, getLsbD_trapMstatus x priv (by omega), if_neg (by omega),
    if_neg (by omega), if_pos (by omega), Nat.add_sub_cancel_left]

theorem mpp_mretMstatus (x : BitVec xlen) : mpp (mretMstatus x) = 0#2 := by
  have clear (k : Nat) (which : k = 11 ∨ k = 12) : (mretMstatus x).getLsbD k = false := by
    by_cases inside : k < xlen
    · rw [getLsbD_mretMstatus x inside]
      rcases which with rfl | rfl
      · rfl
      · rfl
    · exact BitVec.getLsbD_of_ge _ _ (by omega)
  exact (mpp_eq_zero_iff _).mpr ⟨clear 11 (Or.inl rfl), clear 12 (Or.inr rfl)⟩

/-- MRET leaves an mstatus with MPP = U alone only if MIE and MPIE are both set. -/
theorem mretMstatus_eq_self_iff (wide : 8 ≤ xlen) {x : BitVec xlen} (user : mpp x = 0#2) :
    mretMstatus x = x ↔ x.getLsbD 3 = true ∧ x.getLsbD 7 = true := by
  obtain ⟨h11, h12⟩ := (mpp_eq_zero_iff x).mp user
  constructor
  · intro same
    have bit (k : Nat) (inside : k < xlen) := getLsbD_mretMstatus x inside
    rw [same] at bit
    have h7 := bit 7 (by omega)
    have h3 := bit 3 (by omega)
    simp only [if_true] at h7
    simp [h7] at h3
    exact ⟨by simpa using h3, h7⟩
  · rintro ⟨mie, mpie⟩
    apply BitVec.eq_of_getLsbD_eq
    intro i inside
    rw [getLsbD_mretMstatus x inside]
    by_cases h7 : i = 7
    · simp [h7, mpie]
    by_cases h3 : i = 3
    · simp [h3, mie, mpie]
    by_cases mpp : i = 11 ∨ i = 12
    · rcases mpp with rfl | rfl
      · simp [h11]
      · simp [h12]
    · simp [h7, h3, mpp]

end XorOS.RVModel
