import XorOS.Library.Bits
import XorOS.Library.IntHart
import XorOS.Simulator.Alu

/- alu.hpp over the integers. -/
namespace XorOS.ALU
open IntHart

/-- The exact integer result of an operation on two registers. -/
def exact (op : Op) (a b : Int) : Int :=
  match op with
  | .ADD => a + b
  | .SUB => a - b
  | .AND => (a.toNat &&& b.toNat : Nat)
  | .OR => (a.toNat ||| b.toNat : Nat)
  | .XOR => (a.toNat ^^^ b.toNat : Nat)
  | .SLL => a * 2 ^ (b % 32).toNat
  | .SRL => a / 2 ^ (b % 32).toNat
  | .SRA => signed 32 a / 2 ^ (b % 32).toNat
  | .SLT => if signed 32 a < signed 32 b then 1 else 0
  | .SLTU => if a < b then 1 else 0
  | .MUL => a * b
  | .MULH => signed 32 a * signed 32 b / 2 ^ 32
  | .MULHSU => signed 32 a * b / 2 ^ 32
  | .MULHU => a * b / 2 ^ 32
  | .DIV => if b = 0 then -1 else (signed 32 a).tdiv (signed 32 b)
  | .DIVU => if b = 0 then -1 else a / b
  | .REM => if b = 0 then a else (signed 32 a).tmod (signed 32 b)
  | .REMU => if b = 0 then a else a % b

theorem toNat_shamt (b : BitVec 32) :
    (b &&& uword (32 - 1)).toNat = ((b.toNat : Int) % 32).toNat := by
  have mask : (b &&& uword (32 - 1)).toNat = b.toNat % 2 ^ 5 :=
    Bits.toNat_and_mask (w := 32) (k := 5) (by omega) b
  omega

theorem toNat_ofInt_natCast (n : Nat) : (BitVec.ofInt 32 n).toNat = n % 2 ^ 32 := by
  rw [BitVec.ofInt_natCast, BitVec.toNat_ofNat]

theorem execute_bitwise (a b : BitVec 32) :
    a &&& b = BitVec.ofInt 32 (exact .AND a.toNat b.toNat) ∧
      a ||| b = BitVec.ofInt 32 (exact .OR a.toNat b.toNat) ∧
      a ^^^ b = BitVec.ofInt 32 (exact .XOR a.toNat b.toNat) := by
  refine ⟨?_, ?_, ?_⟩
  · apply BitVec.eq_of_toNat_eq
    simp only [exact, Int.toNat_natCast, toNat_ofInt_natCast, ← BitVec.toNat_and]
    omega
  · apply BitVec.eq_of_toNat_eq
    simp only [exact, Int.toNat_natCast, toNat_ofInt_natCast, ← BitVec.toNat_or]
    omega
  · apply BitVec.eq_of_toNat_eq
    simp only [exact, Int.toNat_natCast, toNat_ofInt_natCast, ← BitVec.toNat_xor]
    omega

theorem execute_shift (a b : BitVec 32) :
    execute .SLL a b = BitVec.ofInt 32 (exact .SLL a.toNat b.toNat) ∧
      execute .SRL a b = BitVec.ofInt 32 (exact .SRL a.toNat b.toNat) ∧
      execute .SRA a b = BitVec.ofInt 32 (exact .SRA a.toNat b.toNat) := by
  refine ⟨?_, ?_, ?_⟩
  · apply BitVec.eq_of_toNat_eq
    simp only [execute, exact, BitVec.shiftLeft_eq', BitVec.toNat_shiftLeft, toNat_shamt,
      Nat.shiftLeft_eq]
    rw [← toNat_ofInt_natCast]
    push_cast
    rfl
  · apply BitVec.eq_of_toNat_eq
    have below := Nat.div_le_self a.toNat (2 ^ ((b.toNat : Int) % 32).toNat)
    simp only [execute, exact, BitVec.ushiftRight_eq', BitVec.toNat_ushiftRight, toNat_shamt,
      Nat.shiftRight_eq_div_pow]
    rw [show ((a.toNat : Int) / 2 ^ ((b.toNat : Int) % 32).toNat) =
      ((a.toNat / 2 ^ ((b.toNat : Int) % 32).toNat : Nat) : Int) by push_cast; rfl,
      toNat_ofInt_natCast, Nat.mod_eq_of_lt (Nat.lt_of_le_of_lt below a.isLt)]
  · simp only [execute, exact, BitVec.sshiftRight', toNat_shamt, signed_toNat]
    rw [← BitVec.ofInt_toInt (x := a.sshiftRight _), BitVec.toInt_sshiftRight,
      Int.shiftRight_eq_div_pow]
    push_cast
    rfl

theorem high_half {x : BitVec 64} {p : Int} (same : (x.toNat : Int) = p % 2 ^ 64) :
    (x >>> 32).setWidth 32 = BitVec.ofInt 32 (p / 2 ^ 32) := by
  apply BitVec.eq_of_toNat_eq
  rw [BitVec.toNat_setWidth, BitVec.toNat_ushiftRight, Nat.shiftRight_eq_div_pow,
    BitVec.toNat_ofInt]
  omega

theorem execute_mul (a b : BitVec 32) :
    execute .MUL a b = BitVec.ofInt 32 (exact .MUL a.toNat b.toNat) ∧
      execute .MULH a b = BitVec.ofInt 32 (exact .MULH a.toNat b.toNat) ∧
      execute .MULHSU a b = BitVec.ofInt 32 (exact .MULHSU a.toNat b.toNat) ∧
      execute .MULHU a b = BitVec.ofInt 32 (exact .MULHU a.toNat b.toNat) := by
  have unsigned (x : BitVec 32) : ((x.setWidth 64).toNat : Int) = x.toNat := by
    rw [BitVec.toNat_setWidth]
    omega
  have extended (x : BitVec 32) : ((x.signExtend 64).toNat : Int) = x.toInt % 2 ^ 64 := by
    have same : (x.signExtend 64).toInt = x.toInt := BitVec.toInt_signExtend_of_le (by omega)
    rw [← same, BitVec.toInt_eq_toNat_cond]
    split
    · omega
    · omega
  refine ⟨?_, ?_, ?_, ?_⟩
  · apply BitVec.eq_of_toNat_eq
    have wide (x : BitVec 32) : (x.setWidth 64).toNat = x.toNat := by
      rw [BitVec.toNat_setWidth]
      omega
    change ((a.setWidth 64 * b.setWidth 64).setWidth 32).toNat = _
    simp only [exact]
    rw [BitVec.toNat_setWidth, BitVec.toNat_mul, wide, wide, ← Int.natCast_mul,
      toNat_ofInt_natCast]
    omega
  · apply high_half
    rw [BitVec.toNat_mul, Int.natCast_mod, Int.natCast_mul, extended, extended, signed_toNat,
      signed_toNat]
    push_cast
    rw [← Int.mul_emod]
  · apply high_half
    rw [BitVec.toNat_mul, Int.natCast_mod, Int.natCast_mul, extended, unsigned, signed_toNat]
    push_cast
    rw [Int.mul_emod, Int.emod_emod_of_dvd _ (dvd_refl _), ← Int.mul_emod]
  · apply high_half
    rw [BitVec.toNat_mul, Int.natCast_mod, Int.natCast_mul, unsigned, unsigned]
    rfl

theorem execute_sum (a b : BitVec 32) :
    a + b = BitVec.ofInt 32 (a.toNat + b.toNat) ∧ a - b = BitVec.ofInt 32 (a.toNat - b.toNat) := by
  constructor
  · apply BitVec.eq_of_toNat_eq
    rw [BitVec.toNat_add, BitVec.toNat_ofInt]
    omega
  · apply BitVec.eq_of_toNat_eq
    have := a.isLt
    have := b.isLt
    rw [BitVec.toNat_sub, BitVec.toNat_ofInt]
    omega

theorem execute_compare (a b : BitVec 32) :
    execute .SLT a b = BitVec.ofInt 32 (exact .SLT a.toNat b.toNat) ∧
      execute .SLTU a b = BitVec.ofInt 32 (exact .SLTU a.toNat b.toNat) := by
  constructor
  · simp only [execute, exact, signed_toNat, BitVec.slt_eq_decide, decide_eq_true_eq]
    split
    · rfl
    · rfl
  · simp only [execute, exact, BitVec.lt_def, Int.ofNat_lt]
    split
    · rfl
    · rfl

theorem toNat_eq_zero {b : BitVec 32} : (b.toNat : Int) = 0 ↔ b = 0#32 := by
  rw [← BitVec.toNat_inj]
  exact Int.natCast_eq_zero

theorem eq_ofInt {x : BitVec 32} {v : Int} (same : x.toInt = v) : x = BitVec.ofInt 32 v := by
  rw [← same, BitVec.ofInt_toInt]

theorem execute_div (a b : BitVec 32) :
    execute .DIV a b = BitVec.ofInt 32 (exact .DIV a.toNat b.toNat) ∧
      execute .DIVU a b = BitVec.ofInt 32 (exact .DIVU a.toNat b.toNat) := by
  simp only [execute, exact, toNat_eq_zero, signed_toNat]
  by_cases zero : b = 0#32
  · simp only [zero, if_true]
    exact ⟨rfl, rfl⟩
  simp only [zero, if_false]
  refine ⟨?_, ?_⟩
  · by_cases wraps : a = SWORD_MIN ∧ b = -1#32
    · -- -2 ^ 31 / -1 does not fit
      rw [if_pos wraps, wraps.1, wraps.2]
      decide
    · rw [if_neg wraps]
      apply BitVec.eq_of_toInt_eq
      rw [BitVec.toInt_sdiv, BitVec.toInt_ofInt]
  · apply BitVec.eq_of_toNat_eq
    have below := Nat.div_le_self a.toNat b.toNat
    rw [BitVec.toNat_udiv, ← Int.natCast_ediv, toNat_ofInt_natCast,
      Nat.mod_eq_of_lt (Nat.lt_of_le_of_lt below a.isLt)]

theorem execute_rem (a b : BitVec 32) :
    execute .REM a b = BitVec.ofInt 32 (exact .REM a.toNat b.toNat) ∧
      execute .REMU a b = BitVec.ofInt 32 (exact .REMU a.toNat b.toNat) := by
  have whole : a = BitVec.ofInt 32 a.toNat := by
    rw [BitVec.ofInt_natCast, BitVec.ofNat_toNat, BitVec.setWidth_eq]
  simp only [execute, exact, toNat_eq_zero, signed_toNat]
  by_cases zero : b = 0#32
  · simp only [zero, if_true]
    exact ⟨whole, whole⟩
  simp only [zero, if_false]
  refine ⟨?_, ?_⟩
  · by_cases wraps : a = SWORD_MIN ∧ b = -1#32
    · rw [if_pos wraps, wraps.1, wraps.2]
      decide
    · rw [if_neg wraps]
      exact eq_ofInt (BitVec.toInt_srem a b)
  · apply BitVec.eq_of_toNat_eq
    have below := Nat.mod_le a.toNat b.toNat
    rw [BitVec.toNat_umod, ← Int.natCast_emod, toNat_ofInt_natCast,
      Nat.mod_eq_of_lt (Nat.lt_of_le_of_lt below a.isLt)]

/-- Every result is the exact integer one modulo 2 ^ 32. -/
theorem execute_eq_exact (op : Op) (a b : BitVec 32) :
    execute op a b = BitVec.ofInt 32 (exact op a.toNat b.toNat) := by
  cases op with
  | ADD => exact (execute_sum a b).1
  | SUB => exact (execute_sum a b).2
  | AND => exact (execute_bitwise a b).1
  | OR => exact (execute_bitwise a b).2.1
  | XOR => exact (execute_bitwise a b).2.2
  | SLL => exact (execute_shift a b).1
  | SRL => exact (execute_shift a b).2.1
  | SRA => exact (execute_shift a b).2.2
  | SLT => exact (execute_compare a b).1
  | SLTU => exact (execute_compare a b).2
  | MUL => exact (execute_mul a b).1
  | MULH => exact (execute_mul a b).2.1
  | MULHSU => exact (execute_mul a b).2.2.1
  | MULHU => exact (execute_mul a b).2.2.2
  | DIV => exact (execute_div a b).1
  | DIVU => exact (execute_div a b).2
  | REM => exact (execute_rem a b).1
  | REMU => exact (execute_rem a b).2

end XorOS.ALU
