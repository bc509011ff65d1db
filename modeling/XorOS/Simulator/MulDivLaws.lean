import Mathlib.Tactic
import XorOS.Simulator.Alu

/- alu.hpp at any XLEN: what the upper and lower halves of the products are together, what the
   quotients and remainders are, and that no operation meets undefined behaviour of C++. -/
namespace XorOS.ALU
variable {n : Nat}

def FitsSigned (w : Nat) (v : Int) : Prop := -2 ^ (w - 1) ≤ v ∧ v < 2 ^ (w - 1)

instance (w : Nat) (v : Int) : Decidable (FitsSigned w v) := inferInstanceAs (Decidable (_ ∧ _))

/-- A value of a signed type of C++, where overflow is undefined. -/
def signedValue (w : Nat) (v : Int) : Option (BitVec w) :=
  if FitsSigned w v then some (BitVec.ofInt w v) else none

def upper (x : BitVec (2 * n)) : BitVec n := (x >>> n).setWidth n

/-- sa / sb or sa % sb, undefined for sb = 0 and where the quotient does not fit. -/
def signedQuotient (a b : BitVec n) (result : Int) : Option (BitVec n) :=
  if b.toInt ≠ 0 ∧ FitsSigned n (a.toInt.tdiv b.toInt) then some (BitVec.ofInt n result)
  else none

def unsignedQuotient (b : BitVec n) (result : Nat) : Option (BitVec n) :=
  if b.toNat ≠ 0 then some (BitVec.ofNat n result) else none

/-- MUL to REMU as the source computes them in C++, none where that is undefined. -/
def executeDefined (op : Op) (a b : BitVec n) : Option (BitVec n) :=
  match op with
  | .MULH => (signedValue (2 * n) (a.toInt * b.toInt)).map upper
  | .MULHSU => (signedValue (2 * n) (a.toInt * b.toNat)).map upper
  | .DIV =>
      if b = 0#n then some UWORD_MAX
      else if a = SWORD_MIN ∧ b = -1#n then some SWORD_MIN
      else signedQuotient a b (a.toInt.tdiv b.toInt)
  | .DIVU => if b = 0#n then some UWORD_MAX else unsignedQuotient b (a.toNat / b.toNat)
  | .REM =>
      if b = 0#n then some a
      else if a = SWORD_MIN ∧ b = -1#n then some 0#n
      else signedQuotient a b (a.toInt.tmod b.toInt)
  | .REMU => if b = 0#n then some a else unsignedQuotient b (a.toNat % b.toNat)
  | _ => some (execute op a b)

structure ProductLaws (a b : BitVec n) : Prop where
  mulh : 2 ^ n * (execute .MULH a b).toInt + (execute .MUL a b).toNat = a.toInt * b.toInt
  mulhu : 2 ^ n * (execute .MULHU a b).toNat + (execute .MUL a b).toNat = a.toNat * b.toNat
  mulhsu : 2 ^ n * (execute .MULHSU a b).toInt + (execute .MUL a b).toNat = a.toInt * b.toNat
  signedFits : FitsSigned (2 * n) (a.toInt * b.toInt)
  mixedFits : FitsSigned (2 * n) (a.toInt * b.toNat)
  unsignedFits : a.toNat * b.toNat < 2 ^ (2 * n)

structure QuotientLaws (a b : BitVec n) : Prop where
  recompose : a = b * execute .DIV a b + execute .REM a b
  exact : ¬(a = SWORD_MIN ∧ b = -1#n) → (execute .DIV a b).toInt = a.toInt.tdiv b.toInt ∧
    (execute .REM a b).toInt = a.toInt.tmod b.toInt
  overflow : a = SWORD_MIN ∧ b = -1#n → execute .DIV a b = SWORD_MIN ∧ execute .REM a b = 0#n
  smaller : (execute .REM a b).toInt.natAbs < b.toInt.natAbs
  sign : (0 ≤ a.toInt → 0 ≤ (execute .REM a b).toInt) ∧
    (a.toInt ≤ 0 → (execute .REM a b).toInt ≤ 0)
  unsigned : (execute .DIVU a b).toNat = a.toNat / b.toNat ∧
    (execute .REMU a b).toNat = a.toNat % b.toNat

theorem two_pow_double (n : Nat) : 2 ^ (2 * n) = 2 ^ n * 2 ^ n := by
  rw [Nat.two_mul, Nat.pow_add]

theorem toNat_upper (x : BitVec (2 * n)) : (upper x).toNat = x.toNat / 2 ^ n := by
  have bound : x.toNat / 2 ^ n < 2 ^ n := by
    rw [Nat.div_lt_iff_lt_mul (Nat.two_pow_pos n), ← two_pow_double]
    exact x.isLt
  rw [upper, BitVec.toNat_setWidth, BitVec.toNat_ushiftRight, Nat.shiftRight_eq_div_pow,
    Nat.mod_eq_of_lt bound]

theorem unsigned_halves (x : BitVec (2 * n)) :
    2 ^ n * (upper x).toNat + (x.setWidth n).toNat = x.toNat := by
  rw [toNat_upper, BitVec.toNat_setWidth]
  exact Nat.div_add_mod _ _

theorem signed_halves (wide : 0 < n) (x : BitVec (2 * n)) :
    2 ^ n * (upper x).toInt + (x.setWidth n).toNat = x.toInt := by
  have halves := unsigned_halves x
  have top : 2 * (upper x).toNat < 2 ^ n ↔ 2 * x.toNat < 2 ^ (2 * n) := by
    obtain ⟨k, rfl⟩ : ∃ k, n = k + 1 := ⟨n - 1, by omega⟩
    rw [toNat_upper, two_pow_double, Nat.pow_succ]
    have split : x.toNat / (2 ^ k * 2) < 2 ^ k ↔ x.toNat < 2 ^ k * (2 ^ k * 2) :=
      Nat.div_lt_iff_lt_mul (by positivity)
    constructor
    · intro small
      have := split.mp (by omega)
      nlinarith
    · intro small
      have := split.mpr (by nlinarith)
      omega
  have lift : (2 ^ n * (upper x).toNat + (x.setWidth n).toNat : Int) = x.toNat := by
    exact_mod_cast halves
  have double : (2 : Int) ^ (2 * n) = 2 ^ n * 2 ^ n := by
    exact_mod_cast two_pow_double n
  rw [BitVec.toInt_eq_toNat_cond, BitVec.toInt_eq_toNat_cond]
  by_cases positive : 2 * x.toNat < 2 ^ (2 * n)
  · rw [if_pos positive, if_pos (top.mpr positive)]
    exact lift
  · rw [if_neg positive, if_neg fun small => positive (top.mp small)]
    push_cast
    rw [double]
    linarith

theorem setWidth_eq (x : BitVec n) : x.setWidth (2 * n) = BitVec.ofInt (2 * n) x.toNat := by
  rw [BitVec.ofInt_natCast, BitVec.ofNat_toNat]

theorem signed_fits (wide : 0 < n) (a b : BitVec n) :
    FitsSigned (2 * n) (a.toInt * b.toInt) := by
  have high : a.toInt * b.toInt ≤ 2 ^ (n * 2 - 2) := BitVec.toInt_mul_toInt_le
  have low : -2 ^ (n * 2 - 2) ≤ a.toInt * b.toInt := BitVec.le_toInt_mul_toInt
  have double : (2 : Int) ^ (2 * n - 1) = 2 ^ (n * 2 - 2) * 2 := by
    rw [← Int.pow_succ]
    congr 1
    omega
  have positive : (0 : Int) < 2 ^ (n * 2 - 2) := by positivity
  constructor
  · rw [double]
    omega
  · rw [double]
    omega

theorem mixed_fits (wide : 0 < n) (a b : BitVec n) :
    FitsSigned (2 * n) (a.toInt * b.toNat) := by
  have double : (2 : Int) ^ (2 * n - 1) = 2 ^ (n - 1) * 2 ^ n := by
    rw [← Int.pow_add]
    congr 1
    omega
  have positive : (0 : Int) < 2 ^ (n - 1) := by positivity
  have low : -2 ^ (n - 1) ≤ a.toInt := BitVec.le_toInt a
  have high : a.toInt < 2 ^ (n - 1) := BitVec.toInt_lt
  have bound : (b.toNat : Int) < 2 ^ n := by exact_mod_cast b.isLt
  have natural : (0 : Int) ≤ b.toNat := Int.natCast_nonneg _
  constructor
  · rw [double]
    nlinarith
  · rw [double]
    nlinarith

theorem unsigned_fits (a b : BitVec n) : a.toNat * b.toNat < 2 ^ (2 * n) := by
  rw [two_pow_double]
  exact Nat.mul_lt_mul'' a.isLt b.isLt

theorem narrow_setWidth (x : BitVec n) : (x.setWidth (2 * n)).setWidth n = x := by
  rw [BitVec.setWidth_setWidth_of_le _ (by omega), BitVec.setWidth_eq]

theorem narrow_signExtend (x : BitVec n) : (x.signExtend (2 * n)).setWidth n = x := by
  apply BitVec.eq_of_getLsbD_eq
  intro i lt
  have wide : i < 2 * n := by omega
  rw [BitVec.getLsbD_setWidth, BitVec.getLsbD_signExtend, if_pos lt, decide_eq_true lt,
    decide_eq_true wide, Bool.true_and, Bool.true_and]

theorem lower_half (a b : BitVec n) (x y : BitVec (2 * n)) (left : x.setWidth n = a)
    (right : y.setWidth n = b) : (x * y).setWidth n = execute .MUL a b := by
  rw [execute, BitVec.setWidth_mul _ _ (by omega), BitVec.setWidth_mul _ _ (by omega), left,
    right, narrow_setWidth, narrow_setWidth]

theorem signed_product (wide : 0 < n) (x y : BitVec (2 * n)) (u v : Int)
    (left : x = BitVec.ofInt (2 * n) u) (right : y = BitVec.ofInt (2 * n) v)
    (fits : FitsSigned (2 * n) (u * v)) :
    2 ^ n * (upper (x * y)).toInt + ((x * y).setWidth n).toNat = u * v := by
  rw [signed_halves wide, left, right, ← BitVec.ofInt_mul]
  exact BitVec.toInt_ofInt_eq_self (by omega) fits.1 fits.2

theorem product_laws (wide : 0 < n) (a b : BitVec n) : ProductLaws a b where
  mulh := by
    have half : (a.signExtend (2 * n) * b.signExtend (2 * n)).setWidth n = execute .MUL a b :=
      lower_half a b _ _ (narrow_signExtend a) (narrow_signExtend b)
    rw [← half]
    exact signed_product wide _ _ _ _ rfl rfl (signed_fits wide a b)
  mulhu := by
    have product : (a.setWidth (2 * n) * b.setWidth (2 * n)).toNat = a.toNat * b.toNat := by
      rw [BitVec.toNat_mul, BitVec.toNat_setWidth_of_le (by omega),
        BitVec.toNat_setWidth_of_le (by omega), Nat.mod_eq_of_lt (unsigned_fits a b)]
    rw [← product]
    exact unsigned_halves _
  mulhsu := by
    have half : (a.signExtend (2 * n) * b.setWidth (2 * n)).setWidth n = execute .MUL a b :=
      lower_half a b _ _ (narrow_signExtend a) (narrow_setWidth b)
    rw [← half]
    exact signed_product wide _ _ _ _ rfl (setWidth_eq b) (mixed_fits wide a b)
  signedFits := signed_fits wide a b
  mixedFits := mixed_fits wide a b
  unsignedFits := unsigned_fits a b

theorem div_regular {a b : BitVec n} (divisor : b ≠ 0#n)
    (regular : ¬(a = SWORD_MIN ∧ b = -1#n)) : execute .DIV a b = a.sdiv b := by
  rw [execute, if_neg divisor, if_neg regular]

theorem rem_eq {a b : BitVec n} (divisor : b ≠ 0#n) : execute .REM a b = a.srem b := by
  rw [execute, if_neg divisor]
  split
  next least =>
    have wide : 0 < n := by
      rcases Nat.eq_zero_or_pos n with rfl | wide
      · exact absurd BitVec.of_length_zero divisor
      · exact wide
    have minus : b.toInt = -1 := by
      rw [least.2, BitVec.neg_one_eq_allOnes, BitVec.toInt_allOnes, if_pos wide]
    apply BitVec.eq_of_toInt_eq
    rw [BitVec.toInt_srem, minus, Int.tmod_neg, Int.tmod_one, BitVec.toInt_zero]
  next => rfl

theorem div_exact {a b : BitVec n} (divisor : b ≠ 0#n)
    (regular : ¬(a = SWORD_MIN ∧ b = -1#n)) :
    (execute .DIV a b).toInt = a.toInt.tdiv b.toInt := by
  rw [div_regular divisor regular]
  apply BitVec.toInt_sdiv_of_ne_or_ne
  by_cases least : a = SWORD_MIN
  · exact .inr fun minus => regular ⟨least, minus⟩
  · exact .inl least

theorem rem_exact {a b : BitVec n} (divisor : b ≠ 0#n) :
    (execute .REM a b).toInt = a.toInt.tmod b.toInt := by
  rw [rem_eq divisor, BitVec.toInt_srem]

theorem div_overflow {a b : BitVec n} (divisor : b ≠ 0#n) (least : a = SWORD_MIN ∧ b = -1#n) :
    execute .DIV a b = SWORD_MIN ∧ execute .REM a b = 0#n := by
  constructor
  · rw [execute, if_neg divisor, if_pos least]
  · rw [execute, if_neg divisor, if_pos least]

theorem recompose {a b : BitVec n} (divisor : b ≠ 0#n) :
    a = b * execute .DIV a b + execute .REM a b := by
  by_cases least : a = SWORD_MIN ∧ b = -1#n
  · obtain ⟨quotient, remainder⟩ := div_overflow divisor least
    rw [quotient, remainder, least.1, least.2, BitVec.add_zero, SWORD_MIN]
    calc BitVec.intMin n = -BitVec.intMin n := BitVec.neg_intMin.symm
      _ = -1#n * BitVec.intMin n := by rw [BitVec.neg_mul, BitVec.one_mul]
  · calc a = BitVec.ofInt n a.toInt := BitVec.ofInt_toInt.symm
      _ = BitVec.ofInt n (b.toInt * a.toInt.tdiv b.toInt + a.toInt.tmod b.toInt) := by
          rw [Int.mul_tdiv_add_tmod]
      _ = BitVec.ofInt n (b.toInt * (execute .DIV a b).toInt + (execute .REM a b).toInt) := by
          rw [div_exact divisor least, rem_exact divisor]
      _ = b * execute .DIV a b + execute .REM a b := by
          rw [BitVec.ofInt_add, BitVec.ofInt_mul, BitVec.ofInt_toInt, BitVec.ofInt_toInt,
            BitVec.ofInt_toInt]

theorem divisor_toInt {b : BitVec n} (divisor : b ≠ 0#n) : b.toInt ≠ 0 := by
  intro zero
  exact divisor (BitVec.eq_of_toInt_eq (by rw [zero, BitVec.toInt_zero]))

theorem quotient_laws {a b : BitVec n} (divisor : b ≠ 0#n) : QuotientLaws a b where
  recompose := recompose divisor
  exact regular := ⟨div_exact divisor regular, rem_exact divisor⟩
  overflow := div_overflow divisor
  smaller := by
    rw [rem_exact divisor, Int.natAbs_tmod]
    exact Nat.mod_lt _ (Int.natAbs_pos.mpr (divisor_toInt divisor))
  sign := by
    rw [rem_exact divisor]
    constructor
    · exact Int.tmod_nonneg _
    · intro negative
      have mirrored : 0 ≤ (-a.toInt).tmod b.toInt := Int.tmod_nonneg _ (by omega)
      rw [Int.neg_tmod] at mirrored
      omega
  unsigned := by
    rw [execute, if_neg divisor, execute, if_neg divisor, BitVec.toNat_udiv, BitVec.toNat_umod]
    exact ⟨rfl, rfl⟩

theorem quotient_fits {a b : BitVec n} (divisor : b ≠ 0#n)
    (regular : ¬(a = SWORD_MIN ∧ b = -1#n)) : FitsSigned n (a.toInt.tdiv b.toInt) := by
  rw [← div_exact divisor regular]
  exact ⟨BitVec.le_toInt _, BitVec.toInt_lt⟩

theorem signed_quotient {a b : BitVec n} (divisor : b ≠ 0#n)
    (regular : ¬(a = SWORD_MIN ∧ b = -1#n)) (result : BitVec n) (v : Int)
    (value : result.toInt = v) : signedQuotient a b v = some result := by
  rw [signedQuotient, if_pos ⟨divisor_toInt divisor, quotient_fits divisor regular⟩, ← value,
    BitVec.ofInt_toInt]

theorem unsigned_quotient {b : BitVec n} (divisor : b ≠ 0#n) (result : BitVec n) (v : Nat)
    (value : result.toNat = v) : unsignedQuotient b v = some result := by
  have positive : b.toNat ≠ 0 := by
    intro zero
    exact divisor (BitVec.eq_of_toNat_eq zero)
  rw [unsignedQuotient, if_pos positive, ← value, BitVec.ofNat_toNat, BitVec.setWidth_eq]

/-- No operation reaches undefined behaviour of C++. -/
theorem execute_defined (wide : 0 < n) (op : Op) (a b : BitVec n) :
    executeDefined op a b = some (execute op a b) := by
  cases op with
  | MULH =>
      rw [executeDefined, signedValue, if_pos (signed_fits wide a b), BitVec.ofInt_mul]
      rfl
  | MULHSU =>
      rw [executeDefined, signedValue, if_pos (mixed_fits wide a b), BitVec.ofInt_mul,
        ← setWidth_eq]
      rfl
  | DIV =>
      by_cases divisor : b = 0#n
      · rw [executeDefined, execute, if_pos divisor, if_pos divisor]
      by_cases least : a = SWORD_MIN ∧ b = -1#n
      · rw [executeDefined, execute, if_neg divisor, if_pos least, if_neg divisor, if_pos least]
      rw [executeDefined, if_neg divisor, if_neg least]
      exact signed_quotient divisor least _ _ (div_exact divisor least)
  | DIVU =>
      by_cases divisor : b = 0#n
      · rw [executeDefined, execute, if_pos divisor, if_pos divisor]
      rw [executeDefined, if_neg divisor]
      exact unsigned_quotient divisor _ _ (quotient_laws divisor).unsigned.1
  | REM =>
      by_cases divisor : b = 0#n
      · rw [executeDefined, execute, if_pos divisor, if_pos divisor]
      by_cases least : a = SWORD_MIN ∧ b = -1#n
      · rw [executeDefined, execute, if_neg divisor, if_pos least, if_neg divisor, if_pos least]
      rw [executeDefined, if_neg divisor, if_neg least]
      exact signed_quotient divisor least _ _ (rem_exact divisor)
  | REMU =>
      by_cases divisor : b = 0#n
      · rw [executeDefined, execute, if_pos divisor, if_pos divisor]
      rw [executeDefined, if_neg divisor]
      exact unsigned_quotient divisor _ _ (quotient_laws divisor).unsigned.2
  | _ => rfl

theorem div_by_zero (a : BitVec n) :
    execute .DIV a 0#n = UWORD_MAX ∧ execute .DIVU a 0#n = UWORD_MAX ∧
      execute .REM a 0#n = a ∧ execute .REMU a 0#n = a := by
  refine ⟨?_, ?_, ?_, ?_⟩ <;> rw [execute, if_pos rfl]

theorem mul_div_laws (wide : 0 < n) (a b : BitVec n) :
    ProductLaws a b ∧ (b ≠ 0#n → QuotientLaws a b) ∧
    (b = 0#n → execute .DIV a b = UWORD_MAX ∧ execute .DIVU a b = UWORD_MAX ∧
      execute .REM a b = a ∧ execute .REMU a b = a) ∧
    ∀ op, executeDefined op a b = some (execute op a b) := by
  refine ⟨product_laws wide a b, quotient_laws, ?_, fun op => execute_defined wide op a b⟩
  rintro rfl
  exact div_by_zero a

theorem mul_div_laws_extremes :
    ProductLaws (SWORD_MIN : BitVec 32) (-1#32) ∧ QuotientLaws (SWORD_MIN : BitVec 32) (-1#32) ∧
    execute .REM (7#64) 0#64 = 7#64 ∧
    executeDefined .MULHSU (SWORD_MIN : BitVec 64) (-1#64) = some 0x8000000000000000#64 :=
  ⟨(mul_div_laws (by decide) SWORD_MIN (-1#32)).1,
    (mul_div_laws (by decide) SWORD_MIN (-1#32)).2.1 (by decide),
    ((mul_div_laws (by decide) 7#64 0#64).2.2.1 rfl).2.2.1,
    (mul_div_laws (by decide) SWORD_MIN (-1#64)).2.2.2 .MULHSU⟩

end XorOS.ALU
