import XorOS.Simulator.EncodeDecode

/- Building a word and decoding it, and building a word again from what the decoder made of it. -/
namespace XorOS.InstrBuilder
open ISA Bits

inductive Format where
  | R | I | S | B | U | J
  deriving DecidableEq

inductive Build where
  | R (funct7 rs2 rs1 funct3 rd : BitVec 8)
  | I (imm : BitVec 16) (rs1 funct3 rd : BitVec 8)
  | S (imm : BitVec 16) (rs2 rs1 funct3 : BitVec 8)
  | B (offset : BitVec 16) (rs2 rs1 funct3 : BitVec 8)
  | U (imm : BitVec 32) (rd : BitVec 8)
  | J (offset : BitVec 32) (rd : BitVec 8)
  deriving DecidableEq

namespace Build

def word (opcode : BitVec 8) : Build → Option WordT
  | R funct7 rs2 rs1 funct3 rd => InstrBuilder.R funct7 rs2 rs1 funct3 rd opcode
  | I imm rs1 funct3 rd => InstrBuilder.I imm rs1 funct3 rd opcode
  | S imm rs2 rs1 funct3 => InstrBuilder.S imm rs2 rs1 funct3 opcode
  | B offset rs2 rs1 funct3 => InstrBuilder.B offset rs2 rs1 funct3 opcode
  | U imm rd => InstrBuilder.U imm rd opcode
  | J offset rd => InstrBuilder.J offset rd opcode

def format : Build → Format
  | R .. => .R
  | I .. => .I
  | S .. => .S
  | B .. => .B
  | U .. => .U
  | J .. => .J

/-- What the asserts leave open: the low bits of a U immediate and the size of a J offset. -/
def InRange : Build → Prop
  | U imm _ => imm.toNat % 4096 = 0
  | J offset _ => -2 ^ 20 ≤ offset.toInt ∧ offset.toInt ≤ 2 ^ 20 - 2
  | _ => True

variable {xlen : Nat}

def FieldsOf (d : DecodedInstr xlen) : Build → Prop
  | R funct7 rs2 rs1 funct3 rd =>
      d.funct7.toNat = funct7.toNat ∧ d.rs2.toNat = rs2.toNat ∧ d.rs1.toNat = rs1.toNat ∧
        d.funct3.toNat = funct3.toNat ∧ d.rd.toNat = rd.toNat
  | I _ rs1 funct3 rd =>
      d.rs1.toNat = rs1.toNat ∧ d.funct3.toNat = funct3.toNat ∧ d.rd.toNat = rd.toNat
  | S _ rs2 rs1 funct3 =>
      d.rs2.toNat = rs2.toNat ∧ d.rs1.toNat = rs1.toNat ∧ d.funct3.toNat = funct3.toNat
  | B _ rs2 rs1 funct3 =>
      d.rs2.toNat = rs2.toNat ∧ d.rs1.toNat = rs1.toNat ∧ d.funct3.toNat = funct3.toNat
  | U _ rd => d.rd.toNat = rd.toNat
  | J _ rd => d.rd.toNat = rd.toNat

/-- The decoder gives back the immediate, sign-extended. -/
def ImmOf (d : DecodedInstr xlen) : Build → Prop
  | R .. => True
  | I imm .. => d.imm.toInt = imm.toInt
  | S imm .. => d.imm.toInt = imm.toInt
  | B offset .. => d.imm.toInt = offset.toInt
  | U imm _ => d.imm.toInt = imm.toInt
  | J offset _ => d.imm.toInt = offset.toInt

/-- The call that rebuilds a decoded instruction; its immediate narrows to the parameter type. -/
def ofDecoded (d : DecodedInstr xlen) : Format → Build
  | .R => R (d.funct7.setWidth 8) (d.rs2.setWidth 8) (d.rs1.setWidth 8) (d.funct3.setWidth 8)
      (d.rd.setWidth 8)
  | .I => I (d.imm.setWidth 16) (d.rs1.setWidth 8) (d.funct3.setWidth 8) (d.rd.setWidth 8)
  | .S => S (d.imm.setWidth 16) (d.rs2.setWidth 8) (d.rs1.setWidth 8) (d.funct3.setWidth 8)
  | .B => B (d.imm.setWidth 16) (d.rs2.setWidth 8) (d.rs1.setWidth 8) (d.funct3.setWidth 8)
  | .U => U (d.imm.setWidth 32) (d.rd.setWidth 8)
  | .J => J (d.imm.setWidth 32) (d.rd.setWidth 8)

end Build
end XorOS.InstrBuilder

namespace XorOS.ISA
open InstrBuilder

def Opcode.format : Opcode → Format
  | .op | .amo => .R
  | .load | .miscMem | .opImm | .jalr | .system => .I
  | .store => .S
  | .branch => .B
  | .lui | .auipc => .U
  | .jal => .J

end XorOS.ISA

namespace XorOS.InstrBuilder
open ISA Bits
variable {xlen : Nat}

theorem decodeImm_format {w : WordT} {o : Opcode} (known : Opcode.ofBits? (getOpcode w) = some o) :
    Decoder.decodeImm xlen w =
      match o.format with
      | .R => 0#(xlen)
      | .I => decodeImmI xlen w
      | .S => decodeImmS xlen w
      | .B => decodeImmB xlen w
      | .U => (decodeImmU w).signExtend xlen
      | .J => decodeImmJ xlen w := by
  unfold Decoder.decodeImm
  rw [known]
  cases o with
  | _ => rfl

theorem ne_zero_of_opcode {w : WordT} {o : Opcode}
    (known : Opcode.ofBits? (getOpcode w) = some o) : w ≠ 0#32 := by
  rintro rfl
  cases known

theorem widen_opcode {x : BitVec 7} {o : Opcode} (known : Opcode.ofBits? x = some o) :
    x.setWidth 8 = o.bits := by
  unfold Opcode.ofBits? at known
  split at known
  all_goals cases known
  all_goals rfl

theorem toNat_narrow {n : Nat} {x : BitVec n} {y : BitVec 8} (same : x = y.setWidth n)
    (small : y.toNat < 2 ^ n) : x.toNat = y.toNat := by
  rw [same, BitVec.toNat_setWidth, Nat.mod_eq_of_lt small]

theorem decode_build (wide : 32 ≤ xlen) {b : Build} {o : Opcode} {w : WordT}
    (built : b.word o.bits = some w) (inRange : b.InRange) :
    Opcode.ofBits? (getOpcode w) = some o ∧ b.FieldsOf (Decoder.decode xlen w) ∧
      (b.format = o.format → b.ImmOf (Decoder.decode xlen w)) := by
  have small := opcode_bits_lt o
  cases b with
  | R funct7 rs2 rs1 funct3 rd =>
    obtain ⟨op, d, f3, s1, s2, f7⟩ := (R_packs small built).fields
    exact ⟨ofBits?_bits op, ⟨f7, s2, s1, f3, d⟩, fun _ => trivial⟩
  | I imm rs1 funct3 rd =>
    obtain ⟨range, imm12, value, packs⟩ := I_packs small built
    obtain ⟨op, d, f3, s1, _, _⟩ := packs.fields
    refine ⟨ofBits?_bits op, ⟨s1, f3, d⟩, fun same => ?_⟩
    have decoded := decode_I (by omega : 12 ≤ xlen) built
    have format : o.format = .I := same.symm
    change (Decoder.decodeImm xlen w).toInt = imm.toInt
    rw [decodeImm_format decoded.1, format]
    exact decoded.2.2.2.2
  | S imm rs2 rs1 funct3 =>
    obtain ⟨range, imm12, value, packs⟩ := S_packs small built
    obtain ⟨op, _, f3, s1, s2, _⟩ := packs.fields
    refine ⟨ofBits?_bits op, ⟨s2, s1, f3⟩, fun same => ?_⟩
    have decoded := decode_S (by omega : 12 ≤ xlen) built
    have format : o.format = .S := same.symm
    change (Decoder.decodeImm xlen w).toInt = imm.toInt
    rw [decodeImm_format decoded.1, format]
    exact decoded.2.2.2.2
  | B offset rs2 rs1 funct3 =>
    obtain ⟨range, x, value, packs⟩ := B_packs small built
    obtain ⟨op, _, f3, s1, s2, _⟩ := packs.fields
    refine ⟨ofBits?_bits op, ⟨s2, s1, f3⟩, fun same => ?_⟩
    have decoded := decode_B (by omega : 13 ≤ xlen) built
    have format : o.format = .B := same.symm
    change (Decoder.decodeImm xlen w).toInt = offset.toInt
    rw [decodeImm_format decoded.1, format]
    exact decoded.2.2.2.2
  | U imm rd =>
    obtain ⟨known, d, value⟩ := decode_U built
    obtain ⟨hd, _⟩ := U_packs small built
    refine ⟨known, toNat_narrow d hd, fun same => ?_⟩
    have format : o.format = .U := same.symm
    have whole : imm.toNat % 4096 = 0 := inRange
    have same : decodeImmU w = imm := by
      apply BitVec.eq_of_toNat_eq
      omega
    change (Decoder.decodeImm xlen w).toInt = imm.toInt
    rw [decodeImm_format known, format, same]
    exact BitVec.toInt_signExtend_of_le wide
  | J offset rd =>
    obtain ⟨known, d, value⟩ := decode_J (by omega : 21 ≤ xlen) built
    obtain ⟨⟨hd, even⟩, _⟩ := J_packs small built
    refine ⟨known, toNat_narrow d hd, fun same => ?_⟩
    have format : o.format = .J := same.symm
    have range : -2 ^ 20 ≤ offset.toInt ∧ offset.toInt ≤ 2 ^ 20 - 2 := inRange
    change (Decoder.decodeImm xlen w).toInt = offset.toInt
    rw [decodeImm_format known, format]
    refine value.trans ?_
    unfold IntHart.signed
    split
    · omega
    · omega

theorem packs_self (w : WordT) : Packs w (getFunct7 w).toNat (getRs2 w).toNat (getRs1 w).toNat
    (getFunct3 w).toNat (getRd w).toNat (getOpcode w).toNat := by
  have bound := w.isLt
  refine ⟨(getFunct7 w).isLt, (getRs2 w).isLt, (getRs1 w).isLt, (getFunct3 w).isLt,
    (getRd w).isLt, (getOpcode w).isLt, ?_⟩
  rw [toNat_getFunct7, toNat_getRs2, toNat_getRs1, toNat_getFunct3, toNat_getRd, toNat_getOpcode]
  omega

theorem Packs.unique {w w' : WordT} {f7 rs2 rs1 f3 rd op : Nat}
    (packs : Packs w f7 rs2 rs1 f3 rd op) (packs' : Packs w' f7 rs2 rs1 f3 rd op) : w' = w := by
  apply BitVec.eq_of_toNat_eq
  rw [packs.word, packs'.word]

theorem toInt_setWidth_of_fits {n k : Nat} (pos : 0 < k) (le : k ≤ n) {x : BitVec n}
    (lo : -2 ^ (k - 1) ≤ x.toInt) (hi : x.toInt < 2 ^ (k - 1)) :
    (x.setWidth k).toInt = x.toInt := by
  have same : x.setWidth k = BitVec.ofInt k x.toInt := by
    apply BitVec.eq_of_toInt_eq
    rw [BitVec.toInt_setWidth, BitVec.toInt_ofInt, BitVec.toInt_eq_toNat_bmod,
      Int.bmod_bmod_of_dvd (by exact_mod_cast Nat.pow_dvd_pow 2 le)]
  rw [same, BitVec.toInt_ofInt_eq_self pos lo hi]

theorem toNat_widen8 {n : Nat} (le : n ≤ 8) (x : BitVec n) : (x.setWidth 8).toNat = x.toNat :=
  BitVec.toNat_setWidth_of_le le

theorem widen_lt {n : Nat} (le : n ≤ 8) (x : BitVec n) {bound : BitVec 8}
    (same : bound.toNat = 2 ^ n) : x.setWidth 8 < bound := by
  rw [BitVec.lt_def, toNat_widen8 le, same]
  exact x.isLt

theorem opcode_widen_lt (w : WordT) : ((getOpcode w).setWidth 8).toNat < 128 := by
  rw [toNat_widen8 (by omega)]
  exact (getOpcode w).isLt

theorem rebuild_R (w : WordT) : R ((getFunct7 w).setWidth 8) ((getRs2 w).setWidth 8)
    ((getRs1 w).setWidth 8) ((getFunct3 w).setWidth 8) ((getRd w).setWidth 8)
    ((getOpcode w).setWidth 8) = some w := by
  obtain ⟨w', built⟩ : ∃ w', R ((getFunct7 w).setWidth 8) ((getRs2 w).setWidth 8)
      ((getRs1 w).setWidth 8) ((getFunct3 w).setWidth 8) ((getRd w).setWidth 8)
      ((getOpcode w).setWidth 8) = some w' :=
    ⟨_, if_pos ⟨widen_lt (by omega) _ rfl, widen_lt (by omega) _ rfl, widen_lt (by omega) _ rfl,
      widen_lt (by omega) _ rfl, widen_lt (by omega) _ rfl⟩⟩
  have packs := R_packs (opcode_widen_lt w) built
  simp only [toNat_widen8, Nat.reduceLeDiff] at packs
  rw [built, (packs_self w).unique packs]

theorem toInt_narrow {bits k n : Nat} (pos : 0 < bits) (fit : bits ≤ k) (le : k ≤ xlen)
    {imm : BitVec xlen} (small : n < 2 ^ bits) (value : imm.toInt = IntHart.signed bits n) :
    (imm.setWidth k).toInt = IntHart.signed bits n := by
  have bounds := IntHart.signed_bounds pos (Int.natCast_nonneg n) (by exact_mod_cast small)
  have up : (2 : Int) ^ (bits - 1) ≤ 2 ^ (k - 1) := pow_le_pow_right₀ (by omega) (by omega)
  rw [toInt_setWidth_of_fits (by omega) le (by omega) (by omega), value]

theorem narrow_imm (wide : 32 ≤ xlen) {imm : BitVec xlen} {n : Nat} (small : n < 2 ^ 12)
    (value : imm.toInt = IntHart.signed 12 n) :
    (-2048 ≤ (imm.setWidth 16).toInt ∧ (imm.setWidth 16).toInt ≤ 2047) ∧
      (imm.setWidth 16).toInt % 2 ^ 12 = n := by
  have inside : (n : Int) < 2 ^ 12 := by exact_mod_cast small
  have bounds := IntHart.signed_bounds (by omega) (Int.natCast_nonneg n) inside
  rw [toInt_narrow (by omega) (by omega) (by omega) small value]
  exact ⟨by omega, IntHart.signed_emod (Int.natCast_nonneg n) inside⟩

theorem rebuild_I (wide : 32 ≤ xlen) (w : WordT) : I ((decodeImmI xlen w).setWidth 16)
    ((getRs1 w).setWidth 8) ((getFunct3 w).setWidth 8) ((getRd w).setWidth 8)
    ((getOpcode w).setWidth 8) = some w := by
  have self := packs_self w
  have h2 := self.rs2_lt
  have h7 := self.funct7_lt
  obtain ⟨range, value⟩ :=
    narrow_imm wide (by omega) (self.toInt_decodeImmI (by omega : 12 ≤ xlen))
  generalize (decodeImmI xlen w).setWidth 16 = imm at range value ⊢
  obtain ⟨w', built⟩ : ∃ w', I imm ((getRs1 w).setWidth 8) ((getFunct3 w).setWidth 8)
      ((getRd w).setWidth 8) ((getOpcode w).setWidth 8) = some w' :=
    ⟨_, if_pos ⟨⟨widen_lt (by omega) _ rfl, widen_lt (by omega) _ rfl,
      widen_lt (by omega) _ rfl⟩, range⟩⟩
  obtain ⟨_, imm12, low, packs⟩ := I_packs (opcode_widen_lt w) built
  have same : imm12 = (getFunct7 w).toNat * 32 + (getRs2 w).toNat := by omega
  simp only [toNat_widen8, Nat.reduceLeDiff] at packs
  rw [show imm12 / 32 = (getFunct7 w).toNat by omega,
    show imm12 % 32 = (getRs2 w).toNat by omega] at packs
  rw [built, self.unique packs]

theorem rebuild_S (wide : 32 ≤ xlen) (w : WordT) : S ((decodeImmS xlen w).setWidth 16)
    ((getRs2 w).setWidth 8) ((getRs1 w).setWidth 8) ((getFunct3 w).setWidth 8)
    ((getOpcode w).setWidth 8) = some w := by
  have self := packs_self w
  have hd := self.rd_lt
  have h7 := self.funct7_lt
  obtain ⟨range, value⟩ :=
    narrow_imm wide (by omega) (self.toInt_decodeImmS (by omega : 12 ≤ xlen))
  generalize (decodeImmS xlen w).setWidth 16 = imm at range value ⊢
  obtain ⟨w', built⟩ : ∃ w', S imm ((getRs2 w).setWidth 8) ((getRs1 w).setWidth 8)
      ((getFunct3 w).setWidth 8) ((getOpcode w).setWidth 8) = some w' :=
    ⟨_, if_pos ⟨⟨widen_lt (by omega) _ rfl, widen_lt (by omega) _ rfl,
      widen_lt (by omega) _ rfl⟩, range⟩⟩
  obtain ⟨_, imm12, low, packs⟩ := S_packs (opcode_widen_lt w) built
  have same : imm12 = (getFunct7 w).toNat * 32 + (getRd w).toNat := by omega
  simp only [toNat_widen8, Nat.reduceLeDiff] at packs
  rw [show imm12 / 32 = (getFunct7 w).toNat by omega,
    show imm12 % 32 = (getRd w).toNat by omega] at packs
  rw [built, self.unique packs]

theorem and_one_eq_zero {n : Nat} (pos : 0 < n) {x : BitVec n} (even : x.toInt % 2 = 0) :
    x &&& 1#n = 0#n := by
  have split : (2 : Nat) ^ n = 2 * 2 ^ (n - 1) := by
    rw [← Nat.pow_succ']
    congr 1
    omega
  refine (and_mask_eq_zero_iff (k := 1) pos x).mpr ((lowClear_iff_mod 1 x).mpr ?_)
  rw [BitVec.toInt_eq_toNat_cond, split] at even
  split at even
  · omega
  · push_cast at even
    omega

theorem split_offset {b12 b11 b10 b4 n : Nat} (h12 : b12 < 2) (h11 : b11 < 2) (h10 : b10 < 2 ^ 6)
    (h4 : b4 < 2 ^ 4) (sum : b12 * 2 ^ 12 + b11 * 2 ^ 11 + b10 * 2 ^ 5 + b4 * 2 = n) :
    (n < 2 ^ 13 ∧ n % 2 = 0) ∧
      n / 2 ^ 12 = b12 ∧ n / 2 ^ 11 % 2 = b11 ∧ n / 2 ^ 5 % 2 ^ 6 = b10 ∧ n / 2 % 2 ^ 4 = b4 := by
  omega

theorem rebuild_B (wide : 32 ≤ xlen) (w : WordT) : B ((decodeImmB xlen w).setWidth 16)
    ((getRs2 w).setWidth 8) ((getRs1 w).setWidth 8) ((getFunct3 w).setWidth 8)
    ((getOpcode w).setWidth 8) = some w := by
  have self := packs_self w
  have hd := self.rd_lt
  have h7 := self.funct7_lt
  have value := self.toInt_decodeImmB (by omega : 13 ≤ xlen)
  generalize sum : (getFunct7 w).toNat / 2 ^ 6 * 2 ^ 12 + (getRd w).toNat % 2 * 2 ^ 11 +
    (getFunct7 w).toNat % 2 ^ 6 * 2 ^ 5 + (getRd w).toNat / 2 * 2 = n at value
  obtain ⟨⟨small, even⟩, b12, b11, b10, b4⟩ :=
    split_offset (by omega) (by omega) (by omega) (by omega) sum
  have inside : (n : Int) < 2 ^ 13 := by exact_mod_cast small
  have bounds := IntHart.signed_bounds (by omega) (Int.natCast_nonneg n) inside
  have low := IntHart.signed_emod (Int.natCast_nonneg n) inside
  have same := toInt_narrow (by omega) (by omega : 13 ≤ 16) (by omega) small value
  generalize (decodeImmB xlen w).setWidth 16 = imm at same ⊢
  rw [← same] at bounds low
  obtain ⟨w', built⟩ : ∃ w', B imm ((getRs2 w).setWidth 8) ((getRs1 w).setWidth 8)
      ((getFunct3 w).setWidth 8) ((getOpcode w).setWidth 8) = some w' :=
    ⟨_, if_pos ⟨⟨widen_lt (by omega) _ rfl, widen_lt (by omega) _ rfl,
      widen_lt (by omega) _ rfl⟩, and_one_eq_zero (by omega) (by omega), by omega⟩⟩
  obtain ⟨_, offset, value', packs⟩ := B_packs (opcode_widen_lt w) built
  obtain rfl : offset = n := by exact_mod_cast value'.trans low
  simp only [toNat_widen8, Nat.reduceLeDiff, b12, b11, b10, b4] at packs
  rw [Nat.div_add_mod', Nat.div_add_mod'] at packs
  rw [built, self.unique packs]

theorem rebuild_U (wide : 32 ≤ xlen) (w : WordT) :
    U (((decodeImmU w).signExtend xlen).setWidth 32) ((getRd w).setWidth 8)
      ((getOpcode w).setWidth 8) = some w := by
  have upper : (decodeImmU w).toNat = w.toNat - w.toNat % 2 ^ 12 :=
    toNat_and_not_mask (w := 32) (k := 12) (by omega) w
  have narrow : ((decodeImmU w).signExtend xlen).setWidth 32 = decodeImmU w := by
    ext i hi
    simp [BitVec.getElem_signExtend, hi, show i < xlen by omega]
  obtain ⟨w', built⟩ : ∃ w', U (decodeImmU w) ((getRd w).setWidth 8)
      ((getOpcode w).setWidth 8) = some w' := ⟨_, if_pos (widen_lt (by omega) _ rfl)⟩
  obtain ⟨_, sum⟩ := U_packs (opcode_widen_lt w) built
  have d := toNat_getRd w
  have op := toNat_getOpcode w
  simp only [toNat_widen8, Nat.reduceLeDiff] at sum
  rw [narrow, built]
  congr 1
  apply BitVec.eq_of_toNat_eq
  omega

theorem split_jump {b20 b19 b11 b10 n : Nat} (h20 : b20 < 2) (h19 : b19 < 2 ^ 8) (h11 : b11 < 2)
    (h10 : b10 < 2 ^ 10) (sum : b20 * 2 ^ 20 + b19 * 2 ^ 12 + b11 * 2 ^ 11 + b10 * 2 = n) :
    (n < 2 ^ 21 ∧ n % 2 = 0) ∧ n / 2 ^ 20 = b20 ∧ n / 2 ^ 12 % 2 ^ 8 = b19 ∧
      n / 2 ^ 11 % 2 = b11 ∧ n / 2 % 2 ^ 10 = b10 := by
  omega

theorem rebuild_J (wide : 32 ≤ xlen) (w : WordT) : J ((decodeImmJ xlen w).setWidth 32)
    ((getRd w).setWidth 8) ((getOpcode w).setWidth 8) = some w := by
  obtain ⟨i20, i10, i11, i19, h20, h10, h11, h19, word⟩ : ∃ i20 i10 i11 i19 : Nat, i20 < 2 ∧
      i10 < 2 ^ 10 ∧ i11 < 2 ∧ i19 < 2 ^ 8 ∧ w.toNat = i20 * 2 ^ 31 + i10 * 2 ^ 21 + i11 * 2 ^ 20 +
        i19 * 2 ^ 12 + (getRd w).toNat * 2 ^ 7 + (getOpcode w).toNat := by
    have bound := w.isLt
    have d := toNat_getRd w
    have op := toNat_getOpcode w
    exact ⟨w.toNat / 2 ^ 31, w.toNat / 2 ^ 21 % 2 ^ 10, w.toNat / 2 ^ 20 % 2,
      w.toNat / 2 ^ 12 % 2 ^ 8, by omega⟩
  have value := toInt_decodeImmJ (by omega : 21 ≤ xlen) i20 i10 i11 i19 h20 h10 h11 h19
    (getRd w).isLt (getOpcode w).isLt word
  generalize sum : i20 * 2 ^ 20 + i19 * 2 ^ 12 + i11 * 2 ^ 11 + i10 * 2 = n at value
  obtain ⟨⟨small, even⟩, b20, b19, b11, b10⟩ := split_jump h20 h19 h11 h10 sum
  have low : IntHart.signed 21 n % 2 ^ 21 = n :=
    IntHart.signed_emod (Int.natCast_nonneg n) (by exact_mod_cast small)
  have same := toInt_narrow (by omega) (by omega : 21 ≤ 32) (by omega) small value
  generalize (decodeImmJ xlen w).setWidth 32 = imm at same ⊢
  rw [← same] at low
  obtain ⟨w', built⟩ : ∃ w', J imm ((getRd w).setWidth 8) ((getOpcode w).setWidth 8) = some w' :=
    ⟨_, if_pos ⟨widen_lt (by omega) _ rfl, and_one_eq_zero (by omega) (by omega)⟩⟩
  obtain ⟨_, offset, value', sum'⟩ := J_packs (opcode_widen_lt w) built
  obtain rfl : offset = n := by exact_mod_cast value'.trans low
  simp only [toNat_widen8, Nat.reduceLeDiff, b20, b19, b11, b10] at sum'
  rw [built]
  congr 1
  apply BitVec.eq_of_toNat_eq
  rw [sum', word]

theorem build_decode (wide : 32 ≤ xlen) {w : WordT} {o : Opcode}
    (known : Opcode.ofBits? (getOpcode w) = some o) :
    (Build.ofDecoded (Decoder.decode xlen w) o.format).word
      ((Decoder.decode xlen w).opcode.setWidth 8) = some w := by
  have imm : (Decoder.decode xlen w).imm = _ := decodeImm_format known
  cases format : o.format with
  | R => exact rebuild_R w
  | I =>
    rw [format] at imm
    unfold Build.ofDecoded
    rw [imm]
    exact rebuild_I wide w
  | S =>
    rw [format] at imm
    unfold Build.ofDecoded
    rw [imm]
    exact rebuild_S wide w
  | B =>
    rw [format] at imm
    unfold Build.ofDecoded
    rw [imm]
    exact rebuild_B wide w
  | U =>
    rw [format] at imm
    unfold Build.ofDecoded
    rw [imm]
    exact rebuild_U wide w
  | J =>
    rw [format] at imm
    unfold Build.ofDecoded
    rw [imm]
    exact rebuild_J wide w

/-- Encoder and decoder are inverse to each other, at every width from 32 bits on. -/
theorem encoder_decoder_inverse (wide : 32 ≤ xlen) :
    (∀ (b : Build) (o : Opcode) (w : WordT), b.word o.bits = some w → b.InRange →
      w ≠ 0#32 ∧ (Decoder.decode xlen w).opcode.setWidth 8 = o.bits ∧
        b.FieldsOf (Decoder.decode xlen w) ∧
          (b.format = o.format → b.ImmOf (Decoder.decode xlen w))) ∧
    ∀ (w : WordT) (o : Opcode), w ≠ 0#32 →
      Opcode.ofBits? (Decoder.decode xlen w).opcode = some o →
        (Build.ofDecoded (Decoder.decode xlen w) o.format).word
          ((Decoder.decode xlen w).opcode.setWidth 8) = some w := by
  constructor
  · intro b o w built inRange
    obtain ⟨known, fields, imm⟩ := decode_build wide built inRange
    exact ⟨ne_zero_of_opcode known, widen_opcode known, fields, imm⟩
  · intro w o _ known
    exact build_decode wide known

theorem encoder_decoder_inverse_widths :
    (32 ≤ 32 ∧ ((Build.J 4094#32 1#8).word Opcode.jal.bits).isSome ∧
      (Build.ofDecoded (Decoder.decode 32 0x00112623#32) .S).word
        ((Decoder.decode 32 0x00112623#32).opcode.setWidth 8) = some 0x00112623#32) ∧
    (32 ≤ 64 ∧
      (Build.ofDecoded (Decoder.decode 64 0x00112623#32) .S).word
        ((Decoder.decode 64 0x00112623#32).opcode.setWidth 8) = some 0x00112623#32) :=
  ⟨⟨by decide, by decide, (encoder_decoder_inverse (by decide)).2 _ .store (by decide) rfl⟩,
    by decide, (encoder_decoder_inverse (by decide)).2 _ .store (by decide) rfl⟩

end XorOS.InstrBuilder
