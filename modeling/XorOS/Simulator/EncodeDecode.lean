import XorOS.Library.Bits
import XorOS.Library.IntHart
import XorOS.Simulator.InstrBuilder

/- What the decoder makes of a word that InstrBuilder has built. -/
namespace XorOS.ISA
open Bits

theorem toNat_extractBits (i : WordT) (hi lo : Nat) (inside : hi ≤ 31) (ordered : lo ≤ hi) :
    (extractBits i hi lo).toNat = i.toNat / 2 ^ lo % 2 ^ (hi - lo + 1) := by
  unfold extractBits
  have mask : (if hi - lo + 1 = 32 then 0xFFFFFFFF#32 else (1#32 <<< (hi - lo + 1)) - 1#32) =
      BitVec.ofNat 32 (2 ^ (hi - lo + 1) - 1) := by
    by_cases whole : hi - lo + 1 = 32
    · simp [whole]
    · have pos := Nat.two_pow_pos (hi - lo + 1)
      have small : 2 ^ (hi - lo + 1) < 2 ^ 32 := Nat.pow_lt_pow_right (by omega) (by omega)
      apply BitVec.eq_of_toNat_eq
      simp only [whole, if_false, BitVec.toNat_sub, BitVec.toNat_shiftLeft, BitVec.toNat_ofNat,
        Nat.shiftLeft_eq]
      omega
  simp only [mask]
  rw [toNat_and_mask (by omega), BitVec.toNat_ushiftRight, Nat.shiftRight_eq_div_pow]

theorem toNat_getOpcode (i : WordT) : (getOpcode i).toNat = i.toNat % 128 := by
  have mask : (i &&& 0b01111111#32).toNat = i.toNat % 2 ^ 7 :=
    toNat_and_mask (w := 32) (k := 7) (by omega) i
  unfold getOpcode
  rw [BitVec.toNat_setWidth, mask]
  omega

theorem toNat_field (i : WordT) (lo k : Nat) (fit : k ≤ 32) :
    ((i >>> lo &&& BitVec.ofNat 32 (2 ^ k - 1)).setWidth k).toNat = i.toNat / 2 ^ lo % 2 ^ k := by
  rw [BitVec.toNat_setWidth, toNat_and_mask fit, BitVec.toNat_ushiftRight,
    Nat.shiftRight_eq_div_pow, Nat.mod_mod]

theorem toNat_getRd (i : WordT) : (getRd i).toNat = i.toNat / 2 ^ 7 % 2 ^ 5 :=
  toNat_field i 7 5 (by omega)

theorem toNat_getFunct3 (i : WordT) : (getFunct3 i).toNat = i.toNat / 2 ^ 12 % 2 ^ 3 :=
  toNat_field i 12 3 (by omega)

theorem toNat_getRs1 (i : WordT) : (getRs1 i).toNat = i.toNat / 2 ^ 15 % 2 ^ 5 :=
  toNat_field i 15 5 (by omega)

theorem toNat_getRs2 (i : WordT) : (getRs2 i).toNat = i.toNat / 2 ^ 20 % 2 ^ 5 :=
  toNat_field i 20 5 (by omega)

theorem toNat_getFunct7 (i : WordT) : (getFunct7 i).toNat = i.toNat / 2 ^ 25 % 2 ^ 7 :=
  toNat_field i 25 7 (by omega)

theorem toInt_signExtend {xlen : Nat} {val : WordT} {bits : Nat} (fit : bits ≤ xlen)
    (small : val.toNat < 2 ^ bits) :
    (signExtend xlen val bits).toInt = IntHart.signed bits val.toNat := by
  have split : 2 ^ xlen = 2 ^ bits * 2 ^ (xlen - bits) := by
    rw [← Nat.pow_add]
    congr 1
    omega
  have pos : 0 < 2 ^ (xlen - bits) := Nat.two_pow_pos _
  have same : (val.setWidth xlen).toNat = val.toNat := by
    rw [BitVec.toNat_setWidth, Nat.mod_eq_of_lt (Nat.lt_of_lt_of_le small
      (Nat.pow_le_pow_right (by omega) fit))]
  have fits : (val.setWidth xlen).toNat * 2 ^ (xlen - bits) < 2 ^ xlen := by
    rw [same, split]
    exact Nat.mul_lt_mul_of_pos_right small pos
  have half : 2 * (val.toNat * 2 ^ (xlen - bits)) < 2 ^ xlen ↔ 2 * val.toNat < 2 ^ bits := by
    rw [split, ← Nat.mul_assoc]
    exact Nat.mul_lt_mul_right pos
  have shifted : (val.setWidth xlen <<< (xlen - bits)).toInt =
      IntHart.signed bits val.toNat * 2 ^ (xlen - bits) := by
    unfold BitVec.toInt IntHart.signed
    rw [toNat_shiftLeft_of_lt fits, same]
    by_cases low : 2 * val.toNat < 2 ^ bits
    · rw [if_pos (half.mpr low), if_pos (by exact_mod_cast low)]
      push_cast
      rfl
    · rw [if_neg (mt half.mp low), if_neg (by exact_mod_cast low), split]
      push_cast
      ring
  unfold signExtend
  rw [BitVec.toInt_sshiftRight, shifted, Int.shiftRight_eq_div_pow]
  push_cast
  exact Int.mul_ediv_cancel _ (by positivity)
end XorOS.ISA
namespace XorOS.InstrBuilder
open ISA Bits

structure Packs (w : WordT) (funct7 rs2 rs1 funct3 rd opcode : Nat) : Prop where
  funct7_lt : funct7 < 128
  rs2_lt : rs2 < 32
  rs1_lt : rs1 < 32
  funct3_lt : funct3 < 8
  rd_lt : rd < 32
  opcode_lt : opcode < 128
  word : w.toNat =
    funct7 * 2 ^ 25 + rs2 * 2 ^ 20 + rs1 * 2 ^ 15 + funct3 * 2 ^ 12 + rd * 2 ^ 7 + opcode

theorem packs_fields (funct7 rs2 rs1 funct3 rd opcode : WordT) (h7 : funct7.toNat < 128)
    (h2 : rs2.toNat < 32) (h1 : rs1.toNat < 32) (h3 : funct3.toNat < 8) (hd : rd.toNat < 32)
    (ho : opcode.toNat < 128) :
    Packs (funct7 <<< 25 ||| rs2 <<< 20 ||| rs1 <<< 15 ||| funct3 <<< 12 ||| rd <<< 7 ||| opcode)
      funct7.toNat rs2.toNat rs1.toNat funct3.toNat rd.toNat opcode.toNat := by
  have e7 := toNat_shiftLeft_of_lt (x := funct7) (k := 25) (by omega)
  have e2 := toNat_shiftLeft_of_lt (x := rs2) (k := 20) (by omega)
  have e1 := toNat_shiftLeft_of_lt (x := rs1) (k := 15) (by omega)
  have e3 := toNat_shiftLeft_of_lt (x := funct3) (k := 12) (by omega)
  have ed := toNat_shiftLeft_of_lt (x := rd) (k := 7) (by omega)
  have s2 := toNat_or_of_lt 25 (x := funct7 <<< 25) (y := rs2 <<< 20) (by omega) (by omega)
  have s1 := toNat_or_of_lt 20 (x := funct7 <<< 25 ||| rs2 <<< 20) (y := rs1 <<< 15) (by omega)
    (by omega)
  have s3 := toNat_or_of_lt 15 (x := funct7 <<< 25 ||| rs2 <<< 20 ||| rs1 <<< 15)
    (y := funct3 <<< 12) (by omega) (by omega)
  have sd := toNat_or_of_lt 12 (x := funct7 <<< 25 ||| rs2 <<< 20 ||| rs1 <<< 15 |||
    funct3 <<< 12) (y := rd <<< 7) (by omega) (by omega)
  have so := toNat_or_of_lt 7 (x := funct7 <<< 25 ||| rs2 <<< 20 ||| rs1 <<< 15 |||
    funct3 <<< 12 ||| rd <<< 7) (y := opcode) (by omega) (by omega)
  exact ⟨h7, h2, h1, h3, hd, ho, by omega⟩

theorem toNat_widen (x : BitVec 8) : (x.setWidth 32).toNat = x.toNat := by
  rw [BitVec.toNat_setWidth]
  omega

theorem R_packs {funct7 rs2 rs1 funct3 rd opcode : BitVec 8} {w : WordT}
    (ho : opcode.toNat < 128) (built : R funct7 rs2 rs1 funct3 rd opcode = some w) :
    Packs w funct7.toNat rs2.toNat rs1.toNat funct3.toNat rd.toNat opcode.toNat := by
  unfold R at built
  split at built
  · rename_i asserts
    obtain ⟨h7, hd, h1, h2, h3⟩ := asserts
    cases built
    have packs := packs_fields (funct7.setWidth 32) (rs2.setWidth 32)
      (rs1.setWidth 32) (funct3.setWidth 32) (rd.setWidth 32)
      (opcode.setWidth 32) (by rwa [toNat_widen]) (by rwa [toNat_widen])
      (by rwa [toNat_widen]) (by rwa [toNat_widen]) (by rwa [toNat_widen]) (by rwa [toNat_widen])
    simpa only [toNat_widen] using packs
  · cases built

theorem toNat_low_signExtend (imm : BitVec 16) :
    ((imm.signExtend 32).toNat : Int) % 2 ^ 16 = imm.toInt % 2 ^ 16 ∧
      (imm.signExtend 32).toInt = imm.toInt := by
  have same : (imm.signExtend 32).toInt = imm.toInt := BitVec.toInt_signExtend_of_le (by omega)
  refine ⟨?_, same⟩
  rw [← same, BitVec.toInt_eq_toNat_cond]
  split
  · rfl
  · omega

theorem toNat_imm12 (imm : BitVec 16) :
    ((imm.signExtend 32 &&& 0b111111111111#32).toNat : Int) = imm.toInt % 2 ^ 12 := by
  have mask :
      (imm.signExtend 32 &&& 0b111111111111#32).toNat = (imm.signExtend 32).toNat % 2 ^ 12 :=
    toNat_and_mask (w := 32) (k := 12) (by omega) _
  have low := (toNat_low_signExtend imm).1
  omega

theorem I_packs {imm : BitVec 16} {rs1 funct3 rd opcode : BitVec 8} {w : WordT}
    (ho : opcode.toNat < 128) (built : I imm rs1 funct3 rd opcode = some w) :
    (-2048 ≤ imm.toInt ∧ imm.toInt ≤ 2047) ∧ ∃ imm12 : Nat, (imm12 : Int) = imm.toInt % 2 ^ 12 ∧
      Packs w (imm12 / 32) (imm12 % 32) rs1.toNat funct3.toNat rd.toNat opcode.toNat := by
  unfold I at built
  split at built
  · rename_i asserts
    obtain ⟨⟨hd, h1, h3⟩, range⟩ := asserts
    cases built
    have value := toNat_imm12 imm
    refine ⟨range, _, value, ?_⟩
    generalize imm.signExtend 32 &&& 0b111111111111#32 = imm12 at value ⊢
    have top : (imm12 >>> 5).toNat = imm12.toNat / 32 := by
      rw [BitVec.toNat_ushiftRight, Nat.shiftRight_eq_div_pow]
    have low : (imm12 &&& 0b11111#32).toNat = imm12.toNat % 32 :=
      toNat_and_mask (w := 32) (k := 5) (by omega) _
    -- the immediate as the two fields funct7 and rs2
    have fields : imm12 <<< 20 = (imm12 >>> 5) <<< 25 ||| (imm12 &&& 0b11111#32) <<< 20 := by
      apply BitVec.eq_of_toNat_eq
      have e := toNat_shiftLeft_of_lt (x := imm12) (k := 20) (by omega)
      have e7 := toNat_shiftLeft_of_lt (x := imm12 >>> 5) (k := 25) (by omega)
      have e2 := toNat_shiftLeft_of_lt (x := imm12 &&& 0b11111#32) (k := 20) (by omega)
      have sum := toNat_or_of_lt 25 (x := (imm12 >>> 5) <<< 25) (y := (imm12 &&& 0b11111#32) <<< 20)
        (by omega) (by omega)
      omega
    have packs := packs_fields (imm12 >>> 5) (imm12 &&& 0b11111#32)
      (rs1.setWidth 32) (funct3.setWidth 32) (rd.setWidth 32)
      (opcode.setWidth 32) (by omega) (by omega) (by rwa [toNat_widen])
      (by rwa [toNat_widen]) (by rwa [toNat_widen]) (by rwa [toNat_widen])
    rw [← fields] at packs
    simpa only [toNat_widen, top, low] using packs
  · cases built

theorem S_packs {imm : BitVec 16} {rs2 rs1 funct3 opcode : BitVec 8} {w : WordT}
    (ho : opcode.toNat < 128) (built : S imm rs2 rs1 funct3 opcode = some w) :
    (-2048 ≤ imm.toInt ∧ imm.toInt ≤ 2047) ∧ ∃ imm12 : Nat, (imm12 : Int) = imm.toInt % 2 ^ 12 ∧
      Packs w (imm12 / 32) rs2.toNat rs1.toNat funct3.toNat (imm12 % 32) opcode.toNat := by
  unfold S at built
  split at built
  · rename_i asserts
    obtain ⟨⟨h1, h2, h3⟩, range⟩ := asserts
    cases built
    have value := toNat_imm12 imm
    refine ⟨range, _, value, ?_⟩
    generalize imm.signExtend 32 &&& 0b111111111111#32 = imm12 at value ⊢
    have top : ((imm12 >>> 5) &&& 0b1111111#32).toNat = imm12.toNat / 32 := by
      have mask : ((imm12 >>> 5) &&& 0b1111111#32).toNat = (imm12 >>> 5).toNat % 2 ^ 7 :=
        toNat_and_mask (w := 32) (k := 7) (by omega) _
      rw [mask, BitVec.toNat_ushiftRight, Nat.shiftRight_eq_div_pow]
      omega
    have low : (imm12 &&& 0b11111#32).toNat = imm12.toNat % 32 :=
      toNat_and_mask (w := 32) (k := 5) (by omega) _
    have packs := packs_fields ((imm12 >>> 5) &&& 0b1111111#32)
      (rs2.setWidth 32) (rs1.setWidth 32) (funct3.setWidth 32)
      (imm12 &&& 0b11111#32) (opcode.setWidth 32) (by omega)
      (by rwa [toNat_widen]) (by rwa [toNat_widen]) (by rwa [toNat_widen]) (by omega)
      (by rwa [toNat_widen])
    simpa only [toNat_widen, top, low] using packs
  · cases built

theorem toNat_even_mask {x : WordT} {k : Nat} (fit : k ≤ 32) (even : x.toNat % 2 = 0) :
    (x &&& (BitVec.ofNat 32 (2 ^ k - 1) &&& ~~~BitVec.ofNat 32 (2 ^ 1 - 1))).toNat =
      x.toNat % 2 ^ k := by
  have low := toNat_and_mask fit x
  have clear := toNat_and_not_mask (k := 1) (by omega) (x &&& BitVec.ofNat 32 (2 ^ k - 1))
  have still : x.toNat % 2 ^ k % 2 = 0 := by
    cases k with
    | zero => simp [Nat.mod_one]
    | succ k => rw [Nat.pow_succ', Nat.mod_mul_right_mod, even]
  rw [← BitVec.and_assoc, clear, low]
  omega

theorem toNat_bits (x : WordT) (lo k : Nat) (fit : k ≤ 32) :
    (x >>> lo &&& BitVec.ofNat 32 (2 ^ k - 1)).toNat = x.toNat / 2 ^ lo % 2 ^ k := by
  rw [toNat_and_mask fit, BitVec.toNat_ushiftRight, Nat.shiftRight_eq_div_pow]

theorem B_packs {offset : BitVec 16} {rs2 rs1 funct3 opcode : BitVec 8} {w : WordT}
    (ho : opcode.toNat < 128) (built : B offset rs2 rs1 funct3 opcode = some w) :
    (offset.toInt % 2 = 0 ∧ -4096 ≤ offset.toInt ∧ offset.toInt ≤ 4094) ∧
      ∃ o : Nat, (o : Int) = offset.toInt % 2 ^ 13 ∧
        Packs w (o / 2 ^ 12 * 2 ^ 6 + o / 2 ^ 5 % 2 ^ 6) rs2.toNat rs1.toNat funct3.toNat
          (o / 2 % 2 ^ 4 * 2 + o / 2 ^ 11 % 2) opcode.toNat := by
  unfold B at built
  split at built
  · rename_i asserts
    obtain ⟨⟨h1, h2, h3⟩, even, range⟩ := asserts
    cases built
    have lowBit : offset.toNat % 2 = 0 := by
      have mask : (offset &&& 1#16).toNat = offset.toNat % 2 ^ 1 :=
        toNat_and_mask (w := 16) (k := 1) (by omega) _
      rw [even] at mask
      simpa using mask.symm
    have evenInt : offset.toInt % 2 = 0 := by
      rw [BitVec.toInt_eq_toNat_cond]
      split
      · omega
      · omega
    have wide := toNat_low_signExtend offset
    have value :
        (offset.signExtend 32 &&& 0x1FFE#32).toNat = (offset.signExtend 32).toNat % 2 ^ 13 :=
      toNat_even_mask (k := 13) (by omega) (by omega)
    refine ⟨⟨evenInt, range⟩, (offset.signExtend 32 &&& 0x1FFE#32).toNat, by omega, ?_⟩
    have below : (offset.signExtend 32 &&& 0x1FFE#32).toNat < 2 ^ 13 := by omega
    generalize offset.signExtend 32 &&& 0x1FFE#32 = o at below ⊢
    have b12 : (o >>> 12 &&& 1#32).toNat = o.toNat / 2 ^ 12 % 2 ^ 1 := toNat_bits o 12 1 (by omega)
    have b11 : (o >>> 11 &&& 1#32).toNat = o.toNat / 2 ^ 11 % 2 ^ 1 := toNat_bits o 11 1 (by omega)
    have b10 : (o >>> 5 &&& 0b111111#32).toNat = o.toNat / 2 ^ 5 % 2 ^ 6 :=
      toNat_bits o 5 6 (by omega)
    have b4 : (o >>> 1 &&& 0b1111#32).toNat = o.toNat / 2 ^ 1 % 2 ^ 4 := toNat_bits o 1 4 (by omega)
    generalize o >>> 12 &&& 1#32 = x12 at b12 ⊢
    generalize o >>> 11 &&& 1#32 = x11 at b11 ⊢
    generalize o >>> 5 &&& 0b111111#32 = x10 at b10 ⊢
    generalize o >>> 1 &&& 0b1111#32 = x4 at b4 ⊢
    -- the two parts of the immediate as one field each
    have top : x12 <<< 31 ||| x10 <<< 25 = (x12 <<< 6 ||| x10) <<< 25 := by
      rw [BitVec.shiftLeft_or_distrib, ← BitVec.shiftLeft_add]
    have bottom : x4 <<< 8 ||| x11 <<< 7 = (x4 <<< 1 ||| x11) <<< 7 := by
      rw [BitVec.shiftLeft_or_distrib, ← BitVec.shiftLeft_add]
    have e12 := toNat_shiftLeft_of_lt (x := x12) (k := 6) (by omega)
    have e4 := toNat_shiftLeft_of_lt (x := x4) (k := 1) (by omega)
    have topNat := toNat_or_of_lt 6 (x := x12 <<< 6) (y := x10) (by omega) (by omega)
    have bottomNat := toNat_or_of_lt 1 (x := x4 <<< 1) (y := x11) (by omega) (by omega)
    have top7 : (x12 <<< 6 ||| x10).toNat = o.toNat / 2 ^ 12 * 2 ^ 6 + o.toNat / 2 ^ 5 % 2 ^ 6 := by
      omega
    have bottom5 : (x4 <<< 1 ||| x11).toNat = o.toNat / 2 % 2 ^ 4 * 2 + o.toNat / 2 ^ 11 % 2 := by
      omega
    have packs := packs_fields (x12 <<< 6 ||| x10) (rs2.setWidth 32)
      (rs1.setWidth 32) (funct3.setWidth 32) (x4 <<< 1 ||| x11)
      (opcode.setWidth 32) (by omega) (by rwa [toNat_widen]) (by rwa [toNat_widen])
      (by rwa [toNat_widen]) (by omega) (by rwa [toNat_widen])
    rw [top, BitVec.or_assoc _ (x4 <<< 8), bottom]
    simpa only [toNat_widen, top7, bottom5] using packs
  · cases built

theorem U_packs {imm : BitVec 32} {rd opcode : BitVec 8} {w : WordT}
    (ho : opcode.toNat < 128) (built : U imm rd opcode = some w) :
    rd.toNat < 32 ∧
      w.toNat = imm.toNat / 2 ^ 12 * 2 ^ 12 + rd.toNat * 2 ^ 7 + opcode.toNat := by
  unfold U at built
  split at built
  · rename_i hrd
    cases built
    have nd : rd.toNat < 32 := hrd
    have upper : (imm &&& 0xFFFFF000#32).toNat = imm.toNat - imm.toNat % 2 ^ 12 :=
      toNat_and_not_mask (w := 32) (k := 12) (by omega) imm
    generalize imm &&& 0xFFFFF000#32 = hi at upper ⊢
    have wd := toNat_widen rd
    have wo := toNat_widen opcode
    have ed := toNat_shiftLeft_of_lt (x := rd.setWidth 32) (k := 7) (by omega)
    have sd := toNat_or_of_lt 12 (x := hi) (y := rd.setWidth 32 <<< 7) (by omega) (by omega)
    have so := toNat_or_of_lt 7 (x := hi ||| rd.setWidth 32 <<< 7) (y := opcode.setWidth 32)
      (by omega) (by omega)
    refine ⟨nd, ?_⟩
    omega
  · cases built

theorem J_packs {offset : BitVec 32} {rd opcode : BitVec 8} {w : WordT}
    (ho : opcode.toNat < 128) (built : J offset rd opcode = some w) :
    (rd.toNat < 32 ∧ offset.toInt % 2 = 0) ∧
      ∃ o : Nat, (o : Int) = offset.toInt % 2 ^ 21 ∧ w.toNat =
        o / 2 ^ 20 * 2 ^ 31 + o / 2 % 2 ^ 10 * 2 ^ 21 + o / 2 ^ 11 % 2 * 2 ^ 20 +
          o / 2 ^ 12 % 2 ^ 8 * 2 ^ 12 + rd.toNat * 2 ^ 7 + opcode.toNat := by
  unfold J at built
  split at built
  · rename_i asserts
    obtain ⟨hrd, even⟩ := asserts
    cases built
    have nd : rd.toNat < 32 := hrd
    have lowBit : offset.toNat % 2 = 0 := by
      have mask : (offset &&& 1#32).toNat = offset.toNat % 2 ^ 1 :=
        toNat_and_mask (w := 32) (k := 1) (by omega) _
      rw [even] at mask
      simpa using mask.symm
    have view : offset.toInt = offset.toNat ∨ offset.toInt = offset.toNat - 2 ^ 32 := by
      rw [BitVec.toInt_eq_toNat_cond]
      split
      · exact Or.inl rfl
      · exact Or.inr rfl
    have value : (offset &&& 0x1FFFFE#32).toNat = offset.toNat % 2 ^ 21 :=
      toNat_even_mask (k := 21) (by omega) lowBit
    refine ⟨⟨nd, by omega⟩, (offset &&& 0x1FFFFE#32).toNat, by omega, ?_⟩
    have below : (offset &&& 0x1FFFFE#32).toNat < 2 ^ 21 := by omega
    generalize offset &&& 0x1FFFFE#32 = o at below ⊢
    have b20 : (o >>> 20 &&& 1#32).toNat = o.toNat / 2 ^ 20 % 2 ^ 1 := toNat_bits o 20 1 (by omega)
    have b19 : (o >>> 12 &&& 0xFF#32).toNat = o.toNat / 2 ^ 12 % 2 ^ 8 :=
      toNat_bits o 12 8 (by omega)
    have b11 : (o >>> 11 &&& 1#32).toNat = o.toNat / 2 ^ 11 % 2 ^ 1 := toNat_bits o 11 1 (by omega)
    have b10 : (o >>> 1 &&& 0b1111111111#32).toNat = o.toNat / 2 ^ 1 % 2 ^ 10 :=
      toNat_bits o 1 10 (by omega)
    generalize o >>> 20 &&& 1#32 = x20 at b20 ⊢
    generalize o >>> 12 &&& 0xFF#32 = x19 at b19 ⊢
    generalize o >>> 11 &&& 1#32 = x11 at b11 ⊢
    generalize o >>> 1 &&& 0b1111111111#32 = x10 at b10 ⊢
    have wd := toNat_widen rd
    have wo := toNat_widen opcode
    have e20 := toNat_shiftLeft_of_lt (x := x20) (k := 31) (by omega)
    have e10 := toNat_shiftLeft_of_lt (x := x10) (k := 21) (by omega)
    have e11 := toNat_shiftLeft_of_lt (x := x11) (k := 20) (by omega)
    have e19 := toNat_shiftLeft_of_lt (x := x19) (k := 12) (by omega)
    have ed := toNat_shiftLeft_of_lt (x := rd.setWidth 32) (k := 7) (by omega)
    have s10 := toNat_or_of_lt 31 (x := x20 <<< 31) (y := x10 <<< 21) (by omega) (by omega)
    have s11 := toNat_or_of_lt 21 (x := x20 <<< 31 ||| x10 <<< 21) (y := x11 <<< 20) (by omega)
      (by omega)
    have s19 := toNat_or_of_lt 20 (x := x20 <<< 31 ||| x10 <<< 21 ||| x11 <<< 20)
      (y := x19 <<< 12) (by omega) (by omega)
    have sd := toNat_or_of_lt 12 (x := x20 <<< 31 ||| x10 <<< 21 ||| x11 <<< 20 ||| x19 <<< 12)
      (y := rd.setWidth 32 <<< 7) (by omega) (by omega)
    have so := toNat_or_of_lt 7 (x := x20 <<< 31 ||| x10 <<< 21 ||| x11 <<< 20 ||| x19 <<< 12 |||
      rd.setWidth 32 <<< 7) (y := opcode.setWidth 32) (by omega) (by omega)
    omega
  · cases built

namespace Packs
variable {xlen : Nat} {w : WordT} {f7 rs2 rs1 f3 rd op : Nat}

theorem fields (packs : Packs w f7 rs2 rs1 f3 rd op) :
    (getOpcode w).toNat = op ∧ (getRd w).toNat = rd ∧ (getFunct3 w).toNat = f3 ∧
      (getRs1 w).toNat = rs1 ∧ (getRs2 w).toNat = rs2 ∧ (getFunct7 w).toNat = f7 := by
  obtain ⟨h7, h2, h1, h3, hd, ho, word⟩ := packs
  rw [toNat_getOpcode, toNat_getRd, toNat_getFunct3, toNat_getRs1, toNat_getRs2, toNat_getFunct7,
    word]
  omega

theorem toInt_decodeImmI (fit : 12 ≤ xlen) (packs : Packs w f7 rs2 rs1 f3 rd op) :
    (decodeImmI xlen w).toInt = IntHart.signed 12 (f7 * 32 + rs2 : Nat) := by
  obtain ⟨h7, h2, h1, h3, hd, ho, word⟩ := packs
  have value := toNat_extractBits w 31 20 (by omega) (by omega)
  have same : (extractBits w 31 20).toNat = f7 * 32 + rs2 := by omega
  unfold decodeImmI
  rw [toInt_signExtend (by omega) (by omega), same]

theorem toInt_decodeImmS (fit : 12 ≤ xlen) (packs : Packs w f7 rs2 rs1 f3 rd op) :
    (decodeImmS xlen w).toInt = IntHart.signed 12 (f7 * 32 + rd : Nat) := by
  obtain ⟨h7, h2, h1, h3, hd, ho, word⟩ := packs
  have hi := toNat_extractBits w 31 25 (by omega) (by omega)
  have lo := toNat_extractBits w 11 7 (by omega) (by omega)
  have shifted := toNat_shiftLeft_of_lt (x := extractBits w 31 25) (k := 5) (by omega)
  have joined := toNat_or_of_lt 5 (x := extractBits w 31 25 <<< 5) (y := extractBits w 11 7)
    (by omega) (by omega)
  have same : (extractBits w 31 25 <<< 5 ||| extractBits w 11 7).toNat = f7 * 32 + rd := by omega
  unfold decodeImmS
  rw [toInt_signExtend (by omega) (by omega), same]

theorem toInt_decodeImmB (fit : 13 ≤ xlen) (packs : Packs w f7 rs2 rs1 f3 rd op) :
    (decodeImmB xlen w).toInt = IntHart.signed 13
      (f7 / 2 ^ 6 * 2 ^ 12 + rd % 2 * 2 ^ 11 + f7 % 2 ^ 6 * 2 ^ 5 + rd / 2 * 2 : Nat) := by
  obtain ⟨h7, h2, h1, h3, hd, ho, word⟩ := packs
  have v12 : (extractBits w 31 31).toNat = f7 / 2 ^ 6 := by
    rw [toNat_extractBits w _ _ (by omega) (by omega)]
    omega
  have v11 : (extractBits w 7 7).toNat = rd % 2 := by
    rw [toNat_extractBits w _ _ (by omega) (by omega)]
    omega
  have v10 : (extractBits w 30 25).toNat = f7 % 2 ^ 6 := by
    rw [toNat_extractBits w _ _ (by omega) (by omega)]
    omega
  have v4 : (extractBits w 11 8).toNat = rd / 2 := by
    rw [toNat_extractBits w _ _ (by omega) (by omega)]
    omega
  clear word
  unfold decodeImmB
  simp only
  generalize extractBits w 31 31 = b12 at v12 ⊢
  generalize extractBits w 7 7 = b11 at v11 ⊢
  generalize extractBits w 30 25 = b10 at v10 ⊢
  generalize extractBits w 11 8 = b4 at v4 ⊢
  have e12 := toNat_shiftLeft_of_lt (x := b12) (k := 12) (by omega)
  have e11 := toNat_shiftLeft_of_lt (x := b11) (k := 11) (by omega)
  have e10 := toNat_shiftLeft_of_lt (x := b10) (k := 5) (by omega)
  have e4 := toNat_shiftLeft_of_lt (x := b4) (k := 1) (by omega)
  have s11 := toNat_or_of_lt 12 (x := b12 <<< 12) (y := b11 <<< 11) (by omega) (by omega)
  have s10 := toNat_or_of_lt 11 (x := b12 <<< 12 ||| b11 <<< 11) (y := b10 <<< 5) (by omega)
    (by omega)
  have s4 := toNat_or_of_lt 5 (x := b12 <<< 12 ||| b11 <<< 11 ||| b10 <<< 5) (y := b4 <<< 1)
    (by omega) (by omega)
  have same : (b12 <<< 12 ||| b11 <<< 11 ||| b10 <<< 5 ||| b4 <<< 1).toNat =
      f7 / 2 ^ 6 * 2 ^ 12 + rd % 2 * 2 ^ 11 + f7 % 2 ^ 6 * 2 ^ 5 + rd / 2 * 2 := by omega
  rw [toInt_signExtend (by omega) (by omega), same]

end Packs

theorem toInt_decodeImmJ {xlen : Nat} (fit : 21 ≤ xlen) {w : WordT} (i20 i10 i11 i19 : Nat)
    {rd op : Nat} (h20 : i20 < 2) (h10 : i10 < 2 ^ 10) (h11 : i11 < 2) (h19 : i19 < 2 ^ 8)
    (hd : rd < 32) (hop : op < 128) (packs : w.toNat =
      i20 * 2 ^ 31 + i10 * 2 ^ 21 + i11 * 2 ^ 20 + i19 * 2 ^ 12 + rd * 2 ^ 7 + op) :
    (decodeImmJ xlen w).toInt =
      IntHart.signed 21 (i20 * 2 ^ 20 + i19 * 2 ^ 12 + i11 * 2 ^ 11 + i10 * 2 : Nat) := by
  have v20 : (extractBits w 31 31).toNat = i20 := by
    rw [toNat_extractBits w _ _ (by omega) (by omega)]
    omega
  have v19 : (extractBits w 19 12).toNat = i19 := by
    rw [toNat_extractBits w _ _ (by omega) (by omega)]
    omega
  have v11 : (extractBits w 20 20).toNat = i11 := by
    rw [toNat_extractBits w _ _ (by omega) (by omega)]
    omega
  have v10 : (extractBits w 30 21).toNat = i10 := by
    rw [toNat_extractBits w _ _ (by omega) (by omega)]
    omega
  clear packs
  unfold decodeImmJ
  simp only
  generalize extractBits w 31 31 = b20 at v20 ⊢
  generalize extractBits w 19 12 = b19 at v19 ⊢
  generalize extractBits w 20 20 = b11 at v11 ⊢
  generalize extractBits w 30 21 = b10 at v10 ⊢
  have e20 := toNat_shiftLeft_of_lt (x := b20) (k := 20) (by omega)
  have e19 := toNat_shiftLeft_of_lt (x := b19) (k := 12) (by omega)
  have e11 := toNat_shiftLeft_of_lt (x := b11) (k := 11) (by omega)
  have e10 := toNat_shiftLeft_of_lt (x := b10) (k := 1) (by omega)
  have s19 := toNat_or_of_lt 20 (x := b20 <<< 20) (y := b19 <<< 12) (by omega) (by omega)
  have s11 := toNat_or_of_lt 12 (x := b20 <<< 20 ||| b19 <<< 12) (y := b11 <<< 11) (by omega)
    (by omega)
  have s10 := toNat_or_of_lt 11 (x := b20 <<< 20 ||| b19 <<< 12 ||| b11 <<< 11) (y := b10 <<< 1)
    (by omega) (by omega)
  have same : (b20 <<< 20 ||| b19 <<< 12 ||| b11 <<< 11 ||| b10 <<< 1).toNat =
      i20 * 2 ^ 20 + i19 * 2 ^ 12 + i11 * 2 ^ 11 + i10 * 2 := by omega
  rw [toInt_signExtend (by omega) (by omega), same]

theorem opcode_bits_lt (o : Opcode) : o.bits.toNat < 128 := by
  cases o <;> decide

theorem eq_setWidth {n : Nat} {x : BitVec n} {y : BitVec 8} (same : x.toNat = y.toNat) :
    x = y.setWidth n := by
  apply BitVec.eq_of_toNat_eq
  rw [BitVec.toNat_setWidth, ← same, Nat.mod_eq_of_lt x.isLt]

theorem ofBits?_bits {x : BitVec 7} {o : Opcode} (same : x.toNat = o.bits.toNat) :
    Opcode.ofBits? x = some o := by
  rw [eq_setWidth same]
  cases o <;> rfl

theorem decode_R {o : Opcode} {funct7 rs2 rs1 funct3 rd : BitVec 8} {w : WordT}
    (built : R funct7 rs2 rs1 funct3 rd o.bits = some w) :
    Opcode.ofBits? (getOpcode w) = some o ∧ getRd w = rd.setWidth 5 ∧ getRs1 w = rs1.setWidth 5 ∧
      getRs2 w = rs2.setWidth 5 ∧ getFunct3 w = funct3.setWidth 3 ∧
      getFunct7 w = funct7.setWidth 7 := by
  obtain ⟨op, d, f3, s1, s2, f7⟩ := (R_packs (opcode_bits_lt o) built).fields
  exact ⟨ofBits?_bits op, eq_setWidth d, eq_setWidth s1, eq_setWidth s2, eq_setWidth f3,
    eq_setWidth f7⟩

theorem decode_shamt {o : Opcode} {funct7 shamt rs1 funct3 rd : BitVec 8} {w : WordT}
    (built : R funct7 shamt rs1 funct3 rd o.bits = some w) :
    (decodeImmI 32 w).toNat % 32 = shamt.toNat := by
  have packs := R_packs (opcode_bits_lt o) built
  have value := packs.toInt_decodeImmI (by decide : 12 ≤ 32)
  have small := packs.rs2_lt
  rw [BitVec.toInt_eq_toNat_cond] at value
  unfold IntHart.signed at value
  split at value
  · split at value
    · omega
    · omega
  · split at value
    · omega
    · omega

theorem decode_I {xlen : Nat} (fit : 12 ≤ xlen) {o : Opcode} {imm : BitVec 16}
    {rs1 funct3 rd : BitVec 8} {w : WordT} (built : I imm rs1 funct3 rd o.bits = some w) :
    Opcode.ofBits? (getOpcode w) = some o ∧ getRd w = rd.setWidth 5 ∧ getRs1 w = rs1.setWidth 5 ∧
      getFunct3 w = funct3.setWidth 3 ∧ (decodeImmI xlen w).toInt = imm.toInt := by
  obtain ⟨range, imm12, value, packs⟩ := I_packs (opcode_bits_lt o) built
  obtain ⟨op, d, f3, s1, _, _⟩ := packs.fields
  refine ⟨ofBits?_bits op, eq_setWidth d, eq_setWidth s1, eq_setWidth f3, ?_⟩
  rw [packs.toInt_decodeImmI fit]
  unfold IntHart.signed
  split
  · omega
  · omega

theorem decode_S {xlen : Nat} (fit : 12 ≤ xlen) {o : Opcode} {imm : BitVec 16}
    {rs2 rs1 funct3 : BitVec 8} {w : WordT} (built : S imm rs2 rs1 funct3 o.bits = some w) :
    Opcode.ofBits? (getOpcode w) = some o ∧ getRs1 w = rs1.setWidth 5 ∧
      getRs2 w = rs2.setWidth 5 ∧ getFunct3 w = funct3.setWidth 3 ∧
      (decodeImmS xlen w).toInt = imm.toInt := by
  obtain ⟨range, imm12, value, packs⟩ := S_packs (opcode_bits_lt o) built
  obtain ⟨op, _, f3, s1, s2, _⟩ := packs.fields
  refine ⟨ofBits?_bits op, eq_setWidth s1, eq_setWidth s2, eq_setWidth f3, ?_⟩
  rw [packs.toInt_decodeImmS fit]
  unfold IntHart.signed
  split
  · omega
  · omega

theorem decode_B {xlen : Nat} (fit : 13 ≤ xlen) {o : Opcode} {offset : BitVec 16}
    {rs2 rs1 funct3 : BitVec 8} {w : WordT} (built : B offset rs2 rs1 funct3 o.bits = some w) :
    Opcode.ofBits? (getOpcode w) = some o ∧ getRs1 w = rs1.setWidth 5 ∧
      getRs2 w = rs2.setWidth 5 ∧ getFunct3 w = funct3.setWidth 3 ∧
      (decodeImmB xlen w).toInt = offset.toInt := by
  obtain ⟨⟨even, range⟩, x, value, packs⟩ := B_packs (opcode_bits_lt o) built
  obtain ⟨op, _, f3, s1, s2, _⟩ := packs.fields
  refine ⟨ofBits?_bits op, eq_setWidth s1, eq_setWidth s2, eq_setWidth f3, ?_⟩
  have even' : x % 2 = 0 := by omega
  have d5 : x / 2 / 2 ^ 4 = x / 2 ^ 5 := Nat.div_div_eq_div_mul x 2 (2 ^ 4)
  have d11 : x / 2 ^ 5 / 2 ^ 6 = x / 2 ^ 11 := Nat.div_div_eq_div_mul x (2 ^ 5) (2 ^ 6)
  have d12 : x / 2 ^ 11 / 2 = x / 2 ^ 12 := Nat.div_div_eq_div_mul x (2 ^ 11) 2
  have joined : (x / 2 ^ 12 * 2 ^ 6 + x / 2 ^ 5 % 2 ^ 6) / 2 ^ 6 * 2 ^ 12 +
      (x / 2 % 2 ^ 4 * 2 + x / 2 ^ 11 % 2) % 2 * 2 ^ 11 +
      (x / 2 ^ 12 * 2 ^ 6 + x / 2 ^ 5 % 2 ^ 6) % 2 ^ 6 * 2 ^ 5 +
      (x / 2 % 2 ^ 4 * 2 + x / 2 ^ 11 % 2) / 2 * 2 = x := by
    rw [show (x / 2 ^ 12 * 2 ^ 6 + x / 2 ^ 5 % 2 ^ 6) / 2 ^ 6 = x / 2 ^ 12 by omega,
      show (x / 2 % 2 ^ 4 * 2 + x / 2 ^ 11 % 2) % 2 = x / 2 ^ 11 % 2 by omega,
      show (x / 2 ^ 12 * 2 ^ 6 + x / 2 ^ 5 % 2 ^ 6) % 2 ^ 6 = x / 2 ^ 5 % 2 ^ 6 by omega,
      show (x / 2 % 2 ^ 4 * 2 + x / 2 ^ 11 % 2) / 2 = x / 2 % 2 ^ 4 by omega]
    omega
  rw [packs.toInt_decodeImmB fit, joined]
  unfold IntHart.signed
  split
  · omega
  · omega

theorem decode_U {o : Opcode} {imm : BitVec 32} {rd : BitVec 8} {w : WordT}
    (built : U imm rd o.bits = some w) :
    Opcode.ofBits? (getOpcode w) = some o ∧ getRd w = rd.setWidth 5 ∧
      (decodeImmU w).toNat = imm.toNat / 2 ^ 12 * 2 ^ 12 := by
  have small := opcode_bits_lt o
  obtain ⟨hd, word⟩ := U_packs small built
  have upper : (w &&& 0xFFFFF000#32).toNat = w.toNat - w.toNat % 2 ^ 12 :=
    toNat_and_not_mask (w := 32) (k := 12) (by omega) w
  refine ⟨ofBits?_bits ?_, eq_setWidth ?_, ?_⟩
  · rw [toNat_getOpcode]
    omega
  · rw [toNat_getRd]
    omega
  · rw [decodeImmU, upper]
    omega

/-- An offset that does not fit the format loses its high bits. -/
theorem decode_J {xlen : Nat} (fit : 21 ≤ xlen) {o : Opcode} {offset : BitVec 32} {rd : BitVec 8}
    {w : WordT} (built : J offset rd o.bits = some w) :
    Opcode.ofBits? (getOpcode w) = some o ∧ getRd w = rd.setWidth 5 ∧
      (decodeImmJ xlen w).toInt = IntHart.signed 21 (offset.toInt % 2 ^ 21) := by
  have small := opcode_bits_lt o
  obtain ⟨⟨hd, even⟩, x, value, word⟩ := J_packs small built
  have even' : x % 2 = 0 := by omega
  have below : x < 2 ^ 21 := by omega
  have imm := toInt_decodeImmJ fit (x / 2 ^ 20) (x / 2 % 2 ^ 10) (x / 2 ^ 11 % 2)
    (x / 2 ^ 12 % 2 ^ 8) (by omega) (by omega) (by omega)
    (by omega) hd small word
  refine ⟨ofBits?_bits ?_, eq_setWidth ?_, ?_⟩
  · rw [toNat_getOpcode]
    omega
  · rw [toNat_getRd]
    omega
  · have d11 : x / 2 / 2 ^ 10 = x / 2 ^ 11 := Nat.div_div_eq_div_mul x 2 (2 ^ 10)
    have d12 : x / 2 ^ 11 / 2 = x / 2 ^ 12 := Nat.div_div_eq_div_mul x (2 ^ 11) 2
    have d20 : x / 2 ^ 12 / 2 ^ 8 = x / 2 ^ 20 := Nat.div_div_eq_div_mul x (2 ^ 12) (2 ^ 8)
    have joined : x / 2 ^ 20 * 2 ^ 20 + x / 2 ^ 12 % 2 ^ 8 * 2 ^ 12 + x / 2 ^ 11 % 2 * 2 ^ 11 +
        x / 2 % 2 ^ 10 * 2 = x := by
      clear word value
      omega
    rw [imm, ← value, joined]

end XorOS.InstrBuilder
