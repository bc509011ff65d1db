import XorOS.Simulator.RoundTrip

/- What the asserts of the builders let through: an immediate that the format cannot hold is
   refused by I, S and B, but truncated by U and J. -/
namespace XorOS.InstrBuilder
open ISA Bits
variable {xlen : Nat}

theorem decoded_U_iff (wide : 32 ≤ xlen) {o : Opcode} {imm : BitVec 32} {rd : BitVec 8} {w : WordT}
    (built : U imm rd o.bits = some w) (format : o.format = .U) :
    (Decoder.decode xlen w).imm.toInt = imm.toInt ↔ imm.toNat % 4096 = 0 := by
  obtain ⟨known, _, value⟩ := decode_U built
  have decoded : (Decoder.decode xlen w).imm.toInt = (decodeImmU w).toInt := by
    change (Decoder.decodeImm xlen w).toInt = _
    rw [decodeImm_format known, format]
    exact BitVec.toInt_signExtend_of_le wide
  rw [decoded, BitVec.toInt_inj, ← BitVec.toNat_inj]
  omega

theorem decoded_J_iff (wide : 32 ≤ xlen) {o : Opcode} {offset : BitVec 32} {rd : BitVec 8}
    {w : WordT} (built : J offset rd o.bits = some w) (format : o.format = .J) :
    (Decoder.decode xlen w).imm.toInt = offset.toInt ↔
      -2 ^ 20 ≤ offset.toInt ∧ offset.toInt ≤ 2 ^ 20 - 2 := by
  obtain ⟨known, _, value⟩ := decode_J (by omega : 21 ≤ xlen) built
  obtain ⟨⟨_, even⟩, _⟩ := J_packs (opcode_bits_lt o) built
  have decoded : (Decoder.decode xlen w).imm.toInt = IntHart.signed 21 (offset.toInt % 2 ^ 21) := by
    change (Decoder.decodeImm xlen w).toInt = _
    rw [decodeImm_format known, format]
    exact value
  have inside : 0 ≤ offset.toInt % 2 ^ 21 ∧ offset.toInt % 2 ^ 21 < 2 ^ 21 := by omega
  have bounds := IntHart.signed_bounds (by omega) inside.1 inside.2
  rw [decoded]
  constructor
  · intro same
    rw [same] at bounds
    omega
  · intro range
    unfold IntHart.signed
    split
    · omega
    · omega

theorem decoded_upper (wide : 32 ≤ xlen) {o : Opcode} {imm20 : BitVec 32} {rd : BitVec 8}
    {w : WordT} (built : U (imm20 <<< 12) rd o.bits = some w) (format : o.format = .U) :
    (Decoder.decode xlen w).imm.toInt = imm20.toInt * 2 ^ 12 ↔
      -2 ^ 19 ≤ imm20.toInt ∧ imm20.toInt < 2 ^ 19 := by
  have shifted : (imm20 <<< 12).toNat = imm20.toNat * 2 ^ 12 % 2 ^ 32 := by
    rw [BitVec.toNat_shiftLeft, Nat.shiftLeft_eq]
  have decoded := (decoded_U_iff wide built format).mpr (by omega)
  rw [decoded, BitVec.toInt_eq_toNat_cond, BitVec.toInt_eq_toNat_cond]
  have bound := imm20.isLt
  split
  · split
    · omega
    · omega
  · split
    · omega
    · omega

/-- A call whose asserts pass encodes its immediate or offset exactly where the format holds it:
    always for I, S and B; for U where the low twelve bits are clear, for J within a megabyte. -/
theorem builder_exact_iff (wide : 32 ≤ xlen) :
    (∀ (b : Build) (o : Opcode) (w : WordT), b.format = o.format → b.word o.bits = some w →
      (b.ImmOf (Decoder.decode xlen w) ↔ b.InRange)) ∧
    ∀ (rd : BitVec 8) (imm20 : BitVec 32) (w : WordT),
      LUI rd imm20 = some w ∨ AUIPC rd imm20 = some w →
        ((Decoder.decode xlen w).imm.toInt = imm20.toInt * 2 ^ 12 ↔
          -2 ^ 19 ≤ imm20.toInt ∧ imm20.toInt < 2 ^ 19) := by
  constructor
  · intro b o w format built
    cases b with
    | R funct7 rs2 rs1 funct3 rd => exact ⟨fun _ => trivial, fun _ => trivial⟩
    | I imm rs1 funct3 rd =>
      exact ⟨fun _ => trivial, fun _ => (decode_build wide built trivial).2.2 format⟩
    | S imm rs2 rs1 funct3 =>
      exact ⟨fun _ => trivial, fun _ => (decode_build wide built trivial).2.2 format⟩
    | B offset rs2 rs1 funct3 =>
      exact ⟨fun _ => trivial, fun _ => (decode_build wide built trivial).2.2 format⟩
    | U imm rd => exact decoded_U_iff wide built format.symm
    | J offset rd => exact decoded_J_iff wide built format.symm
  · rintro rd imm20 w (built | built)
    · exact decoded_upper wide (o := .lui) built rfl
    · exact decoded_upper wide (o := .auipc) built rfl

theorem builder_exact_iff_widths :
    (32 ≤ 32 ∧ ((Build.J 16#32 1#8).ImmOf (Decoder.decode 32 0x010000EF#32) ↔
      (Build.J 16#32 1#8).InRange)) ∧
    (32 ≤ 64 ∧ ((Build.U 0x12345678#32 10#8).ImmOf (Decoder.decode 64 0x12345537#32) ↔
      (Build.U 0x12345678#32 10#8).InRange)) :=
  ⟨⟨by decide, (builder_exact_iff (by decide)).1 _ .jal _ rfl (by decide)⟩,
    by decide, (builder_exact_iff (by decide)).1 _ .lui _ rfl (by decide)⟩

/-- JAL(1, 0x100000) jumps a megabyte back, and U drops the 0x123 that it is given. -/
theorem builders_truncate :
    (JAL 1#8 0x100000#32 = some 0x800000EF#32 ∧
      (0x100000#32).toInt = 0x100000 ∧ (Decoder.decode 32 0x800000EF#32).imm.toInt = -0x100000 ∧
      (Decoder.decode 64 0x800000EF#32).imm.toInt = -0x100000) ∧
    U 0x123#32 10#8 Opcode.lui.bits = some 0x00000537#32 ∧
      (0x123#32).toInt = 0x123 ∧ (Decoder.decode 32 0x00000537#32).imm.toInt = 0 := by
  decide

end XorOS.InstrBuilder
