import XorOS.Simulator.Mnemonics
import XorOS.Simulator.RoundTrip
import XorOS.Simulator.StepEffects

/- The texts of disassemble against what executeInstr does with the same words. -/
namespace XorOS.Disasm.Mnemonic
open ISA

def Fits (d : DecodedInstr 32) : Mnemonic → Prop
  | opImm f => Opcode.ofBits? d.opcode = some .opImm ∧ Funct3ALU.ofBits d.funct3 = f ∧
      (f = .srlSra → d.funct7 ≠ F7_ALT)
  | srai => Opcode.ofBits? d.opcode = some .opImm ∧ Funct3ALU.ofBits d.funct3 = .srlSra ∧
      d.funct7 = F7_ALT
  | op f => Opcode.ofBits? d.opcode = some .op ∧ d.funct7 ≠ F7_MEXT ∧
      Funct3ALU.ofBits d.funct3 = f ∧ (f = .addSub ∨ f = .srlSra → d.funct7 ≠ F7_ALT)
  | sub => Opcode.ofBits? d.opcode = some .op ∧ d.funct7 ≠ F7_MEXT ∧
      Funct3ALU.ofBits d.funct3 = .addSub ∧ d.funct7 = F7_ALT
  | sra => Opcode.ofBits? d.opcode = some .op ∧ d.funct7 ≠ F7_MEXT ∧
      Funct3ALU.ofBits d.funct3 = .srlSra ∧ d.funct7 = F7_ALT
  | mext f => Opcode.ofBits? d.opcode = some .op ∧ d.funct7 = F7_MEXT ∧
      Funct3MUL.ofBits d.funct3 = f
  | load f => Opcode.ofBits? d.opcode = some .load ∧ Funct3Load.ofBits? d.funct3 = some f
  | store f => Opcode.ofBits? d.opcode = some .store ∧ Funct3Store.ofBits? d.funct3 = some f
  | branch f => Opcode.ofBits? d.opcode = some .branch ∧ Funct3Branch.ofBits? d.funct3 = some f
  | lui => Opcode.ofBits? d.opcode = some .lui
  | auipc => Opcode.ofBits? d.opcode = some .auipc
  | jal => Opcode.ofBits? d.opcode = some .jal
  | jalr => Opcode.ofBits? d.opcode = some .jalr
  | ecall => Opcode.ofBits? d.opcode = some .system ∧ d.funct3 = 0#3 ∧ d.imm = 0#32
  | ebreak => Opcode.ofBits? d.opcode = some .system ∧ d.funct3 = 0#3 ∧ d.imm = 1#32
  | mret => Opcode.ofBits? d.opcode = some .system ∧ d.funct3 = 0#3 ∧ d.imm = 0x302#32
  | csr f => Opcode.ofBits? d.opcode = some .system ∧ Funct3CSR.ofBits? d.funct3 = some f
  | fence => Opcode.ofBits? d.opcode = some .miscMem
  | amo f => Opcode.ofBits? d.opcode = some .amo ∧
      Funct5AMO.ofBits? (RVModel.funct5 d) = some f

theorem fits_of_mnemonic {d : DecodedInstr 32} {k : Mnemonic} (which : mnemonic d = some k) :
    k.Fits d := by
  unfold mnemonic at which
  cases op : Opcode.ofBits? d.opcode with
  | none =>
    rw [op] at which
    cases which
  | some o =>
    rw [op] at which
    cases o with
    | opImm =>
      simp only [Option.some.injEq] at which
      subst which
      split
      · rename_i alt
        exact ⟨op, alt⟩
      · rename_i other
        exact ⟨op, rfl, fun shift alt => other ⟨shift, alt⟩⟩
    | op =>
      simp only [Option.some.injEq] at which
      subst which
      split
      · rename_i mext
        exact ⟨op, mext, rfl⟩
      rename_i base
      split
      · rename_i alt
        exact ⟨op, base, alt⟩
      rename_i notSub
      split
      · rename_i alt
        exact ⟨op, base, alt⟩
      · rename_i notSra
        refine ⟨op, base, rfl, fun which alt => ?_⟩
        rcases which with add | shift
        · exact notSub ⟨add, alt⟩
        · exact notSra ⟨shift, alt⟩
    | load =>
      obtain ⟨f, code, rfl⟩ := Option.map_eq_some_iff.mp which
      exact ⟨op, code⟩
    | store =>
      obtain ⟨f, code, rfl⟩ := Option.map_eq_some_iff.mp which
      exact ⟨op, code⟩
    | branch =>
      obtain ⟨f, code, rfl⟩ := Option.map_eq_some_iff.mp which
      exact ⟨op, code⟩
    | amo =>
      obtain ⟨f, code, rfl⟩ := Option.map_eq_some_iff.mp which
      exact ⟨op, code⟩
    | system =>
      simp only at which
      split at which
      · cases which
        rename_i bare
        exact ⟨op, bare⟩
      split at which
      · cases which
        rename_i bare
        exact ⟨op, bare⟩
      split at which
      · cases which
        rename_i bare
        exact ⟨op, bare⟩
      · obtain ⟨f, code, rfl⟩ := Option.map_eq_some_iff.mp which
        exact ⟨op, code⟩
    | _ =>
      cases which
      exact op

end XorOS.Disasm.Mnemonic

namespace XorOS.RVModel
open ISA Bits
variable {M : Type} [MemT 32 M] {d d' : DecodedInstr 32}

theorem opcode_unique {x y : BitVec 7} {o : Opcode} (hx : Opcode.ofBits? x = some o)
    (hy : Opcode.ofBits? y = some o) : x = y := by
  have same := (InstrBuilder.widen_opcode hx).trans (InstrBuilder.widen_opcode hy).symm
  have numbers := congrArg BitVec.toNat same
  rw [InstrBuilder.toNat_widen8 (by omega), InstrBuilder.toNat_widen8 (by omega)] at numbers
  exact BitVec.eq_of_toNat_eq numbers

theorem shamt_decode {w : WordT} (op : Opcode.ofBits? (getOpcode w) = some .opImm) :
    (Decoder.decode 32 w).imm &&& uword (32 - 1) = (getRs2 w).setWidth 32 := by
  have packs := InstrBuilder.packs_self w
  have value := packs.toInt_decodeImmI (by decide : 12 ≤ 32)
  have imm : Decoder.decodeImm 32 w = _ := InstrBuilder.decodeImm_format op
  simp only [Opcode.format] at imm
  have small := packs.rs2_lt
  have large := packs.funct7_lt
  have low : IntHart.signed 12 ((getFunct7 w).toNat * 32 + (getRs2 w).toNat : Nat) % 2 ^ 12 =
      ((getFunct7 w).toNat * 32 + (getRs2 w).toNat : Nat) :=
    IntHart.signed_emod (by omega) (by omega)
  have mask : (decodeImmI 32 w &&& BitVec.ofNat 32 (2 ^ 5 - 1)).toNat =
      (decodeImmI 32 w).toNat % 2 ^ 5 := toNat_and_mask (by omega) _
  have view := BitVec.toInt_eq_toNat_cond (decodeImmI 32 w)
  change Decoder.decodeImm 32 w &&& uword (32 - 1) = _
  rw [imm]
  apply BitVec.eq_of_toNat_eq
  rw [BitVec.toNat_setWidth, Nat.mod_eq_of_lt (by omega)]
  refine mask.trans ?_
  rw [← value] at low
  split at view
  · omega
  · omega

theorem execute_shift {op : ALU.Op} (shift : op = .SLL ∨ op = .SRL ∨ op = .SRA)
    (a : BitVec 32) {b b' : BitVec 32} (same : b &&& uword (32 - 1) = b' &&& uword (32 - 1)) :
    ALU.execute op a b = ALU.execute op a b' := by
  unfold ALU.execute
  rcases shift with rfl | rfl | rfl
  · simp only [same]
  · simp only [same]
  · simp only [same]

section Congr
variable (s : RVModel 32) (m : M)

theorem executeLoad_congr (op : d.opcode = d'.opcode)
    (f3 : Funct3Load.ofBits? d.funct3 = Funct3Load.ofBits? d'.funct3) (rd : d.rd = d'.rd)
    (rs1 : d.rs1 = d'.rs1) (imm : d.imm = d'.imm) : s.executeLoad d m = s.executeLoad d' m := by
  unfold executeLoad
  rw [op, f3, rd, rs1, imm]

theorem executeStore_congr (op : d.opcode = d'.opcode)
    (f3 : Funct3Store.ofBits? d.funct3 = Funct3Store.ofBits? d'.funct3) (rs2 : d.rs2 = d'.rs2)
    (rs1 : d.rs1 = d'.rs1) (imm : d.imm = d'.imm) : s.executeStore d m = s.executeStore d' m := by
  unfold executeStore
  rw [op, f3, rs2, rs1, imm]

theorem executeAMO_congr (op : d.opcode = d'.opcode) {f : Funct5AMO}
    (code : Funct5AMO.ofBits? (funct5 d) = some f) (code' : Funct5AMO.ofBits? (funct5 d') = some f)
    (rd : d.rd = d'.rd) (rs1 : d.rs1 = d'.rs1) (rs2 : f = .lr ∨ d.rs2 = d'.rs2) :
    s.executeAMO d m = s.executeAMO d' m := by
  unfold executeAMO
  rw [code, code', op, rs1]
  rcases rs2 with rfl | rs2
  · simp only [executeLR, rd]
  · simp only [executeLR, executeSC, executeAMOrmw, rd, rs2, op]

theorem executeBranch_congr (op : d.opcode = d'.opcode)
    (f3 : Funct3Branch.ofBits? d.funct3 = Funct3Branch.ofBits? d'.funct3) (rs1 : d.rs1 = d'.rs1)
    (rs2 : d.rs2 = d'.rs2) (imm : d.imm = d'.imm) : s.executeBranch d = s.executeBranch d' := by
  unfold executeBranch illegalInsn
  rw [op, f3, rs1, rs2, imm]

theorem executeJALR_congr (rd : d.rd = d'.rd) (rs1 : d.rs1 = d'.rs1) (imm : d.imm = d'.imm) :
    s.executeJALR d = s.executeJALR d' := by
  unfold executeJALR
  rw [rd, rs1, imm]

theorem executeOpImm_congr (rd : d.rd = d'.rd)
    (result : opImmResult d (s.regs.get d.rs1) d.imm = opImmResult d' (s.regs.get d'.rs1) d'.imm) :
    s.executeOpImm d = s.executeOpImm d' := by
  unfold executeOpImm
  rw [rd, result]

theorem executeMext_congr (op : d.opcode = d'.opcode) (f7 : d.funct7 = F7_MEXT)
    (f7' : d'.funct7 = F7_MEXT) (f3 : Funct3MUL.ofBits d.funct3 = Funct3MUL.ofBits d'.funct3)
    (rd : d.rd = d'.rd) (rs1 : d.rs1 = d'.rs1) (rs2 : d.rs2 = d'.rs2) :
    s.executeOp d = s.executeOp d' := by
  unfold executeOp illegalInsn
  simp only
  rw [if_pos f7, if_pos f7', op, f3, rd, rs1, rs2]

theorem executeOp_congr (f7 : d.funct7 ≠ F7_MEXT) (f7' : d'.funct7 ≠ F7_MEXT)
    (alu : aluOp d = aluOp d') (rd : d.rd = d'.rd) (rs1 : d.rs1 = d'.rs1) (rs2 : d.rs2 = d'.rs2) :
    s.executeOp d = s.executeOp d' := by
  unfold executeOp
  simp only
  rw [if_neg f7, if_neg f7', alu, rd, rs1, rs2]

theorem executeSystem_congr (f3 : d.funct3 = 0#3) (f3' : d'.funct3 = 0#3) (imm : d.imm = d'.imm) :
    s.executeSystem d = s.executeSystem d' := by
  unfold executeSystem
  rw [if_pos f3, if_pos f3', imm]

theorem executeCSR_congr {f : Funct3CSR} (code : Funct3CSR.ofBits? d.funct3 = some f)
    (code' : Funct3CSR.ofBits? d'.funct3 = some f) (rd : d.rd = d'.rd) (rs1 : d.rs1 = d'.rs1)
    (addr : (d.imm &&& uword 0xFFF).setWidth 12 = (d'.imm &&& uword 0xFFF).setWidth 12) :
    s.executeSystem d = s.executeSystem d' := by
  have nonzero {b : BitVec 3} (code : Funct3CSR.ofBits? b = some f) : b ≠ 0#3 := by
    rintro rfl
    cases code
  unfold executeSystem executeCSR
  rw [if_neg (nonzero code), if_neg (nonzero code'), code, code', rd, rs1]
  simp only [uword] at addr
  rw [addr]

end Congr

theorem aluOp_congr {f : Funct3ALU} (f3 : Funct3ALU.ofBits d.funct3 = f)
    (f3' : Funct3ALU.ofBits d'.funct3 = f)
    (alt : f = .addSub ∨ f = .srlSra → (d.funct7 = F7_ALT ↔ d'.funct7 = F7_ALT)) :
    aluOp d = aluOp d' := by
  unfold aluOp
  rw [f3, f3']
  cases f with
  | addSub => simp only [alt (.inl rfl)]
  | srlSra => simp only [alt (.inr rfl)]
  | _ => rfl

section Words
open Disasm
variable {w w' : WordT}

def Arithmetic (w : WordT) : Prop := getFunct7 w &&& 0b00100000#7 ≠ 0#7

instance (w : WordT) : Decidable (Arithmetic w) := inferInstanceAs (Decidable (_ ≠ _))

def rightShift (w : WordT) : ALU.Op := if Arithmetic w then .SRA else .SRL

theorem rightShift_cases (w : WordT) : rightShift w = .SRL ∨ rightShift w = .SRA := by
  unfold rightShift
  split
  · exact .inr rfl
  · exact .inl rfl

theorem opImm_shift_congr {alu : ALU.Op} (shift : alu = .SLL ∨ alu = .SRL ∨ alu = .SRA)
    (op : Opcode.ofBits? (getOpcode w) = some .opImm)
    (op' : Opcode.ofBits? (getOpcode w') = some .opImm)
    (result : ∀ a b : BitVec 32, opImmResult (Decoder.decode 32 w) a b = ALU.execute alu a b)
    (result' : ∀ a b : BitVec 32, opImmResult (Decoder.decode 32 w') a b = ALU.execute alu a b)
    (rd : getRd w = getRd w') (rs1 : getRs1 w = getRs1 w') (shamt : getRs2 w = getRs2 w')
    (s : RVModel 32) :
    s.executeOpImm (Decoder.decode 32 w) = s.executeOpImm (Decoder.decode 32 w') := by
  have from1 : (Decoder.decode 32 w).rs1 = (Decoder.decode 32 w').rs1 := rs1
  have amount : (Decoder.decode 32 w).imm &&& uword (32 - 1) =
      (Decoder.decode 32 w').imm &&& uword (32 - 1) := by
    rw [shamt_decode op, shamt_decode op', shamt]
  refine executeOpImm_congr s rd ?_
  rw [result, result', from1]
  exact execute_shift shift _ amount

theorem opImmResult_right (f3 : Funct3ALU.ofBits (getFunct3 w) = .srlSra) (a b : BitVec 32) :
    opImmResult (Decoder.decode 32 w) a b = ALU.execute (rightShift w) a b := by
  have code : Funct3ALU.ofBits (Decoder.decode 32 w).funct3 = .srlSra := f3
  unfold opImmResult
  rw [code]
  rfl

theorem execute_right_zero {op : ALU.Op} (right : op = .SRL ∨ op = .SRA) (b : BitVec 32) :
    ALU.execute op 0#32 b = 0#32 := by
  unfold ALU.execute
  rcases right with rfl | rfl
  · simp
  · simp [BitVec.sshiftRight_eq']

theorem execute_right_none {op : ALU.Op} (right : op = .SRL ∨ op = .SRA) (a : BitVec 32)
    {b : BitVec 32} (none : b &&& uword (32 - 1) = 0#32) : ALU.execute op a b = a := by
  unfold ALU.execute
  rcases right with rfl | rfl
  · simp [none]
  · simp [none, BitVec.sshiftRight_eq']

/-- Two right shifts of a register by the same immediate, where they make no difference. -/
theorem srli_congr (op : Opcode.ofBits? (getOpcode w) = some .opImm)
    (op' : Opcode.ofBits? (getOpcode w') = some .opImm)
    (f3 : Funct3ALU.ofBits (getFunct3 w) = .srlSra)
    (f3' : Funct3ALU.ofBits (getFunct3 w') = .srlSra)
    (rd : getRd w = getRd w') (rs1 : getRs1 w = getRs1 w') (shamt : getRs2 w = getRs2 w')
    (harmless : (Arithmetic w ↔ Arithmetic w') ∨ getRd w = 0#5 ∨ getRs1 w = 0#5 ∨ getRs2 w = 0#5)
    (s : RVModel 32) :
    s.executeOpImm (Decoder.decode 32 w) = s.executeOpImm (Decoder.decode 32 w') := by
  have fieldD (v : WordT) : (Decoder.decode 32 v).rd = getRd v := rfl
  have field1 (v : WordT) : (Decoder.decode 32 v).rs1 = getRs1 v := rfl
  rcases harmless with same | zero | zero | zero
  · refine opImm_shift_congr (.inr (rightShift_cases w)) op op' (opImmResult_right f3) ?_ rd rs1
      shamt s
    intro a b
    rw [opImmResult_right f3']
    unfold rightShift
    simp only [same]
  · unfold executeOpImm setReg RegisterFile.set
    rw [if_pos ((fieldD w).trans zero), if_pos ((fieldD w').trans (rd.symm.trans zero))]
  · refine executeOpImm_congr s rd ?_
    have value (v : WordT) (source : getRs1 v = 0#5) :
        s.regs.get (Decoder.decode 32 v).rs1 = 0#32 := by
      unfold RegisterFile.get
      rw [if_pos ((field1 v).trans source)]
    rw [opImmResult_right f3, opImmResult_right f3', value w zero, value w' (rs1 ▸ zero),
      execute_right_zero (rightShift_cases w), execute_right_zero (rightShift_cases w')]
  · refine executeOpImm_congr s rd ?_
    have none : (0#5).setWidth 32 = 0#32 := rfl
    rw [opImmResult_right f3, opImmResult_right f3', field1, field1, rs1,
      execute_right_none (rightShift_cases w) _ (by rw [shamt_decode op, zero, none]),
      execute_right_none (rightShift_cases w') _ (by rw [shamt_decode op', ← shamt, zero, none])]

theorem upper_injective {o : Opcode} (format : o.format = .U)
    (op : Opcode.ofBits? (getOpcode w) = some o) (op' : Opcode.ofBits? (getOpcode w') = some o)
    (same : toString ((Decoder.decode 32 w).imm.sshiftRight 12).toInt =
      toString ((Decoder.decode 32 w').imm.sshiftRight 12).toInt) :
    (Decoder.decode 32 w).imm = (Decoder.decode 32 w').imm := by
  have clear {v : WordT} (op : Opcode.ofBits? (getOpcode v) = some o) :
      (Decoder.decode 32 v).imm.toInt % 2 ^ 12 = 0 := by
    have imm : Decoder.decodeImm 32 v = _ := InstrBuilder.decodeImm_format op
    rw [format] at imm
    simp only at imm
    have upper : (decodeImmU v).toNat = v.toNat - v.toNat % 2 ^ 12 :=
      toNat_and_not_mask (w := 32) (k := 12) (by omega) v
    have view := BitVec.toInt_eq_toNat_cond (decodeImmU v)
    change (Decoder.decodeImm 32 v).toInt % 2 ^ 12 = 0
    rw [imm, BitVec.toInt_signExtend_of_le (by omega)]
    split at view
    · omega
    · omega
  have quotients := Int.repr_injective same
  rw [BitVec.toInt_sshiftRight, BitVec.toInt_sshiftRight, Int.shiftRight_eq_div_pow,
    Int.shiftRight_eq_div_pow] at quotients
  have low := clear op
  have low' := clear op'
  apply BitVec.toInt_inj.mp
  omega

theorem registers_injective {a b c a' b' c' : BitVec 5}
    (same : [regName a, regName b, regName c] = [regName a', regName b', regName c']) :
    a = a' ∧ b = b' ∧ c = c' := by
  simp only [List.cons.injEq, and_true] at same
  obtain ⟨first, second, third⟩ := same
  exact ⟨regName_injective first, regName_injective second, regName_injective third⟩

theorem executeInstr_op {f : Funct3ALU} (op : Opcode.ofBits? d.opcode = some .op)
    (op' : Opcode.ofBits? d'.opcode = some .op) (base : d.funct7 ≠ F7_MEXT)
    (base' : d'.funct7 ≠ F7_MEXT) (f3 : Funct3ALU.ofBits d.funct3 = f)
    (f3' : Funct3ALU.ofBits d'.funct3 = f)
    (alt : f = .addSub ∨ f = .srlSra → (d.funct7 = F7_ALT ↔ d'.funct7 = F7_ALT))
    (same : [regName d.rd, regName d.rs1, regName d.rs2] =
      [regName d'.rd, regName d'.rs1, regName d'.rs2]) (s : RVModel 32) (m : M) :
    s.executeInstr d m = s.executeInstr d' m := by
  obtain ⟨rd, rs1, rs2⟩ := registers_injective same
  unfold executeInstr
  simp only [op, op']
  rw [executeOp_congr s base base' (aluOp_congr f3 f3' alt) rd rs1 rs2]

theorem executeInstr_system (op : Opcode.ofBits? d.opcode = some .system)
    (op' : Opcode.ofBits? d'.opcode = some .system) (f3 : d.funct3 = 0#3) (f3' : d'.funct3 = 0#3)
    (imm : d.imm = d'.imm) (s : RVModel 32) (m : M) :
    s.executeInstr d m = s.executeInstr d' m := by
  unfold executeInstr
  simp only [op, op']
  rw [executeSystem_congr s f3 f3' imm]

/-- One mnemonic with the same operands has one effect, right shifts aside. -/
theorem executeInstr_congr {k : Mnemonic} (fits : k.Fits (Decoder.decode 32 w))
    (fits' : k.Fits (Decoder.decode 32 w'))
    (same : operands (Decoder.decode 32 w) k = operands (Decoder.decode 32 w') k)
    (shift : k = .opImm .srlSra → ∀ s : RVModel 32,
      s.executeOpImm (Decoder.decode 32 w) = s.executeOpImm (Decoder.decode 32 w'))
    (s : RVModel 32) (m : M) :
    s.executeInstr (Decoder.decode 32 w) m = s.executeInstr (Decoder.decode 32 w') m := by
  unfold executeInstr
  cases k with
  | opImm f =>
    obtain ⟨op, f3, alt⟩ := fits
    obtain ⟨op', f3', alt'⟩ := fits'
    simp only [op, op']
    cases f with
    | srlSra => rw [shift rfl s]
    | sll =>
      simp only [operands, List.cons.injEq, and_true] at same
      obtain ⟨rd, rs1, shamt⟩ := same
      rw [opImm_shift_congr (.inl rfl) op op' (fun a b => by simp only [opImmResult, f3])
        (fun a b => by simp only [opImmResult, f3']) (regName_injective rd) (regName_injective rs1)
        (natText_injective shamt) s]
    | _ =>
      simp only [operands, List.cons.injEq, and_true] at same
      obtain ⟨rd, rs1, imm⟩ := same
      rw [executeOpImm_congr s (regName_injective rd)]
      simp only [opImmResult, f3, f3', regName_injective rs1, immText_injective imm]
  | srai =>
    obtain ⟨op, f3, alt⟩ := fits
    obtain ⟨op', f3', alt'⟩ := fits'
    simp only [op, op']
    simp only [operands, List.cons.injEq, and_true] at same
    obtain ⟨rd, rs1, shamt⟩ := same
    have arithmetic {v : WordT} (alt : (Decoder.decode 32 v).funct7 = F7_ALT) : Arithmetic v := by
      have field : getFunct7 v = F7_ALT := alt
      unfold Arithmetic
      rw [field]
      decide
    rw [srli_congr op op' f3 f3' (regName_injective rd) (regName_injective rs1)
      (natText_injective shamt) (.inl (iff_of_true (arithmetic alt) (arithmetic alt'))) s]
  | op f =>
    obtain ⟨op, base, f3, alt⟩ := fits
    obtain ⟨op', base', f3', alt'⟩ := fits'
    exact executeInstr_op op op' base base' f3 f3'
      (fun which => iff_of_false (alt which) (alt' which)) same s m
  | sub =>
    obtain ⟨op, base, f3, alt⟩ := fits
    obtain ⟨op', base', f3', alt'⟩ := fits'
    exact executeInstr_op op op' base base' f3 f3' (fun _ => iff_of_true alt alt') same s m
  | sra =>
    obtain ⟨op, base, f3, alt⟩ := fits
    obtain ⟨op', base', f3', alt'⟩ := fits'
    exact executeInstr_op op op' base base' f3 f3' (fun _ => iff_of_true alt alt') same s m
  | mext f =>
    obtain ⟨op, mext, f3⟩ := fits
    obtain ⟨op', mext', f3'⟩ := fits'
    obtain ⟨rd, rs1, rs2⟩ := registers_injective same
    simp only [op, op']
    rw [executeMext_congr s (opcode_unique op op') mext mext' (f3.trans f3'.symm) rd rs1 rs2]
  | load f =>
    obtain ⟨op, f3⟩ := fits
    obtain ⟨op', f3'⟩ := fits'
    simp only [operands, List.cons.injEq, and_true] at same
    obtain ⟨rd, offset⟩ := same
    obtain ⟨imm, rs1⟩ := offsetText_injective offset
    simp only [op, op']
    rw [executeLoad_congr s m (opcode_unique op op') (f3.trans f3'.symm) (regName_injective rd)
      rs1 imm]
  | store f =>
    obtain ⟨op, f3⟩ := fits
    obtain ⟨op', f3'⟩ := fits'
    simp only [operands, List.cons.injEq, and_true] at same
    obtain ⟨rs2, offset⟩ := same
    obtain ⟨imm, rs1⟩ := offsetText_injective offset
    simp only [op, op']
    rw [executeStore_congr s m (opcode_unique op op') (f3.trans f3'.symm) (regName_injective rs2)
      rs1 imm]
  | branch f =>
    obtain ⟨op, f3⟩ := fits
    obtain ⟨op', f3'⟩ := fits'
    simp only [operands, List.cons.injEq, and_true] at same
    obtain ⟨rs1, rs2, imm⟩ := same
    simp only [op, op']
    rw [executeBranch_congr s (opcode_unique op op') (f3.trans f3'.symm) (regName_injective rs1)
      (regName_injective rs2) (immText_injective imm)]
  | lui =>
    simp only [operands, List.cons.injEq, and_true] at same
    obtain ⟨rd, imm⟩ := same
    simp only [show Opcode.ofBits? (Decoder.decode 32 w).opcode = some .lui from fits,
      show Opcode.ofBits? (Decoder.decode 32 w').opcode = some .lui from fits',
      regName_injective rd, upper_injective rfl fits fits' imm]
  | auipc =>
    simp only [operands, List.cons.injEq, and_true] at same
    obtain ⟨rd, imm⟩ := same
    simp only [show Opcode.ofBits? (Decoder.decode 32 w).opcode = some .auipc from fits,
      show Opcode.ofBits? (Decoder.decode 32 w').opcode = some .auipc from fits',
      regName_injective rd, upper_injective rfl fits fits' imm]
  | jal =>
    simp only [operands, List.cons.injEq, and_true] at same
    obtain ⟨rd, imm⟩ := same
    simp only [show Opcode.ofBits? (Decoder.decode 32 w).opcode = some .jal from fits,
      show Opcode.ofBits? (Decoder.decode 32 w').opcode = some .jal from fits', executeJAL,
      regName_injective rd, immText_injective imm]
  | jalr =>
    simp only [operands, List.cons.injEq, and_true] at same
    obtain ⟨rd, rs1, imm⟩ := same
    simp only [show Opcode.ofBits? (Decoder.decode 32 w).opcode = some .jalr from fits,
      show Opcode.ofBits? (Decoder.decode 32 w').opcode = some .jalr from fits']
    rw [executeJALR_congr s (regName_injective rd) (regName_injective rs1) (immText_injective imm)]
  | ecall =>
    obtain ⟨op, f3, imm⟩ := fits
    obtain ⟨op', f3', imm'⟩ := fits'
    exact executeInstr_system op op' f3 f3' (imm.trans imm'.symm) s m
  | ebreak =>
    obtain ⟨op, f3, imm⟩ := fits
    obtain ⟨op', f3', imm'⟩ := fits'
    exact executeInstr_system op op' f3 f3' (imm.trans imm'.symm) s m
  | mret =>
    obtain ⟨op, f3, imm⟩ := fits
    obtain ⟨op', f3', imm'⟩ := fits'
    exact executeInstr_system op op' f3 f3' (imm.trans imm'.symm) s m
  | csr f =>
    obtain ⟨op, f3⟩ := fits
    obtain ⟨op', f3'⟩ := fits'
    simp only [operands, List.cons.injEq, and_true] at same
    obtain ⟨rd, name, arg⟩ := same
    simp only [op, op']
    rw [executeCSR_congr s f3 f3' (regName_injective rd) (csrArg_injective arg)
      (csrName_injective name)]
  | fence =>
    simp only [show Opcode.ofBits? (Decoder.decode 32 w).opcode = some .miscMem from fits,
      show Opcode.ofBits? (Decoder.decode 32 w').opcode = some .miscMem from fits']
  | amo f =>
    obtain ⟨op, code⟩ := fits
    obtain ⟨op', code'⟩ := fits'
    simp only [op, op']
    cases f with
    | lr =>
      simp only [operands, List.cons.injEq, and_true] at same
      obtain ⟨rd, pointer⟩ := same
      rw [executeAMO_congr s m (opcode_unique op op') code code' (regName_injective rd)
        (pointerText_injective pointer) (.inl rfl)]
    | _ =>
      simp only [operands, List.cons.injEq, and_true] at same
      obtain ⟨rd, rs2, pointer⟩ := same
      rw [executeAMO_congr s m (opcode_unique op op') code code' (regName_injective rd)
        (pointerText_injective pointer) (.inr (regName_injective rs2))]

/-- The instruction has been executed: no exception, no trap, no halt. -/
def Executes (s : RVModel 32) (r : Except Exn Bool × RVModel 32 × M) : Prop :=
  match r with
  | (.ok _, s', _) => s'.trapCount = s.trapCount ∧ s'.halted = false
  | (.error _, _, _) => False

omit [MemT 32 M] in
theorem not_executes_trap (s : RVModel 32) (cause tval : BitVec 32) (m : M) :
    ¬Executes s (.ok true, s.fireTrap cause tval, m) := by
  rintro ⟨count, _⟩
  have fired : (s.fireTrap cause tval).trapCount = s.trapCount + 1 := (trap_cases rfl).1
  omega

def IsSfence (w : WordT) : Prop :=
  Opcode.ofBits? (getOpcode w) = some .system ∧ getFunct3 w = 0#3 ∧
    decodeImmI 32 w &&& 0xFE0#32 = 0x120#32

theorem sfence_executes (sfence : IsSfence w) : mnemonic (Decoder.decode 32 w) = none ∧
    ∀ (s : RVModel 32) (m : M), s.executeInstr (Decoder.decode 32 w) m = (.ok false, s, m) := by
  obtain ⟨op, f3, code⟩ := sfence
  have opcode : (Decoder.decode 32 w).opcode = getOpcode w := rfl
  have funct3 : (Decoder.decode 32 w).funct3 = getFunct3 w := rfl
  have imm : (Decoder.decode 32 w).imm = Decoder.decodeImm 32 w := rfl
  have format : Decoder.decodeImm 32 w = _ := InstrBuilder.decodeImm_format op
  simp only [Opcode.format] at format
  have other {c : BitVec 32} (differs : c &&& 0xFE0#32 ≠ 0x120#32) : decodeImmI 32 w ≠ c := by
    rintro rfl
    exact differs code
  constructor
  · unfold mnemonic
    simp only [opcode, op, funct3, f3, imm, format, other (c := 0#32) (by decide),
      other (c := 1#32) (by decide), other (c := 0x302#32) (by decide)]
    rfl
  · intro s m
    unfold executeInstr executeSystem
    simp only [opcode, op, funct3, f3, imm, format, other (c := 0#32) (by decide),
      other (c := 0x302#32) (by decide), code, if_true, if_false]

theorem executeLoad_unknown {s : RVModel 32} {d : DecodedInstr 32} {m : M}
    (f3 : Funct3Load.ofBits? d.funct3 = none) :
    ∃ cause tval m', s.executeLoad d m = (true, s.fireTrap cause tval, m') := by
  unfold executeLoad
  simp only [f3]
  rcases translateAddr_effect s (s.regs.get d.rs1 + d.imm) .load m with ⟨pa, m', eq⟩ | ⟨m', eq⟩
  · rw [eq]
    exact ⟨_, _, m', rfl⟩
  · rw [eq]
    exact ⟨_, _, m', rfl⟩

theorem executeStore_unknown {s : RVModel 32} {d : DecodedInstr 32} {m : M}
    (f3 : Funct3Store.ofBits? d.funct3 = none) :
    ∃ cause tval m', s.executeStore d m = (true, s.fireTrap cause tval, m') := by
  unfold executeStore
  simp only [f3]
  rcases translateAddr_effect s (s.regs.get d.rs1 + d.imm) .store m with ⟨pa, m', eq⟩ | ⟨m', eq⟩
  · rw [eq]
    exact ⟨_, _, m', rfl⟩
  · rw [eq]
    exact ⟨_, _, m', rfl⟩

theorem executeAMO_unknown {s : RVModel 32} {d : DecodedInstr 32} {m : M}
    (code : Funct5AMO.ofBits? (funct5 d) = none) :
    (∃ e m', s.executeAMO d m = (.error e, s, m')) ∨
      ∃ cause tval m', s.executeAMO d m = (.ok true, s.fireTrap cause tval, m') := by
  unfold executeAMO
  simp only [code]
  split
  · exact .inr ⟨_, _, m, rfl⟩
  split
  · exact .inr ⟨_, _, m, rfl⟩
  rcases translateAddr_effect s (s.regs.get d.rs1) .store m with ⟨pa, m', eq⟩ | ⟨m', eq⟩
  · rw [eq]
    unfold executeAMOrmw
    simp only
    split
    · exact .inl ⟨_, _, rfl⟩
    · exact .inr ⟨_, _, _, rfl⟩
  · rw [eq]
    exact .inr ⟨_, _, m', rfl⟩

theorem executeSystem_unknown {s : RVModel 32} {d : DecodedInstr 32}
    (bare : d.funct3 = 0#3 → d.imm ≠ 0x302#32 ∧ d.imm &&& 0xFE0#32 ≠ 0x120#32)
    (f3 : Funct3CSR.ofBits? d.funct3 = none) :
    s.executeSystem d = (false, s.halt) ∨
      ∃ cause tval, s.executeSystem d = (true, s.fireTrap cause tval) := by
  unfold executeSystem
  split
  · rename_i zero
    obtain ⟨mret, sfence⟩ := bare zero
    split
    · exact .inr ⟨_, _, rfl⟩
    · exact .inl rfl
  · unfold executeCSR illegalInsn
    simp only [f3]
    split
    · exact .inr ⟨_, _, rfl⟩
    · exact .inr ⟨_, _, rfl⟩

/-- Every word without a mnemonic but SFENCE.VMA traps, halts or throws. -/
theorem unknown_stops (unknown : mnemonic (Decoder.decode 32 w) = none) (other : ¬IsSfence w)
    (s : RVModel 32) (m : M) : ¬Executes s (s.executeInstr (Decoder.decode 32 w) m) := by
  unfold mnemonic at unknown
  unfold executeInstr
  cases op : Opcode.ofBits? (Decoder.decode 32 w).opcode with
  | none =>
    unfold executeIllegal
    simp only
    split
    · exact not_executes_trap s _ _ m
    · exact not_false
  | some o =>
    rw [op] at unknown
    cases o with
    | load =>
      obtain ⟨cause, tval, m', eq⟩ :=
        executeLoad_unknown (s := s) (m := m) (Option.map_eq_none_iff.mp unknown)
      simp only [eq]
      exact not_executes_trap s _ _ m'
    | store =>
      obtain ⟨cause, tval, m', eq⟩ :=
        executeStore_unknown (s := s) (m := m) (Option.map_eq_none_iff.mp unknown)
      simp only [eq]
      exact not_executes_trap s _ _ m'
    | branch =>
      have f3 := Option.map_eq_none_iff.mp unknown
      simp only [executeBranch, f3]
      exact not_executes_trap s _ _ m
    | amo =>
      rcases executeAMO_unknown (s := s) (m := m) (Option.map_eq_none_iff.mp unknown) with
        ⟨e, m', eq⟩ | ⟨cause, tval, m', eq⟩
      · simp only [eq]
        exact not_false
      · simp only [eq]
        exact not_executes_trap s _ _ m'
    | system =>
      simp only at unknown
      split at unknown
      · cases unknown
      split at unknown
      · cases unknown
      split at unknown
      · cases unknown
      rename_i notMret
      have imm : Decoder.decodeImm 32 w = _ := InstrBuilder.decodeImm_format op
      simp only [Opcode.format] at imm
      have bare (zero : (Decoder.decode 32 w).funct3 = 0#3) :
          (Decoder.decode 32 w).imm ≠ 0x302#32 ∧
            (Decoder.decode 32 w).imm &&& 0xFE0#32 ≠ 0x120#32 := by
        refine ⟨fun mret => notMret ⟨zero, mret⟩, fun code => other ⟨op, zero, ?_⟩⟩
        rw [← imm]
        exact code
      rcases executeSystem_unknown (s := s) bare (Option.map_eq_none_iff.mp unknown) with
        eq | ⟨cause, tval, eq⟩
      · simp only [eq]
        rintro ⟨_, running⟩
        cases running
      · simp only [eq]
        exact not_executes_trap s _ _ m
    | _ => cases unknown

/-- Two right shifts with one text, of which one is arithmetic, where it matters. -/
structure Clash (w w' : WordT) : Prop where
  opcode : Opcode.ofBits? (getOpcode w) = some .opImm ∧ Opcode.ofBits? (getOpcode w') = some .opImm
  funct3 : getFunct3 w = 0b101#3 ∧ getFunct3 w' = 0b101#3
  funct7 : getFunct7 w ≠ F7_ALT ∧ getFunct7 w' ≠ F7_ALT
  rd : getRd w = getRd w' ∧ getRd w ≠ 0#5
  rs1 : getRs1 w = getRs1 w' ∧ getRs1 w ≠ 0#5
  shamt : getRs2 w = getRs2 w' ∧ getRs2 w ≠ 0#5
  differ : ¬(Arithmetic w ↔ Arithmetic w')

theorem msb_right {b : BitVec 32} (some : b &&& uword (32 - 1) ≠ 0#32) :
    (ALU.execute (rightShift w) 0x80000000#32 b).msb = decide (Arithmetic w) := by
  have positive : 0 < (b &&& uword (32 - 1)).toNat := by
    by_contra zero
    exact some (BitVec.eq_of_toNat_eq (Nat.eq_zero_of_not_pos zero))
  unfold rightShift ALU.execute
  by_cases arithmetic : Arithmetic w
  · simp only [arithmetic, if_true, BitVec.sshiftRight_eq', BitVec.msb_sshiftRight]
    rfl
  · simp only [arithmetic, if_false, BitVec.ushiftRight_eq', BitVec.msb_ushiftRight, positive]
    rfl

theorem executeInstr_right (op : Opcode.ofBits? (getOpcode w) = some .opImm)
    (f3 : getFunct3 w = 0b101#3) (rd : getRd w ≠ 0#5) (shamt : getRs2 w ≠ 0#5) {s : RVModel 32}
    (negative : s.regs.get (getRs1 w) = 0x80000000#32) (m : M) :
    ((s.executeInstr (Decoder.decode 32 w) m).2.1.regs.get (getRd w)).msb =
      decide (Arithmetic w) := by
  have opcode : Opcode.ofBits? (Decoder.decode 32 w).opcode = some .opImm := op
  have code : Funct3ALU.ofBits (getFunct3 w) = .srlSra := by
    rw [f3]
    rfl
  have amount : (Decoder.decode 32 w).imm &&& uword (32 - 1) ≠ 0#32 := by
    rw [shamt_decode op]
    intro zero
    have numbers := congrArg BitVec.toNat zero
    rw [BitVec.toNat_setWidth, Nat.mod_eq_of_lt (by omega)] at numbers
    exact shamt (BitVec.eq_of_toNat_eq numbers)
  have source : s.regs.get (Decoder.decode 32 w).rs1 = 0x80000000#32 := negative
  have target : (Decoder.decode 32 w).rd = getRd w := rfl
  unfold executeInstr executeOpImm
  simp only [opcode]
  rw [opImmResult_right code, source, target]
  unfold setReg
  simp only
  rw [RegisterFile.get_set_self _ _ rd, msb_right amount]

/-- A state in which two clashing shifts differ. -/
theorem clash_differs [Inhabited M] (clash : Clash w w') :
    ¬∀ (s : RVModel 32) (m : M),
      s.executeInstr (Decoder.decode 32 w) m = s.executeInstr (Decoder.decode 32 w') m := by
  intro same
  obtain ⟨op, op'⟩ := clash.opcode
  obtain ⟨f3, f3'⟩ := clash.funct3
  obtain ⟨rd, rdUsed⟩ := clash.rd
  obtain ⟨rs1, rs1Used⟩ := clash.rs1
  obtain ⟨shamt, shifted⟩ := clash.shamt
  have both := same { RVModel.new ⟨0#32⟩ with
    regs := RegisterFile.new.set (getRs1 w) 0x80000000#32 } default
  have negative : (RegisterFile.new.set (getRs1 w) 0x80000000#32).get (getRs1 w) = 0x80000000#32 :=
    RegisterFile.get_set_self _ _ rs1Used
  have first := executeInstr_right op f3 rdUsed shifted (s := { RVModel.new ⟨0#32⟩ with
    regs := RegisterFile.new.set (getRs1 w) 0x80000000#32 }) negative (default : M)
  rw [rs1] at negative
  have second := executeInstr_right op' f3' (rd ▸ rdUsed) (shamt ▸ shifted)
    (s := { RVModel.new ⟨0#32⟩ with
      regs := RegisterFile.new.set (getRs1 w) 0x80000000#32 }) (by rwa [rs1]) (default : M)
  rw [both, rd, second] at first
  exact clash.differ (decide_eq_decide.mp first).symm

theorem clash_text (clash : Clash w w') :
    mnemonic (Decoder.decode 32 w) = some (.opImm .srlSra) ∧
      disassemble (Decoder.decode 32 w) = disassemble (Decoder.decode 32 w') := by
  have which (v : WordT) (op : Opcode.ofBits? (getOpcode v) = some .opImm)
      (f3 : getFunct3 v = 0b101#3) (f7 : getFunct7 v ≠ F7_ALT) :
      mnemonic (Decoder.decode 32 v) = some (.opImm .srlSra) := by
    have opcode : (Decoder.decode 32 v).opcode = getOpcode v := rfl
    have funct3 : (Decoder.decode 32 v).funct3 = getFunct3 v := rfl
    have funct7 : (Decoder.decode 32 v).funct7 = getFunct7 v := rfl
    have code : Funct3ALU.ofBits 0b101#3 = .srlSra := rfl
    unfold mnemonic
    simp only [opcode, op, funct3, f3, funct7, f7, code, and_false, if_false]
  have first := which w clash.opcode.1 clash.funct3.1 clash.funct7.1
  have second := which w' clash.opcode.2 clash.funct3.2 clash.funct7.2
  refine ⟨first, ?_⟩
  have rd : (Decoder.decode 32 w).rd = (Decoder.decode 32 w').rd := clash.rd.1
  have rs1 : (Decoder.decode 32 w).rs1 = (Decoder.decode 32 w').rs1 := clash.rs1.1
  have rs2 : (Decoder.decode 32 w).rs2 = (Decoder.decode 32 w').rs2 := clash.shamt.1
  unfold disassemble
  rw [known_eq, known_eq, first, second]
  simp only [Option.map_some, operands, rd, rs1, rs2, Option.getD_some]

end Words
end XorOS.RVModel

namespace XorOS.Disasm
open ISA RVModel

def Unknown (text : String) : Prop := "unknown".toList <+: text.toList

/-- What the trace says of two words is true: of one text one effect, and no word is called
    unknown and executed all the same. -/
structure Honest (M : Type) [MemT 32 M] (w w' : WordT) : Prop where
  effect : disassemble (Decoder.decode 32 w) = disassemble (Decoder.decode 32 w') →
    ¬Unknown (disassemble (Decoder.decode 32 w)) → ∀ (s : RVModel 32) (m : M),
      s.executeInstr (Decoder.decode 32 w) m = s.executeInstr (Decoder.decode 32 w') m
  stops : ∀ v, v = w ∨ v = w' → Unknown (disassemble (Decoder.decode 32 v)) →
    ∀ (s : RVModel 32) (m : M), ¬Executes s (s.executeInstr (Decoder.decode 32 v) m)

theorem srli_of_no_clash {w w' : WordT} (fits : (Mnemonic.opImm .srlSra).Fits (Decoder.decode 32 w))
    (fits' : (Mnemonic.opImm .srlSra).Fits (Decoder.decode 32 w'))
    (same : operands (Decoder.decode 32 w) (.opImm .srlSra) =
      operands (Decoder.decode 32 w') (.opImm .srlSra))
    (noClash : ¬Clash w w') (s : RVModel 32) :
    s.executeOpImm (Decoder.decode 32 w) = s.executeOpImm (Decoder.decode 32 w') := by
  have code {b : BitVec 3} (right : Funct3ALU.ofBits b = .srlSra) : b = 0b101#3 := by
    revert b
    decide
  obtain ⟨op, f3, notAlt⟩ := fits
  obtain ⟨op', f3', notAlt'⟩ := fits'
  simp only [operands, List.cons.injEq, and_true] at same
  obtain ⟨rd, rs1, shamt⟩ := same
  have rd := regName_injective rd
  have rs1 := regName_injective rs1
  have shamt := natText_injective shamt
  refine srli_congr op op' f3 f3' rd rs1 shamt ?_ s
  by_contra harm
  simp only [not_or] at harm
  obtain ⟨differ, rdUsed, rs1Used, shifted⟩ := harm
  exact noClash ⟨⟨op, op'⟩, ⟨code f3, code f3'⟩, ⟨notAlt rfl, notAlt' rfl⟩, ⟨rd, rdUsed⟩,
    ⟨rs1, rs1Used⟩, ⟨shamt, shifted⟩, differ⟩

/-- The trace is honest about two words if and only if neither is SFENCE.VMA and they are not two
    right shifts that it shows as one. -/
theorem trace_honest_iff {M : Type} [MemT 32 M] [Inhabited M] (w w' : WordT) :
    Honest M w w' ↔ ¬IsSfence w ∧ ¬IsSfence w' ∧ ¬Clash w w' := by
  have lies {v : WordT} (sfence : IsSfence v) : Unknown (disassemble (Decoder.decode 32 v)) ∧
      ∃ (s : RVModel 32) (m : M), Executes s (s.executeInstr (Decoder.decode 32 v) m) := by
    obtain ⟨none, exec⟩ := sfence_executes (M := M) sfence
    refine ⟨(unknown_iff _).mpr none, .new ⟨0#32⟩, default, ?_⟩
    rw [exec]
    exact ⟨rfl, rfl⟩
  constructor
  · rintro ⟨effect, stops⟩
    refine ⟨fun sfence => ?_, fun sfence => ?_, fun clash => ?_⟩
    · obtain ⟨unknown, s, m, executes⟩ := lies sfence
      exact stops w (.inl rfl) unknown s m executes
    · obtain ⟨unknown, s, m, executes⟩ := lies sfence
      exact stops w' (.inr rfl) unknown s m executes
    · obtain ⟨which, same⟩ := clash_text clash
      refine clash_differs clash (effect same fun unknown => ?_)
      rw [(unknown_iff _).mp unknown] at which
      cases which
  · rintro ⟨notSfence, notSfence', noClash⟩
    constructor
    · intro same known s m
      cases which : mnemonic (Decoder.decode 32 w) with
      | none => exact absurd ((unknown_iff _).mpr which) known
      | some k =>
        cases which' : mnemonic (Decoder.decode 32 w') with
        | none => exact absurd (same ▸ (unknown_iff _).mpr which') known
        | some k' =>
          obtain ⟨rfl, parts⟩ := known_injective which which' same
          have fits := Mnemonic.fits_of_mnemonic which
          have fits' := Mnemonic.fits_of_mnemonic which'
          refine executeInstr_congr fits fits' parts (fun shift s => ?_) s m
          subst shift
          exact srli_of_no_clash fits fits' parts noClash s
    · rintro v (rfl | rfl) unknown s m
      · exact unknown_stops ((unknown_iff _).mp unknown) notSfence s m
      · exact unknown_stops ((unknown_iff _).mp unknown) notSfence' s m

/-- SFENCE.VMA is called unknown and executed as a NOP, and two words that shift differently are
    both "srli ra, sp, 1". -/
theorem trace_lies : ¬Honest (MemoryModel 32 Unit) 0x12000073#32 0x12000073#32 ∧
    ¬Honest (MemoryModel 32 Unit) 0x00115093#32 0xC0115093#32 := by
  constructor
  · rintro ⟨_, stops⟩
    exact stops _ (.inl rfl) ((unknown_iff _).mpr (by decide)) (.new ⟨0#32⟩) (.new 0 ()) ⟨rfl, rfl⟩
  · rintro ⟨effect, _⟩
    have known : ¬Unknown (disassemble (Decoder.decode 32 0x00115093#32)) := fun unknown =>
      absurd ((unknown_iff _).mp unknown) (by decide)
    have same := effect (by decide) known { RVModel.new ⟨0#32⟩ with
      regs := RegisterFile.new.set 2#5 0x80000000#32 } (.new 0 ())
    have value := congrArg (fun r => r.2.1.regs.get 1#5) same
    revert value
    decide

end XorOS.Disasm
