import XorOS.Simulator.MemoryEffects
import XorOS.Simulator.Privilege
import XorOS.Simulator.RoundTrip

/- The instructions of the assembly files, encoded by InstrBuilder's formats, and what
   executeInstr does with each. -/
namespace XorOS
open ISA Bits

namespace Reg

abbrev zero : BitVec 5 := 0#5
abbrev ra : BitVec 5 := 1#5
abbrev sp : BitVec 5 := 2#5
abbrev gp : BitVec 5 := 3#5
abbrev tp : BitVec 5 := 4#5
abbrev t0 : BitVec 5 := 5#5
abbrev t1 : BitVec 5 := 6#5
abbrev t2 : BitVec 5 := 7#5
abbrev s0 : BitVec 5 := 8#5
abbrev s1 : BitVec 5 := 9#5
abbrev a0 : BitVec 5 := 10#5
abbrev a1 : BitVec 5 := 11#5
abbrev a2 : BitVec 5 := 12#5
abbrev a3 : BitVec 5 := 13#5
abbrev a4 : BitVec 5 := 14#5
abbrev a5 : BitVec 5 := 15#5
abbrev a6 : BitVec 5 := 16#5
abbrev a7 : BitVec 5 := 17#5
abbrev s2 : BitVec 5 := 18#5
abbrev s3 : BitVec 5 := 19#5
abbrev s4 : BitVec 5 := 20#5
abbrev s5 : BitVec 5 := 21#5
abbrev s6 : BitVec 5 := 22#5
abbrev s7 : BitVec 5 := 23#5
abbrev s8 : BitVec 5 := 24#5
abbrev s9 : BitVec 5 := 25#5
abbrev s10 : BitVec 5 := 26#5
abbrev s11 : BitVec 5 := 27#5
abbrev t3 : BitVec 5 := 28#5
abbrev t4 : BitVec 5 := 29#5
abbrev t5 : BitVec 5 := 30#5
abbrev t6 : BitVec 5 := 31#5

end Reg

/-- Labels are resolved to offsets. -/
inductive Asm where
  | sw (rs2 : BitVec 5) (offset : BitVec 16) (rs1 : BitVec 5)
  | lw (rd : BitVec 5) (offset : BitVec 16) (rs1 : BitVec 5)
  | addi (rd rs1 : BitVec 5) (imm : BitVec 16)
  | csrrw (rd : BitVec 5) (csr : BitVec 12) (rs1 : BitVec 5)
  | csrrs (rd : BitVec 5) (csr : BitVec 12) (rs1 : BitVec 5)
  | beq (rs1 rs2 : BitVec 5) (offset : BitVec 16)
  | bne (rs1 rs2 : BitVec 5) (offset : BitVec 16)
  | auipc (rd : BitVec 5) (imm : BitVec 32)
  | jal (rd : BitVec 5) (offset : BitVec 32)
  | jalr (rd rs1 : BitVec 5) (offset : BitVec 16)
  | mret
  deriving DecidableEq, Repr

namespace Asm
open InstrBuilder

abbrev csrw (csr : BitVec 12) (rs1 : BitVec 5) : Asm := csrrw 0#5 csr rs1
abbrev csrr (rd : BitVec 5) (csr : BitVec 12) : Asm := csrrs rd csr 0#5
abbrev li (rd : BitVec 5) (imm : BitVec 16) : Asm := addi rd 0#5 imm
abbrev mv (rd rs1 : BitVec 5) : Asm := addi rd rs1 0#16
abbrev ret : Asm := jalr 0#5 1#5 0#16

def word : Asm → Option WordT
  | sw rs2 offset rs1 => SW (rs2.setWidth 8) (rs1.setWidth 8) offset
  | lw rd offset rs1 => LW (rd.setWidth 8) (rs1.setWidth 8) offset
  | addi rd rs1 imm => ADDI (rd.setWidth 8) (rs1.setWidth 8) imm
  | csrrw rd csr rs1 =>
      I (csr.signExtend 16) (rs1.setWidth 8) 0b001#8 (rd.setWidth 8) Opcode.system.bits
  | csrrs rd csr rs1 =>
      I (csr.signExtend 16) (rs1.setWidth 8) 0b010#8 (rd.setWidth 8) Opcode.system.bits
  | beq rs1 rs2 offset => BEQ (rs1.setWidth 8) (rs2.setWidth 8) offset
  | bne rs1 rs2 offset => BNE (rs1.setWidth 8) (rs2.setWidth 8) offset
  | auipc rd imm => U imm (rd.setWidth 8) Opcode.auipc.bits
  | jal rd offset => JAL (rd.setWidth 8) offset
  | jalr rd rs1 offset => I offset (rs1.setWidth 8) 0#8 (rd.setWidth 8) Opcode.jalr.bits
  | mret => I 0x302#16 0#8 0#8 0#8 Opcode.system.bits

theorem narrow (r : BitVec 5) : (r.setWidth 8).setWidth 5 = r := by
  revert r
  decide

theorem imm_signExtend {x : BitVec 32} {imm : BitVec 16} (same : x.toInt = imm.toInt) :
    x = imm.signExtend 32 := by
  apply BitVec.eq_of_toInt_eq
  rw [BitVec.toInt_signExtend_of_le (by decide), same]

structure DecodesI (w : WordT) (o : Opcode) (imm : BitVec 16) (rs1 rd : BitVec 5)
    (funct3 : BitVec 8) : Prop where
  opcode : Opcode.ofBits? (Decoder.decode 32 w).opcode = some o
  rd : (Decoder.decode 32 w).rd = rd
  rs1 : (Decoder.decode 32 w).rs1 = rs1
  funct3 : (Decoder.decode 32 w).funct3 = funct3.setWidth 3
  imm : (Decoder.decode 32 w).imm = imm.signExtend 32

theorem decodes_I {w : WordT} {o : Opcode} {imm : BitVec 16} {rs1 rd : BitVec 5}
    {funct3 : BitVec 8} (format : o.format = .I)
    (built : I imm (rs1.setWidth 8) funct3 (rd.setWidth 8) o.bits = some w) :
    DecodesI w o imm rs1 rd funct3 := by
  obtain ⟨op, d, s1, f3, value⟩ := decode_I (by decide : 12 ≤ 32) built
  have immediate : Decoder.decodeImm 32 w = _ := decodeImm_format op
  simp only [format] at immediate
  refine ⟨op, d.trans (narrow rd), s1.trans (narrow rs1), f3, ?_⟩
  exact immediate.trans (imm_signExtend value)

theorem word_ne_zero {i : Asm} {w : WordT} (built : i.word = some w) : w ≠ 0#32 := by
  have opcode : ∃ o, Opcode.ofBits? (getOpcode w) = some o := by
    cases i with
    | sw rs2 offset rs1 => exact ⟨_, (decode_S (o := .store) (by decide : 12 ≤ 32) built).1⟩
    | lw rd offset rs1 => exact ⟨_, (decode_I (o := .load) (by decide : 12 ≤ 32) built).1⟩
    | addi rd rs1 imm => exact ⟨_, (decode_I (o := .opImm) (by decide : 12 ≤ 32) built).1⟩
    | csrrw rd csr rs1 => exact ⟨_, (decode_I (o := .system) (by decide : 12 ≤ 32) built).1⟩
    | csrrs rd csr rs1 => exact ⟨_, (decode_I (o := .system) (by decide : 12 ≤ 32) built).1⟩
    | beq rs1 rs2 offset => exact ⟨_, (decode_B (o := .branch) (by decide : 13 ≤ 32) built).1⟩
    | bne rs1 rs2 offset => exact ⟨_, (decode_B (o := .branch) (by decide : 13 ≤ 32) built).1⟩
    | auipc rd imm => exact ⟨_, (decode_U (o := .auipc) built).1⟩
    | jal rd offset => exact ⟨_, (decode_J (o := .jal) (by decide : 21 ≤ 32) built).1⟩
    | jalr rd rs1 offset => exact ⟨_, (decode_I (o := .jalr) (by decide : 12 ≤ 32) built).1⟩
    | mret => exact ⟨_, (decode_I (o := .system) (by decide : 12 ≤ 32) built).1⟩
  obtain ⟨o, op⟩ := opcode
  rintro rfl
  cases op

end Asm

namespace RVModel
open Asm MemoryModel
variable {Dev : Type} {w : WordT} (t : RVModel 32) (m : MemoryModel 32 Dev)

theorem execute_addi {rd rs1 : BitVec 5} {imm : BitVec 16}
    (built : (addi rd rs1 imm).word = some w) :
    t.executeInstr (Decoder.decode 32 w) m =
      (.ok false, t.setReg rd (t.regs.get rs1 + imm.signExtend 32), m) := by
  have d := decodes_I (o := .opImm) rfl built
  have funct : Funct3ALU.ofBits (Decoder.decode 32 w).funct3 = .addSub := by
    rw [d.funct3]
    rfl
  unfold executeInstr
  simp only [d.opcode, executeOpImm, opImmResult, funct, d.rd, d.rs1, d.imm, ALU.execute]

theorem translateAddr_some {t : RVModel 32} {m : MemoryModel 32 Dev} {va pa : BitVec 32}
    {access : MemAccess} (translated : (t.translateAddr va access m).1 = some pa) :
    t.translateAddr va access m = (some pa, t, m) := by
  rcases translateAddr_cases t va access m with ⟨pa', eq⟩ | eq
  · rw [eq] at translated
    rw [eq, Option.some.inj translated]
  · rw [eq] at translated
    cases translated

theorem aligned_mask {a : BitVec 32} (clear : LowClear 2 a) : a &&& 0b11#32 = 0#32 :=
  (and_mask_eq_zero_iff (w := 32) (k := 2) (by omega) a).mpr clear

theorem execute_lw {rd rs1 : BitVec 5} {offset : BitVec 16} {pa v : BitVec 32}
    (built : (lw rd offset rs1).word = some w)
    (aligned : LowClear 2 (t.regs.get rs1 + offset.signExtend 32))
    (translated : (t.translateAddr (t.regs.get rs1 + offset.signExtend 32) .load m).1 = some pa)
    (read : m.readWord pa = .ok v) :
    t.executeInstr (Decoder.decode 32 w) m = (.ok false, t.setReg rd v, m) := by
  have d := decodes_I (o := .load) rfl built
  have funct : Funct3Load.ofBits? (Decoder.decode 32 w).funct3 = some .lw := by
    rw [d.funct3]
    rfl
  have value : loadValue .lw pa m = (.ok v, m) := by
    simp only [loadValue, memT_readWord, read, Prod.map, Except.map, BitVec.signExtend_eq, id]
  unfold executeInstr
  simp only [d.opcode, executeLoad, funct, d.rd, d.rs1, d.imm, aligned_mask aligned, ne_eq,
    not_true_eq_false, and_false, if_false, reduceCtorEq, Option.some.injEq, or_self, false_and,
    translateAddr_some translated, value]

theorem execute_sw {rs2 rs1 : BitVec 5} {offset : BitVec 16} {pa : BitVec 32}
    {m' : MemoryModel 32 Dev} (built : (sw rs2 offset rs1).word = some w)
    (aligned : LowClear 2 (t.regs.get rs1 + offset.signExtend 32))
    (translated : (t.translateAddr (t.regs.get rs1 + offset.signExtend 32) .store m).1 = some pa)
    (written : m.writeWord pa (t.regs.get rs2) = (.ok (), m')) :
    t.executeInstr (Decoder.decode 32 w) m = (.ok false, t, m'.invalidateReservation) := by
  obtain ⟨op, s1, s2, f3, value⟩ := InstrBuilder.decode_S (o := .store) (by decide : 12 ≤ 32) built
  have known : Opcode.ofBits? (Decoder.decode 32 w).opcode = some .store := op
  have immediate : (Decoder.decode 32 w).imm = _ := InstrBuilder.decodeImm_format op
  simp only [Opcode.format, imm_signExtend value] at immediate
  have base : (Decoder.decode 32 w).rs1 = rs1 := s1.trans (narrow rs1)
  have source : (Decoder.decode 32 w).rs2 = rs2 := s2.trans (narrow rs2)
  have funct : Funct3Store.ofBits? (Decoder.decode 32 w).funct3 = some .sw := by
    rw [show (Decoder.decode 32 w).funct3 = _ from f3]
    rfl
  have stored : storeValue .sw pa (t.regs.get rs2) m = (.ok (), m') := by
    change m.writeWord pa ((t.regs.get rs2).setWidth 32) = _
    rw [BitVec.setWidth_eq, written]
  unfold executeInstr
  simp only [known, executeStore, funct, base, source, immediate, aligned_mask aligned, ne_eq,
    not_true_eq_false, and_false, if_false, reduceCtorEq, Option.some.injEq, false_and,
    translateAddr_some translated, stored]
  rfl

theorem csr_address (csr : BitVec 12) :
    (((csr.signExtend 16).signExtend 32) &&& 0xFFF#32).setWidth 12 = csr := by
  apply BitVec.eq_of_getLsbD_eq
  intro i small
  have mask : (0xFFF#32).getLsbD i = true := by
    have table : ∀ i < 12, (0xFFF#32).getLsbD i = true := by decide
    exact table i small
  rw [BitVec.getLsbD_setWidth, BitVec.getLsbD_and, BitVec.getLsbD_signExtend,
    BitVec.getLsbD_signExtend, mask, if_pos (by omega), if_pos small]
  simp only [small, show i < 16 by omega, show i < 32 by omega, decide_true, Bool.true_and,
    Bool.and_true]

theorem executeCSR_allowed {f : Funct3CSR} {csr : BitVec 12} {rs1 rd : BitVec 5} {funct3 : BitVec 8}
    (d : DecodesI w .system (csr.signExtend 16) rs1 rd funct3)
    (funct : Funct3CSR.ofBits? (funct3.setWidth 3) = some f)
    (allowed : ¬t.privMode < csrPriv csr) :
    t.executeInstr (Decoder.decode 32 w) m =
      (.ok false, { t with
        csr := (csrOp f t.csr csr rs1 (t.regs.get rs1)).2
        regs := t.regs.set rd (csrOp f t.csr csr rs1 (t.regs.get rs1)).1 }, m) := by
  have access : funct3.setWidth 3 ≠ 0#3 := by
    intro zero
    rw [zero] at funct
    cases funct
  unfold executeInstr
  simp only [d.opcode, executeSystem, d.funct3, access, if_false, executeCSR, d.imm, csr_address,
    allowed, funct, d.rs1, d.rd]

theorem execute_csrw {csr : BitVec 12} {rs1 : BitVec 5} (built : (csrw csr rs1).word = some w)
    (allowed : ¬t.privMode < csrPriv csr) :
    t.executeInstr (Decoder.decode 32 w) m =
      (.ok false, { t with csr := t.csr.write csr (t.regs.get rs1) }, m) :=
  executeCSR_allowed t m (decodes_I (o := .system) rfl built) (f := .csrrw) rfl allowed

theorem execute_csrr {csr : BitVec 12} {rd : BitVec 5} (built : (csrr rd csr).word = some w)
    (allowed : ¬t.privMode < csrPriv csr) :
    t.executeInstr (Decoder.decode 32 w) m =
      (.ok false, t.setReg rd (t.csr.read csr), m) :=
  executeCSR_allowed t m (decodes_I (o := .system) rfl built) (f := .csrrs) rfl allowed

theorem execute_mret (built : mret.word = some w) :
    t.executeInstr (Decoder.decode 32 w) m = (.ok true, t.executeMRET, m) := by
  have d : DecodesI w .system 0x302#16 0#5 0#5 0#8 := decodes_I rfl built
  unfold executeInstr
  simp only [d.opcode, executeSystem, d.funct3, d.imm]
  rfl

theorem execute_branch {f : Funct3Branch} {rs1 rs2 : BitVec 5} {offset : BitVec 16}
    (built : InstrBuilder.B offset (rs2.setWidth 8) (rs1.setWidth 8) f.bits Opcode.branch.bits =
      some w)
    (aligned : LowClear 2 (t.pc + offset.signExtend 32)) :
    t.executeInstr (Decoder.decode 32 w) m =
      if branchTaken f (t.regs.get rs1) (t.regs.get rs2) then
        (.ok true, t.jump (t.pc + offset.signExtend 32), m)
      else (.ok false, t, m) := by
  obtain ⟨op, s1, s2, f3, value⟩ := InstrBuilder.decode_B (by decide : 13 ≤ 32) built
  have known : Opcode.ofBits? (Decoder.decode 32 w).opcode = some .branch := op
  have immediate : (Decoder.decode 32 w).imm = _ := InstrBuilder.decodeImm_format op
  simp only [Opcode.format, imm_signExtend value] at immediate
  have first : (Decoder.decode 32 w).rs1 = rs1 := s1.trans (narrow rs1)
  have second : (Decoder.decode 32 w).rs2 = rs2 := s2.trans (narrow rs2)
  have funct : Funct3Branch.ofBits? (Decoder.decode 32 w).funct3 = some f := by
    rw [show (Decoder.decode 32 w).funct3 = _ from f3]
    cases f <;> rfl
  unfold executeInstr
  simp only [known, executeBranch, funct, first, second, immediate, jumpTo, aligned_mask aligned,
    ne_eq, not_true_eq_false, if_false]
  split
  · rfl
  · rfl

theorem execute_auipc {rd : BitVec 5} {imm : BitVec 32} (built : (auipc rd imm).word = some w) :
    t.executeInstr (Decoder.decode 32 w) m =
      (.ok false, t.setReg rd (t.pc + (imm &&& 0xFFFFF000#32)), m) := by
  obtain ⟨op, d, value⟩ := InstrBuilder.decode_U (o := .auipc) built
  have known : Opcode.ofBits? (Decoder.decode 32 w).opcode = some .auipc := op
  have immediate : (Decoder.decode 32 w).imm = _ := InstrBuilder.decodeImm_format op
  have upper : (imm &&& 0xFFFFF000#32).toNat = imm.toNat - imm.toNat % 2 ^ 12 :=
    toNat_and_not_mask (w := 32) (k := 12) (by omega) imm
  have same : decodeImmU w = imm &&& 0xFFFFF000#32 := by
    apply BitVec.eq_of_toNat_eq
    rw [value, upper]
    omega
  simp only [Opcode.format, same, BitVec.signExtend_eq] at immediate
  have target : (Decoder.decode 32 w).rd = rd := d.trans (narrow rd)
  unfold executeInstr
  simp only [known, target, immediate]

def jalOffset (offset : BitVec 32) : BitVec 32 :=
  BitVec.ofInt 32 (IntHart.signed 21 (offset.toInt % 2 ^ 21))

theorem execute_jal {rd : BitVec 5} {offset : BitVec 32} (built : (jal rd offset).word = some w)
    (aligned : LowClear 2 (t.pc + jalOffset offset)) :
    t.executeInstr (Decoder.decode 32 w) m =
      (.ok true, (t.setReg rd (t.pc + 4#32)).jump (t.pc + jalOffset offset), m) := by
  obtain ⟨op, d, value⟩ := InstrBuilder.decode_J (o := .jal) (by decide : 21 ≤ 32) built
  have known : Opcode.ofBits? (Decoder.decode 32 w).opcode = some .jal := op
  have immediate : (Decoder.decode 32 w).imm = _ := InstrBuilder.decodeImm_format op
  have same : decodeImmJ 32 w = jalOffset offset := by
    rw [jalOffset, ← value, BitVec.ofInt_toInt]
  simp only [Opcode.format, same] at immediate
  have target : (Decoder.decode 32 w).rd = rd := d.trans (narrow rd)
  unfold executeInstr
  simp only [known, executeJAL, target, immediate, aligned_mask aligned, ne_eq, not_true_eq_false,
    if_false]

theorem execute_jalr {rd rs1 : BitVec 5} {offset : BitVec 16} {target : BitVec 32}
    (built : (jalr rd rs1 offset).word = some w)
    (reaches : (t.regs.get rs1 + offset.signExtend 32) &&& ~~~0b01#32 = target)
    (aligned : LowClear 2 target) :
    t.executeInstr (Decoder.decode 32 w) m =
      (.ok true, (t.setReg rd (t.pc + 4#32)).jump target, m) := by
  have d := decodes_I (o := .jalr) rfl built
  have second : target &&& 0b10#32 = 0#32 := by
    rw [MemoryModel.even_offset fun i small => aligned i (by omega)]
    exact aligned_mask aligned
  unfold executeInstr
  simp only [d.opcode, executeJALR, d.rs1, d.imm, d.rd, reaches, second, ne_eq, not_true_eq_false,
    if_false]

end RVModel

end XorOS
