import XorOS.Simulator.Arithmetic
import XorOS.Simulator.EncodeDecode
import XorOS.Simulator.PreciseTraps
import XorOS.Simulator.Storage

/- The instructions of RV32I and of the M extension as InstrBuilder builds them, each with what it
   does to a hart over the integers, and step() against that. -/
namespace XorOS
open ISA IntHart
variable {Dev : Type}

inductive ImmOp where
  | addi | slti | sltiu | xori | ori | andi
  deriving DecidableEq, Repr

inductive ShiftOp where
  | slli | srli | srai
  deriving DecidableEq, Repr

/-- The operands are the arguments of the builder: uint8_t, int16_t and int32_t. -/
inductive Instr where
  | op (f : ALU.Op) (rd rs1 rs2 : BitVec 8)
  | opImm (f : ImmOp) (rd rs1 : BitVec 8) (imm : BitVec 16)
  | shift (f : ShiftOp) (rd rs1 shamt : BitVec 8)
  | lui (rd : BitVec 8) (imm : BitVec 32)
  | auipc (rd : BitVec 8) (imm : BitVec 32)
  | branch (f : Funct3Branch) (rs1 rs2 : BitVec 8) (offset : BitVec 16)
  | jal (rd : BitVec 8) (offset : BitVec 32)
  | jalr (rd rs1 : BitVec 8) (imm : BitVec 16)
  | load (f : Funct3Load) (rd rs1 : BitVec 8) (imm : BitVec 16)
  | store (f : Funct3Store) (rs2 rs1 : BitVec 8) (imm : BitVec 16)
  deriving DecidableEq, Repr

namespace ImmOp

def funct3 : ImmOp → Funct3ALU
  | addi => .addSub
  | slti => .slt
  | sltiu => .sltu
  | xori => .xor
  | ori => .or
  | andi => .and

def alu : ImmOp → ALU.Op
  | addi => .ADD
  | slti => .SLT
  | sltiu => .SLTU
  | xori => .XOR
  | ori => .OR
  | andi => .AND

end ImmOp

namespace ShiftOp

def funct7 : ShiftOp → BitVec 7
  | slli => F7_NORMAL
  | srli => F7_NORMAL
  | srai => F7_ALT

def funct3 : ShiftOp → Funct3ALU
  | slli => .sll
  | srli => .srlSra
  | srai => .srlSra

def alu : ShiftOp → ALU.Op
  | slli => .SLL
  | srli => .SRL
  | srai => .SRA

end ShiftOp

namespace ALU.Op

def code : ALU.Op → BitVec 7 × BitVec 8
  | ADD => (F7_NORMAL, Funct3ALU.addSub.bits)
  | SUB => (F7_ALT, Funct3ALU.addSub.bits)
  | AND => (F7_NORMAL, Funct3ALU.and.bits)
  | OR => (F7_NORMAL, Funct3ALU.or.bits)
  | XOR => (F7_NORMAL, Funct3ALU.xor.bits)
  | SLL => (F7_NORMAL, Funct3ALU.sll.bits)
  | SRL => (F7_NORMAL, Funct3ALU.srlSra.bits)
  | SRA => (F7_ALT, Funct3ALU.srlSra.bits)
  | SLT => (F7_NORMAL, Funct3ALU.slt.bits)
  | SLTU => (F7_NORMAL, Funct3ALU.sltu.bits)
  | MUL => (F7_MEXT, Funct3MUL.mul.bits)
  | MULH => (F7_MEXT, Funct3MUL.mulh.bits)
  | MULHSU => (F7_MEXT, Funct3MUL.mulhsu.bits)
  | MULHU => (F7_MEXT, Funct3MUL.mulhu.bits)
  | DIV => (F7_MEXT, Funct3MUL.div.bits)
  | DIVU => (F7_MEXT, Funct3MUL.divu.bits)
  | REM => (F7_MEXT, Funct3MUL.rem.bits)
  | REMU => (F7_MEXT, Funct3MUL.remu.bits)

end ALU.Op

namespace Instr
open InstrBuilder

def word : Instr → Option WordT
  | op f rd rs1 rs2 => R (f.code.1.setWidth 8) rs2 rs1 f.code.2 rd Opcode.op.bits
  | opImm f rd rs1 imm => I imm rs1 f.funct3.bits rd Opcode.opImm.bits
  | shift f rd rs1 shamt => R (f.funct7.setWidth 8) shamt rs1 f.funct3.bits rd Opcode.opImm.bits
  | lui rd imm => U imm rd Opcode.lui.bits
  | auipc rd imm => U imm rd Opcode.auipc.bits
  | branch f rs1 rs2 offset => B offset rs2 rs1 f.bits Opcode.branch.bits
  | jal rd offset => J offset rd Opcode.jal.bits
  | jalr rd rs1 imm => I imm rs1 0#8 rd Opcode.jalr.bits
  | load f rd rs1 imm => I imm rs1 f.bits rd Opcode.load.bits
  | store f rs2 rs1 imm => S imm rs2 rs1 f.bits Opcode.store.bits

/-- The mnemonics of InstrBuilder build the words of these instructions. -/
theorem word_mnemonics (rd rs1 rs2 shamt : BitVec 8) (imm : BitVec 16) (imm20 offset : BitVec 32) :
    ADDI rd rs1 imm = (opImm .addi rd rs1 imm).word ∧ ADD rd rs1 rs2 = (op .ADD rd rs1 rs2).word ∧
      SUB rd rs1 rs2 = (op .SUB rd rs1 rs2).word ∧ LUI rd imm20 = (lui rd (imm20 <<< 12)).word ∧
      AUIPC rd imm20 = (auipc rd (imm20 <<< 12)).word ∧
      SLLI rd rs1 shamt = (shift .slli rd rs1 shamt).word ∧
      SRLI rd rs1 shamt = (shift .srli rd rs1 shamt).word ∧
      SRAI rd rs1 shamt = (shift .srai rd rs1 shamt).word ∧
      BEQ rs1 rs2 imm = (branch .beq rs1 rs2 imm).word ∧
      BNE rs1 rs2 imm = (branch .bne rs1 rs2 imm).word ∧
      MUL rd rs1 rs2 = (op .MUL rd rs1 rs2).word ∧
      DIV rd rs1 rs2 = (op .DIV rd rs1 rs2).word ∧ LW rd rs1 imm = (load .lw rd rs1 imm).word ∧
      SW rs2 rs1 imm = (store .sw rs2 rs1 imm).word ∧ JAL rd offset = (jal rd offset).word :=
  ⟨rfl, rfl, rfl, rfl, rfl, rfl, rfl, rfl, rfl, rfl, rfl, rfl, rfl, rfl, rfl⟩

def reg (r : BitVec 8) : Fin 32 := (r.setWidth 5).toFin

def taken (f : Funct3Branch) (a b : Int) : Bool :=
  match f with
  | .beq => a = b
  | .bne => a ≠ b
  | .blt => signed 32 a < signed 32 b
  | .bge => signed 32 b ≤ signed 32 a
  | .bltu => a < b
  | .bgeu => b ≤ a

def loadWidth : Funct3Load → Nat
  | .lb | .lbu => 1
  | .lh | .lhu => 2
  | .lw => 4

def loadSigns : Funct3Load → Bool
  | .lb | .lh | .lw => true
  | .lbu | .lhu => false

def storeWidth : Funct3Store → Nat
  | .sb => 1
  | .sh => 2
  | .sw => 4

/-- LUI and AUIPC take the upper 20 bits of imm, JAL the lower 21 bits of offset. -/
def meaning : Instr → Insn
  | op f rd rs1 rs2 => .op (ALU.exact f) (reg rd) (reg rs1) (reg rs2)
  | opImm f rd rs1 imm => .opImm (ALU.exact f.alu) (reg rd) (reg rs1) imm.toInt
  | shift f rd rs1 shamt => .opImm (ALU.exact f.alu) (reg rd) (reg rs1) shamt.toNat
  | lui rd imm => .lui (reg rd) (imm.toInt / 2 ^ 12 * 2 ^ 12)
  | auipc rd imm => .auipc (reg rd) (imm.toInt / 2 ^ 12 * 2 ^ 12)
  | branch f rs1 rs2 offset => .branch (taken f) (reg rs1) (reg rs2) offset.toInt
  | jal rd offset => .jal (reg rd) (signed 21 (offset.toInt % 2 ^ 21))
  | jalr rd rs1 imm => .jalr (reg rd) (reg rs1) imm.toInt
  | load f rd rs1 imm => .load (loadWidth f) (loadSigns f) (reg rd) (reg rs1) imm.toInt
  | store f rs2 rs1 imm => .store (storeWidth f) (reg rs2) (reg rs1) imm.toInt

def isStore : Instr → Bool
  | store .. => true
  | _ => false

def isMext : Instr → Bool
  | op f _ _ _ => f.code.1 = F7_MEXT
  | _ => false

end Instr

end XorOS
