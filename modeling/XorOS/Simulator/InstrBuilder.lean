import XorOS.Simulator.Decoder
import XorOS.Simulator.MemoryModel

/- instr_builder.hpp: the encoders of the six formats and the mnemonics built on them, each with
   its asserts, none where one fails. -/
namespace XorOS

namespace ISA

def Opcode.bits : Opcode → BitVec 8
  | .load => 0b0000011#8
  | .miscMem => 0b0001111#8
  | .opImm => 0b0010011#8
  | .auipc => 0b0010111#8
  | .store => 0b0100011#8
  | .amo => 0b0101111#8
  | .op => 0b0110011#8
  | .lui => 0b0110111#8
  | .branch => 0b1100011#8
  | .jalr => 0b1100111#8
  | .jal => 0b1101111#8
  | .system => 0b1110011#8

def Funct3ALU.bits : Funct3ALU → BitVec 8
  | .addSub => 0b000#8
  | .sll => 0b001#8
  | .slt => 0b010#8
  | .sltu => 0b011#8
  | .xor => 0b100#8
  | .srlSra => 0b101#8
  | .or => 0b110#8
  | .and => 0b111#8

def Funct3MUL.bits : Funct3MUL → BitVec 8
  | .mul => 0b000#8
  | .mulh => 0b001#8
  | .mulhsu => 0b010#8
  | .mulhu => 0b011#8
  | .div => 0b100#8
  | .divu => 0b101#8
  | .rem => 0b110#8
  | .remu => 0b111#8

def Funct3Branch.bits : Funct3Branch → BitVec 8
  | .beq => 0b000#8
  | .bne => 0b001#8
  | .blt => 0b100#8
  | .bge => 0b101#8
  | .bltu => 0b110#8
  | .bgeu => 0b111#8

def Funct3Load.bits : Funct3Load → BitVec 8
  | .lb => 0b000#8
  | .lh => 0b001#8
  | .lw => 0b010#8
  | .lbu => 0b100#8
  | .lhu => 0b101#8

def Funct3Store.bits : Funct3Store → BitVec 8
  | .sb => 0b000#8
  | .sh => 0b001#8
  | .sw => 0b010#8

end ISA

namespace InstrBuilder
open ISA

def R (funct7 rs2 rs1 funct3 rd opcode : BitVec 8) : Option WordT :=
  if funct7 < 128#8 ∧ rd < 32#8 ∧ rs1 < 32#8 ∧ rs2 < 32#8 ∧ funct3 < 8#8 then
    some (funct7.setWidth 32 <<< 25 ||| rs2.setWidth 32 <<< 20 ||| rs1.setWidth 32 <<< 15 |||
      funct3.setWidth 32 <<< 12 ||| rd.setWidth 32 <<< 7 ||| opcode.setWidth 32)
  else none

def I (imm : BitVec 16) (rs1 funct3 rd opcode : BitVec 8) : Option WordT :=
  if (rd < 32#8 ∧ rs1 < 32#8 ∧ funct3 < 8#8) ∧ (-2048 ≤ imm.toInt ∧ imm.toInt ≤ 2047) then
    let imm12 := imm.signExtend 32 &&& 0b111111111111#32
    some (imm12 <<< 20 ||| rs1.setWidth 32 <<< 15 ||| funct3.setWidth 32 <<< 12 |||
      rd.setWidth 32 <<< 7 ||| opcode.setWidth 32)
  else none

def S (imm : BitVec 16) (rs2 rs1 funct3 opcode : BitVec 8) : Option WordT :=
  if (rs1 < 32#8 ∧ rs2 < 32#8 ∧ funct3 < 8#8) ∧ (-2048 ≤ imm.toInt ∧ imm.toInt ≤ 2047) then
    let imm12 := imm.signExtend 32 &&& 0b111111111111#32
    some (((imm12 >>> 5) &&& 0b1111111#32) <<< 25 ||| rs2.setWidth 32 <<< 20 |||
      rs1.setWidth 32 <<< 15 ||| funct3.setWidth 32 <<< 12 ||| (imm12 &&& 0b11111#32) <<< 7 |||
      opcode.setWidth 32)
  else none

def B (offset : BitVec 16) (rs2 rs1 funct3 opcode : BitVec 8) : Option WordT :=
  if (rs1 < 32#8 ∧ rs2 < 32#8 ∧ funct3 < 8#8) ∧ offset &&& 1#16 = 0#16 ∧
      (-4096 ≤ offset.toInt ∧ offset.toInt ≤ 4094) then
    let o := offset.signExtend 32 &&& 0x1FFE#32
    let b12 := (o >>> 12) &&& 1#32
    let b11 := (o >>> 11) &&& 1#32
    let b10_5 := (o >>> 5) &&& 0b111111#32
    let b4_1 := (o >>> 1) &&& 0b1111#32
    some (b12 <<< 31 ||| b10_5 <<< 25 ||| rs2.setWidth 32 <<< 20 ||| rs1.setWidth 32 <<< 15 |||
      funct3.setWidth 32 <<< 12 ||| b4_1 <<< 8 ||| b11 <<< 7 ||| opcode.setWidth 32)
  else none

def U (imm : BitVec 32) (rd opcode : BitVec 8) : Option WordT :=
  if rd < 32#8 then
    some ((imm &&& 0xFFFFF000#32) ||| rd.setWidth 32 <<< 7 ||| opcode.setWidth 32)
  else none

/-- The range of offset is not asserted. -/
def J (offset : BitVec 32) (rd opcode : BitVec 8) : Option WordT :=
  if rd < 32#8 ∧ offset &&& 1#32 = 0#32 then
    let o := offset &&& 0x1FFFFE#32
    let b20 := (o >>> 20) &&& 1#32
    let b19_12 := (o >>> 12) &&& 0xFF#32
    let b11 := (o >>> 11) &&& 1#32
    let b10_1 := (o >>> 1) &&& 0b1111111111#32
    some (b20 <<< 31 ||| b10_1 <<< 21 ||| b11 <<< 20 ||| b19_12 <<< 12 ||| rd.setWidth 32 <<< 7 |||
      opcode.setWidth 32)
  else none

def ADDI (rd rs1 : BitVec 8) (imm : BitVec 16) : Option WordT :=
  I imm rs1 Funct3ALU.addSub.bits rd Opcode.opImm.bits

def ADD (rd rs1 rs2 : BitVec 8) : Option WordT :=
  R (F7_NORMAL.setWidth 8) rs2 rs1 Funct3ALU.addSub.bits rd Opcode.op.bits

def SUB (rd rs1 rs2 : BitVec 8) : Option WordT :=
  R (F7_ALT.setWidth 8) rs2 rs1 Funct3ALU.addSub.bits rd Opcode.op.bits

def LUI (rd : BitVec 8) (imm20 : BitVec 32) : Option WordT := U (imm20 <<< 12) rd Opcode.lui.bits

def AUIPC (rd : BitVec 8) (imm20 : BitVec 32) : Option WordT :=
  U (imm20 <<< 12) rd Opcode.auipc.bits

def SLLI (rd rs1 shamt : BitVec 8) : Option WordT :=
  R (F7_NORMAL.setWidth 8) shamt rs1 Funct3ALU.sll.bits rd Opcode.opImm.bits

def SRLI (rd rs1 shamt : BitVec 8) : Option WordT :=
  R (F7_NORMAL.setWidth 8) shamt rs1 Funct3ALU.srlSra.bits rd Opcode.opImm.bits

def SRAI (rd rs1 shamt : BitVec 8) : Option WordT :=
  R (F7_ALT.setWidth 8) shamt rs1 Funct3ALU.srlSra.bits rd Opcode.opImm.bits

def BEQ (rs1 rs2 : BitVec 8) (offset : BitVec 16) : Option WordT :=
  B offset rs2 rs1 Funct3Branch.beq.bits Opcode.branch.bits

def BNE (rs1 rs2 : BitVec 8) (offset : BitVec 16) : Option WordT :=
  B offset rs2 rs1 Funct3Branch.bne.bits Opcode.branch.bits

def MUL (rd rs1 rs2 : BitVec 8) : Option WordT :=
  R (F7_MEXT.setWidth 8) rs2 rs1 Funct3MUL.mul.bits rd Opcode.op.bits

def DIV (rd rs1 rs2 : BitVec 8) : Option WordT :=
  R (F7_MEXT.setWidth 8) rs2 rs1 Funct3MUL.div.bits rd Opcode.op.bits

def LW (rd rs1 : BitVec 8) (offset : BitVec 16) : Option WordT :=
  I offset rs1 Funct3Load.lw.bits rd Opcode.load.bits

def SW (rs2 rs1 : BitVec 8) (offset : BitVec 16) : Option WordT :=
  S offset rs2 rs1 Funct3Store.sw.bits Opcode.store.bits

def JAL (rd : BitVec 8) (offset : BitVec 32) : Option WordT := J offset rd Opcode.jal.bits

def wordBytes (w : WordT) : List ByteT :=
  [(w &&& 0xFF#32).setWidth 8, ((w >>> 8) &&& 0xFF#32).setWidth 8,
    ((w >>> 16) &&& 0xFF#32).setWidth 8, ((w >>> 24) &&& 0xFF#32).setWidth 8]

def loadProgram {xlen : Nat} {Dev : Type} (mem : MemoryModel xlen Dev) (prog : List WordT)
    (base : BitVec xlen) : Option (Except ProgramOutOfRange Unit × MemoryModel xlen Dev) :=
  mem.loadProgram (prog.flatMap wordBytes) base

end InstrBuilder

end XorOS
