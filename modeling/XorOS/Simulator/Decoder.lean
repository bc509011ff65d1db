import XorOS.Simulator.Isa

/- decoder.hpp and disasm.hpp. The decoder's assert raw != 0 is the caller's
   business: step treats a zero word as HALT before decoding. -/
namespace XorOS

structure DecodedInstr (xlen : Nat) where
  opcode : BitVec 7
  rd : BitVec 5
  rs1 : BitVec 5
  rs2 : BitVec 5
  funct3 : BitVec 3
  funct7 : BitVec 7
  imm : BitVec xlen
  raw : WordT
  deriving DecidableEq, Repr

namespace Decoder
open ISA

def decodeImm (xlen : Nat) (raw : WordT) : BitVec xlen :=
  match Opcode.ofBits? (getOpcode raw) with
  | some .load | some .opImm | some .jalr | some .miscMem | some .system => decodeImmI xlen raw
  | some .store => decodeImmS xlen raw
  | some .branch => decodeImmB xlen raw
  | some .lui | some .auipc => (decodeImmU raw).signExtend xlen
  | some .jal => decodeImmJ xlen raw
  | some .op => 0#(xlen)
  | some .amo | none => 0#(xlen)

def decode (xlen : Nat) (raw : WordT) : DecodedInstr xlen where
  raw := raw
  opcode := getOpcode raw
  rd := getRd raw
  funct3 := getFunct3 raw
  rs1 := getRs1 raw
  rs2 := getRs2 raw
  funct7 := getFunct7 raw
  imm := decodeImm xlen raw

end Decoder

/-- std::hex with setw(8) and setfill('0'). -/
def hexPadded (v : Nat) : String :=
  let digits := Nat.toDigits 16 v
  String.ofList (List.replicate (8 - digits.length) '0' ++ digits)

def DecodedInstr.toString {xlen : Nat} (d : DecodedInstr xlen) : String :=
  "RAW=0x" ++ hexPadded d.raw.toNat ++ " OP=" ++ toHex d.opcode.toNat ++
    " rd=x" ++ ToString.toString d.rd.toNat ++ " rs1=x" ++ ToString.toString d.rs1.toNat ++
    " rs2=x" ++ ToString.toString d.rs2.toNat ++ " f3=" ++ toHex d.funct3.toNat ++
    " f7=" ++ toHex d.funct7.toNat ++ " imm=" ++ ToString.toString d.imm.toInt

namespace Disasm
open ISA

def regNames : List String :=
  ["zero", "ra", "sp", "gp", "tp", "t0", "t1", "t2", "s0", "s1", "a0",
   "a1", "a2", "a3", "a4", "a5", "a6", "a7", "s2", "s3", "s4", "s5",
   "s6", "s7", "s8", "s9", "s10", "s11", "t3", "t4", "t5", "t6"]

def regName (r : BitVec 5) : String := regNames.getD r.toNat "?"

def csrName (addr : BitVec 12) : String :=
  match addr with
  | 0x180#12 => "satp"
  | 0x300#12 => "mstatus"
  | 0x301#12 => "misa"
  | 0x304#12 => "mie"
  | 0x305#12 => "mtvec"
  | 0x340#12 => "mscratch"
  | 0x341#12 => "mepc"
  | 0x342#12 => "mcause"
  | 0x343#12 => "mtval"
  | 0x344#12 => "mip"
  | 0xB00#12 => "mcycle"
  | 0xB02#12 => "minstret"
  | 0xF11#12 => "mvendorid"
  | 0xF12#12 => "marchid"
  | 0xF13#12 => "mimpid"
  | 0xF14#12 => "mhartid"
  | _ => toHex addr.toNat

variable {xlen : Nat} (d : DecodedInstr xlen)

def immText : String := toString d.imm.toInt
def mem (mn : String) : String :=
  mn ++ " " ++ regName d.rd ++ ", " ++ immText d ++ "(" ++ regName d.rs1 ++ ")"
def rtype (mn : String) : String :=
  mn ++ " " ++ regName d.rd ++ ", " ++ regName d.rs1 ++ ", " ++ regName d.rs2
def itype (mn : String) : String :=
  mn ++ " " ++ regName d.rd ++ ", " ++ regName d.rs1 ++ ", " ++ immText d
def btype (mn : String) : String :=
  mn ++ " " ++ regName d.rs1 ++ ", " ++ regName d.rs2 ++ ", " ++ immText d
def stype (mn : String) : String :=
  mn ++ " " ++ regName d.rs2 ++ ", " ++ immText d ++ "(" ++ regName d.rs1 ++ ")"
def shifttype (mn : String) : String :=
  mn ++ " " ++ regName d.rd ++ ", " ++ regName d.rs1 ++ ", " ++ toString d.rs2.toNat
def amotype (mn : String) : String :=
  mn ++ " " ++ regName d.rd ++ ", " ++ regName d.rs2 ++ ", (" ++ regName d.rs1 ++ ")"

def opImmText : String :=
  match Funct3ALU.ofBits d.funct3 with
  | .addSub => itype d "addi"
  | .slt => itype d "slti"
  | .sltu => itype d "sltiu"
  | .xor => itype d "xori"
  | .or => itype d "ori"
  | .and => itype d "andi"
  | .sll => shifttype d "slli"
  | .srlSra => if d.funct7 = F7_ALT then shifttype d "srai" else shifttype d "srli"

def opText : String :=
  if d.funct7 = F7_MEXT then
    match Funct3MUL.ofBits d.funct3 with
    | .mul => rtype d "mul"
    | .mulh => rtype d "mulh"
    | .mulhsu => rtype d "mulhsu"
    | .mulhu => rtype d "mulhu"
    | .div => rtype d "div"
    | .divu => rtype d "divu"
    | .rem => rtype d "rem"
    | .remu => rtype d "remu"
  else
    match Funct3ALU.ofBits d.funct3 with
    | .addSub => rtype d (if d.funct7 = F7_ALT then "sub" else "add")
    | .sll => rtype d "sll"
    | .slt => rtype d "slt"
    | .sltu => rtype d "sltu"
    | .xor => rtype d "xor"
    | .srlSra => rtype d (if d.funct7 = F7_ALT then "sra" else "srl")
    | .or => rtype d "or"
    | .and => rtype d "and"

def loadText : Option String :=
  match Funct3Load.ofBits? d.funct3 with
  | some .lb => some (mem d "lb")
  | some .lh => some (mem d "lh")
  | some .lw => some (mem d "lw")
  | some .lbu => some (mem d "lbu")
  | some .lhu => some (mem d "lhu")
  | none => none

def storeText : Option String :=
  match Funct3Store.ofBits? d.funct3 with
  | some .sb => some (stype d "sb")
  | some .sh => some (stype d "sh")
  | some .sw => some (stype d "sw")
  | none => none

def branchText : Option String :=
  match Funct3Branch.ofBits? d.funct3 with
  | some .beq => some (btype d "beq")
  | some .bne => some (btype d "bne")
  | some .blt => some (btype d "blt")
  | some .bge => some (btype d "bge")
  | some .bltu => some (btype d "bltu")
  | some .bgeu => some (btype d "bgeu")
  | none => none

def csrText : String := csrName ((d.imm &&& uword 0xFFF).setWidth 12)

def csrOpText (mn arg : String) : String :=
  mn ++ " " ++ regName d.rd ++ ", " ++ csrText d ++ ", " ++ arg

def csrInstrText : Option String :=
  match Funct3CSR.ofBits? d.funct3 with
  | some .csrrw => some (csrOpText d "csrrw" (regName d.rs1))
  | some .csrrs => some (csrOpText d "csrrs" (regName d.rs1))
  | some .csrrc => some (csrOpText d "csrrc" (regName d.rs1))
  | some .csrrwi => some (csrOpText d "csrrwi" (toString d.rs1.toNat))
  | some .csrrsi => some (csrOpText d "csrrsi" (toString d.rs1.toNat))
  | some .csrrci => some (csrOpText d "csrrci" (toString d.rs1.toNat))
  | none => none

def systemText : Option String :=
  if d.funct3 = 0#3 ∧ d.imm = 0#(xlen) then some "ecall"
  else if d.funct3 = 0#3 ∧ d.imm = 1#(xlen) then some "ebreak"
  else if d.funct3 = 0#3 ∧ d.imm = uword 0x302 then some "mret"
  else csrInstrText d

def amoText : Option String :=
  match Funct5AMO.ofBits? ((d.funct7 >>> 2).setWidth 5) with
  | some .lr => some ("lr.w " ++ regName d.rd ++ ", (" ++ regName d.rs1 ++ ")")
  | some .sc => some (amotype d "sc.w")
  | some .amoswap => some (amotype d "amoswap.w")
  | some .amoadd => some (amotype d "amoadd.w")
  | some .amoxor => some (amotype d "amoxor.w")
  | some .amoor => some (amotype d "amoor.w")
  | some .amoand => some (amotype d "amoand.w")
  | some .amomin => some (amotype d "amomin.w")
  | some .amomax => some (amotype d "amomax.w")
  | some .amominu => some (amotype d "amominu.w")
  | some .amomaxu => some (amotype d "amomaxu.w")
  | none => none

def upperText (mn : String) : String :=
  mn ++ " " ++ regName d.rd ++ ", " ++ toString (d.imm.sshiftRight 12).toInt

def known : Option String :=
  match Opcode.ofBits? d.opcode with
  | some .opImm => some (opImmText d)
  | some .op => some (opText d)
  | some .load => loadText d
  | some .store => storeText d
  | some .branch => branchText d
  | some .lui => some (upperText d "lui")
  | some .auipc => some (upperText d "auipc")
  | some .jal => some ("jal " ++ regName d.rd ++ ", " ++ immText d)
  | some .jalr => some ("jalr " ++ regName d.rd ++ ", " ++ regName d.rs1 ++ ", " ++ immText d)
  | some .system => systemText d
  | some .miscMem => some "fence"
  | some .amo => amoText d
  | none => none

def disassemble : String := (known d).getD ("unknown " ++ d.toString)

end Disasm

end XorOS
