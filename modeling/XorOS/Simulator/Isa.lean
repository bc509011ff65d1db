import Mathlib.Tactic

/- The instruction set tables and field extractors of types.hpp and isa.hpp.
   Register numbers and function codes are kept at their field width, so that
   the range asserts of the decoder and of the register file hold by type. -/
namespace XorOS

abbrev ByteT := BitVec 8
abbrev HalfT := BitVec 16
abbrev WordT := BitVec 32

abbrev uword {xlen : Nat} (c : Nat) : BitVec xlen := BitVec.ofNat xlen c

def toHex (v : Nat) : String := "0x" ++ String.ofList (Nat.toDigits 16 v)

namespace ISA

inductive Opcode where
  | load | miscMem | opImm | auipc | store | amo | op | lui | branch | jalr | jal | system
  deriving DecidableEq, Repr

def Opcode.ofBits? : BitVec 7 → Option Opcode
  | 0b0000011#7 => some .load
  | 0b0001111#7 => some .miscMem
  | 0b0010011#7 => some .opImm
  | 0b0010111#7 => some .auipc
  | 0b0100011#7 => some .store
  | 0b0101111#7 => some .amo
  | 0b0110011#7 => some .op
  | 0b0110111#7 => some .lui
  | 0b1100011#7 => some .branch
  | 0b1100111#7 => some .jalr
  | 0b1101111#7 => some .jal
  | 0b1110011#7 => some .system
  | _ => none

inductive Funct3ALU where
  | addSub | sll | slt | sltu | xor | srlSra | or | and
  deriving DecidableEq, Repr

/-- The eight codes exhaust funct3: the default branches of executeOpImm and
    executeOp are unreachable. -/
def Funct3ALU.ofBits (b : BitVec 3) : Funct3ALU :=
  match b with
  | 0b000#3 => .addSub
  | 0b001#3 => .sll
  | 0b010#3 => .slt
  | 0b011#3 => .sltu
  | 0b100#3 => .xor
  | 0b101#3 => .srlSra
  | 0b110#3 => .or
  | 0b111#3 => .and

inductive Funct3MUL where
  | mul | mulh | mulhsu | mulhu | div | divu | rem | remu
  deriving DecidableEq, Repr

def Funct3MUL.ofBits (b : BitVec 3) : Funct3MUL :=
  match b with
  | 0b000#3 => .mul
  | 0b001#3 => .mulh
  | 0b010#3 => .mulhsu
  | 0b011#3 => .mulhu
  | 0b100#3 => .div
  | 0b101#3 => .divu
  | 0b110#3 => .rem
  | 0b111#3 => .remu

inductive Funct3Branch where
  | beq | bne | blt | bge | bltu | bgeu
  deriving DecidableEq, Repr

def Funct3Branch.ofBits? : BitVec 3 → Option Funct3Branch
  | 0b000#3 => some .beq
  | 0b001#3 => some .bne
  | 0b100#3 => some .blt
  | 0b101#3 => some .bge
  | 0b110#3 => some .bltu
  | 0b111#3 => some .bgeu
  | _ => none

inductive Funct3Load where
  | lb | lh | lw | lbu | lhu
  deriving DecidableEq, Repr

def Funct3Load.ofBits? : BitVec 3 → Option Funct3Load
  | 0b000#3 => some .lb
  | 0b001#3 => some .lh
  | 0b010#3 => some .lw
  | 0b100#3 => some .lbu
  | 0b101#3 => some .lhu
  | _ => none

inductive Funct3Store where
  | sb | sh | sw
  deriving DecidableEq, Repr

def Funct3Store.ofBits? : BitVec 3 → Option Funct3Store
  | 0b000#3 => some .sb
  | 0b001#3 => some .sh
  | 0b010#3 => some .sw
  | _ => none

inductive Funct3CSR where
  | csrrw | csrrs | csrrc | csrrwi | csrrsi | csrrci
  deriving DecidableEq, Repr

def Funct3CSR.ofBits? : BitVec 3 → Option Funct3CSR
  | 0b001#3 => some .csrrw
  | 0b010#3 => some .csrrs
  | 0b011#3 => some .csrrc
  | 0b101#3 => some .csrrwi
  | 0b110#3 => some .csrrsi
  | 0b111#3 => some .csrrci
  | _ => none

inductive Funct5AMO where
  | amoadd | amoswap | lr | sc | amoxor | amoor | amoand | amomin | amomax | amominu | amomaxu
  deriving DecidableEq, Repr

def Funct5AMO.ofBits? : BitVec 5 → Option Funct5AMO
  | 0b00000#5 => some .amoadd
  | 0b00001#5 => some .amoswap
  | 0b00010#5 => some .lr
  | 0b00011#5 => some .sc
  | 0b00100#5 => some .amoxor
  | 0b01000#5 => some .amoor
  | 0b01100#5 => some .amoand
  | 0b10000#5 => some .amomin
  | 0b10100#5 => some .amomax
  | 0b11000#5 => some .amominu
  | 0b11100#5 => some .amomaxu
  | _ => none

def F7_NORMAL : BitVec 7 := 0b0000000#7
def F7_ALT : BitVec 7 := 0b0100000#7
def F7_MEXT : BitVec 7 := 0b0000001#7

def extractBits (instr : WordT) (hi lo : Nat) : WordT :=
  let width := hi - lo + 1
  let mask : WordT := if width = 32 then 0xFFFFFFFF#32 else (1#32 <<< width) - 1#32
  (instr >>> lo) &&& mask

/-- Sign-extend a bits-wide value to xlen bits: shift it to the top, shift it back
    arithmetically. -/
def signExtend (xlen : Nat) (val : WordT) (bits : Nat) : BitVec xlen :=
  let shift := xlen - bits
  (val.setWidth xlen <<< shift).sshiftRight shift

def getOpcode (i : WordT) : BitVec 7 := (i &&& 0b01111111#32).setWidth 7
def getRd (i : WordT) : BitVec 5 := ((i >>> 7) &&& 0b00011111#32).setWidth 5
def getFunct3 (i : WordT) : BitVec 3 := ((i >>> 12) &&& 0b00000111#32).setWidth 3
def getRs1 (i : WordT) : BitVec 5 := ((i >>> 15) &&& 0b00011111#32).setWidth 5
def getRs2 (i : WordT) : BitVec 5 := ((i >>> 20) &&& 0b00011111#32).setWidth 5
def getFunct7 (i : WordT) : BitVec 7 := ((i >>> 25) &&& 0b01111111#32).setWidth 7

def decodeImmI (xlen : Nat) (i : WordT) : BitVec xlen :=
  signExtend xlen (extractBits i 31 20) 12

def decodeImmS (xlen : Nat) (i : WordT) : BitVec xlen :=
  let hi := extractBits i 31 25
  let lo := extractBits i 11 7
  signExtend xlen ((hi <<< 5) ||| lo) 12

def decodeImmB (xlen : Nat) (i : WordT) : BitVec xlen :=
  let b12 := extractBits i 31 31
  let b11 := extractBits i 7 7
  let b10_5 := extractBits i 30 25
  let b4_1 := extractBits i 11 8
  signExtend xlen ((b12 <<< 12) ||| (b11 <<< 11) ||| (b10_5 <<< 5) ||| (b4_1 <<< 1)) 13

def decodeImmU (i : WordT) : WordT := i &&& 0xFFFFF000#32

def decodeImmJ (xlen : Nat) (i : WordT) : BitVec xlen :=
  let b20 := extractBits i 31 31
  let b19_12 := extractBits i 19 12
  let b11 := extractBits i 20 20
  let b10_1 := extractBits i 30 21
  signExtend xlen ((b20 <<< 20) ||| (b19_12 <<< 12) ||| (b11 <<< 11) ||| (b10_1 <<< 1)) 21

end ISA

end XorOS
