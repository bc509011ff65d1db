import XorOS.Simulator.Isa

/- alu.hpp. The double-width products of MUL to MULHU are computed at 2 * xlen bits,
   as the uint64_t and __int128 intermediates of the source are. -/
namespace XorOS.ALU

inductive Op where
  | ADD | SUB | AND | OR | XOR | SLL | SRL | SRA | SLT | SLTU
  | MUL | MULH | MULHSU | MULHU | DIV | DIVU | REM | REMU
  deriving DecidableEq, Repr

variable {xlen : Nat}

def SWORD_MIN : BitVec xlen := BitVec.intMin xlen
def UWORD_MAX : BitVec xlen := BitVec.allOnes xlen

def execute (op : Op) (a b : BitVec xlen) : BitVec xlen :=
  let shamt := b &&& uword (xlen - 1)
  match op with
  | .ADD => a + b
  | .SUB => a - b
  | .AND => a &&& b
  | .OR => a ||| b
  | .XOR => a ^^^ b
  | .SLL => a <<< shamt
  | .SRL => a >>> shamt
  | .SRA => a.sshiftRight' shamt
  | .SLT => if a.slt b then 1#(xlen) else 0#(xlen)
  | .SLTU => if a < b then 1#(xlen) else 0#(xlen)
  | .MUL => (a.setWidth (2 * xlen) * b.setWidth (2 * xlen)).setWidth xlen
  | .MULH => ((a.signExtend (2 * xlen) * b.signExtend (2 * xlen)) >>> xlen).setWidth xlen
  | .MULHSU => ((a.signExtend (2 * xlen) * b.setWidth (2 * xlen)) >>> xlen).setWidth xlen
  | .MULHU => ((a.setWidth (2 * xlen) * b.setWidth (2 * xlen)) >>> xlen).setWidth xlen
  | .DIV =>
      if b = 0#(xlen) then UWORD_MAX
      else if a = SWORD_MIN ∧ b = -1#(xlen) then SWORD_MIN
      else a.sdiv b
  | .DIVU => if b = 0#(xlen) then UWORD_MAX else a / b
  | .REM =>
      if b = 0#(xlen) then a
      else if a = SWORD_MIN ∧ b = -1#(xlen) then 0#(xlen)
      else a.srem b
  | .REMU => if b = 0#(xlen) then a else a % b

end XorOS.ALU
