import XorOS.Simulator.Isa

/- register_file.hpp, csr_file.hpp and config.hpp. -/
namespace XorOS

@[ext] structure RegisterFile (xlen : Nat) where
  regs : BitVec 5 → BitVec xlen

namespace RegisterFile
variable {xlen : Nat}

def new : RegisterFile xlen := ⟨fun _ => 0#(xlen)⟩

def get (r : RegisterFile xlen) (idx : BitVec 5) : BitVec xlen :=
  if idx = 0#5 then 0#(xlen) else r.regs idx

def set (r : RegisterFile xlen) (idx : BitVec 5) (val : BitVec xlen) : RegisterFile xlen :=
  if idx = 0#5 then r else ⟨fun i => if i = idx then val else r.regs i⟩

theorem get_set (r : RegisterFile xlen) (i j : BitVec 5) (v : BitVec xlen) :
    (r.set i v).get j = if j = i ∧ i ≠ 0#5 then v else r.get j := by
  by_cases hi : i = 0#5
  · simp [set, hi]
  · by_cases hj : j = i
    · simp [set, get, hi, hj]
    · simp [set, get, hi, hj]

theorem get_set_of_ne (r : RegisterFile xlen) {i j : BitVec 5} (other : j ≠ i) (v : BitVec xlen) :
    (r.set i v).get j = r.get j := by
  rw [get_set, if_neg fun same => other same.1]

@[simp] theorem get_set_self (r : RegisterFile xlen) {i : BitVec 5} (v : BitVec xlen)
    (nonzero : i ≠ 0#5) : (r.set i v).get i = v := by
  simp [get_set, nonzero]

end RegisterFile

namespace CSR

def MHARTID : BitVec 12 := 0xF14#12
def SATP : BitVec 12 := 0x180#12
def MSTATUS : BitVec 12 := 0x300#12
def MIE : BitVec 12 := 0x304#12
def MTVEC : BitVec 12 := 0x305#12
def MSCRATCH : BitVec 12 := 0x340#12
def MEPC : BitVec 12 := 0x341#12
def MCAUSE : BitVec 12 := 0x342#12
def MTVAL : BitVec 12 := 0x343#12

def MSTATUS_MIE : Nat := 1 <<< 3
def MSTATUS_MPIE : Nat := 1 <<< 7
def MSTATUS_MPP : Nat := 3 <<< 11

def MCAUSE_INTERRUPT : Nat := 1 <<< 31

def EXC_INSN_MISALIGN : Nat := 0b0000
def EXC_INSN_FAULT : Nat := 0b0001
def EXC_ILLEGAL_INSN : Nat := 0b0010
def EXC_LOAD_MISALIGN : Nat := 0b0100
def EXC_LOAD_FAULT : Nat := 0b0101
def EXC_STORE_MISALIGN : Nat := 0b0110
def EXC_STORE_FAULT : Nat := 0b0111
def EXC_ECALL_U : Nat := 0b1000
def EXC_ECALL_S : Nat := 0b1001
def EXC_ECALL_M : Nat := 0b1011
def EXC_INSN_PAGE_FAULT : Nat := 0b1100
def EXC_LOAD_PAGE_FAULT : Nat := 0b1101
def EXC_STORE_PAGE_FAULT : Nat := 0b1111

def INT_TIMER_M : Nat := MCAUSE_INTERRUPT ||| 0b0111

end CSR

@[ext] structure CsrFile (xlen : Nat) where
  regs : BitVec 12 → BitVec xlen

namespace CsrFile
variable {xlen : Nat}

def new : CsrFile xlen := ⟨fun _ => 0#(xlen)⟩

def isReadOnly (addr : BitVec 12) : Bool := addr >>> 10 = 0b11#12

def read (c : CsrFile xlen) (addr : BitVec 12) : BitVec xlen :=
  if addr = CSR.MHARTID then 0#(xlen) else c.regs addr

/-- regs_[addr] = val, the assignment the setters make without the read-only check. -/
def put (c : CsrFile xlen) (addr : BitVec 12) (val : BitVec xlen) : CsrFile xlen :=
  ⟨fun a => if a = addr then val else c.regs a⟩

def write (c : CsrFile xlen) (addr : BitVec 12) (val : BitVec xlen) : CsrFile xlen :=
  if isReadOnly addr then c else c.put addr val

def csrrw (c : CsrFile xlen) (addr : BitVec 12) (rs1val : BitVec xlen) :
    BitVec xlen × CsrFile xlen :=
  (c.read addr, c.write addr rs1val)

def csrrs (c : CsrFile xlen) (addr : BitVec 12) (rs1val : BitVec xlen) (rs1IsZero : Bool) :
    BitVec xlen × CsrFile xlen :=
  let old := c.read addr
  (old, if !rs1IsZero then c.write addr (old ||| rs1val) else c)

def csrrc (c : CsrFile xlen) (addr : BitVec 12) (rs1val : BitVec xlen) (rs1IsZero : Bool) :
    BitVec xlen × CsrFile xlen :=
  let old := c.read addr
  (old, if !rs1IsZero then c.write addr (old &&& ~~~rs1val) else c)

def csrrwi (c : CsrFile xlen) (addr : BitVec 12) (zimm : BitVec 5) :
    BitVec xlen × CsrFile xlen :=
  (c.read addr, c.write addr (zimm.setWidth xlen))

def csrrsi (c : CsrFile xlen) (addr : BitVec 12) (zimm : BitVec 5) :
    BitVec xlen × CsrFile xlen :=
  let old := c.read addr
  (old, if zimm ≠ 0#5 then c.write addr (old ||| zimm.setWidth xlen) else c)

def csrrci (c : CsrFile xlen) (addr : BitVec 12) (zimm : BitVec 5) :
    BitVec xlen × CsrFile xlen :=
  let old := c.read addr
  (old, if zimm ≠ 0#5 then c.write addr (old &&& ~~~zimm.setWidth xlen) else c)

def getMTVEC (c : CsrFile xlen) : BitVec xlen := c.regs CSR.MTVEC
def getMEPC (c : CsrFile xlen) : BitVec xlen := c.regs CSR.MEPC

def setMEPC (c : CsrFile xlen) (val : BitVec xlen) : CsrFile xlen := c.put CSR.MEPC val
def setMCAUSE (c : CsrFile xlen) (val : BitVec xlen) : CsrFile xlen := c.put CSR.MCAUSE val
def setMTVAL (c : CsrFile xlen) (val : BitVec xlen) : CsrFile xlen := c.put CSR.MTVAL val

theorem regs_put (c : CsrFile xlen) (addr a : BitVec 12) (val : BitVec xlen) :
    (c.put addr val).regs a = if a = addr then val else c.regs a := rfl

theorem regs_write (c : CsrFile xlen) (addr a : BitVec 12) (val : BitVec xlen) :
    (c.write addr val).regs a = if a = addr ∧ isReadOnly addr = false then val else c.regs a := by
  by_cases ro : isReadOnly addr
  · simp [write, ro]
  · by_cases same : a = addr
    · simp [write, ro, regs_put, same]
    · simp [write, ro, regs_put, same]

theorem read_write_of_ne (c : CsrFile xlen) {addr a : BitVec 12} (other : a ≠ addr)
    (val : BitVec xlen) : (c.write addr val).read a = c.read a := by
  simp only [read, regs_write, other, false_and, if_false]

end CsrFile

structure Config where
  extensions : BitVec 32
  deriving DecidableEq, Repr

namespace Config

def EXT_M : BitVec 32 := 0b00001#32
def EXT_A : BitVec 32 := 0b00010#32

def hasExtension (c : Config) (e : BitVec 32) : Bool := c.extensions &&& e != 0#32

end Config

end XorOS
