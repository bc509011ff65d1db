import XorOS.Simulator.Decoder
import XorOS.Simulator.Alu
import XorOS.Simulator.Registers
import XorOS.Simulator.MemoryModel

/- rv_model.hpp: the processor. RVModel holds a reference to its memory, so the memory
   object is passed beside it. Debug printing is left out; asserts are not part of step
   (a Release build compiles them out), the alignment assert is PcAligned. -/
namespace XorOS
open ISA

/-- enum class PrivMode : uint32_t. MRET casts any two-bit MPP to it, 2 included. -/
abbrev PrivMode := BitVec 2
abbrev PrivMode.U : PrivMode := 0#2
abbrev PrivMode.S : PrivMode := 1#2
abbrev PrivMode.M : PrivMode := 3#2

inductive MemAccess where
  | fetch | load | store
  deriving DecidableEq, Repr

inductive Exn where
  | outOfRange (e : OutOfRange)
  | illegalOpcode (opcode : BitVec 7) (pc : Nat)
  deriving DecidableEq, Repr

def Exn.what : Exn → String
  | .outOfRange e => e.what
  | .illegalOpcode opcode pc =>
      "RVModel: illegal opcode " ++ toHex opcode.toNat ++ " at PC=" ++ toHex pc

inductive HookCall (xlen : Nat) where
  | step (pc : BitVec xlen) (dis : String)
  | trap (cause mepc mtval : BitVec xlen)
  deriving DecidableEq, Repr

/-- stepHook and trapHook say whether a hook is installed, hookCalls lists the calls made
    of them. trapCount is a history variable: the number of fireTrap calls. -/
structure RVModel (xlen : Nat) where
  pc : BitVec xlen
  config : Config
  regs : RegisterFile xlen
  csr : CsrFile xlen
  halted : Bool
  instrCount : BitVec 64
  privMode : PrivMode
  stepHook : Bool
  trapHook : Bool
  hookCalls : List (HookCall xlen)
  trapCount : Nat

namespace RVModel
variable {xlen : Nat} {M : Type} [MemT xlen M]

def new (cfg : Config) : RVModel xlen where
  pc := 0#(xlen)
  config := cfg
  regs := .new
  csr := .new
  halted := false
  instrCount := 0#64
  privMode := .M
  stepHook := false
  trapHook := false
  hookCalls := []
  trapCount := 0

def init (s : RVModel xlen) (startPC stackPointer : BitVec xlen) : RVModel xlen :=
  { s with
    regs := if stackPointer ≠ 0#(xlen) then RegisterFile.new.set 2#5 stackPointer else .new
    csr := .new
    pc := startPC
    halted := false
    instrCount := 0#64
    privMode := .M }

def advancePC (s : RVModel xlen) : RVModel xlen := { s with pc := s.pc + 4#(xlen) }

def countInstr (s : RVModel xlen) : RVModel xlen := { s with instrCount := s.instrCount + 1#64 }

def halt (s : RVModel xlen) : RVModel xlen := { s with halted := true }

def setReg (s : RVModel xlen) (rd : BitVec 5) (val : BitVec xlen) : RVModel xlen :=
  { s with regs := s.regs.set rd val }

def jump (s : RVModel xlen) (target : BitVec xlen) : RVModel xlen := { s with pc := target }

def callStepHook (s : RVModel xlen) (dis : String) : RVModel xlen :=
  if s.stepHook then { s with hookCalls := s.hookCalls ++ [.step s.pc dis] } else s

def callTrapHook (s : RVModel xlen) (cause tval : BitVec xlen) : RVModel xlen :=
  if s.trapHook then { s with hookCalls := s.hookCalls ++ [.trap cause s.pc tval] } else s

/-- mstatus on trap entry: MPIE = MIE, MIE = 0, MPP = the current mode. -/
def trapMstatus (mstatus : BitVec xlen) (priv : PrivMode) : BitVec xlen :=
  let mie := mstatus &&& uword CSR.MSTATUS_MIE ≠ 0#(xlen)
  let mstatus := mstatus &&& ~~~(uword (CSR.MSTATUS_MIE ||| CSR.MSTATUS_MPIE ||| CSR.MSTATUS_MPP))
  let mstatus := if mie then mstatus ||| uword CSR.MSTATUS_MPIE else mstatus
  mstatus ||| (priv.setWidth xlen <<< 11)

def fireTrap (s : RVModel xlen) (cause tval : BitVec xlen) : RVModel xlen :=
  let s := { s.callTrapHook cause tval with trapCount := s.trapCount + 1 }
  let mtvec := s.csr.getMTVEC
  if mtvec = 0#(xlen) then s.halt
  else
    let csr := ((s.csr.setMEPC s.pc).setMCAUSE cause).setMTVAL tval
    let mstatus := csr.read CSR.MSTATUS
    { s with
      csr := csr.write CSR.MSTATUS (trapMstatus mstatus s.privMode)
      privMode := .M
      pc := mtvec &&& ~~~3#(xlen) }

def mpp (mstatus : BitVec xlen) : PrivMode := ((mstatus.setWidth 32 >>> 11) &&& 3#32).setWidth 2

/-- mstatus on return: MIE = MPIE, MPIE = 1, MPP = U. -/
def mretMstatus (mstatus : BitVec xlen) : BitVec xlen :=
  let mpie := mstatus &&& uword CSR.MSTATUS_MPIE ≠ 0#(xlen)
  let mstatus := mstatus &&& ~~~(uword (CSR.MSTATUS_MIE ||| CSR.MSTATUS_MPIE ||| CSR.MSTATUS_MPP))
  let mstatus := if mpie then mstatus ||| uword CSR.MSTATUS_MIE else mstatus
  mstatus ||| uword CSR.MSTATUS_MPIE

def executeMRET (s : RVModel xlen) : RVModel xlen :=
  let mstatus := s.csr.read CSR.MSTATUS
  let csr := s.csr.write CSR.MSTATUS (mretMstatus mstatus)
  { s with privMode := mpp mstatus, csr := csr, pc := csr.getMEPC }

def triggerInterrupt (s : RVModel xlen) (cause : BitVec xlen) : Bool × RVModel xlen :=
  if s.halted then (false, s)
  else if s.csr.read CSR.MSTATUS &&& uword CSR.MSTATUS_MIE = 0#(xlen) then (false, s)
  else
    let code := cause &&& ~~~(uword CSR.MCAUSE_INTERRUPT)
    if s.csr.read CSR.MIE &&& (1#(xlen) <<< code) = 0#(xlen) then (false, s)
    else (true, s.fireTrap cause 0#(xlen))

def pageFaultCause : MemAccess → BitVec xlen
  | .fetch => uword CSR.EXC_INSN_PAGE_FAULT
  | .load => uword CSR.EXC_LOAD_PAGE_FAULT
  | .store => uword CSR.EXC_STORE_PAGE_FAULT

def vpn (va : BitVec xlen) (lvl : Nat) : BitVec xlen :=
  if lvl = 0 then (va >>> 12) &&& 0x3FF#(xlen) else (va >>> 22) &&& 0x3FF#(xlen)

/-- The loop of translateAddr up to its leaf branch: the level and PTE where the leaf branch
    is entered, or none where the loop faults (unreadable PTE, V=0, pointer at level 0). -/
def walkLeaf (va : BitVec xlen) (lvl : Nat) (a : BitVec xlen) (m : M) :
    Option (Nat × BitVec xlen) × M :=
  match MemT.readWord (a ||| (vpn va lvl <<< 2)) m with
  | (.error _, m) => (none, m)
  | (.ok raw, m) =>
      let pte := raw.setWidth xlen
      if pte &&& 0x1#(xlen) = 0#(xlen) then (none, m)
      else if pte &&& 0xA#(xlen) ≠ 0#(xlen) then (some (lvl, pte), m)
      else
        match lvl with
        | 0 => (none, m)
        | lvl + 1 => walkLeaf va lvl ((pte >>> 10) <<< 12) m

/-- The leaf branch: misaligned superpages fault, and so do U-mode accesses without PTE.U. -/
def leafAddr (priv : PrivMode) (va : BitVec xlen) (lvl : Nat) (pte : BitVec xlen) :
    Option (BitVec xlen) :=
  if lvl = 1 ∧ (pte >>> 10) &&& 0x3FF#(xlen) ≠ 0#(xlen) then none
  else if priv = .U ∧ pte &&& (1#(xlen) <<< 4) = 0#(xlen) then none
  else if lvl = 1 then
    some ((((pte >>> 20) &&& 0xFFF#(xlen)) <<< 22) ||| (vpn va 0 <<< 12) ||| (va &&& 0xFFF#(xlen)))
  else some (((pte >>> 10) <<< 12) ||| (va &&& 0xFFF#(xlen)))

def rootTable (satp : BitVec xlen) : BitVec xlen := (satp &&& 0x3FFFFF#(xlen)) <<< 12

def translateAddr (s : RVModel xlen) (va : BitVec xlen) (access : MemAccess) (m : M) :
    Option (BitVec xlen) × RVModel xlen × M :=
  let satp := s.csr.read CSR.SATP
  if satp >>> 31 = 0#(xlen) then (some va, s, m)
  else
    match walkLeaf va 1 (rootTable satp) m with
    | (none, m) => (none, s.fireTrap (pageFaultCause access) va, m)
    | (some (lvl, pte), m) =>
        match leafAddr s.privMode va lvl pte with
        | none => (none, s.fireTrap (pageFaultCause access) va, m)
        | some pa => (some pa, s, m)

def illegalInsn (s : RVModel xlen) (d : DecodedInstr xlen) : Bool × RVModel xlen :=
  (true, s.fireTrap (uword CSR.EXC_ILLEGAL_INSN) (d.opcode.setWidth xlen))

def jumpTo (s : RVModel xlen) (target : BitVec xlen) : Bool × RVModel xlen :=
  if target &&& 0b11#(xlen) ≠ 0#(xlen) then
    (true, s.fireTrap (uword CSR.EXC_INSN_MISALIGN) target)
  else (true, s.jump target)

def executeJAL (s : RVModel xlen) (d : DecodedInstr xlen) : Bool × RVModel xlen :=
  let ret := s.pc + 4#(xlen)
  let target := s.pc + d.imm
  if target &&& 0b11#(xlen) ≠ 0#(xlen) then
    (true, s.fireTrap (uword CSR.EXC_INSN_MISALIGN) target)
  else (true, (s.setReg d.rd ret).jump target)

def executeJALR (s : RVModel xlen) (d : DecodedInstr xlen) : Bool × RVModel xlen :=
  let ret := s.pc + 4#(xlen)
  let target := (s.regs.get d.rs1 + d.imm) &&& ~~~0b01#(xlen)
  if target &&& 0b10#(xlen) ≠ 0#(xlen) then
    (true, s.fireTrap (uword CSR.EXC_INSN_MISALIGN) target)
  else (true, (s.setReg d.rd ret).jump target)

def branchTaken (f : Funct3Branch) (r1 r2 : BitVec xlen) : Bool :=
  match f with
  | .beq => r1 = r2
  | .bne => r1 ≠ r2
  | .blt => r1.slt r2
  | .bge => r2.sle r1
  | .bltu => r1 < r2
  | .bgeu => r2 ≤ r1

def executeBranch (s : RVModel xlen) (d : DecodedInstr xlen) : Bool × RVModel xlen :=
  match Funct3Branch.ofBits? d.funct3 with
  | none => s.illegalInsn d
  | some f =>
      if branchTaken f (s.regs.get d.rs1) (s.regs.get d.rs2) then s.jumpTo (s.pc + d.imm)
      else (false, s)

def opImmResult (d : DecodedInstr xlen) (rs1v immv : BitVec xlen) : BitVec xlen :=
  match Funct3ALU.ofBits d.funct3 with
  | .addSub => ALU.execute .ADD rs1v immv
  | .sll => ALU.execute .SLL rs1v immv
  | .slt => ALU.execute .SLT rs1v immv
  | .sltu => ALU.execute .SLTU rs1v immv
  | .xor => ALU.execute .XOR rs1v immv
  | .srlSra =>
      ALU.execute (if d.funct7 &&& 0b00100000#7 ≠ 0#7 then .SRA else .SRL) rs1v immv
  | .or => ALU.execute .OR rs1v immv
  | .and => ALU.execute .AND rs1v immv

def executeOpImm (s : RVModel xlen) (d : DecodedInstr xlen) : Bool × RVModel xlen :=
  (false, s.setReg d.rd (opImmResult d (s.regs.get d.rs1) d.imm))

def mulOp (f : Funct3MUL) : ALU.Op :=
  match f with
  | .mul => .MUL
  | .mulh => .MULH
  | .mulhsu => .MULHSU
  | .mulhu => .MULHU
  | .div => .DIV
  | .divu => .DIVU
  | .rem => .REM
  | .remu => .REMU

def aluOp (d : DecodedInstr xlen) : ALU.Op :=
  match Funct3ALU.ofBits d.funct3 with
  | .addSub => if d.funct7 = F7_ALT then .SUB else .ADD
  | .sll => .SLL
  | .slt => .SLT
  | .sltu => .SLTU
  | .xor => .XOR
  | .srlSra => if d.funct7 = F7_ALT then .SRA else .SRL
  | .or => .OR
  | .and => .AND

def executeOp (s : RVModel xlen) (d : DecodedInstr xlen) : Bool × RVModel xlen :=
  let rs1v := s.regs.get d.rs1
  let rs2v := s.regs.get d.rs2
  if d.funct7 = F7_MEXT then
    if !s.config.hasExtension Config.EXT_M then s.illegalInsn d
    else
      (false, s.setReg d.rd (ALU.execute (mulOp (Funct3MUL.ofBits d.funct3)) rs1v rs2v))
  else (false, s.setReg d.rd (ALU.execute (aluOp d) rs1v rs2v))

def csrOp (f : Funct3CSR) (csr : CsrFile xlen) (addr : BitVec 12) (rs1 : BitVec 5)
    (rs1v : BitVec xlen) : BitVec xlen × CsrFile xlen :=
  match f with
  | .csrrw => csr.csrrw addr rs1v
  | .csrrs => csr.csrrs addr rs1v (rs1 = 0#5)
  | .csrrc => csr.csrrc addr rs1v (rs1 = 0#5)
  | .csrrwi => csr.csrrwi addr rs1
  | .csrrsi => csr.csrrsi addr rs1
  | .csrrci => csr.csrrci addr rs1

def csrPriv (addr : BitVec 12) : PrivMode := ((addr >>> 8) &&& 0x3#12).setWidth 2

def executeCSR (s : RVModel xlen) (d : DecodedInstr xlen) : Bool × RVModel xlen :=
  let addr := (d.imm &&& 0xFFF#(xlen)).setWidth 12
  if s.privMode < csrPriv addr then
    (true, s.fireTrap (uword CSR.EXC_ILLEGAL_INSN) (addr.setWidth xlen))
  else
    match Funct3CSR.ofBits? d.funct3 with
    | none => s.illegalInsn d
    | some f =>
        let (old, csr) := csrOp f s.csr addr d.rs1 (s.regs.get d.rs1)
        (false, { s with csr := csr, regs := s.regs.set d.rd old })

def ecallCause (priv : PrivMode) : BitVec xlen :=
  if priv = .U then uword CSR.EXC_ECALL_U
  else if priv = .S then uword CSR.EXC_ECALL_S
  else uword CSR.EXC_ECALL_M

def executeSystem (s : RVModel xlen) (d : DecodedInstr xlen) : Bool × RVModel xlen :=
  if d.funct3 = 0#3 then
    if d.imm = 0#(xlen) then (true, s.fireTrap (ecallCause s.privMode) 0#(xlen))
    else if d.imm = 0x302#(xlen) then (true, s.executeMRET)
    else if d.imm &&& 0xFE0#(xlen) = 0x120#(xlen) then (false, s)
    else (false, s.halt)
  else s.executeCSR d

def loadValue (f : Funct3Load) (pa : BitVec xlen) (m : M) :
    Except OutOfRange (BitVec xlen) × M :=
  match f with
  | .lb => (MemT.readByte pa m).map (Except.map fun b => signExtend xlen (b.setWidth 32) 8) id
  | .lh => (MemT.readHalf pa m).map (Except.map fun h => signExtend xlen (h.setWidth 32) 16) id
  | .lw => (MemT.readWord pa m).map (Except.map fun w => w.signExtend xlen) id
  | .lbu => (MemT.readByte pa m).map (Except.map fun b => b.setWidth xlen) id
  | .lhu => (MemT.readHalf pa m).map (Except.map fun h => h.setWidth xlen) id

def executeLoad (s : RVModel xlen) (d : DecodedInstr xlen) (m : M) :
    Bool × RVModel xlen × M :=
  let f3 := Funct3Load.ofBits? d.funct3
  let addr := s.regs.get d.rs1 + d.imm
  if f3 = some .lw ∧ addr &&& 0b11#(xlen) ≠ 0#(xlen) then
    (true, s.fireTrap (uword CSR.EXC_LOAD_MISALIGN) addr, m)
  else if (f3 = some .lh ∨ f3 = some .lhu) ∧ addr &&& 0b01#(xlen) ≠ 0#(xlen) then
    (true, s.fireTrap (uword CSR.EXC_LOAD_MISALIGN) addr, m)
  else
    match s.translateAddr addr .load m with
    | (none, s, m) => (true, s, m)
    | (some pa, s, m) =>
        match f3 with
        | none =>
            (true, s.fireTrap (uword CSR.EXC_ILLEGAL_INSN) (d.opcode.setWidth xlen), m)
        | some f =>
            match loadValue f pa m with
            | (.error _, m) => (true, s.fireTrap (uword CSR.EXC_LOAD_FAULT) addr, m)
            | (.ok result, m) => (false, s.setReg d.rd result, m)

def storeValue (f : Funct3Store) (pa data : BitVec xlen) (m : M) :
    Except OutOfRange Unit × M :=
  match f with
  | .sb => MemT.writeByte pa ((data &&& 0xFF#(xlen)).setWidth 8) m
  | .sh => MemT.writeHalf pa ((data &&& 0xFFFF#(xlen)).setWidth 16) m
  | .sw => MemT.writeWord pa (data.setWidth 32) m

def executeStore (s : RVModel xlen) (d : DecodedInstr xlen) (m : M) :
    Bool × RVModel xlen × M :=
  let f3 := Funct3Store.ofBits? d.funct3
  let addr := s.regs.get d.rs1 + d.imm
  let data := s.regs.get d.rs2
  if f3 = some .sw ∧ addr &&& 0b11#(xlen) ≠ 0#(xlen) then
    (true, s.fireTrap (uword CSR.EXC_STORE_MISALIGN) addr, m)
  else if f3 = some .sh ∧ addr &&& 0b01#(xlen) ≠ 0#(xlen) then
    (true, s.fireTrap (uword CSR.EXC_STORE_MISALIGN) addr, m)
  else
    match s.translateAddr addr .store m with
    | (none, s, m) => (true, s, m)
    | (some pa, s, m) =>
        match f3 with
        | none =>
            (true, s.fireTrap (uword CSR.EXC_ILLEGAL_INSN) (d.opcode.setWidth xlen), m)
        | some f =>
            match storeValue f pa data m with
            | (.error _, m) => (true, s.fireTrap (uword CSR.EXC_STORE_FAULT) addr, m)
            | (.ok (), m) => (false, s, MemT.invalidateReservation xlen m)

def amoResult (f : Funct5AMO) (loaded rs2v : BitVec xlen) : Option (BitVec xlen) :=
  match f with
  | .amoswap => some rs2v
  | .amoadd => some (loaded + rs2v)
  | .amoxor => some (loaded ^^^ rs2v)
  | .amoand => some (loaded &&& rs2v)
  | .amoor => some (loaded ||| rs2v)
  | .amomin => some (if loaded.slt rs2v then loaded else rs2v)
  | .amomax => some (if rs2v.slt loaded then loaded else rs2v)
  | .amominu => some (if loaded < rs2v then loaded else rs2v)
  | .amomaxu => some (if rs2v < loaded then loaded else rs2v)
  | .lr | .sc => none

def executeLR (s : RVModel xlen) (d : DecodedInstr xlen) (pa : BitVec xlen) (m : M) :
    Except OutOfRange Bool × RVModel xlen × M :=
  match MemT.readWord pa m with
  | (.error e, m) => (.error e, s, m)
  | (.ok w, m) => (.ok false, s.setReg d.rd (w.setWidth xlen), MemT.reserveLoad pa m)

def executeSC (s : RVModel xlen) (d : DecodedInstr xlen) (pa rs2v : BitVec xlen) (m : M) :
    Except OutOfRange Bool × RVModel xlen × M :=
  match MemT.storeConditional pa (rs2v.setWidth 32) m with
  | (.error e, m) => (.error e, s, m)
  | (.ok ok, m) => (.ok false, s.setReg d.rd (if ok then 0#(xlen) else 1#(xlen)), m)

def executeAMOrmw (s : RVModel xlen) (d : DecodedInstr xlen) (f : Option Funct5AMO)
    (pa rs2v : BitVec xlen) (m : M) : Except OutOfRange Bool × RVModel xlen × M :=
  match MemT.readWord pa m with
  | (.error e, m) => (.error e, s, m)
  | (.ok w, m) =>
      let loaded := w.setWidth xlen
      match f.bind fun f => amoResult f loaded rs2v with
      | none =>
          (.ok true, s.fireTrap (uword CSR.EXC_ILLEGAL_INSN) (d.opcode.setWidth xlen), m)
      | some result =>
          match MemT.writeWord pa (result.setWidth 32) (MemT.invalidateReservation xlen m) with
          | (.error e, m) => (.error e, s, m)
          | (.ok (), m) => (.ok false, s.setReg d.rd loaded, m)

def funct5 (d : DecodedInstr xlen) : BitVec 5 := (d.funct7 >>> 2).setWidth 5

/-- Nothing here is inside a try block: a memory exception escapes. -/
def executeAMO (s : RVModel xlen) (d : DecodedInstr xlen) (m : M) :
    Except OutOfRange Bool × RVModel xlen × M :=
  if !s.config.hasExtension Config.EXT_A then
    (.ok true, s.fireTrap (uword CSR.EXC_ILLEGAL_INSN) (d.opcode.setWidth xlen), m)
  else
    let addr := s.regs.get d.rs1
    let rs2v := s.regs.get d.rs2
    if addr &&& 0b11#(xlen) ≠ 0#(xlen) then
      (.ok true, s.fireTrap (uword CSR.EXC_STORE_MISALIGN) addr, m)
    else
      match s.translateAddr addr .store m with
      | (none, s, m) => (.ok true, s, m)
      | (some pa, s, m) =>
          match Funct5AMO.ofBits? (funct5 d) with
          | some .lr => s.executeLR d pa m
          | some .sc => s.executeSC d pa rs2v m
          | f => s.executeAMOrmw d f pa rs2v m

def executeIllegal (s : RVModel xlen) (d : DecodedInstr xlen) : Except Exn Bool × RVModel xlen :=
  if s.csr.getMTVEC ≠ 0#(xlen) then
    (.ok true, s.fireTrap (uword CSR.EXC_ILLEGAL_INSN) (d.opcode.setWidth xlen))
  else (.error (.illegalOpcode d.opcode s.pc.toNat), s)

def executeInstr (s : RVModel xlen) (d : DecodedInstr xlen) (m : M) :
    Except Exn Bool × RVModel xlen × M :=
  let cpuOnly (r : Bool × RVModel xlen) : Except Exn Bool × RVModel xlen × M :=
    (.ok r.1, r.2, m)
  let inMemory (r : Bool × RVModel xlen × M) : Except Exn Bool × RVModel xlen × M :=
    (.ok r.1, r.2)
  match Opcode.ofBits? d.opcode with
  | some .lui => cpuOnly (false, s.setReg d.rd d.imm)
  | some .auipc => cpuOnly (false, s.setReg d.rd (s.pc + d.imm))
  | some .jal => cpuOnly (s.executeJAL d)
  | some .jalr => cpuOnly (s.executeJALR d)
  | some .branch => cpuOnly (s.executeBranch d)
  | some .load => inMemory (s.executeLoad d m)
  | some .store => inMemory (s.executeStore d m)
  | some .opImm => cpuOnly (s.executeOpImm d)
  | some .op => cpuOnly (s.executeOp d)
  | some .amo => (s.executeAMO d m).map (Except.mapError Exn.outOfRange) id
  | some .miscMem => cpuOnly (false, s)
  | some .system => cpuOnly (s.executeSystem d)
  | none =>
      let r := s.executeIllegal d
      (r.1, r.2, m)

/-- The part of step() after the fetch: decode, disassemble, execute, advance the PC. -/
def executeWord (s : RVModel xlen) (raw : WordT) (m : M) : Except Exn Unit × RVModel xlen × M :=
  let instr := Decoder.decode xlen raw
  match (s.callStepHook (Disasm.disassemble instr)).executeInstr instr m with
  | (.error e, s, m) => (.error e, s, m)
  | (.ok pcModified, s, m) => (.ok (), (if pcModified then s else s.advancePC).countInstr, m)

def step (s : RVModel xlen) (m : M) : Except Exn Unit × RVModel xlen × M :=
  if s.halted then (.ok (), s, m)
  else
    match s.translateAddr s.pc .fetch m with
    | (none, s, m) => (.ok (), s.countInstr, m)
    | (some pa, s, m) =>
        match MemT.readWord pa m with
        | (.error _, m) => (.ok (), (s.fireTrap (uword CSR.EXC_INSN_FAULT) s.pc).countInstr, m)
        | (.ok raw, m) =>
            if raw = 0#32 then (.ok (), s.halt, m)
            else s.executeWord raw m

def PcAligned (s : RVModel xlen) : Prop := s.pc &&& 0b11#(xlen) = 0#(xlen)

instance (s : RVModel xlen) : Decidable (PcAligned s) :=
  inferInstanceAs (Decidable (_ = _))

end RVModel

end XorOS
