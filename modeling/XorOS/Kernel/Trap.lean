import XorOS.Simulator.Privilege

/- trap.S and trap.c: the register frame, the dispatch on mcause and the way back to mret.
   trap_handler follows the calling convention: it returns with sp at the frame it was given,
   and leaves the frame alone. -/
namespace XorOS.Kernel
open ISA

/-- The frame that trap_entry pushes: word k, at sp + 4 * k, is for x(k + 1). -/
structure TrapFrame where
  sp : BitVec 32
  word : BitVec 5 → BitVec 32

def TRAP_FRAME_A7 : BitVec 5 := 16#5

/-- The stores of trap_entry. Word 1 is computed back from the new sp. -/
def saveFrame (regs : RegisterFile 32) : TrapFrame :=
  let sp := regs.get 2#5 - 128#32
  { sp := sp
    word := fun k => if k = 1#5 then sp + 128#32 else regs.get (k + 1#5) }

/-- The loads of trap_entry: they skip word 1, and sp comes from addi sp, sp, 128. -/
def restoreFrame (f : TrapFrame) : RegisterFile 32 :=
  ⟨fun i => if i = 2#5 then f.sp + 128#32 else f.word (i - 1#5)⟩

theorem restoreFrame_saveFrame (regs : RegisterFile 32) (i : BitVec 5) :
    (restoreFrame (saveFrame regs)).get i = regs.get i := by
  unfold RegisterFile.get restoreFrame saveFrame
  by_cases zero : i = 0#5
  · rw [if_pos zero, if_pos zero]
  by_cases sp : i = 2#5
  · subst sp
    rw [if_neg zero, if_neg zero]
    exact BitVec.sub_add_cancel (regs.get 2#5) 128#32
  · have index : i - 1#5 + 1#5 = i := BitVec.sub_add_cancel i 1#5
    have other : i - 1#5 ≠ 1#5 := by
      intro one
      rw [one] at index
      exact sp index.symm
    simp [RegisterFile.get, zero, sp, other, index]

def MCAUSE_INT : BitVec 32 := 1#32 <<< 31

def isEcall (cause : BitVec 32) : Bool := cause = 8#32 ∨ cause = 9#32 ∨ cause = 11#32

inductive Handler where
  | ecallHandler
  | timerHandler
  | panicHandler
  deriving DecidableEq, Repr

/-- trap_handler, with the tables as kernel_main fills them: timer_handler is registered for
    interrupt 7 and nothing else is. -/
def trapHandler (mcause : BitVec 32) : Handler :=
  let code := mcause &&& ~~~MCAUSE_INT
  if mcause &&& MCAUSE_INT = 0#32 ∧ isEcall code then .ecallHandler
  else if mcause &&& MCAUSE_INT ≠ 0#32 ∧ code = 7#32 then .timerHandler
  else .panicHandler

/-- ecall_handler halts on SYS_EXIT; SYS_PUTCHAR prints, and other calls are ignored. -/
def ecallHalts (f : TrapFrame) : Bool := f.word TRAP_FRAME_A7 = 10#32

/-- trap_entry after trap_handler has returned: mepc += 4 when mcause names an ecall, the
    registers from the frame, mret. Both CSRs are read as they are now. -/
def trapReturn (cpu : RVModel 32) (f : TrapFrame) : RVModel 32 :=
  let mepc := cpu.csr.read CSR.MEPC
  let csr :=
    if isEcall (cpu.csr.read CSR.MCAUSE) then cpu.csr.write CSR.MEPC (mepc + 4#32) else cpu.csr
  { cpu with csr := csr, regs := restoreFrame f }.executeMRET

structure Entered (s : RVModel 32) (cause : BitVec 32) (s' : RVModel 32) : Prop where
  mepc : s'.csr.regs CSR.MEPC = s.pc
  mcause : s'.csr.regs CSR.MCAUSE = cause
  masked : (s'.csr.regs CSR.MSTATUS).getLsbD 3 = false
  mtvec : s'.csr.regs CSR.MTVEC = s.csr.regs CSR.MTVEC
  regs : s'.regs = s.regs
  halted : s'.halted = s.halted

theorem fireTrap_entered {s : RVModel 32} (vector : s.csr.getMTVEC ≠ 0#32)
    (cause tval : BitVec 32) : Entered s cause (s.fireTrap cause tval) := by
  have entered : RVModel.arch (s.fireTrap cause tval) = _ := RVModel.arch_of_trap vector rfl
  have csr : (s.fireTrap cause tval).csr = _ := RVModel.csr_of_trap vector rfl
  have halted := congrArg RVModel.halted entered
  refine ⟨?_, ?_, ?_, ?_, RVModel.regs_fireTrap _ _ _, halted⟩
  · rw [csr, RVModel.regs_trapCsr]
    rfl
  · rw [csr, RVModel.regs_trapCsr]
    rfl
  · rw [csr, RVModel.regs_trapCsr, if_pos rfl]
    exact RVModel.mie_trapMstatus (by decide) _ _
  · rw [csr, RVModel.regs_trapCsr]
    rfl

theorem pc_executeMRET (s : RVModel 32) : s.executeMRET.pc = s.executeMRET.csr.regs CSR.MEPC := rfl

structure Returned (s : RVModel 32) (f : TrapFrame) (s' : RVModel 32) : Prop where
  pc : s'.pc = s.csr.regs CSR.MEPC
  regs : s'.regs = restoreFrame f
  mepc : s'.csr.regs CSR.MEPC = s.csr.regs CSR.MEPC
  mcause : s'.csr.regs CSR.MCAUSE = s.csr.regs CSR.MCAUSE
  mtvec : s'.csr.regs CSR.MTVEC = s.csr.regs CSR.MTVEC
  halted : s'.halted = s.halted

theorem trapReturn_returned {s : RVModel 32} (noEcall : isEcall (s.csr.regs CSR.MCAUSE) = false)
    (f : TrapFrame) : Returned s f (trapReturn s f) := by
  have read : s.csr.read CSR.MCAUSE = s.csr.regs CSR.MCAUSE := rfl
  have value : trapReturn s f = { s with regs := restoreFrame f }.executeMRET := by
    unfold trapReturn
    rw [read, noEcall]
    rfl
  rw [value]
  have kept (a : BitVec 12) (other : a ≠ CSR.MSTATUS) :
      ({ s with regs := restoreFrame f }.executeMRET).csr.regs a = s.csr.regs a := by
    rw [RVModel.regs_executeMRET, if_neg other]
  exact ⟨kept CSR.MEPC (by decide), rfl, kept CSR.MEPC (by decide), kept CSR.MCAUSE (by decide),
    kept CSR.MTVEC (by decide), rfl⟩

/-- An ecall whose handler returns comes back behind the instruction, registers unchanged. -/
theorem trapReturn_ecall {s : RVModel 32} (vector : s.csr.getMTVEC ≠ 0#32) {cause : BitVec 32}
    (ecall : isEcall cause = true) (tval : BitVec 32) :
    let s' := trapReturn (s.fireTrap cause tval) (saveFrame s.regs)
    s'.pc = s.pc + 4#32 ∧ s'.regs = restoreFrame (saveFrame s.regs) ∧
      s'.csr.regs CSR.MTVEC = s.csr.regs CSR.MTVEC ∧ s'.halted = s.halted := by
  intro s'
  have entered := fireTrap_entered vector cause tval
  have read : (s.fireTrap cause tval).csr.read CSR.MCAUSE = cause := entered.mcause
  have value : s' = { s.fireTrap cause tval with
      csr := (s.fireTrap cause tval).csr.write CSR.MEPC
        ((s.fireTrap cause tval).csr.read CSR.MEPC + 4#32)
      regs := restoreFrame (saveFrame s.regs) }.executeMRET := by
    change trapReturn (s.fireTrap cause tval) (saveFrame s.regs) = _
    unfold trapReturn
    rw [read, ecall]
    rfl
  have mepc : (s.fireTrap cause tval).csr.read CSR.MEPC = s.pc := entered.mepc
  have written : ((s.fireTrap cause tval).csr.write CSR.MEPC
      ((s.fireTrap cause tval).csr.read CSR.MEPC + 4#32)).regs CSR.MEPC = s.pc + 4#32 := by
    rw [CsrFile.regs_write, if_pos ⟨rfl, rfl⟩, mepc]
  refine ⟨?_, ?_, ?_, ?_⟩
  · rw [value, pc_executeMRET, RVModel.regs_executeMRET, if_neg (by decide)]
    exact written
  · rw [value]
    rfl
  · rw [value, RVModel.regs_executeMRET, if_neg (by decide)]
    simp only [CsrFile.regs_write]
    rw [if_neg (by decide)]
    exact entered.mtvec
  · rw [value]
    exact entered.halted

end XorOS.Kernel
