import XorOS.Simulator.MemoryEffects
import XorOS.Simulator.Mstatus

/- A trap is taken before the instruction has changed anything: what a step that traps leaves
   behind. -/
namespace XorOS.RVModel
open ISA MemoryModel
variable {Dev : Type}

/-- The state of s' is that of s, but for the entry of one trap. -/
structure PreciseTrap (s s' : RVModel 32) : Prop where
  one : s'.trapCount = s.trapCount + 1
  regs : ∀ r, s'.regs.get r = s.regs.get r
  csrs : ∀ a, a ≠ CSR.MEPC → a ≠ CSR.MCAUSE → a ≠ CSR.MTVAL → a ≠ CSR.MSTATUS →
    s'.csr.read a = s.csr.read a
  mepc : s'.csr.read CSR.MEPC = s.pc
  pc : s'.pc = s.csr.read CSR.MTVEC &&& ~~~3#32
  priv : s'.privMode = .M
  mpp : mpp (s'.csr.read CSR.MSTATUS) = s.privMode
  mpie : (s'.csr.read CSR.MSTATUS).getLsbD 7 = (s.csr.read CSR.MSTATUS).getLsbD 3
  mie : (s'.csr.read CSR.MSTATUS).getLsbD 3 = false
  mstatus : ∀ i, i < 32 → i ≠ 3 → i ≠ 7 → i ≠ 11 → i ≠ 12 →
    (s'.csr.read CSR.MSTATUS).getLsbD i = (s.csr.read CSR.MSTATUS).getLsbD i

theorem preciseTrap_of_arch {s s' : RVModel 32} {cause tval : BitVec 32}
    (vector : s.csr.getMTVEC ≠ 0#32) (same : arch s' = arch (s.fireTrap cause tval)) :
    PreciseTrap s s' := by
  obtain ⟨count, regs, _⟩ := trap_cases same
  have entered := arch_of_trap vector same
  have csr := csr_of_trap vector same
  have mstatus : s'.csr.read CSR.MSTATUS = trapMstatus (s.csr.read CSR.MSTATUS) s.privMode := by
    rw [csr]
    exact regs_trapCsr _ _ _ _ _ CSR.MSTATUS
  refine ⟨count, ?_, ?_, ?_, ?_, ?_, ?_, ?_, ?_, ?_⟩
  · intro r
    rw [regs]
  · intro a notMepc notMcause notMtval notMstatus
    unfold CsrFile.read
    rw [csr, regs_trapCsr, if_neg notMstatus, if_neg notMtval, if_neg notMcause, if_neg notMepc]
  · rw [csr]
    exact regs_trapCsr _ _ _ _ _ CSR.MEPC
  · exact congrArg RVModel.pc entered
  · exact congrArg RVModel.privMode entered
  · rw [mstatus, mpp_trapMstatus (by omega)]
  · rw [mstatus, getLsbD_trapMstatus _ _ (by omega)]
    rfl
  · rw [mstatus, mie_trapMstatus (by omega)]
  · intro i inside not3 not7 not11 not12
    rw [mstatus, getLsbD_trapMstatus _ _ inside, if_neg not3, if_neg not7, if_neg (by omega)]

theorem executeInstr_mem_of_trap {s : RVModel 32} {d : DecodedInstr 32} {m : MemoryModel 32 Dev}
    (fired : (s.executeInstr d m).2.1.trapCount ≠ s.trapCount) :
    (s.executeInstr d m).2.2 = m := by
  by_cases store : Opcode.ofBits? d.opcode = some .store
  · have outcome := executeStore_outcome s d m
    unfold executeInstr at fired ⊢
    simp only [store] at fired ⊢
    rcases eq : s.executeStore d m with ⟨modified, t, m'⟩
    rw [eq] at outcome fired
    cases outcome with
    | trap => rfl
    | stored => exact absurd rfl fired
  by_cases amo : Opcode.ofBits? d.opcode = some .amo
  · have outcome := executeAMO_outcome s d m
    unfold executeInstr at fired ⊢
    simp only [amo] at fired ⊢
    rcases eq : s.executeAMO d m with ⟨result, t, m'⟩
    rw [eq] at outcome fired
    cases outcome with
    | trap => rfl
    | unreadable => rfl
    | lr => exact absurd rfl fired
    | sc => exact absurd rfl fired
    | scThrows => exact absurd rfl fired
    | rmw => exact absurd rfl fired
  · exact executeInstr_mem store amo

theorem step_mem_of_trap {s : RVModel 32} {m : MemoryModel 32 Dev}
    (fired : (s.step m).2.1.trapCount ≠ s.trapCount) : (s.step m).2.2 = m := by
  cases word : s.fetched m with
  | none => exact step_mem_of_not_fetched word
  | some raw =>
    have count :=
      trapCount_of_arch (arch_callStepHook s (Disasm.disassemble (Decoder.decode 32 raw)))
    rw [step_eq_executeWord word] at fired ⊢
    rw [executeWord_mem]
    apply executeInstr_mem_of_trap
    rw [count]
    intro quiet
    apply fired
    unfold executeWord
    simp only
    split
    · rename_i eq
      rw [eq] at quiet
      exact quiet
    · rename_i modified t m' eq
      rw [eq] at quiet
      cases modified with
      | true => exact quiet
      | false => exact quiet

/-- Traps are precise: if step() fires a trap it fires one, the memory with its reservation and
    the registers are those before the step, and so are all CSRs but those of trap entry. -/
theorem traps_precise {s : RVModel 32} {m : MemoryModel 32 Dev} (vector : s.csr.getMTVEC ≠ 0#32)
    (fired : (s.step m).2.1.trapCount ≠ s.trapCount) :
    PreciseTrap s (s.step m).2.1 ∧ (s.step m).2.2 = m := by
  refine ⟨?_, step_mem_of_trap fired⟩
  cases step_effect s m with
  | trap cause tval same => exact preciseTrap_of_arch vector same
  | mret raw word instr same => exact absurd (trapCount_of_arch same) fired
  | csrAccess f addr rs1 v allowed csr priv count => exact absurd count fired
  | quiet same => exact absurd same.trapCount fired

/-- sw x1, 0(x1) with x1 past the end of 16 bytes. -/
def strayStoreImage : MemoryModel 32 Unit := .ofWords 16 [0x0010A023#32] ()

def strayStoreCpu : RVModel 32 :=
  { RVModel.new ⟨0#32⟩ with
    csr := CsrFile.new.put CSR.MTVEC 9#32
    regs := RegisterFile.new.set 1#5 16#32 }

theorem traps_precise_store :
    PreciseTrap strayStoreCpu (strayStoreCpu.step strayStoreImage).2.1 ∧
      (strayStoreCpu.step strayStoreImage).2.2 = strayStoreImage :=
  traps_precise (by decide) (by decide)

end XorOS.RVModel
