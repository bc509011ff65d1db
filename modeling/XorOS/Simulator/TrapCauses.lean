import XorOS.Simulator.Observers

/- The codes that step() puts into mcause, and the calls that it makes of the hooks. -/
namespace XorOS.RVModel
open ISA
variable {M : Type} [MemT 32 M]

/-- The exceptions of csr_file.hpp that rv_model.hpp fires; EXC_BREAKPOINT is not among them. -/
def raised : List (BitVec 32) :=
  [CSR.EXC_INSN_MISALIGN, CSR.EXC_INSN_FAULT, CSR.EXC_ILLEGAL_INSN, CSR.EXC_LOAD_MISALIGN,
    CSR.EXC_LOAD_FAULT, CSR.EXC_STORE_MISALIGN, CSR.EXC_STORE_FAULT, CSR.EXC_ECALL_U,
    CSR.EXC_ECALL_S, CSR.EXC_ECALL_M, CSR.EXC_INSN_PAGE_FAULT, CSR.EXC_LOAD_PAGE_FAULT,
    CSR.EXC_STORE_PAGE_FAULT].map uword

def Raises (s s' : RVModel 32) : Prop :=
  s'.trapCount = s.trapCount ∨ ∃ cause ∈ raised, ∃ tval, s' = s.fireTrap cause tval

namespace Raises
variable {s s' : RVModel 32}

theorem trap {cause : BitVec 32} (listed : cause ∈ raised) (tval : BitVec 32) :
    Raises s (s.fireTrap cause tval) :=
  Or.inr ⟨cause, listed, tval, rfl⟩

theorem quiet (same : s'.trapCount = s.trapCount) : Raises s s' := Or.inl same

end Raises

variable (s : RVModel 32) (d : DecodedInstr 32) (m : M)

theorem raises_illegalInsn : Raises s (s.illegalInsn d).2 := .trap (by decide) _

theorem raises_jumpTo (target : BitVec 32) : Raises s (s.jumpTo target).2 := by
  unfold jumpTo
  split
  · exact .trap (by decide) _
  · exact .quiet rfl

theorem raises_executeJAL : Raises s (s.executeJAL d).2 := by
  unfold executeJAL
  simp only
  split
  · exact .trap (by decide) _
  · exact .quiet rfl

theorem raises_executeJALR : Raises s (s.executeJALR d).2 := by
  unfold executeJALR
  simp only
  split
  · exact .trap (by decide) _
  · exact .quiet rfl

theorem raises_executeBranch : Raises s (s.executeBranch d).2 := by
  unfold executeBranch
  split
  · exact raises_illegalInsn s d
  split
  · exact raises_jumpTo s _
  · exact .quiet rfl

theorem raises_executeOp : Raises s (s.executeOp d).2 := by
  unfold executeOp
  simp only
  split
  · split
    · exact raises_illegalInsn s d
    · exact .quiet rfl
  · exact .quiet rfl

theorem raises_executeCSR : Raises s (s.executeCSR d).2 := by
  unfold executeCSR
  simp only
  split
  · exact .trap (by decide) _
  split
  · exact raises_illegalInsn s d
  · exact .quiet rfl

theorem raises_executeSystem : Raises s (s.executeSystem d).2 := by
  unfold executeSystem
  split
  · split
    · refine .trap ?_ _
      unfold ecallCause
      split
      · decide
      split
      · decide
      · decide
    split
    · exact .quiet rfl
    split
    · exact .quiet rfl
    · exact .quiet rfl
  · exact raises_executeCSR s d

theorem pageFault_raised (access : MemAccess) : pageFaultCause access ∈ raised := by
  cases access <;> decide

theorem raises_executeLoad : Raises s (s.executeLoad d m).2.1 := by
  unfold executeLoad
  simp only
  split
  · exact .trap (by decide) _
  split
  · exact .trap (by decide) _
  rcases translateAddr_effect s (s.regs.get d.rs1 + d.imm) .load m with ⟨pa, m', eq⟩ | ⟨m', eq⟩
  · rw [eq]
    simp only
    split
    · exact .trap (by decide) _
    split
    · exact .trap (by decide) _
    · exact .quiet rfl
  · rw [eq]
    exact .trap (pageFault_raised .load) _

theorem raises_executeStore : Raises s (s.executeStore d m).2.1 := by
  unfold executeStore
  simp only
  split
  · exact .trap (by decide) _
  split
  · exact .trap (by decide) _
  rcases translateAddr_effect s (s.regs.get d.rs1 + d.imm) .store m with ⟨pa, m', eq⟩ | ⟨m', eq⟩
  · rw [eq]
    simp only
    split
    · exact .trap (by decide) _
    split
    · exact .trap (by decide) _
    · exact .quiet rfl
  · rw [eq]
    exact .trap (pageFault_raised .store) _

theorem raises_executeAMO : Raises s (s.executeAMO d m).2.1 := by
  unfold executeAMO
  split
  · exact .trap (by decide) _
  simp only
  split
  · exact .trap (by decide) _
  rcases translateAddr_effect s (s.regs.get d.rs1) .store m with ⟨pa, m', eq⟩ | ⟨m', eq⟩
  · rw [eq]
    simp only
    split
    · unfold executeLR
      split
      · exact .quiet rfl
      · exact .quiet rfl
    · unfold executeSC
      split
      · exact .quiet rfl
      · exact .quiet rfl
    · unfold executeAMOrmw
      split
      · exact .quiet rfl
      simp only
      split
      · exact .trap (by decide) _
      split
      · exact .quiet rfl
      · exact .quiet rfl
  · rw [eq]
    exact .trap (pageFault_raised .store) _

theorem raises_executeIllegal : Raises s (s.executeIllegal d).2 := by
  unfold executeIllegal
  split
  · exact .trap (by decide) _
  · exact .quiet rfl

theorem raises_executeInstr : Raises s (s.executeInstr d m).2.1 := by
  unfold executeInstr
  cases op : Opcode.ofBits? d.opcode with
  | none => exact raises_executeIllegal s d
  | some opcode =>
    cases opcode with
    | lui => exact .quiet rfl
    | auipc => exact .quiet rfl
    | jal => exact raises_executeJAL s d
    | jalr => exact raises_executeJALR s d
    | branch => exact raises_executeBranch s d
    | load => exact raises_executeLoad s d m
    | store => exact raises_executeStore s d m
    | opImm => exact .quiet rfl
    | op => exact raises_executeOp s d
    | amo => exact raises_executeAMO s d m
    | miscMem => exact .quiet rfl
    | system => exact raises_executeSystem s d

omit [MemT 32 M] in
theorem trapCount_fireTrap (cause tval : BitVec 32) :
    (s.fireTrap cause tval).trapCount = s.trapCount + 1 := by
  have same : (arch (s.fireTrap cause tval)).trapCount = _ :=
    congrArg RVModel.trapCount (arch_fireTrap s cause tval)
  refine same.trans ?_
  unfold trapped
  split
  · rfl
  · rfl

def fetchCalls : List (HookCall 32) :=
  match s.fetched m with
  | some raw =>
      if s.stepHook then [.step s.pc (Disasm.disassemble (Decoder.decode 32 raw))] else []
  | none => []

inductive TrapCalls (s s' : RVModel 32) : List (HookCall 32) → Prop
  | quiet (same : s'.trapCount = s.trapCount) : TrapCalls s s' []
  | trap {cause : BitVec 32} (listed : cause ∈ raised) (tval : BitVec 32)
      (same : arch s' = arch (s.fireTrap cause tval)) :
      TrapCalls s s' (if s.trapHook then [.trap cause s.pc tval] else [])

omit [MemT 32 M] in
theorem hookCalls_fireTrap (cause tval : BitVec 32) :
    (s.fireTrap cause tval).hookCalls =
      s.hookCalls ++ if s.trapHook then [.trap cause s.pc tval] else [] := by
  have same : (s.fireTrap cause tval).hookCalls =
      if s.trapHook then s.hookCalls ++ [.trap cause s.pc tval] else s.hookCalls :=
    congrArg Observer.hookCalls (observer_fireTrap s cause tval)
  rw [same]
  split
  · rfl
  · rw [List.append_nil]

/-- What step() has the hooks called with: the word about to be executed, then its trap. -/
theorem step_events : ∃ calls, TrapCalls s (s.step m).2.1 calls ∧
    (s.step m).2.1.hookCalls = s.hookCalls ++ (fetchCalls s m ++ calls) := by
  have fetch := fetch_cases s m
  unfold fetchCalls
  cases word : s.fetched m with
  | none =>
    rw [word] at fetch
    generalize s.step m = r at fetch ⊢
    cases fetch with
    | halted stopped => exact ⟨[], .quiet rfl, (List.append_nil _).symm⟩
    | pageFault running translated =>
      exact ⟨_, .trap (pageFault_raised .fetch) s.pc (arch_countInstr _),
        hookCalls_fireTrap s _ _⟩
    | accessFault running translated read =>
      exact ⟨_, .trap (by decide) s.pc (arch_countInstr _), hookCalls_fireTrap s _ _⟩
    | zero running translated read => exact ⟨[], .quiet rfl, (List.append_nil _).symm⟩
  | some raw =>
    obtain ⟨m', step⟩ := step_of_fetched word
    rw [step]
    unfold executeWord
    simp only
    let d := Decoder.decode 32 raw
    have raises := raises_executeInstr (s.callStepHook (Disasm.disassemble d)) d m'
    have logged := executeInstr_logged (s.callStepHook (Disasm.disassemble d)) d m'
    have hook := arch_callStepHook s (Disasm.disassemble d)
    have first : (s.callStepHook (Disasm.disassemble d)).hookCalls =
        s.hookCalls ++ if s.stepHook then [.step s.pc (Disasm.disassemble d)] else [] := by
      unfold callStepHook
      split
      · rfl
      · rw [List.append_nil]
    have kept : (s.callStepHook (Disasm.disassemble d)).trapHook = s.trapHook := by
      unfold callStepHook
      split
      · rfl
      · rfl
    generalize s.callStepHook (Disasm.disassemble d) = t at raises logged hook first kept ⊢
    have count : t.trapCount = s.trapCount := trapCount_of_arch hook
    have pc : t.pc = s.pc := pc_of_arch hook
    have effect := executeInstr_effect t d m'
    rcases eq : t.executeInstr d m' with ⟨result, t', m''⟩
    rw [eq] at raises logged effect
    change Raises t t' at raises
    change Logged t.observer t'.observer at logged
    rcases raises with none | ⟨cause, listed, tval, fired⟩
    · have silent : t'.hookCalls = t.hookCalls := logged.quiet.mpr fun _ => none
      refine ⟨[], ?_⟩
      rw [List.append_nil]
      cases result with
      | error e => exact ⟨.quiet (none.trans count), silent.trans first⟩
      | ok modified =>
        cases modified with
        | true => exact ⟨.quiet (none.trans count), silent.trans first⟩
        | false => exact ⟨.quiet (none.trans count), silent.trans first⟩
    · refine ⟨if s.trapHook then [.trap cause s.pc tval] else [], ?_⟩
      have same : arch t' = arch (s.fireTrap cause tval) := by
        rw [fired, arch_fireTrap, arch_fireTrap, hook]
      have counted : t'.trapCount = t.trapCount + 1 := by
        rw [fired]
        exact trapCount_fireTrap t cause tval
      have calls : t'.hookCalls = s.hookCalls ++
          ((if s.stepHook then [.step s.pc (Disasm.disassemble d)] else []) ++
            if s.trapHook then [.trap cause s.pc tval] else []) := by
        rw [fired, hookCalls_fireTrap, first, kept, pc, List.append_assoc]
      cases result with
      | error e => exact ⟨.trap listed tval same, calls⟩
      | ok modified =>
        -- whatever fires a trap reports that it has set the pc
        have jumped : modified = true := by
          change InstrEffect t _ (modified, t') at effect
          cases effect with
          | trap => rfl
          | mret => rfl
          | csrAccess => simp at counted
          | quiet _ quiet =>
            have uncounted := quiet.trapCount
            omega
        subst jumped
        exact ⟨.trap listed tval ((arch_countInstr _).trans same), calls⟩

theorem step_raises : (s.step m).2.1.trapCount = s.trapCount ∨
    ∃ cause ∈ raised, ∃ tval, arch (s.step m).2.1 = arch (s.fireTrap cause tval) := by
  obtain ⟨calls, events, -⟩ := step_events s m
  cases events with
  | quiet same => exact Or.inl same
  | trap listed tval same => exact Or.inr ⟨_, listed, tval, same⟩

end XorOS.RVModel
