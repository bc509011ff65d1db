import XorOS.Simulator.RvModel

/- What one step() can do to the processor, whatever the memory type: fire one trap, return
   from one, access a CSR that the mode may access, or leave mode and CSRs alone. -/
namespace XorOS.RVModel
open ISA
variable {xlen : Nat} {M : Type} [MemT xlen M]

/-- The state without the instruction counter and the calls of the host hooks. -/
def arch (s : RVModel xlen) : RVModel xlen := { s with instrCount := 0#64, hookCalls := [] }

theorem pc_of_arch {s t : RVModel xlen} (same : arch s = arch t) : s.pc = t.pc := by
  have eq : (arch s).pc = (arch t).pc := by rw [same]
  exact eq

theorem csr_of_arch {s t : RVModel xlen} (same : arch s = arch t) : s.csr = t.csr := by
  have eq : (arch s).csr = (arch t).csr := by rw [same]
  exact eq

theorem privMode_of_arch {s t : RVModel xlen} (same : arch s = arch t) :
    s.privMode = t.privMode := by
  have eq : (arch s).privMode = (arch t).privMode := by rw [same]
  exact eq

theorem trapCount_of_arch {s t : RVModel xlen} (same : arch s = arch t) :
    s.trapCount = t.trapCount := by
  have eq : (arch s).trapCount = (arch t).trapCount := by rw [same]
  exact eq

theorem regs_of_arch {s t : RVModel xlen} (same : arch s = arch t) : s.regs = t.regs := by
  have eq : (arch s).regs = (arch t).regs := by rw [same]
  exact eq

theorem config_of_arch {s t : RVModel xlen} (same : arch s = arch t) : s.config = t.config := by
  have eq : (arch s).config = (arch t).config := by rw [same]
  exact eq

@[simp] theorem arch_countInstr (s : RVModel xlen) : arch s.countInstr = arch s := rfl

@[simp] theorem arch_callStepHook (s : RVModel xlen) (dis : String) :
    arch (s.callStepHook dis) = arch s := by
  unfold callStepHook
  split
  · rfl
  · rfl

def trapCsr (csr : CsrFile xlen) (pc : BitVec xlen) (priv : PrivMode) (cause tval : BitVec xlen) :
    CsrFile xlen :=
  let csr := ((csr.setMEPC pc).setMCAUSE cause).setMTVAL tval
  csr.write CSR.MSTATUS (trapMstatus (csr.read CSR.MSTATUS) priv)

theorem regs_trapCsr (csr : CsrFile xlen) (pc : BitVec xlen) (priv : PrivMode)
    (cause tval : BitVec xlen) (a : BitVec 12) : (trapCsr csr pc priv cause tval).regs a =
      if a = CSR.MSTATUS then trapMstatus (csr.regs CSR.MSTATUS) priv
      else if a = CSR.MTVAL then tval else if a = CSR.MCAUSE then cause
      else if a = CSR.MEPC then pc else csr.regs a := by
  have writable : CsrFile.isReadOnly CSR.MSTATUS = false := rfl
  have read : (((csr.setMEPC pc).setMCAUSE cause).setMTVAL tval).read CSR.MSTATUS =
      csr.regs CSR.MSTATUS := rfl
  simp only [trapCsr, CsrFile.regs_write, writable, and_true, read]
  rfl

/-- fireTrap, hooks aside: without a vector it only halts. -/
def trapped (s : RVModel xlen) (cause tval : BitVec xlen) : RVModel xlen :=
  if s.csr.getMTVEC = 0#(xlen) then { s with halted := true, trapCount := s.trapCount + 1 }
  else
    { s with
      csr := trapCsr s.csr s.pc s.privMode cause tval
      privMode := .M
      pc := s.csr.getMTVEC &&& ~~~3#(xlen)
      trapCount := s.trapCount + 1 }

theorem arch_fireTrap (s : RVModel xlen) (cause tval : BitVec xlen) :
    arch (s.fireTrap cause tval) = trapped (arch s) cause tval := by
  unfold fireTrap callTrapHook trapped
  by_cases hooked : s.trapHook
  · by_cases vector : s.csr.getMTVEC = 0#(xlen)
    · simp [hooked, vector, arch, halt]
    · simp [hooked, vector, arch, trapCsr]
  · by_cases vector : s.csr.getMTVEC = 0#(xlen)
    · simp [hooked, vector, arch, halt]
    · simp [hooked, vector, arch, trapCsr]

@[simp] theorem regs_fireTrap (s : RVModel xlen) (cause tval : BitVec xlen) :
    (s.fireTrap cause tval).regs = s.regs := by
  have same := congrArg regs (arch_fireTrap s cause tval)
  unfold trapped at same
  split at same
  · exact same
  · exact same

theorem arch_of_trap {s s' : RVModel xlen} {cause tval : BitVec xlen}
    (vector : s.csr.getMTVEC ≠ 0#(xlen)) (same : arch s' = arch (s.fireTrap cause tval)) :
    arch s' = arch { s with
      csr := trapCsr s.csr s.pc s.privMode cause tval
      privMode := .M
      pc := s.csr.getMTVEC &&& ~~~3#(xlen)
      trapCount := s.trapCount + 1 } := by
  have armed : (arch s).csr.getMTVEC ≠ 0#(xlen) := vector
  rw [same, arch_fireTrap, trapped, if_neg armed]
  rfl

theorem csr_of_trap {s s' : RVModel xlen} {cause tval : BitVec xlen}
    (vector : s.csr.getMTVEC ≠ 0#(xlen)) (same : arch s' = arch (s.fireTrap cause tval)) :
    s'.csr = trapCsr s.csr s.pc s.privMode cause tval :=
  csr_of_arch (arch_of_trap vector same)

theorem trap_reports {s s' : RVModel xlen} {cause tval : BitVec xlen}
    (vector : s.csr.getMTVEC ≠ 0#(xlen)) (same : arch s' = arch (s.fireTrap cause tval)) :
    s'.csr.read CSR.MCAUSE = cause ∧ s'.csr.read CSR.MTVAL = tval := by
  rw [csr_of_trap vector same]
  exact ⟨regs_trapCsr _ _ _ _ _ CSR.MCAUSE, regs_trapCsr _ _ _ _ _ CSR.MTVAL⟩

theorem arch_of_trap_unvectored {s s' : RVModel xlen} {cause tval : BitVec xlen}
    (vector : s.csr.getMTVEC = 0#(xlen)) (same : arch s' = arch (s.fireTrap cause tval)) :
    arch s' = arch { s with halted := true, trapCount := s.trapCount + 1 } := by
  have unarmed : (arch s).csr.getMTVEC = 0#(xlen) := vector
  rw [same, arch_fireTrap, trapped, if_pos unarmed]
  rfl

theorem trap_cases {s s' : RVModel xlen} {cause tval : BitVec xlen}
    (same : arch s' = arch (s.fireTrap cause tval)) :
    s'.trapCount = s.trapCount + 1 ∧ s'.regs = s.regs ∧
      (s'.csr = s.csr ∧ s'.privMode = s.privMode ∧ s'.halted = true ∨
        s'.csr = trapCsr s.csr s.pc s.privMode cause tval ∧ s'.privMode = .M ∧
          s'.pc = s.csr.getMTVEC &&& ~~~3#(xlen)) := by
  have regs : s'.regs = s.regs := (regs_of_arch same).trans (regs_fireTrap s cause tval)
  by_cases vector : s.csr.getMTVEC = 0#(xlen)
  · have halts := arch_of_trap_unvectored vector same
    have csr := csr_of_arch halts
    have priv := privMode_of_arch halts
    exact ⟨trapCount_of_arch halts, regs, Or.inl ⟨csr, priv, congrArg halted halts⟩⟩
  · have entered := arch_of_trap vector same
    exact ⟨trapCount_of_arch entered, regs,
      Or.inr ⟨csr_of_arch entered, privMode_of_arch entered, congrArg pc entered⟩⟩

theorem arch_executeMRET (s : RVModel xlen) :
    arch s.executeMRET = arch (executeMRET (arch s)) := rfl

def Quiet (s s' : RVModel xlen) : Prop :=
  arch s' = { arch s with pc := s'.pc, regs := s'.regs, halted := s'.halted }

namespace Quiet

theorem refl (s : RVModel xlen) : Quiet s s := rfl

theorem csr {s s' : RVModel xlen} (h : Quiet s s') : s'.csr = s.csr := by
  have same : (arch s').csr = _ := congrArg RVModel.csr h
  exact same

theorem privMode {s s' : RVModel xlen} (h : Quiet s s') : s'.privMode = s.privMode := by
  have same : (arch s').privMode = _ := congrArg RVModel.privMode h
  exact same

theorem trapCount {s s' : RVModel xlen} (h : Quiet s s') : s'.trapCount = s.trapCount := by
  have same : (arch s').trapCount = _ := congrArg RVModel.trapCount h
  exact same

theorem of_arch {s s' t t' : RVModel xlen} (h : Quiet s s') (before : arch t = arch s)
    (after : arch t' = arch s') : Quiet t t' := by
  have pc : (arch t').pc = (arch s').pc := by rw [after]
  have regs : (arch t').regs = (arch s').regs := by rw [after]
  have halted : (arch t').halted = (arch s').halted := by rw [after]
  unfold Quiet at h ⊢
  rw [after, before, h]
  simp only [arch] at pc regs halted ⊢
  rw [pc, regs, halted]

theorem advancePC {s s' : RVModel xlen} (h : Quiet s s') : Quiet s s'.advancePC := by
  have moved : arch s'.advancePC = { arch s' with pc := s'.pc + 4#(xlen) } := rfl
  unfold Quiet at h ⊢
  rw [moved, h]
  rfl

end Quiet

def IsMRET (d : DecodedInstr xlen) : Prop :=
  Opcode.ofBits? d.opcode = some .system ∧ d.funct3 = 0#3 ∧ d.imm = 0x302#(xlen)

instance (d : DecodedInstr xlen) : Decidable (IsMRET d) :=
  inferInstanceAs (Decidable (_ ∧ _ ∧ _))

/-- An execute function's result for d: pcModified and the new processor. -/
inductive InstrEffect (s : RVModel xlen) (d : DecodedInstr xlen) : Bool × RVModel xlen → Prop
  | trap (cause tval : BitVec xlen) : InstrEffect s d (true, s.fireTrap cause tval)
  | mret (instr : IsMRET d) : InstrEffect s d (true, s.executeMRET)
  | csrAccess (f : Funct3CSR) (addr : BitVec 12) (rs1 : BitVec 5) (v : BitVec xlen)
      (regs : RegisterFile xlen) (allowed : ¬s.privMode < csrPriv addr) :
      InstrEffect s d (false, { s with csr := (csrOp f s.csr addr rs1 v).2, regs := regs })
  | quiet (modified : Bool) {s' : RVModel xlen} (same : Quiet s s') :
      InstrEffect s d (modified, s')

theorem translateAddr_effect (s : RVModel xlen) (va : BitVec xlen) (access : MemAccess) (m : M) :
    (∃ pa m', s.translateAddr va access m = (some pa, s, m')) ∨
      ∃ m', s.translateAddr va access m =
        (none, s.fireTrap (pageFaultCause access) va, m') := by
  unfold translateAddr
  simp only
  split
  · exact Or.inl ⟨_, _, rfl⟩
  split
  · exact Or.inr ⟨_, rfl⟩
  split
  · exact Or.inr ⟨_, rfl⟩
  · exact Or.inl ⟨_, _, rfl⟩

theorem jumpTo_effect (s : RVModel xlen) (d : DecodedInstr xlen) (target : BitVec xlen) :
    InstrEffect s d (s.jumpTo target) := by
  unfold jumpTo
  split
  · exact .trap _ _
  · exact .quiet _ rfl

theorem executeJAL_effect (s : RVModel xlen) (d : DecodedInstr xlen) :
    InstrEffect s d (s.executeJAL d) := by
  unfold executeJAL
  simp only
  split
  · exact .trap _ _
  · exact .quiet _ rfl

theorem executeJALR_effect (s : RVModel xlen) (d : DecodedInstr xlen) :
    InstrEffect s d (s.executeJALR d) := by
  unfold executeJALR
  simp only
  split
  · exact .trap _ _
  · exact .quiet _ rfl

theorem executeBranch_effect (s : RVModel xlen) (d : DecodedInstr xlen) :
    InstrEffect s d (s.executeBranch d) := by
  unfold executeBranch
  split
  · exact .trap _ _
  · split
    · exact jumpTo_effect s d _
    · exact .quiet _ (.refl s)

theorem executeCSR_effect (s : RVModel xlen) (d : DecodedInstr xlen) :
    InstrEffect s d (s.executeCSR d) := by
  unfold executeCSR
  simp only
  split
  · exact .trap _ _
  · rename_i allowed
    split
    · exact .trap _ _
    · exact .csrAccess _ _ _ _ _ allowed

theorem executeSystem_effect (s : RVModel xlen) (d : DecodedInstr xlen)
    (system : Opcode.ofBits? d.opcode = some .system) : InstrEffect s d (s.executeSystem d) := by
  unfold executeSystem
  split
  · rename_i funct3
    split
    · exact .trap _ _
    split
    · rename_i imm
      exact .mret ⟨system, funct3, imm⟩
    split
    · exact .quiet _ (.refl s)
    · exact .quiet _ rfl
  · exact executeCSR_effect s d

inductive Plain (s : RVModel xlen) : Bool × RVModel xlen → Prop
  | trap (cause tval : BitVec xlen) : Plain s (true, s.fireTrap cause tval)
  | write (regs : RegisterFile xlen) : Plain s (false, { s with regs := regs })

theorem Plain.effect {s : RVModel xlen} {r : Bool × RVModel xlen} (h : Plain s r)
    (d : DecodedInstr xlen) : InstrEffect s d r := by
  cases h with
  | trap cause tval => exact .trap cause tval
  | write regs => exact .quiet _ rfl

theorem executeOp_plain (s : RVModel xlen) (d : DecodedInstr xlen) : Plain s (s.executeOp d) := by
  unfold executeOp
  simp only
  split
  · split
    · exact .trap _ _
    · exact .write _
  · exact .write _

theorem executeLoad_plain (s : RVModel xlen) (d : DecodedInstr xlen) (m : M) :
    Plain s ((s.executeLoad d m).1, (s.executeLoad d m).2.1) := by
  unfold executeLoad
  simp only
  split
  · exact .trap _ _
  split
  · exact .trap _ _
  rcases translateAddr_effect s (s.regs.get d.rs1 + d.imm) .load m with ⟨pa, m', eq⟩ | ⟨m', eq⟩
  · rw [eq]
    simp only
    split
    · exact .trap _ _
    split
    · exact .trap _ _
    · exact .write _
  · rw [eq]
    exact .trap _ _

theorem executeStore_plain (s : RVModel xlen) (d : DecodedInstr xlen) (m : M) :
    Plain s ((s.executeStore d m).1, (s.executeStore d m).2.1) := by
  unfold executeStore
  simp only
  split
  · exact .trap _ _
  split
  · exact .trap _ _
  rcases translateAddr_effect s (s.regs.get d.rs1 + d.imm) .store m with ⟨pa, m', eq⟩ | ⟨m', eq⟩
  · rw [eq]
    simp only
    split
    · exact .trap _ _
    split
    · exact .trap _ _
    · exact .write s.regs
  · rw [eq]
    exact .trap _ _

/-- Where an exception escapes the processor is unchanged. -/
def Effect {ε : Type} (s : RVModel xlen) (d : DecodedInstr xlen)
    (r : Except ε Bool × RVModel xlen × M) : Prop :=
  match r with
  | (.ok modified, s', _) => InstrEffect s d (modified, s')
  | (.error _, s', _) => s' = s

def PlainOrThrows {ε : Type} (s : RVModel xlen) (r : Except ε Bool × RVModel xlen × M) : Prop :=
  match r with
  | (.ok modified, s', _) => Plain s (modified, s')
  | (.error _, s', _) => s' = s

omit [MemT xlen M] in
theorem PlainOrThrows.effect {ε : Type} {s : RVModel xlen}
    {r : Except ε Bool × RVModel xlen × M} (h : PlainOrThrows s r) (d : DecodedInstr xlen) :
    Effect s d r := by
  rcases r with ⟨result, s', m'⟩
  cases result with
  | error e => exact h
  | ok modified => exact Plain.effect h d

omit [MemT xlen M] in
theorem PlainOrThrows.mapError {ε ε' : Type} {s : RVModel xlen}
    {r : Except ε Bool × RVModel xlen × M} (h : PlainOrThrows s r) (wrap : ε → ε') :
    PlainOrThrows s (Prod.map (Except.mapError wrap) id r) := by
  rcases r with ⟨result, s', m'⟩
  cases result with
  | error e => exact h
  | ok modified => exact h

theorem executeLR_plain (s : RVModel xlen) (d : DecodedInstr xlen) (pa : BitVec xlen) (m : M) :
    PlainOrThrows s (s.executeLR d pa m) := by
  unfold executeLR
  split
  · rfl
  · exact .write _

theorem executeSC_plain (s : RVModel xlen) (d : DecodedInstr xlen) (pa rs2v : BitVec xlen)
    (m : M) : PlainOrThrows s (s.executeSC d pa rs2v m) := by
  unfold executeSC
  split
  · rfl
  · exact .write _

theorem executeAMOrmw_plain (s : RVModel xlen) (d : DecodedInstr xlen) (f : Option Funct5AMO)
    (pa rs2v : BitVec xlen) (m : M) : PlainOrThrows s (s.executeAMOrmw d f pa rs2v m) := by
  unfold executeAMOrmw
  split
  · rfl
  simp only
  split
  · exact .trap _ _
  split
  · rfl
  · exact .write _

theorem executeAMO_plain (s : RVModel xlen) (d : DecodedInstr xlen) (m : M) :
    PlainOrThrows s (s.executeAMO d m) := by
  unfold executeAMO
  split
  · exact .trap _ _
  simp only
  split
  · exact .trap _ _
  rcases translateAddr_effect s (s.regs.get d.rs1) .store m with ⟨pa, m', eq⟩ | ⟨m', eq⟩
  · rw [eq]
    simp only
    split
    · exact executeLR_plain s d pa _
    · exact executeSC_plain s d pa _ _
    · exact executeAMOrmw_plain s d _ pa _ _
  · rw [eq]
    exact .trap _ _

omit [MemT xlen M] in
theorem executeIllegal_plain (s : RVModel xlen) (d : DecodedInstr xlen) (m : M) :
    PlainOrThrows s ((s.executeIllegal d).1, (s.executeIllegal d).2, m) := by
  unfold executeIllegal
  split
  · exact .trap _ _
  · rfl

theorem executeInstr_effect (s : RVModel xlen) (d : DecodedInstr xlen) (m : M) :
    Effect s d (s.executeInstr d m) := by
  unfold executeInstr
  cases op : Opcode.ofBits? d.opcode with
  | none => exact (executeIllegal_plain s d m).effect d
  | some opcode =>
    cases opcode with
    | lui => exact .quiet _ rfl
    | auipc => exact .quiet _ rfl
    | jal => exact executeJAL_effect s d
    | jalr => exact executeJALR_effect s d
    | branch => exact executeBranch_effect s d
    | load => exact (executeLoad_plain s d m).effect d
    | store => exact (executeStore_plain s d m).effect d
    | opImm => exact .quiet _ rfl
    | op => exact (executeOp_plain s d).effect d
    | amo => exact ((executeAMO_plain s d m).mapError Exn.outOfRange).effect d
    | miscMem => exact .quiet _ rfl
    | system => exact executeSystem_effect s d op

/-- The word that step() decodes and executes, if it gets that far. -/
def fetched (s : RVModel xlen) (m : M) : Option WordT :=
  if s.halted then none
  else
    match s.translateAddr s.pc .fetch m with
    | (none, _, _) => none
    | (some pa, _, m) =>
        match MemT.readWord pa m with
        | (.error _, _) => none
        | (.ok raw, _) => if raw = 0#32 then none else some raw

inductive FetchCases (s : RVModel xlen) (m : M) :
    Option WordT → Except Exn Unit × RVModel xlen × M → Prop
  | halted (stopped : s.halted = true) : FetchCases s m none (.ok (), s, m)
  | pageFault {m' : M} (running : s.halted = false)
      (translated : s.translateAddr s.pc .fetch m =
        (none, s.fireTrap (pageFaultCause .fetch) s.pc, m')) :
      FetchCases s m none (.ok (), (s.fireTrap (pageFaultCause .fetch) s.pc).countInstr, m')
  | accessFault {pa : BitVec xlen} {m' m'' : M} {e : OutOfRange} (running : s.halted = false)
      (translated : s.translateAddr s.pc .fetch m = (some pa, s, m'))
      (read : MemT.readWord pa m' = (.error e, m'')) :
      FetchCases s m none
        (.ok (), (s.fireTrap (uword CSR.EXC_INSN_FAULT) s.pc).countInstr, m'')
  | zero {pa : BitVec xlen} {m' m'' : M} (running : s.halted = false)
      (translated : s.translateAddr s.pc .fetch m = (some pa, s, m'))
      (read : MemT.readWord pa m' = (.ok 0#32, m'')) :
      FetchCases s m none (.ok (), s.halt, m'')
  | word {pa : BitVec xlen} {m' m'' : M} {raw : WordT} (running : s.halted = false)
      (translated : s.translateAddr s.pc .fetch m = (some pa, s, m'))
      (read : MemT.readWord pa m' = (.ok raw, m'')) (nonzero : raw ≠ 0#32) :
      FetchCases s m (some raw) (s.executeWord raw m'')

theorem fetch_cases (s : RVModel xlen) (m : M) : FetchCases s m (s.fetched m) (s.step m) := by
  unfold fetched step
  by_cases stopped : s.halted
  · rw [if_pos stopped, if_pos stopped]
    exact .halted stopped
  have running : s.halted = false := Bool.not_eq_true _ ▸ stopped
  rw [if_neg stopped, if_neg stopped]
  rcases translateAddr_effect s s.pc .fetch m with ⟨pa, m', eq⟩ | ⟨m', eq⟩
  · rcases read : MemT.readWord pa m' with ⟨result, m''⟩
    simp only [eq, read]
    cases result with
    | error e => exact .accessFault running eq read
    | ok raw =>
      by_cases zero : raw = 0#32
      · subst zero
        exact .zero running eq read
      · simp only [zero, if_false]
        exact .word running eq read zero
  · simp only [eq]
    exact .pageFault running eq

theorem step_of_fetched {s : RVModel xlen} {m : M} {raw : WordT} (word : s.fetched m = some raw) :
    ∃ m', s.step m = s.executeWord raw m' := by
  have fetch := fetch_cases s m
  rw [word] at fetch
  generalize s.step m = r at fetch ⊢
  cases fetch with
  | word running translated read nonzero => exact ⟨_, rfl⟩

theorem step_of_not_fetched {s : RVModel xlen} {m : M} (word : s.fetched m = none) :
    (s.step m).1 = .ok () ∧ (Quiet s (s.step m).2.1 ∧ (s.step m).2.1.pc = s.pc ∨
      ∃ cause tval, arch (s.step m).2.1 = arch (s.fireTrap cause tval)) := by
  have fetch := fetch_cases s m
  rw [word] at fetch
  generalize s.step m = r at fetch ⊢
  cases fetch with
  | halted stopped => exact ⟨rfl, Or.inl ⟨.refl s, rfl⟩⟩
  | pageFault running translated => exact ⟨rfl, Or.inr ⟨_, _, rfl⟩⟩
  | accessFault running translated read => exact ⟨rfl, Or.inr ⟨_, _, rfl⟩⟩
  | zero running translated read => exact ⟨rfl, Or.inl ⟨rfl, rfl⟩⟩

/-- One step() from s over m ends in s'. -/
inductive StepEffect (s : RVModel xlen) (m : M) (s' : RVModel xlen) : Prop
  | trap (cause tval : BitVec xlen) (same : arch s' = arch (s.fireTrap cause tval))
  | mret (raw : WordT) (word : s.fetched m = some raw)
      (instr : IsMRET (Decoder.decode xlen raw)) (same : arch s' = arch s.executeMRET)
  | csrAccess (f : Funct3CSR) (addr : BitVec 12) (rs1 : BitVec 5) (v : BitVec xlen)
      (allowed : ¬s.privMode < csrPriv addr) (csr : s'.csr = (csrOp f s.csr addr rs1 v).2)
      (priv : s'.privMode = s.privMode) (count : s'.trapCount = s.trapCount)
  | quiet (same : Quiet s s')

theorem step_effect (s : RVModel xlen) (m : M) : StepEffect s m (s.step m).2.1 := by
  cases word : s.fetched m with
  | none =>
    rcases (step_of_not_fetched word).2 with ⟨same, _⟩ | ⟨cause, tval, same⟩
    · exact .quiet same
    · exact .trap cause tval same
  | some raw =>
    obtain ⟨m', step⟩ := step_of_fetched word
    rw [step]
    unfold executeWord
    simp only
    have effect := executeInstr_effect
      (s.callStepHook (Disasm.disassemble (Decoder.decode xlen raw))) (Decoder.decode xlen raw) m'
    have hook := arch_callStepHook s (Disasm.disassemble (Decoder.decode xlen raw))
    generalize s.callStepHook (Disasm.disassemble (Decoder.decode xlen raw)) = t at effect hook ⊢
    rcases eq : t.executeInstr (Decoder.decode xlen raw) m' with ⟨result, t', m''⟩
    rw [eq] at effect
    cases result with
    | error e =>
      have same : t' = t := effect
      rw [same]
      exact .quiet ((Quiet.refl t).of_arch hook.symm rfl)
    | ok modified =>
      change InstrEffect t _ (modified, t') at effect
      cases effect with
      | trap cause tval =>
        refine .trap cause tval ?_
        simp only [if_true, arch_countInstr]
        rw [arch_fireTrap, arch_fireTrap, hook]
      | mret instr =>
        refine .mret raw word instr ?_
        simp only [if_true, arch_countInstr]
        rw [arch_executeMRET, hook, ← arch_executeMRET]
      | csrAccess f addr rs1 v regs allowed =>
        have csr : t.csr = s.csr := by
          have same : (arch t).csr = _ := congrArg RVModel.csr hook
          exact same
        have priv : t.privMode = s.privMode := by
          have same : (arch t).privMode = _ := congrArg RVModel.privMode hook
          exact same
        have count : t.trapCount = s.trapCount := by
          have same : (arch t).trapCount = _ := congrArg RVModel.trapCount hook
          exact same
        rw [priv] at allowed
        refine .csrAccess f addr rs1 v allowed ?_ priv count
        rw [← csr]
        rfl
      | quiet modified same =>
        cases modified with
        | true => exact .quiet (same.of_arch hook.symm rfl)
        | false => exact .quiet (same.advancePC.of_arch hook.symm rfl)

end XorOS.RVModel
