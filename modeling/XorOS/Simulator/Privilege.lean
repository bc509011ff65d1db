import XorOS.Library.Runs
import XorOS.Simulator.Mstatus
import XorOS.Simulator.StepEffects

/- MRET checks no privilege. What protects M-mode is that mstatus.MPP is U in every other mode,
   along all runs from init(). -/
namespace XorOS.RVModel
open ISA Runs
variable {xlen : Nat} {M : Type} [MemT xlen M]

inductive Call (xlen : Nat) where
  | step
  | interrupt (cause : BitVec xlen)

def call (s : RVModel xlen) (m : M) : Call xlen → RVModel xlen × M
  | .step => (s.step m).2
  | .interrupt cause => ((s.triggerInterrupt cause).2, m)

/-- A processor, its memory and, as a history variable, what mtvec was when a call made in
    M-mode last returned: the value M-mode last left there. -/
structure Watched (xlen : Nat) (M : Type) where
  cpu : RVModel xlen
  mem : M
  machineMtvec : BitVec xlen

def Watched.after (t : Watched xlen M) (c : Call xlen) : Watched xlen M where
  cpu := (t.cpu.call t.mem c).1
  mem := (t.cpu.call t.mem c).2
  machineMtvec :=
    if t.cpu.privMode = .M then (t.cpu.call t.mem c).1.csr.getMTVEC else t.machineMtvec

def calls (xlen : Nat) (M : Type) [MemT xlen M] : System (Watched xlen M) (Call xlen) where
  init t := ∃ (cpu : RVModel xlen) (startPC stackPointer : BitVec xlen) (m : M),
    t = ⟨cpu.init startPC stackPointer, m, 0#(xlen)⟩
  step t c t' := t' = t.after c

theorem reachable_after {t : Watched xlen M} (reached : (calls xlen M).Reachable t)
    (c : Call xlen) : (calls xlen M).Reachable (t.after c) :=
  reached.next rfl

theorem call_effect (s : RVModel xlen) (m : M) (c : Call xlen) :
    StepEffect s m (s.call m c).1 := by
  cases c with
  | step => exact step_effect s m
  | interrupt cause =>
    unfold call triggerInterrupt
    simp only
    split
    · exact .quiet (.refl s)
    split
    · exact .quiet (.refl s)
    split
    · exact .quiet (.refl s)
    · exact .trap _ _ rfl

theorem csrOp_regs_ne (f : Funct3CSR) (csr : CsrFile xlen) {addr a : BitVec 12} (ne : a ≠ addr)
    (rs1 : BitVec 5) (v : BitVec xlen) : (csrOp f csr addr rs1 v).2.regs a = csr.regs a := by
  have kept (val : BitVec xlen) : (csr.write addr val).regs a = csr.regs a := by
    rw [CsrFile.regs_write, if_neg fun h => ne h.1]
  cases f with
  | csrrw => exact kept _
  | csrrs => simp only [csrOp, CsrFile.csrrs]; split <;> [exact kept _; rfl]
  | csrrc => simp only [csrOp, CsrFile.csrrc]; split <;> [exact kept _; rfl]
  | csrrwi => exact kept _
  | csrrsi => simp only [csrOp, CsrFile.csrrsi]; split <;> [exact kept _; rfl]
  | csrrci => simp only [csrOp, CsrFile.csrrci]; split <;> [exact kept _; rfl]

theorem csrOp_machine_level {s : RVModel xlen} {f : Funct3CSR} {addr : BitVec 12} {rs1 : BitVec 5}
    {v : BitVec xlen} (below : s.privMode ≠ .M) (allowed : ¬s.privMode < csrPriv addr)
    {a : BitVec 12} (machine : csrPriv a = .M) :
    (csrOp f s.csr addr rs1 v).2.regs a = s.csr.regs a := by
  apply csrOp_regs_ne
  rintro rfl
  rw [machine] at allowed
  exact below (by revert allowed; generalize s.privMode = p; revert p; decide)

theorem regs_executeMRET (s : RVModel xlen) (a : BitVec 12) : s.executeMRET.csr.regs a =
    if a = CSR.MSTATUS then mretMstatus (s.csr.regs CSR.MSTATUS) else s.csr.regs a := by
  have writable : CsrFile.isReadOnly CSR.MSTATUS = false := rfl
  have read : s.csr.read CSR.MSTATUS = s.csr.regs CSR.MSTATUS := rfl
  simp only [executeMRET, CsrFile.regs_write, writable, and_true, read]

/-- Outside M-mode, MRET can only return to U-mode. -/
def MppUser (s : RVModel xlen) : Prop := s.privMode ≠ .M → mpp (s.csr.regs CSR.MSTATUS) = .U

theorem mppUser_effect {s s' : RVModel xlen} {m : M} (h : MppUser s)
    (effect : StepEffect s m s') : MppUser s' := by
  intro below
  cases effect with
  | trap cause tval same =>
    obtain ⟨_, _, ⟨csr, priv, _⟩ | ⟨_, priv, _⟩⟩ := trap_cases same
    · rw [csr]
      exact h (priv ▸ below)
    · exact absurd priv below
  | mret raw word instr same =>
    rw [csr_of_arch same, regs_executeMRET, if_pos rfl]
    exact mpp_mretMstatus _
  | csrAccess f addr rs1 v allowed csr priv count =>
    rw [priv] at below
    rw [csr, csrOp_machine_level below allowed rfl]
    exact h below
  | quiet same =>
    rw [same.privMode] at below
    rw [same.csr]
    exact h below

theorem mtvec_effect {s s' : RVModel xlen} {m : M} (below : s.privMode ≠ .M)
    (effect : StepEffect s m s') : s'.csr.getMTVEC = s.csr.getMTVEC := by
  unfold CsrFile.getMTVEC
  cases effect with
  | trap cause tval same =>
    obtain ⟨_, _, ⟨csr, _⟩ | ⟨csr, _⟩⟩ := trap_cases same
    · rw [csr]
    · rw [csr, regs_trapCsr]
      rfl
  | mret raw word instr same =>
    rw [csr_of_arch same, regs_executeMRET, if_neg (by decide)]
  | csrAccess f addr rs1 v allowed csr priv count =>
    rw [csr, csrOp_machine_level below allowed rfl]
  | quiet same => rw [same.csr]

theorem not_machine_lt (p : PrivMode) : ¬PrivMode.M < p := by
  revert p
  decide

/-- Only a trap raises the privilege. -/
theorem raise_effect {s s' : RVModel xlen} {m : M} (h : MppUser s) (effect : StepEffect s m s')
    (raised : s.privMode < s'.privMode) :
    s'.trapCount = s.trapCount + 1 ∧ s'.pc = s.csr.getMTVEC &&& ~~~3#(xlen) := by
  cases effect with
  | trap cause tval same =>
    obtain ⟨count, _, ⟨_, priv, _⟩ | ⟨_, _, pc⟩⟩ := trap_cases same
    · rw [priv] at raised
      exact absurd raised (by simp)
    · exact ⟨count, pc⟩
  | mret raw word instr same =>
    have priv : s'.privMode = mpp (s.csr.regs CSR.MSTATUS) := privMode_of_arch same
    by_cases machine : s.privMode = .M
    · rw [machine] at raised
      exact absurd raised (not_machine_lt _)
    · rw [priv, h machine] at raised
      exact absurd raised (by simp)
  | csrAccess f addr rs1 v allowed csr priv count =>
    rw [priv] at raised
    exact absurd raised (by simp)
  | quiet same =>
    rw [same.privMode] at raised
    exact absurd raised (by simp)

theorem calls_invariant {t : Watched xlen M} (reached : (calls xlen M).Reachable t) :
    MppUser t.cpu ∧ t.cpu.csr.getMTVEC = t.machineMtvec := by
  refine reached.invariant (fun t => MppUser t.cpu ∧ t.cpu.csr.getMTVEC = t.machineMtvec) ?_ ?_
  · rintro _ ⟨cpu, startPC, stackPointer, m, rfl⟩
    exact ⟨fun below => absurd rfl below, rfl⟩
  · rintro t c t' ⟨user, kept⟩ rfl
    have effect := call_effect t.cpu t.mem c
    refine ⟨mppUser_effect user effect, ?_⟩
    unfold Watched.after
    simp only
    split
    · rfl
    · rename_i below
      rw [mtvec_effect below effect, kept]

/-- In every run of step() and triggerInterrupt() from init(), a call that raises the privilege
    fired a trap and went to the vector that M-mode installed. -/
theorem privilege_raised_only_by_trap {t t' : Watched xlen M} {c : Call xlen}
    (reached : (calls xlen M).Reachable t) (next : (calls xlen M).step t c t')
    (raised : t.cpu.privMode < t'.cpu.privMode) :
    t'.cpu.trapCount = t.cpu.trapCount + 1 ∧
      t'.cpu.pc = t'.machineMtvec &&& ~~~3#(xlen) := by
  obtain ⟨user, kept⟩ := calls_invariant reached
  cases next
  obtain ⟨count, pc⟩ := raise_effect user (call_effect t.cpu t.mem c) raised
  refine ⟨count, ?_⟩
  have below : t.cpu.privMode ≠ .M := by
    intro same
    rw [same] at raised
    exact not_machine_lt _ raised
  have vector : (t.after c).machineMtvec = t.machineMtvec := if_neg below
  rw [vector, ← kept]
  exact pc

/-- From reset: csrrwi mtvec, 16; csrrwi mepc, 12; mret; and at 12, in U-mode, ecall. -/
def ecallImage : MemoryModel 32 Unit :=
  .ofWords 32 [0x30585073#32, 0x34165073#32, 0x30200073#32, 0x00000073#32] ()

def reset (m : MemoryModel 32 Unit) : Watched 32 (MemoryModel 32 Unit) :=
  ⟨(RVModel.new ⟨0#32⟩).init 0#32 0#32, m, 0#32⟩

theorem reset_reachable (m : MemoryModel 32 Unit) : (calls 32 _).Reachable (reset m) :=
  System.Reachable.of_init ⟨_, _, _, _, rfl⟩

theorem privilege_raised_only_by_trap_ecall :
    let t := (((reset ecallImage).after .step).after .step).after .step
    t.cpu.privMode = .U ∧ (t.after .step).cpu.trapCount = 1 ∧ (t.after .step).cpu.pc = 16#32 := by
  intro t
  have reached : (calls 32 _).Reachable t :=
    reachable_after (reachable_after (reachable_after (reset_reachable ecallImage) _) _) _
  have raised : t.cpu.privMode < (t.after .step).cpu.privMode := by decide
  obtain ⟨count, pc⟩ := privilege_raised_only_by_trap (c := .step) reached rfl raised
  refine ⟨by decide, count.trans (by decide), pc.trans (by decide)⟩

def MachineCsrsKept (s s' : RVModel xlen) : Prop :=
  ∀ a, csrPriv a = .M → s'.csr.read a = s.csr.read a

def ExecutesMRET (s : RVModel xlen) (m : M) : Prop :=
  ∃ raw, s.fetched m = some raw ∧ IsMRET (Decoder.decode xlen raw)

instance (s : RVModel xlen) (m : M) : Decidable (ExecutesMRET s m) :=
  decidable_of_iff ((s.fetched m).any fun raw => decide (IsMRET (Decoder.decode xlen raw)))
    (by simp [ExecutesMRET, Option.any_eq_true])

theorem step_of_mret (wide : 8 ≤ xlen) {s : RVModel xlen} {m : M} (mret : ExecutesMRET s m) :
    arch (s.step m).2.1 = arch s.executeMRET := by
  obtain ⟨raw, word, opcode, funct3, imm⟩ := mret
  obtain ⟨m', step⟩ := step_of_fetched word
  have nonzero : ¬0x302#(xlen) = 0#(xlen) := by
    intro zero
    have bit := congrArg (fun x => x.getLsbD 1) zero
    simp only [BitVec.getLsbD_ofNat, show 1 < xlen by omega, decide_true, Bool.true_and,
      Nat.zero_testBit] at bit
    revert bit
    decide
  rw [step]
  unfold executeWord executeInstr executeSystem
  simp only [opcode, funct3, imm, nonzero, if_true, if_false, arch_countInstr]
  rw [arch_executeMRET, arch_callStepHook, ← arch_executeMRET]

theorem read_of_regs {c c' : CsrFile xlen} {a : BitVec 12} (same : c'.regs a = c.regs a) :
    c'.read a = c.read a := by
  unfold CsrFile.read
  rw [same]

/-- From U- or S-mode, a step that fires no trap keeps the machine-level CSRs exactly when it is
    no MRET, or when mstatus.MIE and MPIE are both set; MRET is the one instruction that
    reaches mstatus without the check of executeCSR. XLEN is 32 or 64. -/
theorem machine_csrs_kept_iff (wide : 8 ≤ xlen) {t : Watched xlen M}
    (reached : (calls xlen M).Reachable t) (below : t.cpu.privMode = .U ∨ t.cpu.privMode = .S)
    (m : M) (noTrap : (t.cpu.step m).2.1.trapCount = t.cpu.trapCount) :
    MachineCsrsKept t.cpu (t.cpu.step m).2.1 ↔
      (ExecutesMRET t.cpu m → (t.cpu.csr.read CSR.MSTATUS).getLsbD 3 = true ∧
        (t.cpu.csr.read CSR.MSTATUS).getLsbD 7 = true) := by
  have notMachine : t.cpu.privMode ≠ .M := by
    rcases below with user | supervisor
    · rw [user]; decide
    · rw [supervisor]; decide
  have user := (calls_invariant reached).1 notMachine
  by_cases mret : ExecutesMRET t.cpu m
  · have csr := csr_of_arch (step_of_mret wide mret)
    constructor
    · intro kept _
      have mstatus := kept CSR.MSTATUS rfl
      have new : (t.cpu.step m).2.1.csr.read CSR.MSTATUS =
          mretMstatus (t.cpu.csr.read CSR.MSTATUS) := by
        rw [csr]
        exact (regs_executeMRET t.cpu CSR.MSTATUS).trans (if_pos rfl)
      rw [new] at mstatus
      exact (mretMstatus_eq_self_iff wide user).mp mstatus
    · intro set a _
      have same := (mretMstatus_eq_self_iff wide user).mpr (set mret)
      apply read_of_regs
      rw [csr, regs_executeMRET]
      split
      · rename_i mstatus
        rw [mstatus]
        exact same
      · rfl
  · refine ⟨fun _ again => absurd again mret, fun _ a machine => read_of_regs ?_⟩
    cases step_effect t.cpu m with
    | trap cause tval same =>
      have count := (trap_cases same).1
      omega
    | mret raw word instr same => exact absurd ⟨raw, word, instr⟩ mret
    | csrAccess f addr rs1 v allowed csr priv count =>
      rw [csr, csrOp_machine_level notMachine allowed machine]
    | quiet same => rw [same.csr]

/-- mret at address 0, whose own return address is 0: it runs in M-mode and then in U-mode. -/
def mretImage : MemoryModel 32 Unit := .ofWords 16 [0x30200073#32] ()

theorem machine_csrs_kept_iff_mret :
    let t := ((reset mretImage).after .step).after .step
    ExecutesMRET t.cpu t.mem ∧ MachineCsrsKept t.cpu (t.cpu.step t.mem).2.1 := by
  intro t
  have reached : (calls 32 _).Reachable t :=
    reachable_after (reachable_after (reset_reachable mretImage) _) _
  have mret : ExecutesMRET t.cpu t.mem := ⟨0x30200073#32, by decide, by decide⟩
  have iff := machine_csrs_kept_iff (by decide) reached (Or.inl (by decide)) t.mem (by decide)
  exact ⟨mret, iff.mpr fun _ => ⟨by decide, by decide⟩⟩

/-- The second mret runs in U-mode, fires no trap and changes mstatus from 0x80 to 0x88. -/
theorem user_mret_changes_mstatus :
    let t := (reset mretImage).after .step
    (calls 32 _).Reachable t ∧ t.cpu.privMode = .U ∧
      (t.cpu.step t.mem).2.1.trapCount = t.cpu.trapCount ∧
      t.cpu.csr.read CSR.MSTATUS = 0x80#32 ∧
      (t.cpu.step t.mem).2.1.csr.read CSR.MSTATUS = 0x88#32 ∧
      ¬MachineCsrsKept t.cpu (t.cpu.step t.mem).2.1 := by
  intro t
  have before : t.cpu.csr.read CSR.MSTATUS = 0x80#32 := by decide
  have after : (t.cpu.step t.mem).2.1.csr.read CSR.MSTATUS = 0x88#32 := by decide
  refine ⟨reachable_after (reset_reachable mretImage) _, by decide, by decide, before, after,
    ?_⟩
  intro kept
  have same := kept CSR.MSTATUS rfl
  rw [before, after] at same
  exact absurd same (by decide)

end XorOS.RVModel
