import XorOS.Simulator.MemorySimulation
import XorOS.Simulator.Privilege

/- Trap entry and MRET as a stack one level deep: what fireTrap puts into mepc and mstatus, MRET
   takes out again, and handlers that save both keep the stack for any depth of nesting. -/
namespace XorOS.RVModel
open ISA Runs
variable {xlen : Nat} {M : Type} [MemT xlen M]

/-- r is s as it was interrupted, with MPIE set and MPP = U. -/
structure Restores (s r : RVModel xlen) : Prop where
  pc : r.pc = s.pc
  priv : r.privMode = s.privMode
  mie : (r.csr.read CSR.MSTATUS).getLsbD 3 = (s.csr.read CSR.MSTATUS).getLsbD 3
  mpie : (r.csr.read CSR.MSTATUS).getLsbD 7 = true
  mpp : mpp (r.csr.read CSR.MSTATUS) = .U
  others : ∀ i, i ≠ 3 → i ≠ 7 → i ≠ 11 → i ≠ 12 →
    (r.csr.read CSR.MSTATUS).getLsbD i = (s.csr.read CSR.MSTATUS).getLsbD i

structure Pending (s u : RVModel xlen) : Prop where
  mepc : u.csr.read CSR.MEPC = s.pc
  mstatus : u.csr.read CSR.MSTATUS = trapMstatus (s.csr.read CSR.MSTATUS) s.privMode

theorem pending_of_trap {s t : RVModel xlen} {cause tval : BitVec xlen}
    (vector : s.csr.getMTVEC ≠ 0#(xlen)) (entry : arch t = arch (s.fireTrap cause tval)) :
    Pending s t := by
  have csr := csr_of_trap vector entry
  constructor
  · rw [csr]
    exact regs_trapCsr s.csr s.pc s.privMode cause tval CSR.MEPC
  · rw [csr]
    exact regs_trapCsr s.csr s.pc s.privMode cause tval CSR.MSTATUS

theorem Pending.restores (wide : 13 ≤ xlen) {s u r : RVModel xlen} (pending : Pending s u)
    (mret : arch r = arch u.executeMRET) : Restores s r := by
  have csr := csr_of_arch mret
  have mstatus : r.csr.read CSR.MSTATUS =
      mretMstatus (trapMstatus (s.csr.read CSR.MSTATUS) s.privMode) := by
    rw [csr, ← pending.mstatus]
    exact regs_executeMRET u CSR.MSTATUS
  have bit : ∀ i, i < xlen → (r.csr.read CSR.MSTATUS).getLsbD i =
      if i = 7 then true
      else if i = 3 then (trapMstatus (s.csr.read CSR.MSTATUS) s.privMode).getLsbD 7
      else if i = 11 ∨ i = 12 then false
      else (trapMstatus (s.csr.read CSR.MSTATUS) s.privMode).getLsbD i := by
    intro i inside
    rw [mstatus]
    exact getLsbD_mretMstatus _ inside
  constructor
  · have pc : r.pc = u.executeMRET.csr.getMEPC := congrArg RVModel.pc mret
    rw [pc, ← pending.mepc]
    exact regs_executeMRET u CSR.MEPC
  · have priv := privMode_of_arch mret
    rw [priv, ← mpp_trapMstatus wide (s.csr.read CSR.MSTATUS) s.privMode, ← pending.mstatus]
    rfl
  · rw [bit 3 (by omega), if_neg (by decide), if_pos rfl, getLsbD_trapMstatus _ _ (by omega)]
    rfl
  · rw [bit 7 (by omega), if_pos rfl]
  · rw [mstatus]
    exact mpp_mretMstatus _
  · intro i ne3 ne7 ne11 ne12
    by_cases inside : i < xlen
    · have neither : ¬(i = 11 ∨ i = 12) := by omega
      rw [bit i inside, if_neg ne7, if_neg ne3, if_neg neither, getLsbD_trapMstatus _ _ inside,
        if_neg ne3, if_neg ne7, if_neg neither]
    · rw [BitVec.getLsbD_of_ge _ _ (by omega), BitVec.getLsbD_of_ge _ _ (by omega)]

def IsCSRRW (d : DecodedInstr xlen) (addr : BitVec 12) : Prop :=
  Opcode.ofBits? d.opcode = some .system ∧ Funct3CSR.ofBits? d.funct3 = some .csrrw ∧
    (d.imm &&& 0xFFF#(xlen)).setWidth 12 = addr

def ExecutesCSRRW (s : RVModel xlen) (m : M) (addr : BitVec 12) (v : BitVec xlen) : Prop :=
  ∃ raw, s.fetched m = some raw ∧ IsCSRRW (Decoder.decode xlen raw) addr ∧
    s.regs.get (Decoder.decode xlen raw).rs1 = v

theorem executeSystem_csrrw {s : RVModel xlen} {d : DecodedInstr xlen} {addr : BitVec 12}
    (machine : s.privMode = .M) (instr : IsCSRRW d addr) :
    s.executeSystem d = (false, { s with
      csr := s.csr.write addr (s.regs.get d.rs1)
      regs := s.regs.set d.rd (s.csr.read addr) }) := by
  obtain ⟨_, funct3, rfl⟩ := instr
  have notZero : d.funct3 ≠ 0#3 := by
    intro zero
    rw [zero] at funct3
    cases funct3
  have allowed : ∀ p : PrivMode, ¬PrivMode.M < p := by decide
  unfold executeSystem executeCSR
  rw [if_neg notZero]
  simp only [machine, allowed, if_false, funct3]
  rfl

theorem step_of_csrrw {s : RVModel xlen} {m : M} {addr : BitVec 12} {v : BitVec xlen}
    (machine : s.privMode = .M) (write : ExecutesCSRRW s m addr v) :
    (s.step m).2.1.csr = s.csr.write addr v ∧ (s.step m).2.1.privMode = .M := by
  obtain ⟨raw, word, instr, rfl⟩ := write
  obtain ⟨m', step⟩ := step_of_fetched word
  rw [step]
  unfold executeWord
  simp only
  have hook := arch_callStepHook s (Disasm.disassemble (Decoder.decode xlen raw))
  generalize s.callStepHook (Disasm.disassemble (Decoder.decode xlen raw)) = t at hook ⊢
  have priv : t.privMode = .M := (privMode_of_arch hook).trans machine
  unfold executeInstr
  simp only [instr.1, executeSystem_csrrw priv instr]
  constructor
  · rw [← csr_of_arch hook, ← regs_of_arch hook]
    rfl
  · exact priv

/-- A step that neither traps nor returns from a trap. -/
def OwnStep (p : RVModel xlen × M) : Prop :=
  (machine p).2.1.trapCount = p.1.trapCount ∧ ¬ExecutesMRET p.1 p.2

theorem privMode_of_ownStep {p : RVModel xlen × M} (own : OwnStep p) :
    (machine p).2.1.privMode = p.1.privMode := by
  obtain ⟨count, noMret⟩ := own
  have effect : StepEffect p.1 p.2 (machine p).2.1 := step_effect p.1 p.2
  cases effect with
  | trap cause tval same =>
    have fired := (trap_cases same).1
    omega
  | mret raw word instr same => exact absurd ⟨raw, word, instr⟩ noMret
  | csrAccess f addr rs1 v allowed csr priv count => exact priv
  | quiet same => exact same.privMode

/-- What enters a handler: a call of step() or triggerInterrupt that counts a trap. -/
theorem entry_of_call {s : RVModel xlen} {m : M} {c : Call xlen}
    (fired : (s.call m c).1.trapCount ≠ s.trapCount) :
    ∃ cause tval, arch (s.call m c).1 = arch (s.fireTrap cause tval) := by
  cases call_effect s m c with
  | trap cause tval same => exact ⟨cause, tval, same⟩
  | mret raw word instr same => exact absurd (trapCount_of_arch same) fired
  | csrAccess f addr rs1 v allowed csr priv count => exact absurd count fired
  | quiet same => exact absurd same.trapCount fired

/-- The next two steps write mepc and mstatus back, in either order. -/
def WritesBack (p : RVModel xlen × M) (mepc mstatus : BitVec xlen) : Prop :=
  ExecutesCSRRW p.1 p.2 CSR.MEPC mepc ∧
      ExecutesCSRRW (machine p).2.1 (machine p).2.2 CSR.MSTATUS mstatus ∨
    ExecutesCSRRW p.1 p.2 CSR.MSTATUS mstatus ∧
      ExecutesCSRRW (machine p).2.1 (machine p).2.2 CSR.MEPC mepc

theorem read_of_writesBack {p : RVModel xlen × M} {mepc mstatus : BitVec xlen}
    (inMachine : p.1.privMode = .M) (back : WritesBack p mepc mstatus) :
    (machine (machine p).2).2.1.csr.read CSR.MEPC = mepc ∧
      (machine (machine p).2).2.1.csr.read CSR.MSTATUS = mstatus := by
  have read : ∀ (c : CsrFile xlen) (addr : BitVec 12) (v : BitVec xlen),
      addr = CSR.MEPC ∨ addr = CSR.MSTATUS → (c.write addr v).read addr = v := by
    rintro c addr v (rfl | rfl)
    · rfl
    · rfl
  rcases back with ⟨first, second⟩ | ⟨first, second⟩
  · obtain ⟨csr, priv⟩ := step_of_csrrw inMachine first
    obtain ⟨csr2, _⟩ := step_of_csrrw priv second
    have both : (machine (machine p).2).2.1.csr =
        (p.1.csr.write CSR.MEPC mepc).write CSR.MSTATUS mstatus := by
      rw [← csr]
      exact csr2
    rw [both]
    constructor
    · rw [CsrFile.read_write_of_ne _ (by decide), read _ _ _ (Or.inl rfl)]
    · exact read _ _ _ (Or.inr rfl)
  · obtain ⟨csr, priv⟩ := step_of_csrrw inMachine first
    obtain ⟨csr2, _⟩ := step_of_csrrw priv second
    have both : (machine (machine p).2).2.1.csr =
        (p.1.csr.write CSR.MSTATUS mstatus).write CSR.MEPC mepc := by
      rw [← csr]
      exact csr2
    rw [both]
    constructor
    · exact read _ _ _ (Or.inl rfl)
    · rw [CsrFile.read_write_of_ne _ (by decide), read _ _ _ (Or.inr rfl)]

structure Return (xlen : Nat) where
  interrupted : RVModel xlen
  returned : RVModel xlen

/-- Runs with properly nested traps, and the returns in them: each handler has mepc and mstatus as
    they were on entry written back right before its MRET. -/
inductive Nested : RVModel xlen × M → List (Return xlen) → RVModel xlen × M → Prop
  | done (p : RVModel xlen × M) : Nested p [] p
  | own {p q : RVModel xlen × M} {log : List (Return xlen)} (step : OwnStep p)
      (rest : Nested (machine p).2 log q) : Nested p log q
  | trap {p t u q : RVModel xlen × M} {cause tval : BitVec xlen} {inner log : List (Return xlen)}
      (vector : p.1.csr.getMTVEC ≠ 0#(xlen)) (entry : arch t.1 = arch (p.1.fireTrap cause tval))
      (body : Nested t inner u)
      (back : WritesBack u (t.1.csr.read CSR.MEPC) (t.1.csr.read CSR.MSTATUS))
      (mret : ExecutesMRET (machine (machine u).2).2.1 (machine (machine u).2).2.2)
      (rest : Nested (machine (machine (machine u).2).2).2 log q) :
      Nested p (inner ++ ⟨p.1, (machine (machine (machine u).2).2).2.1⟩ :: log) q

/-- By induction on the tree: a handler is in M-mode again wherever a trap of its own returns, so
    that it may write back what its MRET needs. -/
theorem Nested.restores (wide : 13 ≤ xlen) {p q : RVModel xlen × M} {log : List (Return xlen)}
    (nested : Nested p log q) :
    (∀ r ∈ log, Restores r.interrupted r.returned) ∧ q.1.privMode = p.1.privMode := by
  induction nested with
  | done p =>
    constructor
    · intro r listed
      cases listed
    · rfl
  | own step rest ih =>
    obtain ⟨all, priv⟩ := ih
    exact ⟨all, priv.trans (privMode_of_ownStep step)⟩
  | trap vector entry body back mret rest ihBody ihRest =>
    rename_i p t u q cause tval inner log
    obtain ⟨allInner, privBody⟩ := ihBody
    obtain ⟨allRest, privRest⟩ := ihRest
    have inMachine : t.1.privMode = .M := privMode_of_arch (arch_of_trap vector entry)
    obtain ⟨mepc, mstatus⟩ := read_of_writesBack (privBody.trans inMachine) back
    have saved := pending_of_trap vector entry
    have pending : Pending p.1 (machine (machine u).2).2.1 :=
      ⟨mepc.trans saved.mepc, mstatus.trans saved.mstatus⟩
    have restored : Restores p.1 (machine (machine (machine u).2).2).2.1 :=
      pending.restores wide (step_of_mret (by omega) mret)
    constructor
    · intro r listed
      rcases List.mem_append.mp listed with before | after
      · exact allInner r before
      · rcases List.mem_cons.mp after with rfl | later
        · exact restored
        · exact allRest r later
    · exact privRest.trans restored.priv

/-- MRET undoes fireTrap wherever mepc and mstatus are as the trap left them, and handlers that
    write both back make every MRET return to what its own trap interrupted. -/
theorem trap_return_inverse (wide : 13 ≤ xlen) :
    (∀ (s : RVModel xlen) (m : M) (cause tval : BitVec xlen) (n : Nat),
      s.csr.getMTVEC ≠ 0#(xlen) →
      (Runs.stateAfter machine n (s.fireTrap cause tval, m)).1.csr.read CSR.MEPC =
        (s.fireTrap cause tval).csr.read CSR.MEPC →
      (Runs.stateAfter machine n (s.fireTrap cause tval, m)).1.csr.read CSR.MSTATUS =
        (s.fireTrap cause tval).csr.read CSR.MSTATUS →
      Restores s (Runs.stateAfter machine n (s.fireTrap cause tval, m)).1.executeMRET ∧
      (ExecutesMRET (Runs.stateAfter machine n (s.fireTrap cause tval, m)).1
          (Runs.stateAfter machine n (s.fireTrap cause tval, m)).2 →
        Restores s (Runs.stateAfter machine (n + 1) (s.fireTrap cause tval, m)).1)) ∧
    ∀ (p q : RVModel xlen × M) (log : List (Return xlen)), Nested p log q →
      ∀ r ∈ log, Restores r.interrupted r.returned := by
  constructor
  · intro s m cause tval n vector mepc mstatus
    have saved := pending_of_trap vector (Eq.refl (arch (s.fireTrap cause tval)))
    have pending : Pending s (Runs.stateAfter machine n (s.fireTrap cause tval, m)).1 :=
      ⟨mepc.trans saved.mepc, mstatus.trans saved.mstatus⟩
    constructor
    · exact pending.restores wide rfl
    · intro mret
      rw [Runs.stateAfter_succ]
      exact pending.restores wide (step_of_mret (by omega) mret)
  · intro p q log nested
    exact (nested.restores wide).1

/-- ecall at 0. The handler at 8 keeps mepc and mstatus in x5 and x6, takes x7 for mtvec and sets
    MIE; the one at 40 keeps them in x8 and x9. Both write them back before their mret. -/
def nestingHandlers : MemoryModel 32 Unit :=
  .ofWords 64 [0x00000073#32, 0#32,
    0x341022F3#32, 0x30002373#32, 0x30539073#32, 0x30046073#32, 0x00000013#32,
    0x34129073#32, 0x30031073#32, 0x30200073#32,
    0x34102473#32, 0x300024F3#32, 0x34141073#32, 0x30049073#32, 0x30200073#32] ()

def interruptedCpu : RVModel 32 :=
  { RVModel.new ⟨0#32⟩ with
    regs := RegisterFile.new.set 7#5 40#32
    csr := ((CsrFile.new.put CSR.MTVEC 8#32).put CSR.MSTATUS 8#32).put CSR.MIE 0x80#32
    privMode := .U }

def outerAfter (n : Nat) : RVModel 32 × MemoryModel 32 Unit :=
  Runs.stateAfter machine n (machine (interruptedCpu, nestingHandlers)).2

def innerAfter (n : Nat) : RVModel 32 × MemoryModel 32 Unit :=
  Runs.stateAfter machine n ((outerAfter 4).1.call (outerAfter 4).2 (.interrupt 0x80000007#32))

def resumedAfter (n : Nat) : RVModel 32 × MemoryModel 32 Unit :=
  Runs.stateAfter machine n (innerAfter 5)

theorem ownStep_of_fetched {p : RVModel 32 × MemoryModel 32 Unit} {w : WordT}
    (count : (machine p).2.1.trapCount = p.1.trapCount) (word : p.1.fetched p.2 = some w)
    (other : ¬IsMRET (Decoder.decode 32 w)) : OwnStep p := by
  refine ⟨count, ?_⟩
  rintro ⟨raw, fetched, instr⟩
  rw [word] at fetched
  cases fetched
  exact other instr

/-- The interrupt returns into the handler of the ecall, and that one to the user program. -/
theorem trap_return_inverse_nested :
    Restores (outerAfter 4).1 (innerAfter 5).1 ∧ (innerAfter 5).1.pc = 24#32 ∧
    Restores interruptedCpu (resumedAfter 4).1 ∧ (resumedAfter 4).1.privMode = .U ∧
      Restores interruptedCpu (interruptedCpu.fireTrap 8#32 0#32).executeMRET := by
  obtain ⟨_, _, trapped⟩ := entry_of_call (s := interruptedCpu) (m := nestingHandlers)
    (c := .step) (by decide)
  obtain ⟨_, _, interrupted⟩ := entry_of_call (s := (outerAfter 4).1) (m := (outerAfter 4).2)
    (c := .interrupt 0x80000007#32) (by decide)
  have innerBody : Nested (innerAfter 0) [] (innerAfter 2) :=
    .own (ownStep_of_fetched (w := 0x34102473#32) (by decide) (by decide) (by decide))
      (.own (p := innerAfter 1)
        (ownStep_of_fetched (w := 0x300024F3#32) (by decide) (by decide) (by decide)) (.done _))
  have innerBack : WritesBack (innerAfter 2) 24#32 0x1880#32 :=
    Or.inl ⟨⟨0x34141073#32, by decide, ⟨by decide, by decide, by decide⟩, by decide⟩,
      ⟨0x30049073#32, by decide, ⟨by decide, by decide, by decide⟩, by decide⟩⟩
  have innerMret : ExecutesMRET (innerAfter 4).1 (innerAfter 4).2 :=
    ⟨0x30200073#32, by decide, by decide⟩
  have resumed : Nested (resumedAfter 0) [] (resumedAfter 1) :=
    .own (ownStep_of_fetched (w := 0x00000013#32) (by decide) (by decide) (by decide)) (.done _)
  have inner : Nested (outerAfter 4) [⟨(outerAfter 4).1, (innerAfter 5).1⟩] (resumedAfter 1) :=
    .trap (t := innerAfter 0) (by decide) interrupted innerBody innerBack innerMret resumed
  have body : Nested (outerAfter 0) [⟨(outerAfter 4).1, (innerAfter 5).1⟩] (resumedAfter 1) :=
    .own (ownStep_of_fetched (w := 0x341022F3#32) (by decide) (by decide) (by decide))
      (.own (p := outerAfter 1)
        (ownStep_of_fetched (w := 0x30002373#32) (by decide) (by decide) (by decide))
        (.own (p := outerAfter 2)
          (ownStep_of_fetched (w := 0x30539073#32) (by decide) (by decide) (by decide))
          (.own (p := outerAfter 3)
            (ownStep_of_fetched (w := 0x30046073#32) (by decide) (by decide) (by decide)) inner)))
  have back : WritesBack (resumedAfter 1) 0#32 0x80#32 :=
    Or.inl ⟨⟨0x34129073#32, by decide, ⟨by decide, by decide, by decide⟩, by decide⟩,
      ⟨0x30031073#32, by decide, ⟨by decide, by decide, by decide⟩, by decide⟩⟩
  have mret : ExecutesMRET (resumedAfter 3).1 (resumedAfter 3).2 :=
    ⟨0x30200073#32, by decide, by decide⟩
  have nested : Nested (interruptedCpu, nestingHandlers)
      [⟨(outerAfter 4).1, (innerAfter 5).1⟩, ⟨interruptedCpu, (resumedAfter 4).1⟩]
      (resumedAfter 4) :=
    .trap (p := (interruptedCpu, nestingHandlers)) (t := outerAfter 0) (by decide) trapped body back
      mret (.done _)
  obtain ⟨undone, all⟩ := @trap_return_inverse 32 (MemoryModel 32 Unit) _ (by decide)
  have returns := all _ _ _ nested
  refine ⟨returns _ List.mem_cons_self, by decide,
    returns _ (List.mem_cons_of_mem _ List.mem_cons_self), by decide, ?_⟩
  exact (undone interruptedCpu nestingHandlers 8#32 0#32 0 (by decide) rfl rfl).1

end XorOS.RVModel
