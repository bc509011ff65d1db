import XorOS.Simulator.StepEffects

/- What only the host sees of a run: which hooks are installed, the calls made of them and the
   count of traps. None of it feeds back into the processor or its memory. -/
namespace XorOS
open ISA

structure Observer (xlen : Nat) where
  stepHook : Bool
  trapHook : Bool
  hookCalls : List (HookCall xlen)
  trapCount : Nat

def Observer.onTrap {xlen : Nat} (o : Observer xlen) (cause mepc mtval : BitVec xlen) :
    Observer xlen :=
  { o with
    hookCalls := if o.trapHook then o.hookCalls ++ [.trap cause mepc mtval] else o.hookCalls
    trapCount := o.trapCount + 1 }

def Observer.onStep {xlen : Nat} (o : Observer xlen) (pc : BitVec xlen) (dis : String) :
    Observer xlen :=
  { o with hookCalls := if o.stepHook then o.hookCalls ++ [.step pc dis] else o.hookCalls }

/-- A relation between observers that traps seen by both keep. -/
def TrapClosed {xlen : Nat} (R : Observer xlen → Observer xlen → Prop) : Prop :=
  ∀ {o o'}, R o o' → ∀ cause mepc mtval,
    R (o.onTrap cause mepc mtval) (o'.onTrap cause mepc mtval)

namespace RVModel
variable {xlen : Nat} {M : Type} [MemT xlen M]

def observer (s : RVModel xlen) : Observer xlen where
  stepHook := s.stepHook
  trapHook := s.trapHook
  hookCalls := s.hookCalls
  trapCount := s.trapCount

def observedBy (s : RVModel xlen) (o : Observer xlen) : RVModel xlen :=
  { s with
    stepHook := o.stepHook
    trapHook := o.trapHook
    hookCalls := o.hookCalls
    trapCount := o.trapCount }

theorem observedBy_observer (s : RVModel xlen) : s.observedBy s.observer = s := rfl

theorem fireTrap_observedBy (s : RVModel xlen) (o : Observer xlen) (cause tval : BitVec xlen) :
    (s.observedBy o).fireTrap cause tval =
      (s.fireTrap cause tval).observedBy (o.onTrap cause s.pc tval) := by
  unfold fireTrap callTrapHook Observer.onTrap
  cases own : s.trapHook <;> cases other : o.trapHook <;>
    by_cases vector : s.csr.getMTVEC = 0#(xlen) <;> simp [observedBy, own, other, vector, halt]

theorem observer_fireTrap (s : RVModel xlen) (cause tval : BitVec xlen) :
    (s.fireTrap cause tval).observer = s.observer.onTrap cause s.pc tval := by
  have same := fireTrap_observedBy s s.observer cause tval
  rw [observedBy_observer] at same
  rw [same]
  rfl

theorem callStepHook_observedBy (s : RVModel xlen) (o : Observer xlen) (dis : String) :
    (s.observedBy o).callStepHook dis = (s.callStepHook dis).observedBy (o.onStep s.pc dis) := by
  unfold callStepHook Observer.onStep
  cases own : s.stepHook <;> cases other : o.stepHook <;> simp [observedBy, other]

def Silent (f : RVModel xlen → RVModel xlen) : Prop :=
  ∀ s o, f (s.observedBy o) = (f s).observedBy o

theorem Silent.observer {f : RVModel xlen → RVModel xlen} (silent : Silent f) (s : RVModel xlen) :
    (f s).observer = s.observer := by
  have same := silent s s.observer
  rw [observedBy_observer] at same
  rw [same]
  rfl

structure Twins (R : Observer xlen → Observer xlen → Prop) (s t : RVModel xlen) : Prop where
  related : R s.observer t.observer
  same : t = s.observedBy t.observer

def TwinPair (R : Observer xlen → Observer xlen → Prop) (x y : Bool × RVModel xlen) : Prop :=
  x.1 = y.1 ∧ Twins R x.2 y.2

def TwinResults {α : Type} (R : Observer xlen → Observer xlen → Prop)
    (x y : α × RVModel xlen × M) : Prop :=
  x.1 = y.1 ∧ Twins R x.2.1 y.2.1 ∧ x.2.2 = y.2.2

variable {R : Observer xlen → Observer xlen → Prop} {s t : RVModel xlen}

namespace Twins

theorem pc (h : Twins R s t) : t.pc = s.pc := by
  rw [h.same]
  rfl

theorem config (h : Twins R s t) : t.config = s.config := by
  rw [h.same]
  rfl

theorem regs (h : Twins R s t) : t.regs = s.regs := by
  rw [h.same]
  rfl

theorem csr (h : Twins R s t) : t.csr = s.csr := by
  rw [h.same]
  rfl

theorem halted (h : Twins R s t) : t.halted = s.halted := by
  rw [h.same]
  rfl

theorem privMode (h : Twins R s t) : t.privMode = s.privMode := by
  rw [h.same]
  rfl

theorem silent {f : RVModel xlen → RVModel xlen} (h : Twins R s t) (silent : Silent f) :
    Twins R (f s) (f t) where
  related := by
    rw [silent.observer, silent.observer]
    exact h.related
  same := by
    rw [silent.observer]
    exact (congrArg f h.same).trans (silent s t.observer)

theorem fireTrap (closed : TrapClosed R) (h : Twins R s t) (cause tval : BitVec xlen) :
    Twins R (s.fireTrap cause tval) (t.fireTrap cause tval) where
  related := by
    rw [observer_fireTrap, observer_fireTrap, h.pc]
    exact closed h.related _ _ _
  same := by
    rw [observer_fireTrap, h.pc, ← fireTrap_observedBy, ← h.same]

theorem callStepHook (h : Twins R s t) (dis : String)
    (stepped : R (s.observer.onStep s.pc dis) (t.observer.onStep s.pc dis)) :
    Twins R (s.callStepHook dis) (t.callStepHook dis) where
  related := by
    have own := callStepHook_observedBy s s.observer dis
    have other := callStepHook_observedBy t t.observer dis
    rw [observedBy_observer] at own other
    rw [own, other, h.pc]
    exact stepped
  same := by
    have other := callStepHook_observedBy t t.observer dis
    rw [observedBy_observer] at other
    calc t.callStepHook dis = (s.observedBy t.observer).callStepHook dis := by rw [← h.same]
      _ = (s.callStepHook dis).observedBy (t.observer.onStep s.pc dis) :=
          callStepHook_observedBy s t.observer dis
      _ = (s.callStepHook dis).observedBy (t.callStepHook dis).observer := by
          rw [other, h.pc]
          rfl

end Twins

theorem silent_setReg (rd : BitVec 5) (v : BitVec xlen) :
    Silent fun s : RVModel xlen => s.setReg rd v :=
  fun _ _ => rfl

theorem translateAddr_twins (closed : TrapClosed R) (h : Twins R s t) (va : BitVec xlen)
    (access : MemAccess) (m : M) :
    TwinResults R (s.translateAddr va access m) (t.translateAddr va access m) := by
  unfold translateAddr
  rw [h.csr, h.privMode]
  simp only
  split
  · exact ⟨rfl, h, rfl⟩
  rcases walkLeaf va 1 (rootTable (s.csr.read CSR.SATP)) m with ⟨_ | ⟨lvl, pte⟩, m'⟩
  · exact ⟨rfl, h.fireTrap closed _ _, rfl⟩
  simp only
  cases leafAddr s.privMode va lvl pte with
  | none => exact ⟨rfl, h.fireTrap closed _ _, rfl⟩
  | some pa => exact ⟨rfl, h, rfl⟩

omit [MemT xlen M] in
theorem TwinResults.cases {α : Type} {x y : α × RVModel xlen × M} (h : TwinResults R x y) :
    ∃ a s' t' m', x = (a, s', m') ∧ y = (a, t', m') ∧ Twins R s' t' := by
  obtain ⟨a, s', m'⟩ := x
  obtain ⟨b, t', m''⟩ := y
  obtain ⟨rfl, twins, rfl⟩ := h
  exact ⟨a, s', t', m', rfl, rfl, twins⟩

theorem illegalInsn_twins (closed : TrapClosed R) (h : Twins R s t) (d : DecodedInstr xlen) :
    TwinPair R (s.illegalInsn d) (t.illegalInsn d) :=
  ⟨rfl, h.fireTrap closed _ _⟩

theorem jumpTo_twins (closed : TrapClosed R) (h : Twins R s t) (target : BitVec xlen) :
    TwinPair R (s.jumpTo target) (t.jumpTo target) := by
  unfold jumpTo
  split
  · exact ⟨rfl, h.fireTrap closed _ _⟩
  · exact ⟨rfl, h.silent (f := fun s => s.jump target) fun _ _ => rfl⟩

theorem executeJAL_twins (closed : TrapClosed R) (h : Twins R s t) (d : DecodedInstr xlen) :
    TwinPair R (s.executeJAL d) (t.executeJAL d) := by
  unfold executeJAL
  rw [h.pc]
  simp only
  split
  · exact ⟨rfl, h.fireTrap closed _ _⟩
  · exact ⟨rfl, h.silent (f := fun r => (r.setReg d.rd _).jump _) fun _ _ => rfl⟩

theorem executeJALR_twins (closed : TrapClosed R) (h : Twins R s t) (d : DecodedInstr xlen) :
    TwinPair R (s.executeJALR d) (t.executeJALR d) := by
  unfold executeJALR
  rw [h.pc, h.regs]
  simp only
  split
  · exact ⟨rfl, h.fireTrap closed _ _⟩
  · exact ⟨rfl, h.silent (f := fun r => (r.setReg d.rd _).jump _) fun _ _ => rfl⟩

theorem executeBranch_twins (closed : TrapClosed R) (h : Twins R s t) (d : DecodedInstr xlen) :
    TwinPair R (s.executeBranch d) (t.executeBranch d) := by
  unfold executeBranch
  cases Funct3Branch.ofBits? d.funct3 with
  | none => exact illegalInsn_twins closed h d
  | some f =>
    simp only
    rw [h.regs, h.pc]
    split
    · exact jumpTo_twins closed h _
    · exact ⟨rfl, h⟩

theorem setReg_twins (h : Twins R s t) (rd : BitVec 5) (v : BitVec xlen) :
    Twins R (s.setReg rd v) (t.setReg rd v) :=
  h.silent (silent_setReg rd v)

theorem executeOp_twins (closed : TrapClosed R) (h : Twins R s t) (d : DecodedInstr xlen) :
    TwinPair R (s.executeOp d) (t.executeOp d) := by
  unfold executeOp
  rw [h.regs, h.config]
  simp only
  split
  · split
    · exact illegalInsn_twins closed h d
    · exact ⟨rfl, setReg_twins h _ _⟩
  · exact ⟨rfl, setReg_twins h _ _⟩

theorem updateCsr_twins (h : Twins R s t) (csr : CsrFile xlen) (regs : RegisterFile xlen) :
    Twins R { s with csr := csr, regs := regs } { t with csr := csr, regs := regs } :=
  h.silent (f := fun r => { r with csr := csr, regs := regs }) fun _ _ => rfl

theorem executeCSR_twins (closed : TrapClosed R) (h : Twins R s t) (d : DecodedInstr xlen) :
    TwinPair R (s.executeCSR d) (t.executeCSR d) := by
  unfold executeCSR
  simp only
  by_cases denied : s.privMode < csrPriv ((d.imm &&& 0xFFF#(xlen)).setWidth 12)
  · have denied' : t.privMode < csrPriv ((d.imm &&& 0xFFF#(xlen)).setWidth 12) := by
      rw [h.privMode]
      exact denied
    rw [if_pos denied, if_pos denied']
    exact ⟨rfl, h.fireTrap closed _ _⟩
  · have allowed' : ¬t.privMode < csrPriv ((d.imm &&& 0xFFF#(xlen)).setWidth 12) := by
      rw [h.privMode]
      exact denied
    rw [if_neg denied, if_neg allowed']
    cases Funct3CSR.ofBits? d.funct3 with
    | none => exact illegalInsn_twins closed h d
    | some f =>
      simp only
      rw [h.csr, h.regs]
      exact ⟨rfl, updateCsr_twins h _ _⟩

theorem executeSystem_twins (closed : TrapClosed R) (h : Twins R s t) (d : DecodedInstr xlen) :
    TwinPair R (s.executeSystem d) (t.executeSystem d) := by
  unfold executeSystem
  split
  · split
    · rw [h.privMode]
      exact ⟨rfl, h.fireTrap closed _ _⟩
    split
    · exact ⟨rfl, h.silent (f := executeMRET) fun _ _ => rfl⟩
    split
    · exact ⟨rfl, h⟩
    · exact ⟨rfl, h.silent (f := halt) fun _ _ => rfl⟩
  · exact executeCSR_twins closed h d

theorem executeLoad_twins (closed : TrapClosed R) (h : Twins R s t) (d : DecodedInstr xlen)
    (m : M) : TwinResults R (s.executeLoad d m) (t.executeLoad d m) := by
  obtain ⟨x, s', t', m', hs, ht, h'⟩ :=
    (translateAddr_twins closed h (s.regs.get d.rs1 + d.imm) .load m).cases
  unfold executeLoad
  rw [h.regs]
  simp only
  split
  · exact ⟨rfl, h.fireTrap closed _ _, rfl⟩
  split
  · exact ⟨rfl, h.fireTrap closed _ _, rfl⟩
  rw [hs, ht]
  cases x with
  | none => exact ⟨rfl, h', rfl⟩
  | some pa =>
    simp only
    cases Funct3Load.ofBits? d.funct3 with
    | none => exact ⟨rfl, h'.fireTrap closed _ _, rfl⟩
    | some f =>
      simp only
      rcases loadValue f pa m' with ⟨_ | result, m''⟩
      · exact ⟨rfl, h'.fireTrap closed _ _, rfl⟩
      · exact ⟨rfl, setReg_twins h' _ _, rfl⟩

theorem executeStore_twins (closed : TrapClosed R) (h : Twins R s t) (d : DecodedInstr xlen)
    (m : M) : TwinResults R (s.executeStore d m) (t.executeStore d m) := by
  obtain ⟨x, s', t', m', hs, ht, h'⟩ :=
    (translateAddr_twins closed h (s.regs.get d.rs1 + d.imm) .store m).cases
  unfold executeStore
  rw [h.regs]
  simp only
  split
  · exact ⟨rfl, h.fireTrap closed _ _, rfl⟩
  split
  · exact ⟨rfl, h.fireTrap closed _ _, rfl⟩
  rw [hs, ht]
  cases x with
  | none => exact ⟨rfl, h', rfl⟩
  | some pa =>
    simp only
    cases Funct3Store.ofBits? d.funct3 with
    | none => exact ⟨rfl, h'.fireTrap closed _ _, rfl⟩
    | some f =>
      simp only
      rcases storeValue f pa (s.regs.get d.rs2) m' with ⟨_ | _, m''⟩
      · exact ⟨rfl, h'.fireTrap closed _ _, rfl⟩
      · exact ⟨rfl, h', rfl⟩

theorem executeLR_twins (h : Twins R s t) (d : DecodedInstr xlen) (pa : BitVec xlen) (m : M) :
    TwinResults R (s.executeLR d pa m) (t.executeLR d pa m) := by
  unfold executeLR
  rcases MemT.readWord pa m with ⟨_ | w, m'⟩
  · exact ⟨rfl, h, rfl⟩
  · exact ⟨rfl, setReg_twins h _ _, rfl⟩

theorem executeSC_twins (h : Twins R s t) (d : DecodedInstr xlen) (pa rs2v : BitVec xlen)
    (m : M) : TwinResults R (s.executeSC d pa rs2v m) (t.executeSC d pa rs2v m) := by
  unfold executeSC
  rcases MemT.storeConditional pa (rs2v.setWidth 32) m with ⟨_ | ok, m'⟩
  · exact ⟨rfl, h, rfl⟩
  · exact ⟨rfl, setReg_twins h _ _, rfl⟩

theorem executeAMOrmw_twins (closed : TrapClosed R) (h : Twins R s t) (d : DecodedInstr xlen)
    (f : Option Funct5AMO) (pa rs2v : BitVec xlen) (m : M) :
    TwinResults R (s.executeAMOrmw d f pa rs2v m) (t.executeAMOrmw d f pa rs2v m) := by
  unfold executeAMOrmw
  rcases MemT.readWord pa m with ⟨_ | w, m'⟩
  · exact ⟨rfl, h, rfl⟩
  simp only
  cases f.bind fun f => amoResult f (w.setWidth xlen) rs2v with
  | none => exact ⟨rfl, h.fireTrap closed _ _, rfl⟩
  | some result =>
    simp only
    rcases MemT.writeWord pa (result.setWidth 32) (MemT.invalidateReservation xlen m')
      with ⟨_ | _, m''⟩
    · exact ⟨rfl, h, rfl⟩
    · exact ⟨rfl, setReg_twins h _ _, rfl⟩

theorem executeAMO_twins (closed : TrapClosed R) (h : Twins R s t) (d : DecodedInstr xlen)
    (m : M) : TwinResults R (s.executeAMO d m) (t.executeAMO d m) := by
  obtain ⟨x, s', t', m', hs, ht, h'⟩ :=
    (translateAddr_twins closed h (s.regs.get d.rs1) .store m).cases
  unfold executeAMO
  rw [h.regs, h.config]
  simp only
  split
  · exact ⟨rfl, h.fireTrap closed _ _, rfl⟩
  split
  · exact ⟨rfl, h.fireTrap closed _ _, rfl⟩
  rw [hs, ht]
  cases x with
  | none => exact ⟨rfl, h', rfl⟩
  | some pa =>
    simp only
    split
    · exact executeLR_twins h' d pa m'
    · exact executeSC_twins h' d pa _ m'
    · exact executeAMOrmw_twins closed h' d _ pa _ m'

theorem executeInstr_twins (closed : TrapClosed R) (h : Twins R s t) (d : DecodedInstr xlen)
    (m : M) : TwinResults R (s.executeInstr d m) (t.executeInstr d m) := by
  have ofPair {x y : Bool × RVModel xlen} (pair : TwinPair R x y) :
      TwinResults R ((.ok x.1, x.2, m) : Except Exn Bool × _) (.ok y.1, y.2, m) :=
    ⟨congrArg Except.ok pair.1, pair.2, rfl⟩
  have ofMemory {x y : Bool × RVModel xlen × M} (pair : TwinResults R x y) :
      TwinResults R ((.ok x.1, x.2) : Except Exn Bool × _) (.ok y.1, y.2) :=
    ⟨congrArg Except.ok pair.1, pair.2⟩
  unfold executeInstr
  cases Opcode.ofBits? d.opcode with
  | none =>
    simp only [executeIllegal]
    rw [h.csr, h.pc]
    split
    · exact ⟨rfl, h.fireTrap closed _ _, rfl⟩
    · exact ⟨rfl, h, rfl⟩
  | some opcode =>
    cases opcode with
    | lui => exact ⟨rfl, setReg_twins h _ _, rfl⟩
    | auipc =>
      simp only
      rw [h.pc]
      exact ⟨rfl, setReg_twins h _ _, rfl⟩
    | jal => exact ofPair (executeJAL_twins closed h d)
    | jalr => exact ofPair (executeJALR_twins closed h d)
    | branch => exact ofPair (executeBranch_twins closed h d)
    | load => exact ofMemory (executeLoad_twins closed h d m)
    | store => exact ofMemory (executeStore_twins closed h d m)
    | opImm =>
      simp only [executeOpImm]
      rw [h.regs]
      exact ⟨rfl, setReg_twins h _ _, rfl⟩
    | op => exact ofPair (executeOp_twins closed h d)
    | amo =>
      obtain ⟨x, s', t', m', hs, ht, h'⟩ := (executeAMO_twins closed h d m).cases
      simp only
      rw [hs, ht]
      exact ⟨rfl, h', rfl⟩
    | miscMem => exact ⟨rfl, h, rfl⟩
    | system => exact ofPair (executeSystem_twins closed h d)

theorem executeWord_twins (closed : TrapClosed R) (h : Twins R s t) (raw : WordT)
    (stepped : ∀ dis, R (s.observer.onStep s.pc dis) (t.observer.onStep s.pc dis)) (m : M) :
    TwinResults R (s.executeWord raw m) (t.executeWord raw m) := by
  obtain ⟨x, s', t', m', hs, ht, h'⟩ := (executeInstr_twins closed
    (h.callStepHook (Disasm.disassemble (Decoder.decode xlen raw)) (stepped _))
    (Decoder.decode xlen raw) m).cases
  unfold executeWord
  simp only
  rw [hs, ht]
  cases x with
  | error e => exact ⟨rfl, h', rfl⟩
  | ok modified =>
    cases modified with
    | true => exact ⟨rfl, h'.silent (f := countInstr) fun _ _ => rfl, rfl⟩
    | false => exact ⟨rfl, h'.silent (f := fun r => r.advancePC.countInstr) fun _ _ => rfl, rfl⟩

theorem translateAddr_kept {s' : RVModel xlen} {va pa : BitVec xlen} {access : MemAccess}
    {m m' : M} (translated : s.translateAddr va access m = (some pa, s', m')) : s' = s := by
  rcases translateAddr_effect s va access m with ⟨_, _, eq⟩ | ⟨_, eq⟩
  · rw [translated] at eq
    exact congrArg (fun r => r.2.1) eq
  · rw [translated] at eq
    exact absurd (congrArg Prod.fst eq) (by simp)

theorem step_twins (closed : TrapClosed R) (h : Twins R s t)
    (stepped : ∀ pc dis, R (s.observer.onStep pc dis) (t.observer.onStep pc dis)) (m : M) :
    TwinResults R (s.step m) (t.step m) := by
  obtain ⟨x, s', t', m', hs, ht, h'⟩ := (translateAddr_twins closed h s.pc .fetch m).cases
  unfold step
  rw [h.halted, h.pc]
  split
  · exact ⟨rfl, h, rfl⟩
  rw [hs, ht]
  cases x with
  | none => exact ⟨rfl, h'.silent (f := countInstr) fun _ _ => rfl, rfl⟩
  | some pa =>
    have kept : s' = s := translateAddr_kept hs
    have kept' : t' = t := translateAddr_kept ht
    subst kept kept'
    simp only
    rcases MemT.readWord pa m' with ⟨_ | raw, m''⟩
    · rw [h.pc]
      exact ⟨rfl, (h.fireTrap closed _ _).silent (f := countInstr) fun _ _ => rfl, rfl⟩
    · simp only
      split
      · exact ⟨rfl, h.silent (f := halt) fun _ _ => rfl, rfl⟩
      · exact executeWord_twins closed h raw (fun dis => stepped _ dis) m''

/-- Processors that are the same but for what the host sees. -/
def SameCpu (s t : RVModel xlen) : Prop := t = s.observedBy t.observer

theorem SameCpu.twins (same : SameCpu s t) : Twins (fun _ _ => True) s t := ⟨trivial, same⟩

theorem step_sameCpu (same : SameCpu s t) (m : M) :
    (s.step m).1 = (t.step m).1 ∧ SameCpu (s.step m).2.1 (t.step m).2.1 ∧
      (s.step m).2.2 = (t.step m).2.2 := by
  obtain ⟨outcome, twins, mem⟩ := step_twins (fun _ _ _ _ => trivial) same.twins
    (fun _ _ => trivial) m
  exact ⟨outcome, twins.same, mem⟩

theorem fetched_sameCpu (same : SameCpu s t) (m : M) : t.fetched m = s.fetched m := by
  obtain ⟨x, s', t', m', hs, ht, _⟩ :=
    (translateAddr_twins (fun _ _ _ _ => trivial) same.twins s.pc .fetch m).cases
  unfold fetched
  rw [same.twins.halted, same.twins.pc, hs, ht]
  cases x with
  | none => rfl
  | some pa => rfl

structure Logged (before o : Observer xlen) : Prop where
  stepHook : o.stepHook = before.stepHook
  trapHook : o.trapHook = before.trapHook
  calls : before.hookCalls <+: o.hookCalls
  traps : before.trapCount ≤ o.trapCount
  quiet : o.hookCalls = before.hookCalls ↔
    (before.trapHook = true → o.trapCount = before.trapCount)

theorem Logged.refl (o : Observer xlen) : Logged o o :=
  ⟨rfl, rfl, List.prefix_refl _, le_refl _, iff_of_true rfl fun _ => rfl⟩

theorem Logged.onTrap {before o : Observer xlen} (h : Logged before o)
    (cause mepc mtval : BitVec xlen) : Logged before (o.onTrap cause mepc mtval) where
  stepHook := h.stepHook
  trapHook := h.trapHook
  calls := by
    unfold Observer.onTrap
    simp only
    split
    · exact h.calls.trans (List.prefix_append _ _)
    · exact h.calls
  traps := Nat.le_succ_of_le h.traps
  quiet := by
    have grows := h.calls.length_le
    have counted := h.traps
    unfold Observer.onTrap
    simp only
    rw [h.trapHook]
    cases installed : before.trapHook with
    | false =>
      have quiet := h.quiet
      rw [installed] at quiet
      simpa using quiet
    | true =>
      simp only [if_true, true_imp_iff]
      constructor
      · intro same
        have length := congrArg List.length same
        rw [List.length_append, List.length_singleton] at length
        omega
      · intro same
        omega

theorem executeInstr_logged (s : RVModel xlen) (d : DecodedInstr xlen) (m : M) :
    Logged s.observer (s.executeInstr d m).2.1.observer :=
  have alone : Twins (fun o _ => Logged s.observer o) s s := ⟨.refl _, rfl⟩
  (executeInstr_twins (fun h => h.onTrap) alone d m).2.1.related

theorem executeWord_logged (s : RVModel xlen) (raw : WordT) (m : M) : ∃ dis,
    Logged (s.observer.onStep s.pc dis) (s.executeWord raw m).2.1.observer := by
  let d : DecodedInstr xlen := Decoder.decode xlen raw
  have hook := callStepHook_observedBy s s.observer (Disasm.disassemble d)
  rw [observedBy_observer] at hook
  have logged := executeInstr_logged (s.callStepHook (Disasm.disassemble d)) d m
  rw [hook] at logged
  refine ⟨Disasm.disassemble d, ?_⟩
  unfold executeWord
  simp only
  rw [hook]
  rcases eq : executeInstr _ d m with ⟨_ | modified, s', m'⟩
  · rw [eq] at logged
    exact logged
  · rw [eq] at logged
    cases modified with
    | true => exact logged
    | false => exact logged

theorem step_logged {s : RVModel xlen} {m : M} (word : s.fetched m = none) :
    Logged s.observer (s.step m).2.1.observer := by
  have trap (cause tval : BitVec xlen) :
      Logged s.observer (s.fireTrap cause tval).countInstr.observer := by
    have counted : (s.fireTrap cause tval).countInstr.observer =
        s.observer.onTrap cause s.pc tval := observer_fireTrap s cause tval
    rw [counted]
    exact (Logged.refl _).onTrap _ _ _
  have fetch := fetch_cases s m
  rw [word] at fetch
  generalize s.step m = r at fetch ⊢
  cases fetch with
  | halted stopped => exact .refl _
  | pageFault running translated => exact trap _ _
  | accessFault running translated read => exact trap _ _
  | zero running translated read => exact .refl s.observer

/-- The step calls a hook that is installed: the step hook where it gets as far as executing a
    word, the trap hook where it fires a trap. -/
def CallsHook (s : RVModel xlen) (m : M) : Prop :=
  s.stepHook = true ∧ (s.fetched m).isSome ∨
    s.trapHook = true ∧ (s.step m).2.1.trapCount ≠ s.trapCount

structure StepLog (s : RVModel xlen) (m : M) : Prop where
  stepHook : (s.step m).2.1.stepHook = s.stepHook
  trapHook : (s.step m).2.1.trapHook = s.trapHook
  calls : s.hookCalls <+: (s.step m).2.1.hookCalls
  quiet : (s.step m).2.1.hookCalls = s.hookCalls ↔ ¬CallsHook s m

theorem step_log (s : RVModel xlen) (m : M) : StepLog s m := by
  cases word : s.fetched m with
  | none =>
    have logged := step_logged word
    refine ⟨logged.stepHook, logged.trapHook, logged.calls, logged.quiet.trans ?_⟩
    simp [CallsHook, word, observer]
  | some raw =>
    obtain ⟨m', step⟩ := step_of_fetched word
    obtain ⟨dis, logged⟩ := executeWord_logged s raw m'
    rw [← step] at logged
    have own : s.hookCalls <+: (s.observer.onStep s.pc dis).hookCalls := by
      unfold Observer.onStep
      simp only
      split
      · exact List.prefix_append _ _
      · exact List.prefix_refl _
    refine ⟨logged.stepHook, logged.trapHook, own.trans logged.calls, ?_⟩
    have quiet : (s.step m).2.1.hookCalls = (s.observer.onStep s.pc dis).hookCalls ↔
      (s.trapHook = true → (s.step m).2.1.trapCount = s.trapCount) := logged.quiet
    cases installed : s.stepHook with
    | false =>
      have none : (s.observer.onStep s.pc dis).hookCalls = s.hookCalls := by
        simp [Observer.onStep, observer, installed]
      rw [none] at quiet
      rw [quiet]
      simp [CallsHook, installed]
    | true =>
      have longer : (s.observer.onStep s.pc dis).hookCalls = s.hookCalls ++ [.step s.pc dis] := by
        simp [Observer.onStep, observer, installed]
      have grows : (s.observer.onStep s.pc dis).hookCalls.length ≤
        (s.step m).2.1.hookCalls.length := logged.calls.length_le
      rw [longer, List.length_append, List.length_singleton] at grows
      have called : CallsHook s m := .inl ⟨installed, by rw [word]; rfl⟩
      apply iff_of_false
      · intro same
        rw [same] at grows
        omega
      · exact fun silent => silent called

theorem not_callsHook {s : RVModel xlen} (step : s.stepHook = false) (trap : s.trapHook = false)
    (m : M) : ¬CallsHook s m := by
  simp [CallsHook, step, trap]

end RVModel

end XorOS
