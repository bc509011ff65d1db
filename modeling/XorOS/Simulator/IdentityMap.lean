import XorOS.Simulator.MemoryCalls
import XorOS.Simulator.Translation

/- A step whose addresses translate to themselves, and whose instruction does not name satp, is
   the step that the same processor makes in bare mode. -/
namespace XorOS
open ISA

theorem CsrFile.put_comm {xlen : Nat} (c : CsrFile xlen) {a b : BitVec 12} (other : a ≠ b)
    (v w : BitVec xlen) : (c.put a v).put b w = (c.put b w).put a v := by
  ext1
  funext x
  simp only [regs_put]
  by_cases ha : x = a
  · subst ha
    simp [other]
  · simp [ha]

theorem CsrFile.write_put_comm {xlen : Nat} (c : CsrFile xlen) {a b : BitVec 12} (other : a ≠ b)
    (v w : BitVec xlen) : (c.put a v).write b w = (c.write b w).put a v := by
  unfold CsrFile.write
  split
  · rfl
  · exact put_comm c other v w

theorem CsrFile.read_put_ne {xlen : Nat} (c : CsrFile xlen) {a b : BitVec 12} (other : b ≠ a)
    (v : BitVec xlen) : (c.put a v).read b = c.read b := by
  simp only [read, regs_put, other, if_false]

theorem CsrFile.put_put {xlen : Nat} (c : CsrFile xlen) (a : BitVec 12) (v w : BitVec xlen) :
    (c.put a v).put a w = c.put a w := by
  ext1
  funext x
  simp only [regs_put]
  split
  · rfl
  · rfl

theorem CsrFile.put_regs {xlen : Nat} (c : CsrFile xlen) (a : BitVec 12) :
    c.put a (c.regs a) = c := by
  ext1
  funext x
  simp only [regs_put]
  split
  · rename_i same
    rw [same]
  · rfl

namespace RVModel
section AnyWidth
variable {xlen : Nat}

/-- The same processor with another value in satp. -/
def withSatp (s : RVModel xlen) (v : BitVec xlen) : RVModel xlen :=
  { s with csr := s.csr.put CSR.SATP v }

def NamesSatp (d : DecodedInstr xlen) : Prop :=
  Opcode.ofBits? d.opcode = some .system ∧ d.funct3 ≠ 0#3 ∧
    (d.imm &&& 0xFFF#(xlen)).setWidth 12 = CSR.SATP

instance (d : DecodedInstr xlen) : Decidable (NamesSatp d) :=
  inferInstanceAs (Decidable (_ ∧ _ ∧ _))

variable (s : RVModel xlen) (v : BitVec xlen)

@[simp] theorem satp_withSatp : (s.withSatp v).csr.read CSR.SATP = v := rfl

@[simp] theorem withSatp_self : s.withSatp (s.csr.read CSR.SATP) = s :=
  congrArg (fun csr => { s with csr := csr }) (CsrFile.put_regs s.csr CSR.SATP)

theorem callTrapHook_withSatp (cause tval : BitVec xlen) :
    (s.withSatp v).callTrapHook cause tval = (s.callTrapHook cause tval).withSatp v := by
  unfold callTrapHook withSatp
  split
  · rfl
  · rfl

theorem callStepHook_withSatp (dis : String) :
    (s.withSatp v).callStepHook dis = (s.callStepHook dis).withSatp v := by
  unfold callStepHook withSatp
  split
  · rfl
  · rfl

theorem trapCsr_put (csr : CsrFile xlen) (pc : BitVec xlen) (priv : PrivMode)
    (cause tval : BitVec xlen) : trapCsr (csr.put CSR.SATP v) pc priv cause tval =
      (trapCsr csr pc priv cause tval).put CSR.SATP v := by
  unfold trapCsr CsrFile.setMEPC CsrFile.setMCAUSE CsrFile.setMTVAL
  simp only
  rw [CsrFile.put_comm csr (by decide : CSR.SATP ≠ CSR.MEPC),
    CsrFile.put_comm _ (by decide : CSR.SATP ≠ CSR.MCAUSE),
    CsrFile.put_comm _ (by decide : CSR.SATP ≠ CSR.MTVAL),
    CsrFile.read_put_ne _ (by decide : CSR.MSTATUS ≠ CSR.SATP),
    CsrFile.write_put_comm _ (by decide : CSR.SATP ≠ CSR.MSTATUS)]

theorem fireTrap_halts {s : RVModel xlen} (vector : s.csr.getMTVEC = 0#(xlen))
    (cause tval : BitVec xlen) : s.fireTrap cause tval =
      { s.callTrapHook cause tval with halted := true, trapCount := s.trapCount + 1 } := by
  unfold fireTrap callTrapHook
  by_cases hooked : s.trapHook
  · simp [hooked, vector, halt]
  · simp [hooked, vector, halt]

theorem fireTrap_enters {s : RVModel xlen} (vector : s.csr.getMTVEC ≠ 0#(xlen))
    (cause tval : BitVec xlen) : s.fireTrap cause tval =
      { s.callTrapHook cause tval with
        csr := trapCsr s.csr s.pc s.privMode cause tval
        privMode := .M
        pc := s.csr.getMTVEC &&& ~~~3#(xlen)
        trapCount := s.trapCount + 1 } := by
  unfold fireTrap callTrapHook
  by_cases hooked : s.trapHook
  · simp [hooked, vector, trapCsr]
  · simp [hooked, vector, trapCsr]

theorem fireTrap_withSatp (cause tval : BitVec xlen) :
    (s.withSatp v).fireTrap cause tval = (s.fireTrap cause tval).withSatp v := by
  by_cases vector : s.csr.getMTVEC = 0#(xlen)
  · have vector' : (s.withSatp v).csr.getMTVEC = 0#(xlen) := vector
    rw [fireTrap_halts vector, fireTrap_halts vector', callTrapHook_withSatp]
    rfl
  · have vector' : (s.withSatp v).csr.getMTVEC ≠ 0#(xlen) := vector
    have csr : trapCsr (s.withSatp v).csr s.pc s.privMode cause tval =
        (trapCsr s.csr s.pc s.privMode cause tval).put CSR.SATP v := trapCsr_put v _ _ _ _ _
    rw [fireTrap_enters vector, fireTrap_enters vector', callTrapHook_withSatp]
    simp only [withSatp] at csr ⊢
    rw [csr]
    rfl

theorem executeMRET_withSatp : (s.withSatp v).executeMRET = s.executeMRET.withSatp v := by
  have read : (s.csr.put CSR.SATP v).read CSR.MSTATUS = s.csr.read CSR.MSTATUS :=
    CsrFile.read_put_ne _ (by decide) v
  unfold executeMRET withSatp
  simp only
  rw [read, CsrFile.write_put_comm _ (by decide : CSR.SATP ≠ CSR.MSTATUS)]
  rfl

theorem triggerInterrupt_withSatp (cause : BitVec xlen) :
    ((s.withSatp v).triggerInterrupt cause).2 = (s.triggerInterrupt cause).2.withSatp v := by
  have halted : (s.withSatp v).halted = s.halted := rfl
  have mstatus : (s.withSatp v).csr.read CSR.MSTATUS = s.csr.read CSR.MSTATUS := rfl
  have mie : (s.withSatp v).csr.read CSR.MIE = s.csr.read CSR.MIE := rfl
  unfold triggerInterrupt
  simp only
  rw [halted, mstatus, mie]
  split
  · rfl
  split
  · rfl
  split
  · rfl
  · exact fireTrap_withSatp s v _ _

def withSatpOf (v : BitVec xlen) (r : Bool × RVModel xlen) : Bool × RVModel xlen :=
  (r.1, r.2.withSatp v)

theorem illegalInsn_withSatp (d : DecodedInstr xlen) :
    (s.withSatp v).illegalInsn d = withSatpOf v (s.illegalInsn d) :=
  congrArg (Prod.mk true) (fireTrap_withSatp s v _ _)

theorem jumpTo_withSatp (target : BitVec xlen) :
    (s.withSatp v).jumpTo target = withSatpOf v (s.jumpTo target) := by
  unfold jumpTo
  split
  · exact congrArg (Prod.mk true) (fireTrap_withSatp s v _ _)
  · rfl

theorem executeJAL_withSatp (d : DecodedInstr xlen) :
    (s.withSatp v).executeJAL d = withSatpOf v (s.executeJAL d) := by
  have pc : (s.withSatp v).pc = s.pc := rfl
  unfold executeJAL
  simp only
  rw [pc]
  split
  · exact congrArg (Prod.mk true) (fireTrap_withSatp s v _ _)
  · rfl

theorem executeJALR_withSatp (d : DecodedInstr xlen) :
    (s.withSatp v).executeJALR d = withSatpOf v (s.executeJALR d) := by
  have regs : (s.withSatp v).regs = s.regs := rfl
  unfold executeJALR
  simp only
  rw [regs]
  split
  · exact congrArg (Prod.mk true) (fireTrap_withSatp s v _ _)
  · rfl

theorem executeBranch_withSatp (d : DecodedInstr xlen) :
    (s.withSatp v).executeBranch d = withSatpOf v (s.executeBranch d) := by
  have regs : (s.withSatp v).regs = s.regs := rfl
  have pc : (s.withSatp v).pc = s.pc := rfl
  unfold executeBranch
  rw [regs, pc]
  cases Funct3Branch.ofBits? d.funct3 with
  | none => exact illegalInsn_withSatp s v d
  | some f =>
    simp only
    split
    · exact jumpTo_withSatp s v _
    · rfl

theorem executeOp_withSatp (d : DecodedInstr xlen) :
    (s.withSatp v).executeOp d = withSatpOf v (s.executeOp d) := by
  have config : (s.withSatp v).config = s.config := rfl
  unfold executeOp
  simp only
  rw [config]
  split
  · split
    · exact illegalInsn_withSatp s v d
    · rfl
  · rfl

theorem csrOp_put (f : Funct3CSR) (csr : CsrFile xlen) {addr : BitVec 12}
    (other : addr ≠ CSR.SATP) (rs1 : BitVec 5) (rs1v : BitVec xlen) :
    csrOp f (csr.put CSR.SATP v) addr rs1 rs1v =
      ((csrOp f csr addr rs1 rs1v).1, (csrOp f csr addr rs1 rs1v).2.put CSR.SATP v) := by
  have read := CsrFile.read_put_ne csr other v
  have write (w : BitVec xlen) := CsrFile.write_put_comm csr (Ne.symm other) v w
  cases f with
  | csrrw => simp only [csrOp, CsrFile.csrrw, read, write]
  | csrrs =>
    simp only [csrOp, CsrFile.csrrs, read, write]
    split
    · rfl
    · rfl
  | csrrc =>
    simp only [csrOp, CsrFile.csrrc, read, write]
    split
    · rfl
    · rfl
  | csrrwi => simp only [csrOp, CsrFile.csrrwi, read, write]
  | csrrsi =>
    simp only [csrOp, CsrFile.csrrsi, read, write]
    split
    · rfl
    · rfl
  | csrrci =>
    simp only [csrOp, CsrFile.csrrci, read, write]
    split
    · rfl
    · rfl

theorem executeSystem_withSatp {d : DecodedInstr xlen}
    (system : Opcode.ofBits? d.opcode = some .system) (other : ¬NamesSatp d) :
    (s.withSatp v).executeSystem d = withSatpOf v (s.executeSystem d) := by
  have priv : (s.withSatp v).privMode = s.privMode := rfl
  unfold executeSystem
  by_cases zero : d.funct3 = 0#3
  · rw [if_pos zero, if_pos zero, priv]
    split
    · exact congrArg (Prod.mk true) (fireTrap_withSatp s v _ _)
    split
    · exact congrArg (Prod.mk true) (executeMRET_withSatp s v)
    split
    · rfl
    · rfl
  · rw [if_neg zero, if_neg zero]
    have addr : (d.imm &&& 0xFFF#(xlen)).setWidth 12 ≠ CSR.SATP :=
      fun same => other ⟨system, zero, same⟩
    unfold executeCSR
    simp only
    rw [priv]
    split
    · exact congrArg (Prod.mk true) (fireTrap_withSatp s v _ _)
    cases Funct3CSR.ofBits? d.funct3 with
    | none => exact illegalInsn_withSatp s v d
    | some f =>
      have op := csrOp_put v f s.csr addr d.rs1 (s.regs.get d.rs1)
      simp only [withSatp, op]
      rfl

theorem executeIllegal_withSatp (d : DecodedInstr xlen) : (s.withSatp v).executeIllegal d =
    ((s.executeIllegal d).1, (s.executeIllegal d).2.withSatp v) := by
  have vector : (s.withSatp v).csr.getMTVEC = s.csr.getMTVEC := rfl
  unfold executeIllegal
  rw [vector]
  split
  · exact congrArg (Prod.mk (Except.ok true)) (fireTrap_withSatp s v _ _)
  · rfl

end AnyWidth

section OverMemory
variable {xlen : Nat} {Dev : Type} {s : RVModel xlen} {m : MemoryModel xlen Dev} {v : BitVec xlen}

def SelfAccess (s : RVModel xlen) (d : DecodedInstr xlen) (m : MemoryModel xlen Dev) : Prop :=
  ∀ access va, dataAccess s d = some (access, va) → (s.translateAddr va access m).1 = some va

def inMemoryWithSatp {α : Type} (v : BitVec xlen) (r : α × RVModel xlen × MemoryModel xlen Dev) :
    α × RVModel xlen × MemoryModel xlen Dev :=
  (r.1, r.2.1.withSatp v, r.2.2)

theorem translateAddr_self {va : BitVec xlen} {access : MemAccess}
    (self : (s.translateAddr va access m).1 = some va) :
    s.translateAddr va access m = (some va, s, m) := by
  rcases translateAddr_cases s va access m with ⟨pa, eq⟩ | eq
  · rw [eq] at self ⊢
    simp only [Option.some.injEq] at self
    rw [self]
  · rw [eq] at self
    simp at self

theorem executeLoad_withSatp {d : DecodedInstr xlen} (opcode : Opcode.ofBits? d.opcode = some .load)
    (self : SelfAccess s d m) (self' : SelfAccess (s.withSatp v) d m) :
    (s.withSatp v).executeLoad d m = inMemoryWithSatp v (s.executeLoad d m) := by
  have regs : (s.withSatp v).regs = s.regs := rfl
  have trap (cause tval : BitVec xlen) := fireTrap_withSatp s v cause tval
  unfold executeLoad
  simp only
  rw [regs]
  split
  · rw [trap]
    rfl
  split
  · rw [trap]
    rfl
  rename_i word half
  have accesses : dataAccess s d = some (.load, s.regs.get d.rs1 + d.imm) := by
    unfold dataAccess
    simp only
    rw [opcode]
    simp only
    rw [if_neg word, if_neg half]
  rw [translateAddr_self (self' _ _ accesses), translateAddr_self (self _ _ accesses)]
  cases Funct3Load.ofBits? d.funct3 with
  | none =>
    simp only
    rw [trap]
    rfl
  | some f =>
    simp only
    rcases loadValue f (s.regs.get d.rs1 + d.imm) m with ⟨_ | _, m'⟩
    · simp only
      rw [trap]
      rfl
    · rfl

theorem executeStore_withSatp {d : DecodedInstr xlen}
    (opcode : Opcode.ofBits? d.opcode = some .store)
    (self : SelfAccess s d m) (self' : SelfAccess (s.withSatp v) d m) :
    (s.withSatp v).executeStore d m = inMemoryWithSatp v (s.executeStore d m) := by
  have regs : (s.withSatp v).regs = s.regs := rfl
  have trap (cause tval : BitVec xlen) := fireTrap_withSatp s v cause tval
  unfold executeStore
  simp only
  rw [regs]
  split
  · rw [trap]
    rfl
  split
  · rw [trap]
    rfl
  rename_i word half
  have accesses : dataAccess s d = some (.store, s.regs.get d.rs1 + d.imm) := by
    unfold dataAccess
    simp only
    rw [opcode]
    simp only
    rw [if_neg word, if_neg half]
  rw [translateAddr_self (self' _ _ accesses), translateAddr_self (self _ _ accesses)]
  cases Funct3Store.ofBits? d.funct3 with
  | none =>
    simp only
    rw [trap]
    rfl
  | some f =>
    simp only
    rcases storeValue f (s.regs.get d.rs1 + d.imm) (s.regs.get d.rs2) m with ⟨_ | _, m'⟩
    · simp only
      rw [trap]
      rfl
    · rfl

theorem executeLR_withSatp (d : DecodedInstr xlen) (pa : BitVec xlen) :
    (s.withSatp v).executeLR d pa m = inMemoryWithSatp v (s.executeLR d pa m) := by
  unfold executeLR
  rcases MemT.readWord pa m with ⟨_ | _, m'⟩
  · rfl
  · rfl

theorem executeSC_withSatp (d : DecodedInstr xlen) (pa rs2v : BitVec xlen) :
    (s.withSatp v).executeSC d pa rs2v m = inMemoryWithSatp v (s.executeSC d pa rs2v m) := by
  unfold executeSC
  rcases MemT.storeConditional pa (rs2v.setWidth 32) m with ⟨_ | _, m'⟩
  · rfl
  · rfl

theorem executeAMOrmw_withSatp (d : DecodedInstr xlen) (f : Option Funct5AMO)
    (pa rs2v : BitVec xlen) :
    (s.withSatp v).executeAMOrmw d f pa rs2v m =
      inMemoryWithSatp v (s.executeAMOrmw d f pa rs2v m) := by
  unfold executeAMOrmw
  rcases MemT.readWord pa m with ⟨_ | w, m'⟩
  · rfl
  · simp only
    cases f.bind fun f => amoResult f (w.setWidth xlen) rs2v with
    | none =>
      simp only
      rw [fireTrap_withSatp]
      rfl
    | some result =>
      simp only
      rcases MemT.writeWord pa (result.setWidth 32) (MemT.invalidateReservation xlen m') with
        ⟨_ | _, m''⟩
      · rfl
      · rfl

theorem executeAMO_withSatp {d : DecodedInstr xlen} (opcode : Opcode.ofBits? d.opcode = some .amo)
    (self : SelfAccess s d m) (self' : SelfAccess (s.withSatp v) d m) :
    (s.withSatp v).executeAMO d m = inMemoryWithSatp v (s.executeAMO d m) := by
  have regs : (s.withSatp v).regs = s.regs := rfl
  have config : (s.withSatp v).config = s.config := rfl
  have trap (cause tval : BitVec xlen) := fireTrap_withSatp s v cause tval
  unfold executeAMO
  simp only
  rw [regs, config]
  split
  · rw [trap]
    rfl
  split
  · rw [trap]
    rfl
  rename_i extension aligned
  have accesses : dataAccess s d = some (.store, s.regs.get d.rs1) := by
    unfold dataAccess
    simp only
    rw [opcode]
    simp only
    rw [if_neg extension, if_neg aligned]
  rw [translateAddr_self (self' _ _ accesses), translateAddr_self (self _ _ accesses)]
  simp only
  split
  · exact executeLR_withSatp d _
  · exact executeSC_withSatp d _ _
  · exact executeAMOrmw_withSatp d _ _ _

theorem executeInstr_withSatp {d : DecodedInstr xlen} (other : ¬NamesSatp d)
    (self : SelfAccess s d m) (self' : SelfAccess (s.withSatp v) d m) :
    (s.withSatp v).executeInstr d m = inMemoryWithSatp v (s.executeInstr d m) := by
  unfold executeInstr
  simp only
  split
  · rfl
  · rfl
  · rw [executeJAL_withSatp]
    rfl
  · rw [executeJALR_withSatp]
    rfl
  · rw [executeBranch_withSatp]
    rfl
  · rename_i opcode
    rw [executeLoad_withSatp opcode self self']
    rfl
  · rename_i opcode
    rw [executeStore_withSatp opcode self self']
    rfl
  · rfl
  · rw [executeOp_withSatp]
    rfl
  · rename_i opcode
    rw [executeAMO_withSatp opcode self self']
    rfl
  · rfl
  · rename_i opcode
    rw [executeSystem_withSatp s v opcode other]
    rfl
  · rw [executeIllegal_withSatp]
    rfl

theorem SelfAccess.of_arch {t : RVModel xlen} {d : DecodedInstr xlen} (same : arch t = arch s)
    (self : SelfAccess s d m) : SelfAccess t d m := by
  intro access va accesses
  rw [dataAccess_of_arch same] at accesses
  rw [translateAddr_of_arch same]
  exact self access va accesses

theorem executeWord_withSatp {raw : WordT} (other : ¬NamesSatp (Decoder.decode xlen raw))
    (self : SelfAccess s (Decoder.decode xlen raw) m)
    (self' : SelfAccess (s.withSatp v) (Decoder.decode xlen raw) m) :
    (s.withSatp v).executeWord raw m = inMemoryWithSatp v (s.executeWord raw m) := by
  let dis := Disasm.disassemble (Decoder.decode xlen raw)
  have hooked : SelfAccess (s.callStepHook dis) (Decoder.decode xlen raw) m :=
    self.of_arch (arch_callStepHook s dis)
  have hooked' : SelfAccess ((s.callStepHook dis).withSatp v) (Decoder.decode xlen raw) m := by
    rw [← callStepHook_withSatp]
    exact self'.of_arch (arch_callStepHook _ dis)
  unfold executeWord
  simp only
  rw [callStepHook_withSatp, executeInstr_withSatp other hooked hooked']
  rcases (s.callStepHook _).executeInstr (Decoder.decode xlen raw) m with ⟨_ | modified, t, m'⟩
  · rfl
  · cases modified with
    | true => rfl
    | false => rfl

/-- Every address that step() uses translates to itself. -/
def SelfMapped (s : RVModel xlen) (m : MemoryModel xlen Dev) : Prop :=
  ∀ access va, StepAccesses s m access va → (s.translateAddr va access m).1 = some va

theorem SelfMapped.of_bare (bare : ¬s.Paging) : SelfMapped s m := by
  intro access va _
  rw [translateAddr_bare bare]

theorem fetched_of_self (running : s.halted = false)
    (self : (s.translateAddr s.pc .fetch m).1 = some s.pc) :
    s.fetched m = match (MemT.readWord s.pc m : Except OutOfRange WordT × _).1 with
      | .error _ => none
      | .ok raw => if raw = 0#32 then none else some raw := by
  unfold fetched
  rw [if_neg (by simp [running]), translateAddr_self self]
  simp only
  rcases MemT.readWord s.pc m with ⟨_ | raw, m'⟩
  · rfl
  · rfl

/-- Where the addresses translate to themselves with either satp, the step is the same. -/
theorem step_withSatp (self : SelfMapped s m) (self' : SelfMapped (s.withSatp v) m)
    (other : ∀ raw, s.fetched m = some raw → ¬NamesSatp (Decoder.decode xlen raw)) :
    (s.withSatp v).step m = inMemoryWithSatp v (s.step m) := by
  have halted : (s.withSatp v).halted = s.halted := rfl
  have pc : (s.withSatp v).pc = s.pc := rfl
  cases stopped : s.halted with
  | true =>
    unfold step
    rw [halted, if_pos stopped, if_pos stopped]
    rfl
  | false =>
    have fetch := self _ _ (.fetch stopped)
    have fetch' := self' _ _ (.fetch stopped)
    have word := fetched_of_self stopped fetch
    have word' := fetched_of_self (s := s.withSatp v) stopped fetch'
    have moved := translateAddr_self fetch'
    rw [pc] at moved
    unfold step
    rw [halted, pc, if_neg (by simp [stopped]), if_neg (by simp [stopped]), moved,
      translateAddr_self fetch]
    simp only
    rcases read : MemT.readWord s.pc m with ⟨_ | raw, m'⟩
    · simp only
      rw [fireTrap_withSatp]
      rfl
    · have still : m' = m := fetch_mem (translateAddr_self fetch) read
      subst still
      rw [read] at word
      rw [pc, read] at word'
      simp only at word word' ⊢
      by_cases zero : raw = 0#32
      · rw [if_pos zero, if_pos zero]
        rfl
      · rw [if_neg zero] at word word' ⊢
        rw [if_neg zero]
        exact executeWord_withSatp (other raw word)
          (fun access va accesses => self access va (.data raw access va word accesses))
          (fun access va accesses => self' access va (.data raw access va word' accesses))

theorem step_satp (self : SelfMapped s m)
    (other : ∀ raw, s.fetched m = some raw → ¬NamesSatp (Decoder.decode xlen raw)) :
    (s.step m).2.1.csr.read CSR.SATP = s.csr.read CSR.SATP := by
  have again := step_withSatp (v := s.csr.read CSR.SATP) self (by rwa [withSatp_self]) other
  rw [withSatp_self] at again
  rw [again]
  rfl

end OverMemory

end RVModel

end XorOS
