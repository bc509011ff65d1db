import XorOS.Simulator.Privilege
import XorOS.Simulator.Translation

/- Steps of a trap handler that takes no trap itself and leaves the trap's CSRs alone. -/
namespace XorOS.RVModel
open ISA MemoryModel
variable {Dev : Type}

def WritesCsr (d : DecodedInstr 32) (a : BitVec 12) : Prop :=
  Opcode.ofBits? d.opcode = some .system ∧ d.funct3 ≠ 0#3 ∧
    (d.imm &&& 0xFFF#32).setWidth 12 = a ∧
    ¬(d.rs1 = 0#5 ∧ Funct3CSR.ofBits? d.funct3 ≠ some .csrrw ∧
      Funct3CSR.ofBits? d.funct3 ≠ some .csrrwi)

def TouchesTrap (d : DecodedInstr 32) : Prop :=
  IsMRET d ∨ WritesCsr d CSR.MEPC ∨ WritesCsr d CSR.MCAUSE

structure KeepsTrap (s s' : RVModel 32) : Prop where
  mepc : s'.csr.regs CSR.MEPC = s.csr.regs CSR.MEPC
  mcause : s'.csr.regs CSR.MCAUSE = s.csr.regs CSR.MCAUSE
  mode : s'.privMode = s.privMode

theorem KeepsTrap.refl (s : RVModel 32) : KeepsTrap s s := ⟨rfl, rfl, rfl⟩

theorem KeepsTrap.trans {s t u : RVModel 32} (first : KeepsTrap s t) (second : KeepsTrap t u) :
    KeepsTrap s u :=
  ⟨second.mepc.trans first.mepc, second.mcause.trans first.mcause, second.mode.trans first.mode⟩

theorem KeepsTrap.of_quiet {s s' : RVModel 32} (quiet : Quiet s s') : KeepsTrap s s' :=
  ⟨by rw [quiet.csr], by rw [quiet.csr], quiet.privMode⟩

def Keeps (s : RVModel 32) (r : Bool × RVModel 32) : Prop :=
  (∃ cause tval, r = (true, s.fireTrap cause tval)) ∨ KeepsTrap s r.2

theorem Plain.keeps {s : RVModel 32} {r : Bool × RVModel 32} (plain : Plain s r) : Keeps s r := by
  cases plain with
  | trap cause tval => exact .inl ⟨cause, tval, rfl⟩
  | write regs => exact .inr ⟨rfl, rfl, rfl⟩

theorem csrOp_keeps (f : Funct3CSR) (csr : CsrFile 32) {a addr : BitVec 12} {rs1 : BitVec 5}
    (v : BitVec 32) (kept : addr ≠ a ∨ rs1 = 0#5 ∧ f ≠ .csrrw ∧ f ≠ .csrrwi) :
    (csrOp f csr addr rs1 v).2.regs a = csr.regs a := by
  rcases kept with other | ⟨zero, read, readImm⟩
  · exact csrOp_regs_ne f csr (Ne.symm other) rs1 v
  · subst zero
    cases f with
    | csrrw => exact absurd rfl read
    | csrrwi => exact absurd rfl readImm
    | csrrs => rfl
    | csrrc => rfl
    | csrrsi => rfl
    | csrrci => rfl

theorem executeCSR_keeps (s : RVModel 32) {d : DecodedInstr 32}
    (system : Opcode.ofBits? d.opcode = some .system) (access : d.funct3 ≠ 0#3)
    (outside : ¬TouchesTrap d) : Keeps s (s.executeCSR d) := by
  unfold executeCSR
  simp only
  split
  · exact .inl ⟨_, _, rfl⟩
  cases funct : Funct3CSR.ofBits? d.funct3 with
  | none => exact .inl ⟨_, _, rfl⟩
  | some f =>
    have kept (a : BitVec 12) (unwritten : ¬WritesCsr d a) :
        (d.imm &&& 0xFFF#32).setWidth 12 ≠ a ∨ d.rs1 = 0#5 ∧ f ≠ .csrrw ∧ f ≠ .csrrwi := by
      by_contra both
      obtain ⟨same, write⟩ := not_or.mp both
      refine unwritten ⟨system, access, not_not.mp same, fun ⟨zero, read, readImm⟩ => write ?_⟩
      rw [funct] at read readImm
      exact ⟨zero, fun is => read (by rw [is]), fun is => readImm (by rw [is])⟩
    refine .inr ⟨?_, ?_, rfl⟩
    · exact csrOp_keeps f s.csr _ (kept CSR.MEPC fun writes => outside (.inr (.inl writes)))
    · exact csrOp_keeps f s.csr _ (kept CSR.MCAUSE fun writes => outside (.inr (.inr writes)))

theorem executeSystem_keeps (s : RVModel 32) {d : DecodedInstr 32}
    (system : Opcode.ofBits? d.opcode = some .system) (outside : ¬TouchesTrap d) :
    Keeps s (s.executeSystem d) := by
  unfold executeSystem
  split
  · rename_i funct3
    split
    · exact .inl ⟨_, _, rfl⟩
    split
    · rename_i imm
      exact absurd (.inl ⟨system, funct3, imm⟩) outside
    split
    · exact .inr (.refl s)
    · exact .inr ⟨rfl, rfl, rfl⟩
  · rename_i access
    exact executeCSR_keeps s system access outside

def KeepsOrThrows {ε M : Type} (s : RVModel 32) (r : Except ε Bool × RVModel 32 × M) : Prop :=
  match r with
  | (.ok modified, s', _) => Keeps s (modified, s')
  | (.error _, s', _) => s' = s

theorem PlainOrThrows.keeps {ε M : Type} {s : RVModel 32} {r : Except ε Bool × RVModel 32 × M}
    (plain : PlainOrThrows s r) : KeepsOrThrows s r := by
  rcases r with ⟨result, s', m'⟩
  cases result with
  | error e => exact plain
  | ok modified => exact Plain.keeps plain

theorem executeInstr_keeps (s : RVModel 32) {d : DecodedInstr 32} (m : MemoryModel 32 Dev)
    (outside : ¬TouchesTrap d) : KeepsOrThrows s (s.executeInstr d m) := by
  unfold executeInstr
  cases op : Opcode.ofBits? d.opcode with
  | none => exact (executeIllegal_plain s d m).keeps
  | some opcode =>
    cases opcode with
    | lui => exact .inr ⟨rfl, rfl, rfl⟩
    | auipc => exact .inr ⟨rfl, rfl, rfl⟩
    | jal =>
      simp only [executeJAL]
      split
      · exact .inl ⟨_, _, rfl⟩
      · exact .inr ⟨rfl, rfl, rfl⟩
    | jalr =>
      simp only [executeJALR]
      split
      · exact .inl ⟨_, _, rfl⟩
      · exact .inr ⟨rfl, rfl, rfl⟩
    | branch =>
      simp only [executeBranch]
      split
      · exact .inl ⟨_, _, rfl⟩
      split
      · unfold jumpTo
        split
        · exact .inl ⟨_, _, rfl⟩
        · exact .inr ⟨rfl, rfl, rfl⟩
      · exact .inr (.refl s)
    | load => exact (executeLoad_plain s d m).keeps
    | store => exact (executeStore_plain s d m).keeps
    | opImm => exact .inr ⟨rfl, rfl, rfl⟩
    | op => exact (executeOp_plain s d).keeps
    | amo => exact ((executeAMO_plain s d m).mapError Exn.outOfRange).keeps
    | miscMem => exact .inr (.refl s)
    | system => exact executeSystem_keeps s op outside

theorem step_keeps {s : RVModel 32} {m : MemoryModel 32 Dev}
    (untrapped : (s.step m).2.1.trapCount = s.trapCount)
    (outside : ∀ w, s.fetched m = some w → ¬TouchesTrap (Decoder.decode 32 w)) :
    KeepsTrap s (s.step m).2.1 := by
  have no_trap {t : RVModel 32} {cause tval : BitVec 32}
      (same : arch t = arch (s.fireTrap cause tval)) : t.trapCount ≠ s.trapCount := by
    rw [(trap_cases same).1]
    omega
  cases word : s.fetched m with
  | none =>
    rcases (step_of_not_fetched word).2 with ⟨quiet, _⟩ | ⟨cause, tval, same⟩
    · exact .of_quiet quiet
    · exact absurd untrapped (no_trap same)
  | some w =>
    rw [step_eq_executeWord word] at untrapped ⊢
    unfold executeWord at untrapped ⊢
    simp only at untrapped ⊢
    have hook := arch_callStepHook s (Disasm.disassemble (Decoder.decode 32 w))
    generalize s.callStepHook (Disasm.disassemble (Decoder.decode 32 w)) = t at hook untrapped ⊢
    have keeps := executeInstr_keeps t m (outside w word)
    have start : KeepsTrap s t :=
      ⟨by rw [csr_of_arch hook], by rw [csr_of_arch hook], privMode_of_arch hook⟩
    rcases eq : t.executeInstr (Decoder.decode 32 w) m with ⟨result, t', m'⟩
    rw [eq] at untrapped keeps
    cases result with
    | error e =>
      rw [show t' = t from keeps]
      exact start
    | ok modified =>
      have keeps : Keeps t (modified, t') := keeps
      rcases keeps with ⟨cause, tval, trap⟩ | kept
      · obtain ⟨rfl, rfl⟩ := Prod.mk.inj trap
        have fired : arch (t.fireTrap cause tval).countInstr = arch (s.fireTrap cause tval) := by
          rw [arch_countInstr, arch_fireTrap, arch_fireTrap, hook]
        exact absurd untrapped (no_trap fired)
      · refine start.trans ?_
        cases modified with
        | true => exact ⟨kept.mepc, kept.mcause, kept.mode⟩
        | false => exact ⟨kept.mepc, kept.mcause, kept.mode⟩

/-- A run of step() in which no trap is taken, no mret is executed and no instruction writes mepc
    or mcause. -/
inductive Undisturbed (s : RVModel 32) (m : MemoryModel 32 Dev) :
    RVModel 32 → MemoryModel 32 Dev → Prop
  | refl : Undisturbed s m s m
  | next {t t' : RVModel 32} {mt mt' : MemoryModel 32 Dev} (run : Undisturbed s m t mt)
      (step : t.step mt = (.ok (), t', mt')) (untrapped : t'.trapCount = t.trapCount)
      (outside : ∀ w, t.fetched mt = some w → ¬TouchesTrap (Decoder.decode 32 w)) :
      Undisturbed s m t' mt'

theorem Undisturbed.keeps {s s' : RVModel 32} {m m' : MemoryModel 32 Dev}
    (run : Undisturbed s m s' m') : KeepsTrap s s' := by
  induction run with
  | refl => exact .refl s
  | next _ step untrapped outside ih =>
    refine ih.trans ?_
    have kept := step_keeps (by rw [step]; exact untrapped) outside
    rw [step] at kept
    exact kept

end XorOS.RVModel
