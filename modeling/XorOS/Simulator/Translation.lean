import XorOS.Library.Bits
import XorOS.Simulator.StepEffects

/- translateAddr over a MemoryModel: what the walk returns, when it faults, and what a step does
   whose access faults. -/
namespace XorOS.RVModel
open ISA
variable {xlen : Nat} {Dev : Type}

theorem walkLeaf_mem (va : BitVec xlen) (m : MemoryModel xlen Dev) :
    ∀ (lvl : Nat) (a : BitVec xlen), (walkLeaf va lvl a m).2 = m := by
  intro lvl
  induction lvl with
  | zero =>
    intro a
    unfold walkLeaf
    rw [MemoryModel.memT_readWord]
    cases m.readWord (a ||| vpn va 0 <<< 2) with
    | error e => rfl
    | ok raw =>
      simp only
      split
      · rfl
      split
      · rfl
      · rfl
  | succ lvl ih =>
    intro a
    unfold walkLeaf
    rw [MemoryModel.memT_readWord]
    cases m.readWord (a ||| vpn va (lvl + 1) <<< 2) with
    | error e => rfl
    | ok raw =>
      simp only
      split
      · rfl
      split
      · rfl
      · exact ih _

theorem valid_bit {raw : BitVec 32} (set : ¬raw &&& 1#32 = 0#32) : raw.getLsbD 0 = true := by
  rw [show 1#32 = BitVec.ofNat 32 (2 ^ 0) from rfl, Bits.and_bit_eq_zero_iff] at set
  simpa using set

def leaf (s : RVModel xlen) (va : BitVec xlen) (m : MemoryModel xlen Dev) :
    Option (Nat × BitVec xlen) :=
  (walkLeaf va 1 (rootTable (s.csr.read CSR.SATP)) m).1

def Paging (s : RVModel xlen) : Prop := s.csr.read CSR.SATP >>> 31 ≠ 0#(xlen)

instance (s : RVModel xlen) : Decidable s.Paging := inferInstanceAs (Decidable (_ ≠ _))

theorem translateAddr_bare {s : RVModel xlen} (bare : ¬s.Paging) (va : BitVec xlen)
    (access : MemAccess) (m : MemoryModel xlen Dev) :
    s.translateAddr va access m = (some va, s, m) := by
  unfold Paging at bare
  unfold translateAddr
  simp only
  rw [if_pos (not_not.mp bare)]

/-- What translateAddr returns under paging, and that every fault is the page fault of the
    access with tval = va. -/
theorem translateAddr_paging {s : RVModel xlen} (paging : s.Paging) (va : BitVec xlen)
    (access : MemAccess) (m : MemoryModel xlen Dev) :
    s.translateAddr va access m =
      match (s.leaf va m).bind fun l => leafAddr s.privMode va l.1 l.2 with
      | some pa => (some pa, s, m)
      | none => (none, s.fireTrap (pageFaultCause access) va, m) := by
  have still := walkLeaf_mem va m 1 (rootTable (s.csr.read CSR.SATP))
  unfold leaf translateAddr
  simp only
  rw [if_neg paging]
  rcases walk : walkLeaf va 1 (rootTable (s.csr.read CSR.SATP)) m with ⟨found, m'⟩
  rw [walk] at still
  simp only at still
  subst still
  cases found with
  | none => rfl
  | some l =>
    simp only [Option.bind_some]
    cases leafAddr s.privMode va l.1 l.2 with
    | none => rfl
    | some pa => rfl

theorem translateAddr_mem (s : RVModel xlen) (va : BitVec xlen) (access : MemAccess)
    (m : MemoryModel xlen Dev) : (s.translateAddr va access m).2.2 = m := by
  by_cases paging : s.Paging
  · rw [translateAddr_paging paging]
    split
    · rfl
    · rfl
  · rw [translateAddr_bare paging]

theorem translateAddr_cases (s : RVModel xlen) (va : BitVec xlen) (access : MemAccess)
    (m : MemoryModel xlen Dev) :
    (∃ pa, s.translateAddr va access m = (some pa, s, m)) ∨
      s.translateAddr va access m = (none, s.fireTrap (pageFaultCause access) va, m) := by
  have still := translateAddr_mem s va access m
  rcases translateAddr_effect s va access m with ⟨pa, m', eq⟩ | ⟨m', eq⟩
  · rw [eq] at still
    rw [eq, ← still]
    exact Or.inl ⟨pa, rfl⟩
  · rw [eq] at still
    rw [eq, ← still]
    exact Or.inr rfl

theorem translateAddr_satp {s t : RVModel xlen} (satp : t.csr.read CSR.SATP = s.csr.read CSR.SATP)
    (priv : t.privMode = s.privMode) (va : BitVec xlen) (access : MemAccess)
    (m : MemoryModel xlen Dev) :
    (t.translateAddr va access m).1 = (s.translateAddr va access m).1 := by
  by_cases paging : s.Paging
  · have paging' : t.Paging := by
      unfold Paging at paging ⊢
      rw [satp]
      exact paging
    have walk : t.leaf va m = s.leaf va m := by
      unfold leaf
      rw [satp]
    rw [translateAddr_paging paging, translateAddr_paging paging', walk, priv]
    split
    · rfl
    · rfl
  · have bare : ¬t.Paging := by
      unfold Paging at paging ⊢
      rw [satp]
      exact paging
    rw [translateAddr_bare paging, translateAddr_bare bare]

theorem translateAddr_congr {s t : RVModel xlen} (csr : t.csr = s.csr)
    (priv : t.privMode = s.privMode) (va : BitVec xlen) (access : MemAccess)
    (m : MemoryModel xlen Dev) :
    (t.translateAddr va access m).1 = (s.translateAddr va access m).1 :=
  translateAddr_satp (by rw [csr]) priv va access m

theorem fetch_mem {s s' : RVModel xlen} {m m' m'' : MemoryModel xlen Dev} {pa : BitVec xlen}
    {result : Except OutOfRange WordT}
    (translated : s.translateAddr s.pc .fetch m = (some pa, s', m'))
    (read : MemT.readWord pa m' = (result, m'')) : m'' = m := by
  have still := translateAddr_mem s s.pc .fetch m
  rw [translated] at still
  exact (congrArg Prod.snd read).symm.trans still

theorem step_eq_executeWord {s : RVModel xlen} {m : MemoryModel xlen Dev} {raw : WordT}
    (word : s.fetched m = some raw) : s.step m = s.executeWord raw m := by
  have fetch := fetch_cases s m
  rw [word] at fetch
  generalize s.step m = r at fetch ⊢
  cases fetch with
  | word running translated read nonzero => rw [fetch_mem translated read]

theorem step_mem_of_not_fetched {s : RVModel xlen} {m : MemoryModel xlen Dev}
    (word : s.fetched m = none) : (s.step m).2.2 = m := by
  have fetch := fetch_cases s m
  rw [word] at fetch
  generalize s.step m = r at fetch ⊢
  cases fetch with
  | halted stopped => rfl
  | pageFault running translated =>
    have still := translateAddr_mem s s.pc .fetch m
    rw [translated] at still
    exact still
  | accessFault running translated read => exact fetch_mem translated read
  | zero running translated read => exact fetch_mem translated read

def Accepted (priv : PrivMode) (lvl : Nat) (pte : BitVec xlen) : Prop :=
  (lvl = 1 → (pte >>> 10) &&& 0x3FF#(xlen) = 0#(xlen)) ∧
    (priv = .U → pte &&& (1#(xlen) <<< 4) ≠ 0#(xlen))

theorem leafAddr_ne_none_iff (priv : PrivMode) (va : BitVec xlen) (lvl : Nat)
    (pte : BitVec xlen) : leafAddr priv va lvl pte ≠ none ↔ Accepted priv lvl pte := by
  unfold leafAddr Accepted
  split
  · rename_i bad
    simp only [ne_eq, not_true_eq_false, false_iff, not_and]
    intro aligned
    exact absurd (aligned bad.1) bad.2
  rename_i aligned
  split
  · rename_i bad
    simp only [ne_eq, not_true_eq_false, false_iff, not_and]
    intro _ user
    exact user bad.1 bad.2
  rename_i user
  have ok : (lvl = 1 → (pte >>> 10) &&& 0x3FF#(xlen) = 0#(xlen)) ∧
      (priv = .U → pte &&& (1#(xlen) <<< 4) ≠ 0#(xlen)) := by
    refine ⟨fun one => ?_, fun mode zero => user ⟨mode, zero⟩⟩
    by_contra bad
    exact aligned ⟨one, bad⟩
  split
  · exact ⟨fun _ => ok, fun _ => by simp⟩
  · exact ⟨fun _ => ok, fun _ => by simp⟩

/-- The access that the instruction makes, once past its alignment and extension checks. -/
def dataAccess (s : RVModel xlen) (d : DecodedInstr xlen) : Option (MemAccess × BitVec xlen) :=
  let addr := s.regs.get d.rs1 + d.imm
  match Opcode.ofBits? d.opcode with
  | some .load =>
      let f3 := Funct3Load.ofBits? d.funct3
      if f3 = some .lw ∧ addr &&& 0b11#(xlen) ≠ 0#(xlen) then none
      else if (f3 = some .lh ∨ f3 = some .lhu) ∧ addr &&& 0b01#(xlen) ≠ 0#(xlen) then none
      else some (.load, addr)
  | some .store =>
      let f3 := Funct3Store.ofBits? d.funct3
      if f3 = some .sw ∧ addr &&& 0b11#(xlen) ≠ 0#(xlen) then none
      else if f3 = some .sh ∧ addr &&& 0b01#(xlen) ≠ 0#(xlen) then none
      else some (.store, addr)
  | some .amo =>
      if !s.config.hasExtension Config.EXT_A then none
      else if s.regs.get d.rs1 &&& 0b11#(xlen) ≠ 0#(xlen) then none
      else some (.store, s.regs.get d.rs1)
  | _ => none

/-- The instructions that reach translateAddr, with the checks that they have passed. -/
inductive DataAccess (s : RVModel xlen) (d : DecodedInstr xlen) : MemAccess → BitVec xlen → Prop
  | load (opcode : Opcode.ofBits? d.opcode = some .load)
      (word : ¬(Funct3Load.ofBits? d.funct3 = some .lw ∧
        (s.regs.get d.rs1 + d.imm) &&& 0b11#(xlen) ≠ 0#(xlen)))
      (half : ¬((Funct3Load.ofBits? d.funct3 = some .lh ∨ Funct3Load.ofBits? d.funct3 = some .lhu) ∧
        (s.regs.get d.rs1 + d.imm) &&& 0b01#(xlen) ≠ 0#(xlen))) :
      DataAccess s d .load (s.regs.get d.rs1 + d.imm)
  | store (opcode : Opcode.ofBits? d.opcode = some .store)
      (word : ¬(Funct3Store.ofBits? d.funct3 = some .sw ∧
        (s.regs.get d.rs1 + d.imm) &&& 0b11#(xlen) ≠ 0#(xlen)))
      (half : ¬(Funct3Store.ofBits? d.funct3 = some .sh ∧
        (s.regs.get d.rs1 + d.imm) &&& 0b01#(xlen) ≠ 0#(xlen))) :
      DataAccess s d .store (s.regs.get d.rs1 + d.imm)
  | amo (opcode : Opcode.ofBits? d.opcode = some .amo)
      (extension : ¬(!s.config.hasExtension Config.EXT_A) = true)
      (aligned : ¬s.regs.get d.rs1 &&& 0b11#(xlen) ≠ 0#(xlen)) :
      DataAccess s d .store (s.regs.get d.rs1)

theorem dataAccess_cases {s : RVModel xlen} {d : DecodedInstr xlen} {access : MemAccess}
    {va : BitVec xlen} (accesses : dataAccess s d = some (access, va)) :
    DataAccess s d access va := by
  unfold dataAccess at accesses
  simp only at accesses
  split at accesses
  · rename_i opcode
    split at accesses
    · simp at accesses
    split at accesses
    · simp at accesses
    rename_i word half
    cases accesses
    exact .load opcode word half
  · rename_i opcode
    split at accesses
    · simp at accesses
    split at accesses
    · simp at accesses
    rename_i word half
    cases accesses
    exact .store opcode word half
  · rename_i opcode
    split at accesses
    · simp at accesses
    split at accesses
    · simp at accesses
    rename_i extension aligned
    cases accesses
    exact .amo opcode extension aligned
  · simp at accesses

/-- An instruction whose access faults in translation takes that fault and does nothing else. -/
theorem executeInstr_of_fault {s t : RVModel xlen} {d : DecodedInstr xlen} {access : MemAccess}
    {va : BitVec xlen} {m m' : MemoryModel xlen Dev} (accesses : dataAccess s d = some (access, va))
    (fault : s.translateAddr va access m = (none, t, m')) :
    s.executeInstr d m = (.ok true, t, m') := by
  unfold executeInstr
  cases dataAccess_cases accesses with
  | load opcode word half =>
    rw [opcode]
    simp only [executeLoad]
    rw [if_neg word, if_neg half, fault]
  | store opcode word half =>
    rw [opcode]
    simp only [executeStore]
    rw [if_neg word, if_neg half, fault]
  | amo opcode extension aligned =>
    rw [opcode]
    simp only [executeAMO]
    rw [if_neg extension, if_neg aligned, fault]
    rfl

/-- step() from s over m makes this access, in its fetch or in the instruction it fetched. -/
inductive StepAccesses (s : RVModel xlen) (m : MemoryModel xlen Dev) :
    MemAccess → BitVec xlen → Prop
  | fetch (running : s.halted = false) : StepAccesses s m .fetch s.pc
  | data (raw : WordT) (access : MemAccess) (va : BitVec xlen) (word : s.fetched m = some raw)
      (accesses : dataAccess s (Decoder.decode xlen raw) = some (access, va)) :
      StepAccesses s m access va

theorem dataAccess_of_arch {s t : RVModel xlen} (same : arch t = arch s) (d : DecodedInstr xlen) :
    dataAccess t d = dataAccess s d := by
  unfold dataAccess
  rw [regs_of_arch same, config_of_arch same]

theorem translateAddr_of_arch {s t : RVModel xlen} (same : arch t = arch s) (va : BitVec xlen)
    (access : MemAccess) (m : MemoryModel xlen Dev) :
    (t.translateAddr va access m).1 = (s.translateAddr va access m).1 :=
  translateAddr_congr (csr_of_arch same) (privMode_of_arch same) va access m

theorem step_of_trap {s : RVModel xlen} {m : MemoryModel xlen Dev} {raw : WordT}
    {cause tval : BitVec xlen} (word : s.fetched m = some raw)
    (traps : ∀ t : RVModel xlen, arch t = arch s →
      t.executeInstr (Decoder.decode xlen raw) m = (.ok true, t.fireTrap cause tval, m)) :
    (s.step m).1 = .ok () ∧ arch (s.step m).2.1 = arch (s.fireTrap cause tval) ∧
      (s.step m).2.2 = m := by
  have hook := arch_callStepHook s (Disasm.disassemble (Decoder.decode xlen raw))
  rw [step_eq_executeWord word]
  unfold executeWord
  simp only [traps _ hook, if_true, arch_countInstr]
  refine ⟨trivial, ?_, trivial⟩
  rw [arch_fireTrap, arch_fireTrap, hook]

theorem trap_of_fault {s : RVModel xlen} {m : MemoryModel xlen Dev} {access : MemAccess}
    {va : BitVec xlen} (accesses : StepAccesses s m access va)
    (fault : (s.translateAddr va access m).1 = none) :
    arch (s.step m).2.1 = arch (s.fireTrap (pageFaultCause access) va) ∧ (s.step m).2.2 = m := by
  cases accesses with
  | fetch running =>
    unfold step
    rcases translateAddr_cases s s.pc .fetch m with ⟨pa, eq⟩ | eq
    · simp [eq] at fault
    · simp only [running, eq]
      exact ⟨rfl, rfl⟩
  | data raw access va word accesses =>
    refine (step_of_trap word ?_).2
    intro t hook
    rw [← dataAccess_of_arch hook] at accesses
    rw [← translateAddr_of_arch hook] at fault
    rcases translateAddr_cases t va access m with ⟨pa, eq⟩ | eq
    · simp [eq] at fault
    · exact executeInstr_of_fault accesses eq

theorem step_of_fault {s : RVModel xlen} {m : MemoryModel xlen Dev} {access : MemAccess}
    {va : BitVec xlen} (accesses : StepAccesses s m access va)
    (fault : (s.translateAddr va access m).1 = none) :
    (s.step m).2.1.regs = s.regs ∧ (s.step m).2.2 = m := by
  obtain ⟨trap, mem⟩ := trap_of_fault accesses fault
  exact ⟨(regs_of_arch trap).trans (regs_fireTrap _ _ _), mem⟩

/-- Page 1 holds a root table whose entry 0 is a readable superpage at 0: neither W nor X. -/
def readOnlyImage : MemoryModel 32 Unit :=
  { (MemoryModel.new 0x2000 () : MemoryModel 32 Unit) with
    data := fun i => if i = 0x1000 then 0x03#8 else 0#8 }

def pagedCpu : RVModel 32 :=
  { RVModel.new ⟨0#32⟩ with csr := CsrFile.new.put CSR.SATP 0x80000001#32 }

end XorOS.RVModel
