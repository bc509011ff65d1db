import XorOS.Simulator.MemoryEffects

/- Which exceptions of the memory leave step(). Fetch, page walk, loads and stores turn
   std::out_of_range into a trap; executeAMO has no try block. -/
namespace XorOS.MemoryModel
variable {Dev : Type}

def Outside (m : MemoryModel 32 Dev) (pa : BitVec 32) : Prop :=
  m.findMmio pa = none ∧ m.size < pa.toNat + 4

instance (m : MemoryModel 32 Dev) (pa : BitVec 32) : Decidable (m.Outside pa) :=
  inferInstanceAs (Decidable (_ ∧ _))

theorem readWord_throws_iff (m : MemoryModel 32 Dev) (pa : BitVec 32) :
    (∃ e, m.readWord pa = .error e) ↔ m.Outside pa := by
  unfold Outside
  cases found : m.findMmio pa with
  | some r => simp [readWord, found]
  | none =>
    rw [m.readWord_ram found]
    by_cases inside : pa.toNat + 4 ≤ m.size
    · simp [inside]
    · simp [inside, Nat.lt_of_not_le inside]

theorem writeWord_throws_iff (m : MemoryModel 32 Dev) (pa : BitVec 32) (v : WordT) :
    (∃ e, (m.writeWord pa v).1 = .error e) ↔ m.Outside pa := by
  unfold Outside
  cases found : m.findMmio pa with
  | some r => simp [writeWord, found]
  | none =>
    rw [m.writeWord_ram found]
    by_cases inside : pa.toNat + 4 ≤ m.size
    · simp [inside]
    · simp [inside, Nat.lt_of_not_le inside]

theorem storeConditional_throws_iff (m : MemoryModel 32 Dev) (pa : BitVec 32) (v : WordT) :
    (∃ e, (m.storeConditional pa v).1 = .error e) ↔
      (m.lrValid = true ∧ m.lrAddr = pa) ∧ m.Outside pa := by
  unfold storeConditional
  by_cases held : m.lrValid = true ∧ m.lrAddr = pa
  · have passes : ¬((!m.lrValid) = true ∨ m.lrAddr ≠ pa) := by
      simp [held.1, held.2]
    rw [if_neg passes]
    have write := writeWord_throws_iff { m with lrValid := false } pa v
    have same : ({ m with lrValid := false } : MemoryModel 32 Dev).Outside pa ↔ m.Outside pa :=
      Iff.rfl
    rw [same] at write
    rw [← write]
    rcases wrote : ({ m with lrValid := false } : MemoryModel 32 Dev).writeWord pa v
      with ⟨result, m'⟩
    cases result with
    | error e => simp [held]
    | ok => simp [held]
  · have fails : (!m.lrValid) = true ∨ m.lrAddr ≠ pa := by
      cases valid : m.lrValid with
      | false => exact Or.inl rfl
      | true => exact Or.inr fun here => held ⟨valid, here⟩
    rw [if_pos fails]
    simp [held]

end XorOS.MemoryModel

namespace XorOS.RVModel
open ISA MemoryModel
variable {Dev : Type}

def AmoAccess (s : RVModel 32) (d : DecodedInstr 32) (m : MemoryModel 32 Dev)
    (pa : BitVec 32) : Prop :=
  Opcode.ofBits? d.opcode = some .amo ∧ dataAccess s d = some (.store, s.regs.get d.rs1) ∧
    StoreTo s (s.regs.get d.rs1) m pa ∧
    (Funct5AMO.ofBits? (funct5 d) = some .sc → m.lrValid = true ∧ m.lrAddr = pa)

theorem executeAMOrmw_throws_iff (s : RVModel 32) (d : DecodedInstr 32) (f : Option Funct5AMO)
    (pa v : BitVec 32) (m : MemoryModel 32 Dev) :
    (∃ e, (s.executeAMOrmw d f pa v m).1 = .error e) ↔ m.Outside pa := by
  rw [← readWord_throws_iff]
  unfold executeAMOrmw
  rw [memT_readWord]
  cases read : m.readWord pa with
  | error e => simp
  | ok w =>
    simp only [reduceCtorEq, exists_false, iff_false, not_exists]
    intro e
    split
    · simp
    · rename_i result _
      have readable : m.invalidateReservation.readWord pa = .ok w := read
      obtain ⟨m', done⟩ := writeWord_of_readWord readable (result.setWidth 32)
      have done' : MemT.writeWord pa (result.setWidth 32) (MemT.invalidateReservation 32 m) =
          (.ok (), m') := done
      rw [done']
      simp

theorem executeAMO_throws_iff {s : RVModel 32} {d : DecodedInstr 32} {m : MemoryModel 32 Dev}
    (amo : Opcode.ofBits? d.opcode = some .amo) :
    (∃ e, (s.executeAMO d m).1 = .error e) ↔ ∃ pa, AmoAccess s d m pa ∧ m.Outside pa := by
  unfold executeAMO AmoAccess dataAccess
  simp only [amo]
  by_cases extension : (!s.config.hasExtension Config.EXT_A) = true
  · simp [extension]
  rw [if_neg extension, if_neg extension]
  by_cases aligned : s.regs.get d.rs1 &&& 0b11#32 ≠ 0#32
  · simp [aligned]
  rw [if_neg aligned, if_neg aligned]
  rcases translateAddr_cases s (s.regs.get d.rs1) .store m with ⟨pa, eq⟩ | eq
  · have translated (pa' : BitVec 32) : StoreTo s (s.regs.get d.rs1) m pa' ↔ pa = pa' := by
      unfold StoreTo
      simp [eq]
    simp only [eq, translated, true_and, and_assoc, exists_eq_left']
    split
    · rename_i which
      unfold executeLR
      rw [memT_readWord, which, ← readWord_throws_iff]
      cases read : m.readWord pa with
      | error e => simp
      | ok w => simp
    · rename_i which
      unfold executeSC
      rw [memT_storeConditional, which]
      have throws := storeConditional_throws_iff m pa ((s.regs.get d.rs2).setWidth 32)
      rcases done : m.storeConditional pa ((s.regs.get d.rs2).setWidth 32) with ⟨result, m'⟩
      rw [done] at throws
      cases result with
      | error e => simpa using throws
      | ok ok => simpa using throws
    · rename_i notSc
      rw [executeAMOrmw_throws_iff]
      exact ⟨fun outside => ⟨fun which => (notSc which).elim, outside⟩, fun h => h.2⟩
  · have untranslated (pa' : BitVec 32) : ¬StoreTo s (s.regs.get d.rs1) m pa' := by
      unfold StoreTo
      simp [eq]
    simp [eq, untranslated]

theorem executeInstr_throws_iff {s : RVModel 32} (vector : s.csr.getMTVEC ≠ 0#32)
    (d : DecodedInstr 32) (m : MemoryModel 32 Dev) :
    (∃ e, (s.executeInstr d m).1 = .error e) ↔ ∃ pa, AmoAccess s d m pa ∧ m.Outside pa := by
  by_cases amo : Opcode.ofBits? d.opcode = some .amo
  · rw [← executeAMO_throws_iff amo]
    unfold executeInstr
    simp only [amo]
    rcases s.executeAMO d m with ⟨result, t, m'⟩
    cases result with
    | error e => simp [Prod.map, Except.mapError]
    | ok modified => simp [Prod.map, Except.mapError]
  · have returns : ¬∃ e, (s.executeInstr d m).1 = .error e := by
      rintro ⟨e, threw⟩
      unfold executeInstr at threw
      cases op : Opcode.ofBits? d.opcode with
      | none => simp [op, executeIllegal, vector] at threw
      | some opcode =>
        cases opcode with
        | amo => exact amo op
        | _ => simp [op] at threw
    refine ⟨fun threw => (returns threw).elim, ?_⟩
    rintro ⟨pa, access, _⟩
    exact (amo access.1).elim

theorem storeTo_of_arch {s t : RVModel 32} (same : arch t = arch s) (va : BitVec 32)
    (m : MemoryModel 32 Dev) (pa : BitVec 32) : StoreTo t va m pa ↔ StoreTo s va m pa := by
  unfold StoreTo
  rw [translateAddr_of_arch same]

theorem amoAccess_of_arch {s t : RVModel 32} (same : arch t = arch s) (d : DecodedInstr 32)
    (m : MemoryModel 32 Dev) (pa : BitVec 32) : AmoAccess t d m pa ↔ AmoAccess s d m pa := by
  unfold AmoAccess
  rw [dataAccess_of_arch same, regs_of_arch same, storeTo_of_arch same]

def AmoOutside (s : RVModel 32) (m : MemoryModel 32 Dev) : Prop :=
  ∃ raw pa, s.fetched m = some raw ∧ AmoAccess s (Decoder.decode 32 raw) m pa ∧ m.Outside pa

theorem step_throws_iff {s : RVModel 32} (vector : s.csr.getMTVEC ≠ 0#32)
    (m : MemoryModel 32 Dev) : (∃ e, (s.step m).1 = .error e) ↔ AmoOutside s m := by
  unfold AmoOutside
  cases word : s.fetched m with
  | none => simp [(step_of_not_fetched word).1]
  | some raw =>
    have hook := arch_callStepHook s (Disasm.disassemble (Decoder.decode 32 raw))
    have throws := executeInstr_throws_iff
      (s := s.callStepHook (Disasm.disassemble (Decoder.decode 32 raw)))
      (by rw [csr_of_arch hook]; exact vector) (Decoder.decode 32 raw) m
    simp only [amoAccess_of_arch hook] at throws
    simp only [Option.some.injEq, exists_eq_left', exists_and_left]
    rw [← throws, step_eq_executeWord word]
    unfold executeWord
    simp only
    split
    · rename_i eq
      simp [eq]
    · rename_i eq
      simp [eq]

def walkThrows (va : BitVec 32) : Nat → BitVec 32 → MemoryModel 32 Dev → Bool
  | lvl, a, m =>
    match m.readWord (a ||| (vpn va lvl <<< 2)) with
    | .error _ => true
    | .ok pte =>
        if pte &&& 0x1#32 = 0#32 then false
        else if pte &&& 0xA#32 ≠ 0#32 then false
        else
          match lvl with
          | 0 => false
          | lvl + 1 => walkThrows va lvl ((pte >>> 10) <<< 12) m

theorem walkLeaf_of_throws (va : BitVec 32) (m : MemoryModel 32 Dev) :
    ∀ (lvl : Nat) (a : BitVec 32),
      walkThrows va lvl a m = true → (walkLeaf va lvl a m).1 = none := by
  intro lvl
  induction lvl with
  | zero =>
    intro a throws
    unfold walkThrows at throws
    unfold walkLeaf
    rw [memT_readWord]
    cases read : m.readWord (a ||| vpn va 0 <<< 2) with
    | error e => rfl
    | ok pte => simp [read] at throws
  | succ lvl ih =>
    intro a throws
    unfold walkThrows at throws
    unfold walkLeaf
    rw [memT_readWord]
    cases read : m.readWord (a ||| vpn va (lvl + 1) <<< 2) with
    | error e => rfl
    | ok pte =>
      simp only [read, BitVec.setWidth_eq] at throws ⊢
      split at throws
      · simp at throws
      split at throws
      · simp at throws
      rename_i valid pointer
      rw [if_neg valid, if_neg pointer]
      exact ih _ throws

/-- The accesses of a step that leave the memory: page walk, fetch, load or store of an aligned
    address, and the A extension. -/
inductive OutsideAccess (s : RVModel 32) (m : MemoryModel 32 Dev) : MemAccess → Prop
  | walk (access : MemAccess) (va : BitVec 32) (accesses : StepAccesses s m access va)
      (paging : s.Paging) (throws : walkThrows va 1 (rootTable (s.csr.read CSR.SATP)) m = true) :
      OutsideAccess s m access
  | fetch (pa : BitVec 32) (running : s.halted = false)
      (translated : (s.translateAddr s.pc .fetch m).1 = some pa) (outside : m.Outside pa) :
      OutsideAccess s m .fetch
  | load (raw : WordT) (f : Funct3Load) (va pa : BitVec 32) (e : OutOfRange)
      (word : s.fetched m = some raw)
      (accesses : dataAccess s (Decoder.decode 32 raw) = some (.load, va))
      (funct3 : Funct3Load.ofBits? (Decoder.decode 32 raw).funct3 = some f)
      (translated : (s.translateAddr va .load m).1 = some pa)
      (threw : (loadValue f pa m).1 = .error e) : OutsideAccess s m .load
  | store (raw : WordT) (f : Funct3Store) (va pa : BitVec 32) (e : OutOfRange)
      (word : s.fetched m = some raw)
      (opcode : Opcode.ofBits? (Decoder.decode 32 raw).opcode = some .store)
      (accesses : dataAccess s (Decoder.decode 32 raw) = some (.store, va))
      (funct3 : Funct3Store.ofBits? (Decoder.decode 32 raw).funct3 = some f)
      (translated : (s.translateAddr va .store m).1 = some pa)
      (threw : (storeValue f pa (s.regs.get (Decoder.decode 32 raw).rs2) m).1 = .error e) :
      OutsideAccess s m .store
  | amo (reached : AmoOutside s m) : OutsideAccess s m .store

def accessFaultCause : MemAccess → BitVec 32
  | .fetch => uword CSR.EXC_INSN_FAULT
  | .load => uword CSR.EXC_LOAD_FAULT
  | .store => uword CSR.EXC_STORE_FAULT

/-- Nothing is thrown out of the step, and an access outside the memory is an access fault or a
    page fault. -/
structure Contained (s : RVModel 32) (m : MemoryModel 32 Dev) : Prop where
  returns : (s.step m).1 = .ok ()
  faults : ∀ access, OutsideAccess s m access →
    (s.step m).2.1.trapCount = s.trapCount + 1 ∧
      ((s.step m).2.1.csr.read CSR.MCAUSE = accessFaultCause access ∨
        (s.step m).2.1.csr.read CSR.MCAUSE = pageFaultCause access)

theorem executeInstr_of_load_throw {t : RVModel 32} {d : DecodedInstr 32} {f : Funct3Load}
    {va pa : BitVec 32} {e : OutOfRange} {m : MemoryModel 32 Dev}
    (accesses : dataAccess t d = some (.load, va)) (funct3 : Funct3Load.ofBits? d.funct3 = some f)
    (translated : (t.translateAddr va .load m).1 = some pa)
    (threw : (loadValue f pa m).1 = .error e) :
    t.executeInstr d m = (.ok true, t.fireTrap (accessFaultCause .load) va, m) := by
  have kept := loadValue_mem f pa m
  cases dataAccess_cases accesses with
  | load opcode word half =>
    unfold executeInstr
    rw [opcode]
    simp only [executeLoad]
    rw [if_neg word, if_neg half]
    rcases translateAddr_cases t (t.regs.get d.rs1 + d.imm) .load m with ⟨pa', eq⟩ | eq
    · rw [eq] at translated
      cases translated
      rcases loaded : loadValue f pa m with ⟨result, m'⟩
      rw [loaded] at threw kept
      simp only at threw kept
      subst threw kept
      simp only [eq, funct3, loaded]
      rfl
    · simp [eq] at translated

theorem executeInstr_of_store_throw {t : RVModel 32} {d : DecodedInstr 32} {f : Funct3Store}
    {va pa : BitVec 32} {e : OutOfRange} {m : MemoryModel 32 Dev}
    (opcode : Opcode.ofBits? d.opcode = some .store)
    (accesses : dataAccess t d = some (.store, va))
    (funct3 : Funct3Store.ofBits? d.funct3 = some f)
    (translated : (t.translateAddr va .store m).1 = some pa)
    (threw : (storeValue f pa (t.regs.get d.rs2) m).1 = .error e) :
    t.executeInstr d m = (.ok true, t.fireTrap (accessFaultCause .store) va, m) := by
  cases dataAccess_cases accesses with
  | amo other extension aligned => simp [opcode] at other
  | store opcode word half =>
    unfold executeInstr
    rw [opcode]
    simp only [executeStore]
    rw [if_neg word, if_neg half]
    rcases translateAddr_cases t (t.regs.get d.rs1 + d.imm) .store m with ⟨pa', eq⟩ | eq
    · rw [eq] at translated
      cases translated
      rcases stored : storeValue f pa (t.regs.get d.rs2) m with ⟨result, m'⟩
      rw [stored] at threw
      simp only at threw
      subst threw
      have kept := storeValue_error stored
      subst kept
      simp only [eq, funct3, stored]
      rfl
    · simp [eq] at translated

theorem trap_of_fetch_outside {s : RVModel 32} {m : MemoryModel 32 Dev} {pa : BitVec 32}
    (running : s.halted = false) (translated : (s.translateAddr s.pc .fetch m).1 = some pa)
    (outside : m.Outside pa) :
    arch (s.step m).2.1 = arch (s.fireTrap (accessFaultCause .fetch) s.pc) := by
  obtain ⟨e, threw⟩ := (readWord_throws_iff m pa).mpr outside
  unfold step
  rcases translateAddr_cases s s.pc .fetch m with ⟨pa', eq⟩ | eq
  · rw [eq] at translated
    cases translated
    simp only [running, eq, memT_readWord, threw]
    rfl
  · simp [eq] at translated

theorem mcause_of_trap {s s' : RVModel 32} {cause tval : BitVec 32}
    (vector : s.csr.getMTVEC ≠ 0#32) (same : arch s' = arch (s.fireTrap cause tval)) :
    s'.trapCount = s.trapCount + 1 ∧ s'.csr.read CSR.MCAUSE = cause :=
  ⟨(trap_cases same).1, (trap_reports vector same).1⟩

theorem outsideAccess_traps {s : RVModel 32} (vector : s.csr.getMTVEC ≠ 0#32)
    {m : MemoryModel 32 Dev} (guarded : ¬AmoOutside s m) {access : MemAccess}
    (leaves : OutsideAccess s m access) :
    (s.step m).2.1.trapCount = s.trapCount + 1 ∧
      ((s.step m).2.1.csr.read CSR.MCAUSE = accessFaultCause access ∨
        (s.step m).2.1.csr.read CSR.MCAUSE = pageFaultCause access) := by
  cases leaves with
  | walk _ va accesses paging throws =>
    have fault : (s.translateAddr va access m).1 = none := by
      have lost := walkLeaf_of_throws va m _ _ throws
      rw [translateAddr_paging paging]
      unfold leaf
      rw [lost]
      rfl
    obtain ⟨count, cause⟩ := mcause_of_trap vector (trap_of_fault accesses fault).1
    exact ⟨count, Or.inr cause⟩
  | fetch pa running translated outside =>
    obtain ⟨count, cause⟩ :=
      mcause_of_trap vector (trap_of_fetch_outside running translated outside)
    exact ⟨count, Or.inl cause⟩
  | load raw f va pa e word accesses funct3 translated threw =>
    have traps : ∀ t : RVModel 32, arch t = arch s → t.executeInstr (Decoder.decode 32 raw) m =
        (.ok true, t.fireTrap (accessFaultCause .load) va, m) := by
      intro t hook
      rw [← dataAccess_of_arch hook] at accesses
      rw [← translateAddr_of_arch hook] at translated
      exact executeInstr_of_load_throw accesses funct3 translated threw
    obtain ⟨count, cause⟩ := mcause_of_trap vector (step_of_trap word traps).2.1
    exact ⟨count, Or.inl cause⟩
  | store raw f va pa e word opcode accesses funct3 translated threw =>
    have traps : ∀ t : RVModel 32, arch t = arch s → t.executeInstr (Decoder.decode 32 raw) m =
        (.ok true, t.fireTrap (accessFaultCause .store) va, m) := by
      intro t hook
      rw [← dataAccess_of_arch hook] at accesses
      rw [← translateAddr_of_arch hook] at translated
      rw [← regs_of_arch hook] at threw
      exact executeInstr_of_store_throw opcode accesses funct3 translated threw
    obtain ⟨count, cause⟩ := mcause_of_trap vector (step_of_trap word traps).2.1
    exact ⟨count, Or.inl cause⟩
  | amo reached => exact absurd reached guarded

/-- With a trap vector installed the only exception that leaves step() is that of LR, SC and the
    AMOs on a word outside the memory. -/
theorem exceptions_contained_iff {s : RVModel 32} (vector : s.csr.getMTVEC ≠ 0#32)
    (m : MemoryModel 32 Dev) : Contained s m ↔ ¬AmoOutside s m := by
  rw [← step_throws_iff vector]
  constructor
  · rintro contained ⟨e, threw⟩
    rw [contained.returns] at threw
    cases threw
  · intro quiet
    have returns : (s.step m).1 = .ok () := by
      cases result : (s.step m).1 with
      | error e => exact absurd ⟨e, result⟩ quiet
      | ok => rfl
    rw [step_throws_iff vector] at quiet
    exact ⟨returns, fun access leaves => outsideAccess_traps vector quiet leaves⟩

/-- lr.w x2, (x1) in 16 bytes of memory. -/
def lrImage : MemoryModel 32 Unit := .ofWords 16 [0x1000A12F#32] ()

def lrCpu (addr : BitVec 32) : RVModel 32 :=
  { RVModel.new ⟨Config.EXT_A⟩ with
    csr := CsrFile.new.put CSR.MTVEC 8#32
    regs := RegisterFile.new.set 1#5 addr }

theorem exceptions_contained_iff_lr : Contained (lrCpu 12#32) lrImage := by
  refine (exceptions_contained_iff (by decide) lrImage).mpr ?_
  rintro ⟨raw, pa, word, access, outside⟩
  have translated : some 12#32 = some pa := by
    have fetched : (lrCpu 12#32).fetched lrImage = some 0x1000A12F#32 := by decide
    rw [fetched] at word
    rw [← Option.some.inj word] at access
    exact access.2.2.1
  rw [← Option.some.inj translated] at outside
  exact absurd outside (by decide)

/-- lr.w of address 16, the end of the memory. -/
theorem lr_escapes :
    (lrCpu 16#32).halted = false ∧ PcAligned (lrCpu 16#32) ∧ (lrCpu 16#32).csr.getMTVEC ≠ 0#32 ∧
      ((lrCpu 16#32).step lrImage).1 = .error (.outOfRange ⟨16, 4, 16⟩) ∧
      ¬Contained (lrCpu 16#32) lrImage := by
  have threw : ((lrCpu 16#32).step lrImage).1 = .error (.outOfRange ⟨16, 4, 16⟩) := by decide
  refine ⟨by decide, by decide, by decide, threw, ?_⟩
  intro contained
  have returns := contained.returns
  rw [threw] at returns
  cases returns

end XorOS.RVModel
