import XorOS.Simulator.Isolation

/- The reservation of LR.W and SC.W under one step() of RVModel<32, MemoryModel<32>>: what
   each access makes of it. -/
namespace XorOS.RVModel
open ISA Bits MemoryModel
variable {Dev : Type}

inductive Access where
  | lr (pa : BitVec 32)
  | sc (pa : BitVec 32)
  | store
  | amo
  deriving DecidableEq, Repr

def reservation (m : MemoryModel 32 Dev) : Option (BitVec 32) :=
  if m.lrValid then some m.lrAddr else none

def storeCompletes (s : RVModel 32) (d : DecodedInstr 32) (m : MemoryModel 32 Dev) : Bool :=
  match dataAccess s d with
  | none => false
  | some (_, va) =>
      match (s.translateAddr va .store m).1, Funct3Store.ofBits? d.funct3 with
      | some pa, some f => (storeValue f pa (s.regs.get d.rs2) m).1.isOk
      | _, _ => false

def amoAccess (s : RVModel 32) (d : DecodedInstr 32) (m : MemoryModel 32 Dev) : Option Access :=
  match dataAccess s d with
  | none => none
  | some (_, va) =>
      match (s.translateAddr va .store m).1, Funct5AMO.ofBits? (funct5 d) with
      | some pa, some .lr => if (m.readWord pa).isOk then some (.lr pa) else none
      | some pa, some .sc => some (.sc pa)
      | some pa, some _ => if (m.readWord pa).isOk then some .amo else none
      | _, _ => none

def instrAccess (s : RVModel 32) (d : DecodedInstr 32) (m : MemoryModel 32 Dev) :
    Option Access :=
  match Opcode.ofBits? d.opcode with
  | some .store => if storeCompletes s d m then some .store else none
  | some .amo => amoAccess s d m
  | _ => none

/-- The access that the next step() completes, told from the state before it. -/
def access (s : RVModel 32) (m : MemoryModel 32 Dev) : Option Access :=
  (s.fetched m).bind fun raw => instrAccess s (Decoder.decode 32 raw) m

def heldAfter (held : Option (BitVec 32)) : Access → Option (BitVec 32)
  | .lr pa => some pa
  | .sc pa => if held = some pa then none else held
  | .store | .amo => none

/-- What an SC.W to pa does when it succeeds and when it fails, the reservation aside. -/
def ScSucceeds (s : RVModel 32) (d : DecodedInstr 32) (m : MemoryModel 32 Dev) (pa : BitVec 32)
    (s' : RVModel 32) (m' : MemoryModel 32 Dev) : Prop :=
  s'.regs = s.regs.set d.rd 0#32 ∧
    m.invalidateReservation.writeWord pa (s.regs.get d.rs2) = (.ok (), m')

def ScFails (s : RVModel 32) (d : DecodedInstr 32) (m : MemoryModel 32 Dev) (s' : RVModel 32)
    (m' : MemoryModel 32 Dev) : Prop :=
  s'.regs = s.regs.set d.rd 1#32 ∧ Untouched m m'

theorem writeWord_reservation (m : MemoryModel 32 Dev) (a : BitVec 32) (v : WordT) :
    reservation (m.writeWord a v).2 = reservation m := by
  unfold writeWord
  split
  · rfl
  split
  · rfl
  · rfl

theorem executeStore_reservation {s : RVModel 32} {d : DecodedInstr 32}
    (opcode : Opcode.ofBits? d.opcode = some .store) (m : MemoryModel 32 Dev) :
    reservation (s.executeStore d m).2.2 =
      if storeCompletes s d m then none else reservation m := by
  unfold executeStore storeCompletes dataAccess
  simp only [opcode]
  by_cases word : Funct3Store.ofBits? d.funct3 = some .sw ∧
      (s.regs.get d.rs1 + d.imm) &&& 0b11#32 ≠ 0#32
  · rw [if_pos word, if_pos word]
    rfl
  by_cases half : Funct3Store.ofBits? d.funct3 = some .sh ∧
      (s.regs.get d.rs1 + d.imm) &&& 0b01#32 ≠ 0#32
  · rw [if_neg word, if_neg word, if_pos half, if_pos half]
    rfl
  rw [if_neg word, if_neg word, if_neg half, if_neg half]
  rcases translateAddr_cases s (s.regs.get d.rs1 + d.imm) .store m with ⟨pa, eq⟩ | eq
  · simp only [eq]
    cases Funct3Store.ofBits? d.funct3 with
    | none => rfl
    | some f =>
      obtain ⟨result, m', done⟩ : ∃ result m',
          storeValue f pa (s.regs.get d.rs2) m = (result, m') := ⟨_, _, rfl⟩
      simp only [done]
      cases result with
      | error e =>
        rw [storeValue_error done]
        rfl
      | ok => rfl
  · simp only [eq]
    rfl

def ScStep {ε : Type} (s : RVModel 32) (d : DecodedInstr 32) (m : MemoryModel 32 Dev)
    (pa : BitVec 32) (r : Except ε Bool × RVModel 32 × MemoryModel 32 Dev) : Prop :=
  if reservation m = some pa then
    (m.readWord pa).isOk →
      r.1 = .ok false ∧ r.2.1.trapCount = s.trapCount ∧ ScSucceeds s d m pa r.2.1 r.2.2
  else
    r.1 = .ok false ∧ r.2.1.trapCount = s.trapCount ∧ r.2.1.regs = s.regs.set d.rd 1#32 ∧
      r.2.2 = m

def Completes {ε : Type} (s : RVModel 32) (d : DecodedInstr 32) (m : MemoryModel 32 Dev)
    (completed : Option Access) (r : Except ε Bool × RVModel 32 × MemoryModel 32 Dev) : Prop :=
  match completed with
  | none => reservation r.2.2 = reservation m
  | some (.lr pa) => reservation r.2.2 = some pa ∧ (m.readWord pa).isOk
  | some (.sc pa) => ScStep s d m pa r
  | some .store | some .amo => reservation r.2.2 = none

theorem executeSC_step (s : RVModel 32) (d : DecodedInstr 32) (m : MemoryModel 32 Dev)
    (pa : BitVec 32) : ScStep s d m pa (s.executeSC d pa (s.regs.get d.rs2) m) := by
  have value : s.executeSC d pa (s.regs.get d.rs2) m =
      match m.storeConditional pa (s.regs.get d.rs2) with
      | (.error e, m) => (.error e, s, m)
      | (.ok ok, m) => (.ok false, s.setReg d.rd (if ok then 0#32 else 1#32), m) := by
    unfold executeSC
    rw [BitVec.setWidth_eq, memT_storeConditional]
    rcases m.storeConditional pa (s.regs.get d.rs2) with ⟨result, m'⟩
    cases result with
    | error e => rfl
    | ok ok => rfl
  have held : reservation m = some pa ↔ ¬(!m.lrValid ∨ m.lrAddr ≠ pa) := by
    unfold reservation
    cases m.lrValid with
    | true => simp
    | false => simp
  unfold ScStep
  rw [value]
  split
  · rename_i same
    intro readable
    obtain ⟨w, read⟩ := (isOk_iff _).mp readable
    have read' : m.invalidateReservation.readWord pa = .ok w := read
    obtain ⟨m', done⟩ := writeWord_of_readWord read' (s.regs.get d.rs2)
    have sc : m.storeConditional pa (s.regs.get d.rs2) = (.ok true, m') := by
      unfold storeConditional
      rw [if_neg (held.mp same)]
      have done' : ({ m with lrValid := false } : MemoryModel 32 Dev).writeWord pa
          (s.regs.get d.rs2) = (.ok (), m') := done
      rw [done']
    rw [sc]
    exact ⟨rfl, rfl, rfl, done⟩
  · rename_i other
    have sc : m.storeConditional pa (s.regs.get d.rs2) = (.ok false, m) := by
      unfold storeConditional
      rw [if_pos (not_not.mp fun no => other (held.mpr no))]
    rw [sc]
    exact ⟨rfl, rfl, rfl, rfl⟩

theorem executeAMOrmw_reservation (s : RVModel 32) (d : DecodedInstr 32) (pa rs2v : BitVec 32)
    (m : MemoryModel 32 Dev) :
    reservation (s.executeAMOrmw d none pa rs2v m).2.2 = reservation m ∧
      ∀ f : Funct5AMO, f ≠ .lr → f ≠ .sc →
        reservation (s.executeAMOrmw d (some f) pa rs2v m).2.2 =
          if (m.readWord pa).isOk then none else reservation m := by
  unfold executeAMOrmw
  rw [memT_readWord]
  cases read : m.readWord pa with
  | error e => exact ⟨rfl, fun _ _ _ => rfl⟩
  | ok w =>
    refine ⟨rfl, fun f notLr notSc => ?_⟩
    obtain ⟨result, known⟩ : ∃ result, amoResult f (w.setWidth 32) rs2v = some result := by
      cases f with
      | lr => exact absurd rfl notLr
      | sc => exact absurd rfl notSc
      | _ => exact ⟨_, rfl⟩
    have readable : m.invalidateReservation.readWord pa = .ok w := read
    obtain ⟨m', done⟩ := writeWord_of_readWord readable (result.setWidth 32)
    have done' : MemT.writeWord pa (result.setWidth 32) (MemT.invalidateReservation 32 m) =
        (.ok (), m') := done
    have kept := writeWord_reservation m.invalidateReservation pa (result.setWidth 32)
    rw [done] at kept
    simp only [Option.bind_some, known, done']
    exact kept

theorem executeAMO_step {s : RVModel 32} {d : DecodedInstr 32}
    (opcode : Opcode.ofBits? d.opcode = some .amo) (m : MemoryModel 32 Dev) :
    Completes s d m (amoAccess s d m) (s.executeAMO d m) := by
  unfold executeAMO Completes amoAccess dataAccess
  simp only [opcode]
  by_cases extension : !s.config.hasExtension Config.EXT_A
  · rw [if_pos extension, if_pos extension]
  rw [if_neg extension, if_neg extension]
  by_cases word : s.regs.get d.rs1 &&& 0b11#32 ≠ 0#32
  · rw [if_pos word, if_pos word]
  rw [if_neg word, if_neg word]
  rcases translateAddr_cases s (s.regs.get d.rs1) .store m with ⟨pa, eq⟩ | eq
  · simp only [eq]
    cases which : Funct5AMO.ofBits? (funct5 d) with
    | none => exact (executeAMOrmw_reservation s d pa (s.regs.get d.rs2) m).1
    | some f =>
      have rmw := (executeAMOrmw_reservation s d pa (s.regs.get d.rs2) m).2 f
      cases f with
      | lr =>
        simp only
        unfold executeLR
        rw [memT_readWord]
        cases read : m.readWord pa with
        | error e => exact rfl
        | ok w => exact ⟨rfl, by rw [read]; rfl⟩
      | sc => exact executeSC_step s d m pa
      | _ =>
        simp only
        rw [rmw (by decide) (by decide)]
        cases (m.readWord pa).isOk with
        | true => rfl
        | false => rfl
  · simp only [eq]

theorem Completes.mapError {ε ε' : Type} {s : RVModel 32} {d : DecodedInstr 32}
    {m : MemoryModel 32 Dev} {completed : Option Access}
    {r : Except ε Bool × RVModel 32 × MemoryModel 32 Dev} (h : Completes s d m completed r)
    (f : ε → ε') : Completes s d m completed (r.map (Except.mapError f) id) := by
  rcases r with ⟨result, s', m'⟩
  have mapped (ok : result = .ok false) : Except.mapError f result = .ok false := by
    rw [ok]
    rfl
  cases completed with
  | none => exact h
  | some x =>
    cases x with
    | sc pa =>
      have sc : ScStep s d m pa (result, s', m') := h
      unfold ScStep at sc
      change ScStep s d m pa (Except.mapError f result, s', m')
      unfold ScStep
      split at sc
      · rename_i held
        rw [if_pos held]
        exact fun readable => ⟨mapped (sc readable).1, (sc readable).2⟩
      · rename_i other
        rw [if_neg other]
        exact ⟨mapped sc.1, sc.2⟩
    | _ => exact h

theorem executeInstr_step (s : RVModel 32) (d : DecodedInstr 32) (m : MemoryModel 32 Dev) :
    Completes s d m (instrAccess s d m) (s.executeInstr d m) := by
  by_cases store : Opcode.ofBits? d.opcode = some .store
  · have kept := executeStore_reservation (s := s) store m
    have access : instrAccess s d m = if storeCompletes s d m then some .store else none := by
      unfold instrAccess
      rw [store]
    have value : (s.executeInstr d m).2.2 = (s.executeStore d m).2.2 := by
      unfold executeInstr
      rw [store]
    rw [access]
    cases completes : storeCompletes s d m with
    | true =>
      rw [completes] at kept
      exact (congrArg reservation value).trans kept
    | false =>
      rw [completes] at kept
      exact (congrArg reservation value).trans kept
  by_cases amo : Opcode.ofBits? d.opcode = some .amo
  · have effect := executeAMO_step (s := s) amo m
    have access : instrAccess s d m = amoAccess s d m := by
      unfold instrAccess
      rw [amo]
    have value : s.executeInstr d m =
        (s.executeAMO d m).map (Except.mapError Exn.outOfRange) id := by
      unfold executeInstr
      rw [amo]
    rw [access, value]
    exact effect.mapError _
  · have access : instrAccess s d m = none := by
      unfold instrAccess
      split
      · rename_i op
        exact absurd op store
      · rename_i op
        exact absurd op amo
      · rfl
    rw [access]
    exact congrArg reservation (executeInstr_mem store amo)

theorem instrAccess_callStepHook (s : RVModel 32) (dis : String) (d : DecodedInstr 32)
    (m : MemoryModel 32 Dev) :
    instrAccess (s.callStepHook dis) d m = instrAccess s d m := by
  have hook := arch_callStepHook s dis
  unfold instrAccess storeCompletes amoAccess
  simp only [dataAccess_of_arch hook, translateAddr_of_arch hook, regs_of_arch hook]

def HeldReadable (m : MemoryModel 32 Dev) : Prop :=
  ∀ pa, reservation m = some pa → (m.readWord pa).isOk

theorem step_layout (s : RVModel 32) (m : MemoryModel 32 Dev) :
    (s.step m).2.2.layout = m.layout := by
  rcases step_writes s m with same | ⟨_, _, _, changed⟩
  · exact same.layout
  · exact changed.layout

theorem writeWord_held {m m' : MemoryModel 32 Dev} {a : BitVec 32} {v : WordT}
    (wrote : m.invalidateReservation.writeWord a v = (.ok (), m')) : reservation m' = none := by
  have kept := writeWord_reservation m.invalidateReservation a v
  rw [wrote] at kept
  exact kept

theorem Completes.reservation {ε : Type} {s : RVModel 32} {d : DecodedInstr 32}
    {m : MemoryModel 32 Dev} {completed : Option Access}
    {r : Except ε Bool × RVModel 32 × MemoryModel 32 Dev} (h : Completes s d m completed r)
    (readable : HeldReadable m) :
    RVModel.reservation r.2.2 =
      completed.elim (RVModel.reservation m) (heldAfter (RVModel.reservation m)) := by
  cases completed with
  | none => exact h
  | some x =>
    cases x with
    | lr pa => exact h.1
    | sc pa =>
      have sc : ScStep s d m pa r := h
      unfold ScStep at sc
      simp only [Option.elim_some, heldAfter]
      split at sc
      · rename_i held
        rw [if_pos held]
        obtain ⟨_, _, _, wrote⟩ := sc (readable pa held)
        exact writeWord_held wrote
      · rename_i other
        rw [if_neg other, sc.2.2.2]
    | store => exact h
    | amo => exact h

theorem executeWord_step (s : RVModel 32) (raw : WordT) (m : MemoryModel 32 Dev) :
    Completes (s.callStepHook (Disasm.disassemble (Decoder.decode 32 raw)))
      (Decoder.decode 32 raw) m (instrAccess s (Decoder.decode 32 raw) m)
      ((s.callStepHook (Disasm.disassemble (Decoder.decode 32 raw))).executeInstr
        (Decoder.decode 32 raw) m) := by
  rw [← instrAccess_callStepHook s (Disasm.disassemble (Decoder.decode 32 raw))]
  exact executeInstr_step _ _ m

theorem step_reservation (s : RVModel 32) {m : MemoryModel 32 Dev} (readable : HeldReadable m) :
    reservation (s.step m).2.2 =
      (access s m).elim (reservation m) (heldAfter (reservation m)) := by
  unfold access
  cases word : s.fetched m with
  | none =>
    rw [step_mem_of_not_fetched word]
    rfl
  | some raw =>
    rw [step_eq_executeWord word, executeWord_mem]
    exact (executeWord_step s raw m).reservation readable

theorem step_heldReadable (s : RVModel 32) {m : MemoryModel 32 Dev} (readable : HeldReadable m) :
    HeldReadable (s.step m).2.2 := by
  intro pa held
  rw [step_reservation s readable] at held
  rw [readWord_isOk_congr (step_layout s m)]
  cases completed : access s m with
  | none =>
    rw [completed] at held
    exact readable pa held
  | some x =>
    rw [completed] at held
    cases x with
    | lr pa' =>
      have same : pa' = pa := by simpa [heldAfter] using held
      subst same
      unfold access at completed
      cases word : s.fetched m with
      | none => simp [word] at completed
      | some raw =>
        have effect := executeWord_step s raw m
        simp only [word, Option.bind_some] at completed
        rw [completed] at effect
        exact effect.2
    | sc pa' =>
      apply readable pa
      simp only [Option.elim_some, heldAfter] at held
      split at held
      · simp at held
      · exact held
    | store => simp [heldAfter] at held
    | amo => simp [heldAfter] at held

/-- An SC.W that gets as far as its physical address does not trap, and succeeds exactly when
    the reservation is held there. -/
theorem step_sc {s : RVModel 32} {m : MemoryModel 32 Dev} {raw : WordT} {pa : BitVec 32}
    (word : s.fetched m = some raw) (sc : access s m = some (.sc pa))
    (readable : HeldReadable m) :
    (s.step m).1 = .ok () ∧ (s.step m).2.1.trapCount = s.trapCount ∧
      if reservation m = some pa then
        ScSucceeds s (Decoder.decode 32 raw) m pa (s.step m).2.1 (s.step m).2.2
      else ScFails s (Decoder.decode 32 raw) m (s.step m).2.1 (s.step m).2.2 := by
  have effect := executeWord_step s raw m
  have regs := regs_of_arch (arch_callStepHook s (Disasm.disassemble (Decoder.decode 32 raw)))
  have traps := trapCount_of_arch
    (arch_callStepHook s (Disasm.disassemble (Decoder.decode 32 raw)))
  unfold access at sc
  simp only [word, Option.bind_some] at sc
  rw [sc] at effect
  rw [step_eq_executeWord word]
  unfold executeWord
  simp only
  generalize s.callStepHook (Disasm.disassemble (Decoder.decode 32 raw)) = t at effect regs traps ⊢
  have done : ScStep t (Decoder.decode 32 raw) m pa (t.executeInstr (Decoder.decode 32 raw) m) :=
    effect
  generalize t.executeInstr (Decoder.decode 32 raw) m = r at done ⊢
  rcases r with ⟨result, s', m'⟩
  unfold ScStep at done
  split at done
  · rename_i held
    obtain ⟨ok, count, written⟩ := done (readable pa held)
    have ok' : result = .ok false := ok
    subst ok'
    unfold ScSucceeds at written
    rw [regs] at written
    simp only [if_pos held]
    exact ⟨trivial, count.trans traps, written⟩
  · rename_i other
    obtain ⟨ok, count, failed, same⟩ := done
    have ok' : result = .ok false := ok
    subst ok'
    rw [regs] at failed
    simp only [if_neg other]
    have still : m' = m := same
    subst still
    exact ⟨trivial, count.trans traps, failed, rfl, rfl, rfl⟩

end XorOS.RVModel
