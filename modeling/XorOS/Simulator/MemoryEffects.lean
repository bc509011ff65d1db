import XorOS.Simulator.MemorySimulation
import XorOS.Simulator.RamWords
import XorOS.Simulator.Translation

/- What an instruction of RVModel<32, MemoryModel<32>> does to the memory: each store goes to
   an aligned address that translateAddr has returned. -/
namespace XorOS.RVModel
open ISA Bits MemoryModel
variable {Dev : Type}

def StoreTo (s : RVModel 32) (va : BitVec 32) (m : MemoryModel 32 Dev) (pa : BitVec 32) : Prop :=
  (s.translateAddr va .store m).1 = some pa

theorem StoreTo.clear {s : RVModel 32} {va pa : BitVec 32} {m : MemoryModel 32 Dev}
    (translated : StoreTo s va m pa) {k : Nat} (le : k ≤ 12) (aligned : LowClear k va) :
    LowClear k pa := by
  rcases eq : s.translateAddr va .store m with ⟨found, t, m'⟩
  unfold StoreTo at translated
  rw [eq] at translated
  simp only at translated
  subst translated
  exact translateAddr_clear le aligned eq

def StoreAligned (f : Funct3Store) (pa : BitVec 32) : Prop :=
  match f with
  | .sb => True
  | .sh => LowClear 1 pa
  | .sw => LowClear 2 pa

theorem storeValue_error {f : Funct3Store} {pa data : BitVec 32} {m m' : MemoryModel 32 Dev}
    {e : OutOfRange} (threw : storeValue f pa data m = (.error e, m')) : m' = m := by
  cases f with
  | sb => exact writeByte_error threw
  | sh => exact writeHalf_error threw
  | sw => exact writeWord_error threw

inductive StoreOutcome (s : RVModel 32) (m : MemoryModel 32 Dev) :
    Bool × RVModel 32 × MemoryModel 32 Dev → Prop
  | trap (cause tval : BitVec 32) : StoreOutcome s m (true, s.fireTrap cause tval, m)
  | stored (f : Funct3Store) (va pa data : BitVec 32) (m' : MemoryModel 32 Dev)
      (translated : StoreTo s va m pa) (aligned : StoreAligned f pa)
      (done : storeValue f pa data m = (.ok (), m')) :
      StoreOutcome s m (false, s, m'.invalidateReservation)

theorem executeStore_outcome (s : RVModel 32) (d : DecodedInstr 32) (m : MemoryModel 32 Dev) :
    StoreOutcome s m (s.executeStore d m) := by
  unfold executeStore
  simp only
  split
  · exact .trap _ _
  rename_i word
  split
  · exact .trap _ _
  rename_i half
  rcases translateAddr_cases s (s.regs.get d.rs1 + d.imm) .store m with ⟨pa, eq⟩ | eq
  · have translated : StoreTo s (s.regs.get d.rs1 + d.imm) m pa := by
      unfold StoreTo
      rw [eq]
    simp only [eq]
    cases f3 : Funct3Store.ofBits? d.funct3 with
    | none => exact .trap _ _
    | some f =>
      have aligned : StoreAligned f pa := by
        cases f with
        | sb => trivial
        | sh => exact translated.clear (by omega) (misaligned_half fun bad => half ⟨f3, bad⟩)
        | sw => exact translated.clear (by omega) (misaligned_word fun bad => word ⟨f3, bad⟩)
      simp only
      rcases done : storeValue f pa (s.regs.get d.rs2) m with ⟨result, m'⟩
      cases result with
      | error e =>
        have same := storeValue_error done
        subst same
        exact .trap _ _
      | ok => exact .stored f _ pa _ m' translated aligned done
  · simp only [eq]
    exact .trap _ _

/-- What LR, SC and the AMOs do at an aligned physical address, for the decoded d. -/
inductive AmoOutcome (s : RVModel 32) (d : DecodedInstr 32) (m : MemoryModel 32 Dev) :
    Except OutOfRange Bool × RVModel 32 × MemoryModel 32 Dev → Prop
  | trap (cause tval : BitVec 32) : AmoOutcome s d m (.ok true, s.fireTrap cause tval, m)
  | unreadable (e : OutOfRange) : AmoOutcome s d m (.error e, s, m)
  | lr (pa : BitVec 32) (w : WordT) (translated : StoreTo s (s.regs.get d.rs1) m pa)
      (aligned : LowClear 2 pa) (which : Funct5AMO.ofBits? (funct5 d) = some .lr)
      (read : m.readWord pa = .ok w) :
      AmoOutcome s d m (.ok false, s.setReg d.rd w, m.reserveLoad pa)
  | sc (pa : BitVec 32) (ok : Bool) (m' : MemoryModel 32 Dev)
      (translated : StoreTo s (s.regs.get d.rs1) m pa) (aligned : LowClear 2 pa)
      (which : Funct5AMO.ofBits? (funct5 d) = some .sc)
      (done : m.storeConditional pa (s.regs.get d.rs2) = (.ok ok, m')) :
      AmoOutcome s d m (.ok false, s.setReg d.rd (if ok then 0#32 else 1#32), m')
  | scThrows (pa : BitVec 32) (e : OutOfRange) (m' : MemoryModel 32 Dev)
      (threw : m.storeConditional pa (s.regs.get d.rs2) = (.error e, m')) :
      AmoOutcome s d m (.error e, s, m')
  | rmw (pa : BitVec 32) (w result : WordT) (m' : MemoryModel 32 Dev)
      (translated : StoreTo s (s.regs.get d.rs1) m pa) (aligned : LowClear 2 pa)
      (which : Funct5AMO.ofBits? (funct5 d) ≠ some .lr ∧ Funct5AMO.ofBits? (funct5 d) ≠ some .sc)
      (done : m.invalidateReservation.writeWord pa result = (.ok (), m')) :
      AmoOutcome s d m (.ok false, s.setReg d.rd w, m')

theorem executeLR_outcome {s : RVModel 32} {d : DecodedInstr 32} {m : MemoryModel 32 Dev}
    {pa : BitVec 32} (translated : StoreTo s (s.regs.get d.rs1) m pa) (aligned : LowClear 2 pa)
    (which : Funct5AMO.ofBits? (funct5 d) = some .lr) : AmoOutcome s d m (s.executeLR d pa m) := by
  unfold executeLR
  rw [memT_readWord]
  cases read : m.readWord pa with
  | error e => exact .unreadable e
  | ok w =>
    simp only [BitVec.setWidth_eq]
    exact .lr pa w translated aligned which read

theorem executeSC_outcome {s : RVModel 32} {d : DecodedInstr 32} {m : MemoryModel 32 Dev}
    {pa : BitVec 32} (translated : StoreTo s (s.regs.get d.rs1) m pa) (aligned : LowClear 2 pa)
    (which : Funct5AMO.ofBits? (funct5 d) = some .sc) :
    AmoOutcome s d m (s.executeSC d pa (s.regs.get d.rs2) m) := by
  unfold executeSC
  rw [BitVec.setWidth_eq, memT_storeConditional]
  rcases done : m.storeConditional pa (s.regs.get d.rs2) with ⟨result, m'⟩
  cases result with
  | error e => exact .scThrows pa e m' done
  | ok ok => exact .sc pa ok m' translated aligned which done

theorem executeAMOrmw_outcome {s : RVModel 32} {d : DecodedInstr 32} {m : MemoryModel 32 Dev}
    {pa : BitVec 32} (translated : StoreTo s (s.regs.get d.rs1) m pa) (aligned : LowClear 2 pa)
    (which : Funct5AMO.ofBits? (funct5 d) ≠ some .lr ∧ Funct5AMO.ofBits? (funct5 d) ≠ some .sc) :
    AmoOutcome s d m
      (s.executeAMOrmw d (Funct5AMO.ofBits? (funct5 d)) pa (s.regs.get d.rs2) m) := by
  unfold executeAMOrmw
  rw [memT_readWord]
  cases read : m.readWord pa with
  | error e => exact .unreadable e
  | ok w =>
    simp only
    split
    · exact .trap _ _
    · rename_i result _
      have readable : m.invalidateReservation.readWord pa = .ok w := read
      obtain ⟨m', done⟩ := writeWord_of_readWord readable (result.setWidth 32)
      have done' : MemT.writeWord pa (result.setWidth 32) (MemT.invalidateReservation 32 m) =
          (.ok (), m') := done
      rw [done']
      simp only [BitVec.setWidth_eq]
      exact .rmw pa w _ m' translated aligned which done

theorem executeAMO_outcome (s : RVModel 32) (d : DecodedInstr 32) (m : MemoryModel 32 Dev) :
    AmoOutcome s d m (s.executeAMO d m) := by
  unfold executeAMO
  split
  · exact .trap _ _
  simp only
  split
  · exact .trap _ _
  rename_i word
  rcases translateAddr_cases s (s.regs.get d.rs1) .store m with ⟨pa, eq⟩ | eq
  · have translated : StoreTo s (s.regs.get d.rs1) m pa := by
      unfold StoreTo
      rw [eq]
    have aligned : LowClear 2 pa := translated.clear (by omega) (misaligned_word word)
    simp only [eq]
    split
    · rename_i which
      exact executeLR_outcome translated aligned which
    · rename_i which
      exact executeSC_outcome translated aligned which
    · rename_i notLr notSc
      exact executeAMOrmw_outcome translated aligned ⟨notLr, notSc⟩
  · simp only [eq]
    exact .trap _ _

theorem loadValue_mem (f : Funct3Load) (pa : BitVec 32) (m : MemoryModel 32 Dev) :
    (loadValue f pa m).2 = m := by
  cases f with
  | _ => rfl

theorem executeLoad_mem (s : RVModel 32) (d : DecodedInstr 32) (m : MemoryModel 32 Dev) :
    (s.executeLoad d m).2.2 = m := by
  unfold executeLoad
  simp only
  split
  · rfl
  split
  · rfl
  rcases translateAddr_cases s (s.regs.get d.rs1 + d.imm) .load m with ⟨pa, eq⟩ | eq
  · simp only [eq]
    cases Funct3Load.ofBits? d.funct3 with
    | none => rfl
    | some f =>
      have read := loadValue_mem f pa m
      rcases got : loadValue f pa m with ⟨result, m'⟩
      rw [got] at read
      simp only at read
      subst read
      cases result with
      | error e => simp only [got]
      | ok w => simp only [got]
  · simp only [eq]

theorem executeInstr_mem {s : RVModel 32} {d : DecodedInstr 32} {m : MemoryModel 32 Dev}
    (notStore : Opcode.ofBits? d.opcode ≠ some .store)
    (notAmo : Opcode.ofBits? d.opcode ≠ some .amo) : (s.executeInstr d m).2.2 = m := by
  unfold executeInstr
  cases op : Opcode.ofBits? d.opcode with
  | none => rfl
  | some opcode =>
    cases opcode with
    | load => exact executeLoad_mem s d m
    | store => exact absurd op notStore
    | amo => exact absurd op notAmo
    | _ => rfl

theorem executeWord_mem (s : RVModel 32) (raw : WordT) (m : MemoryModel 32 Dev) :
    (s.executeWord raw m).2.2 = ((s.callStepHook (Disasm.disassemble (Decoder.decode 32 raw))
      ).executeInstr (Decoder.decode 32 raw) m).2.2 := by
  unfold executeWord
  simp only
  split
  · rename_i eq
    rw [eq]
  · rename_i eq
    rw [eq]

theorem storeTo_callStepHook {s : RVModel 32} {dis : String} {va pa : BitVec 32}
    {m : MemoryModel 32 Dev} (translated : StoreTo (s.callStepHook dis) va m pa) :
    StoreTo s va m pa := by
  unfold StoreTo at translated ⊢
  rw [← translated]
  exact (translateAddr_congr (csr_of_arch (arch_callStepHook s dis))
    (privMode_of_arch (arch_callStepHook s dis)) va .store m).symm

end XorOS.RVModel
