import XorOS.Simulator.Contents
import XorOS.Simulator.MemorySimulation
import XorOS.Simulator.Observers

/- What init() leaves of the past. It resets the processor, but the LR reservation belongs to
   the memory object and outlives it. -/
namespace XorOS

/-- A new memory object with the bytes and the MMIO regions of m. -/
def MemoryModel.remade {xlen : Nat} {Dev : Type} (m : MemoryModel xlen Dev) :
    MemoryModel xlen Dev :=
  { MemoryModel.new m.size m.dev with data := m.data, mmio := m.mmio }

namespace RVModel
open ISA MemoryModel Runs
variable {xlen : Nat} {Dev : Type}

structure SameMachine (p q : RVModel xlen × MemoryModel xlen Dev) : Prop where
  cpu : SameCpu p.1 q.1
  contents : SameContents p.2 q.2

/-- An SC.W that would leave no trace if it succeeded: no register takes its result and the
    write changes nothing. -/
def TracelessSC (s : RVModel xlen) (raw : WordT) (m : MemoryModel xlen Dev) (pa : BitVec xlen) :
    Prop :=
  (Decoder.decode xlen raw).rd = 0#5 ∧ (m.writeWord pa (s.scData raw)).1 = .ok () ∧
    SameContents m (m.writeWord pa (s.scData raw)).2

/-- The step executes an SC.W at the address that is reserved, and not a traceless one. -/
def TakesReservation (s : RVModel xlen) (m : MemoryModel xlen Dev) : Prop :=
  ∃ raw pa, s.fetched m = some raw ∧ amoAt s (Decoder.decode xlen raw) m = some (.sc, pa) ∧
    m.heldAddr = some pa ∧ ¬TracelessSC s raw m pa

theorem amoAt_sameCpu {s t : RVModel xlen} (same : SameCpu s t) (d : DecodedInstr xlen)
    (m : MemoryModel xlen Dev) : amoAt t d m = amoAt s d m := by
  have access : dataAccess t d = dataAccess s d := by
    unfold dataAccess
    rw [same.twins.regs, same.twins.config]
  unfold amoAt
  rw [access]
  simp only [translateAddr_congr same.twins.csr same.twins.privMode]

theorem executesSC_sameCpu {s t : RVModel xlen} (same : SameCpu s t) (m : MemoryModel xlen Dev)
    (pa : BitVec xlen) : ExecutesSC t m pa ↔ ExecutesSC s m pa := by
  unfold ExecutesSC
  simp only [fetched_sameCpu same, amoAt_sameCpu same]

theorem executesLR_sameCpu {s t : RVModel xlen} (same : SameCpu s t)
    (m : MemoryModel xlen Dev) : ExecutesLR t m ↔ ExecutesLR s m := by
  unfold ExecutesLR CompletesLR
  simp only [fetched_sameCpu same, amoAt_sameCpu same]

theorem not_executesLR_of_sc {s : RVModel xlen} {m : MemoryModel xlen Dev} {pa : BitVec xlen}
    (sc : ExecutesSC s m pa) : ¬ExecutesLR s m := by
  obtain ⟨raw, word, sc⟩ := sc
  rintro ⟨raw', word', pa', lr, _⟩
  rw [word] at word'
  obtain rfl := Option.some.inj word'
  rw [sc] at lr
  simp at lr

/-- Two runs side by side, the second one from a fresh memory object. loaded says whether an
    LR.W has been executed since init(). -/
structure Coupled (loaded : Prop) (p q : RVModel xlen × MemoryModel xlen Dev) : Prop where
  same : SameMachine p q
  fresh : ¬loaded → q.2.heldAddr = none
  reserved : loaded → q.2.heldAddr = p.2.heldAddr

variable {loaded : Prop} {p q : RVModel xlen × MemoryModel xlen Dev}

theorem Coupled.step_regular (h : Coupled loaded p q)
    (regular : ¬loaded → ∀ pa, ExecutesSC p.1 p.2 pa → p.2.heldAddr ≠ some pa) :
    (machine p).1 = (machine q).1 ∧
      Coupled (loaded ∨ ExecutesLR p.1 p.2) (machine p).2 (machine q).2 := by
  have agree : ∀ pa, ExecutesSC q.1 p.2 pa → (p.2.heldAddr = some pa ↔ q.2.heldAddr = some pa) := by
    intro pa sc
    by_cases before : loaded
    · rw [h.reserved before]
    · rw [h.fresh before]
      have free := regular before pa ((executesSC_sameCpu h.same.cpu p.2 pa).mp sc)
      exact iff_of_false free (by simp)
  obtain ⟨outcome, cpu, mem⟩ := step_sameCpu h.same.cpu p.2
  obtain ⟨use, uses, same⟩ := step_same h.same.contents q.1 agree
  have left : (p.1.step p.2).2.2.heldAddr = use.apply p.2.heldAddr := by
    rw [mem]
    exact same.left
  refine ⟨outcome.trans same.outcome, ⟨?_, ?_⟩, ?_, ?_⟩
  · have cpus : (q.1.step p.2).2.1 = (q.1.step q.2).2.1 := same.cpu
    change SameCpu (p.1.step p.2).2.1 (q.1.step q.2).2.1
    rw [← cpus]
    exact cpu
  · change SameContents (p.1.step p.2).2.2 (q.1.step q.2).2.2
    rw [mem]
    exact same.contents
  · intro unloaded
    have free := h.fresh fun before => unloaded (.inl before)
    refine same.right.trans ?_
    rw [free]
    cases use with
    | keep => rfl
    | clear => rfl
    | lr pa => exact absurd (.inr ((executesLR_sameCpu h.same.cpu p.2).mp uses)) unloaded
    | sc pa => simp [ReservationUse.apply]
  · intro now
    refine same.right.trans (Eq.trans ?_ left.symm)
    cases use with
    | clear => rfl
    | lr pa => rfl
    | keep =>
      have before : loaded := now.resolve_right fun lr =>
        uses ((executesLR_sameCpu h.same.cpu p.2).mpr lr)
      rw [h.reserved before]
    | sc pa =>
      have before : loaded := now.resolve_right fun lr =>
        not_executesLR_of_sc uses ((executesLR_sameCpu h.same.cpu p.2).mpr lr)
      rw [h.reserved before]

theorem scRetired_sameCpu {s t : RVModel xlen} (same : SameCpu s t) {raw : WordT}
    (hidden : (Decoder.decode xlen raw).rd = 0#5) (u v : BitVec xlen) :
    SameCpu (s.scRetired raw u) (t.scRetired raw v) := by
  have zero (r : RVModel xlen) (w : BitVec xlen) :
      r.setReg (Decoder.decode xlen raw).rd w = r := by
    unfold setReg RegisterFile.set
    rw [if_pos hidden]
  unfold scRetired
  simp only [zero]
  exact ((same.twins.callStepHook _ trivial).silent
    (f := fun r => r.advancePC.countInstr) fun _ _ => rfl).same

theorem regs_scRetired (s : RVModel xlen) (raw : WordT) (v : BitVec xlen) :
    (s.scRetired raw v).regs = s.regs.set (Decoder.decode xlen raw).rd v := by
  have hook := regs_of_arch (arch_callStepHook s (Disasm.disassemble (Decoder.decode xlen raw)))
  change (s.callStepHook _).regs.set _ v = _
  rw [hook]

theorem rd_of_scRetired (wide : 0 < xlen) {s t : RVModel xlen} {raw : WordT}
    (same : SameCpu (s.scRetired raw 0#(xlen)) (t.scRetired raw 1#(xlen))) :
    (Decoder.decode xlen raw).rd = 0#5 := by
  by_contra visible
  have regs := same.twins.regs
  rw [regs_scRetired, regs_scRetired] at regs
  have result := congrArg (fun r => r.get (Decoder.decode xlen raw).rd) regs
  simp only [RegisterFile.get_set_self _ _ visible] at result
  have bit := congrArg BitVec.toNat result
  rw [BitVec.toNat_ofNat, BitVec.toNat_ofNat, Nat.zero_mod,
    Nat.mod_eq_of_lt (Nat.one_lt_two_pow (by omega))] at bit
  omega

/-- An SC.W that takes the reservation from before init(): it fails on the fresh side. -/
theorem Coupled.step_taken (wide : 0 < xlen) (h : Coupled loaded p q) (unloaded : ¬loaded)
    {raw : WordT} {pa : BitVec xlen} (word : p.1.fetched p.2 = some raw)
    (sc : amoAt p.1 (Decoder.decode xlen raw) p.2 = some (.sc, pa))
    (held : p.2.heldAddr = some pa) :
    ((machine p).1 = (machine q).1 ∧ SameMachine (machine p).2 (machine q).2 ↔
      TracelessSC p.1 raw p.2 pa) ∧
    (TracelessSC p.1 raw p.2 pa →
      Coupled (loaded ∨ ExecutesLR p.1 p.2) (machine p).2 (machine q).2) := by
  have free : q.2.heldAddr ≠ some pa := by
    rw [h.fresh unloaded]
    simp
  have word' : q.1.fetched q.2 = some raw :=
    (fetched_same h.same.contents q.1).trans ((fetched_sameCpu h.same.cpu p.2).trans word)
  have sc' : amoAt q.1 (Decoder.decode xlen raw) q.2 = some (.sc, pa) :=
    (amoAt_same h.same.contents q.1 _).trans ((amoAt_sameCpu h.same.cpu _ p.2).trans sc)
  have failed : machine q = (.ok (), q.1.scRetired raw 1#(xlen), q.2) :=
    step_sc_free word' sc' free
  obtain ⟨mem, ok, cpu⟩ := step_sc_held word sc held
  have wrote := writeWord_same (invalidate_contents p.2) pa (p.1.scData raw)
  have outcome : (machine p).1 = (machine q).1 ↔
      (p.2.writeWord pa (p.1.scData raw)).1 = .ok () := by
    rw [failed, wrote.answer]
    exact ok
  have contents : SameContents (machine p).2.2 (machine q).2.2 ↔
      SameContents p.2 (p.2.writeWord pa (p.1.scData raw)).2 := by
    have after : (machine p).2.2 = _ := mem
    rw [failed, after]
    constructor
    · exact fun same => (wrote.contents.trans (same.trans h.same.contents.symm)).symm
    · exact fun same => (same.trans wrote.contents).symm.trans h.same.contents
  have traceless (hidden : TracelessSC p.1 raw p.2 pa) :
      SameMachine (machine p).2 (machine q).2 := by
    obtain ⟨rd, done, unchanged⟩ := hidden
    have retired : (machine p).2.1 = _ := cpu (ok.mpr (wrote.answer ▸ done))
    refine ⟨?_, contents.mpr unchanged⟩
    rw [failed, retired]
    exact scRetired_sameCpu h.same.cpu rd _ _
  refine ⟨⟨?_, fun hidden => ⟨outcome.mpr hidden.2.1, traceless hidden⟩⟩, fun hidden =>
    ⟨traceless hidden, ?_, ?_⟩⟩
  · rintro ⟨answers, same⟩
    have done := outcome.mp answers
    refine ⟨?_, done, contents.mp same.contents⟩
    have retired : (machine p).2.1 = _ := cpu (ok.mpr (wrote.answer ▸ done))
    have cpus := same.cpu
    rw [failed, retired] at cpus
    exact rd_of_scRetired wide cpus
  · intro _
    rw [failed]
    exact h.fresh unloaded
  · intro now
    have lr := now.resolve_left unloaded
    exact absurd lr (not_executesLR_of_sc ⟨raw, word, sc⟩)

/-- One step of both: as long as they are coupled, they part where the step takes a reservation
    from before init(). -/
theorem Coupled.step_iff (wide : 0 < xlen) (h : Coupled loaded p q) :
    ((machine p).1 = (machine q).1 ∧ SameMachine (machine p).2 (machine q).2 ↔
      loaded ∨ ¬TakesReservation p.1 p.2) ∧
    (loaded ∨ ¬TakesReservation p.1 p.2 →
      Coupled (loaded ∨ ExecutesLR p.1 p.2) (machine p).2 (machine q).2) := by
  by_cases taken : ¬loaded ∧ ∃ pa, ExecutesSC p.1 p.2 pa ∧ p.2.heldAddr = some pa
  · obtain ⟨unloaded, pa, ⟨raw, word, sc⟩, held⟩ := taken
    obtain ⟨same, coupled⟩ := h.step_taken wide unloaded word sc held
    have traceless : loaded ∨ ¬TakesReservation p.1 p.2 ↔ TracelessSC p.1 raw p.2 pa := by
      rw [or_iff_right unloaded]
      constructor
      · intro kept
        by_contra visible
        exact kept ⟨raw, pa, word, sc, held, visible⟩
      · rintro hidden ⟨raw', pa', word', sc', _, visible⟩
        rw [word] at word'
        obtain rfl := Option.some.inj word'
        rw [sc] at sc'
        obtain rfl : pa = pa' := congrArg Prod.snd (Option.some.inj sc')
        exact visible hidden
    rw [traceless]
    exact ⟨same, coupled⟩
  · have regular : ¬loaded → ∀ pa, ExecutesSC p.1 p.2 pa → p.2.heldAddr ≠ some pa :=
      fun unloaded pa sc held => taken ⟨unloaded, pa, sc, held⟩
    obtain ⟨outcome, coupled⟩ := h.step_regular regular
    have kept : loaded ∨ ¬TakesReservation p.1 p.2 := by
      by_cases before : loaded
      · exact .inl before
      · refine .inr ?_
        rintro ⟨raw, pa, word, sc, held, _⟩
        exact regular before pa ⟨raw, word, sc⟩ held
    exact ⟨iff_of_true ⟨outcome, coupled.same⟩ kept, fun _ => coupled⟩

/-- The run of n steps after init() on a processor and a memory with a past, and the one on a
    fresh processor and memory. -/
def usedRun (cpu : RVModel xlen) (m : MemoryModel xlen Dev) (startPC stackPointer : BitVec xlen)
    (n : Nat) : List (Except Exn Unit) × RVModel xlen × MemoryModel xlen Dev :=
  runFor machine n (cpu.init startPC stackPointer, m)

def freshRun (cpu : RVModel xlen) (m : MemoryModel xlen Dev) (startPC stackPointer : BitVec xlen)
    (n : Nat) : List (Except Exn Unit) × RVModel xlen × MemoryModel xlen Dev :=
  runFor machine n ((RVModel.new cpu.config).init startPC stackPointer, m.remade)

def Loaded (cpu : RVModel xlen) (m : MemoryModel xlen Dev) (startPC stackPointer : BitVec xlen)
    (n : Nat) : Prop :=
  ∃ k < n, ExecutesLR (usedRun cpu m startPC stackPointer k).2.1
    (usedRun cpu m startPC stackPointer k).2.2

section Runs
variable (cpu : RVModel xlen) (m : MemoryModel xlen Dev) (startPC stackPointer : BitVec xlen)

theorem usedRun_succ (n : Nat) : (usedRun cpu m startPC stackPointer (n + 1)).2 =
    (machine (usedRun cpu m startPC stackPointer n).2).2 :=
  stateAfter_succ machine n _

theorem freshRun_succ (n : Nat) : (freshRun cpu m startPC stackPointer (n + 1)).2 =
    (machine (freshRun cpu m startPC stackPointer n).2).2 :=
  stateAfter_succ machine n _

theorem loaded_succ (n : Nat) : Loaded cpu m startPC stackPointer (n + 1) ↔
    Loaded cpu m startPC stackPointer n ∨
      ExecutesLR (usedRun cpu m startPC stackPointer n).2.1
        (usedRun cpu m startPC stackPointer n).2.2 := by
  constructor
  · rintro ⟨k, small, lr⟩
    rcases Nat.lt_succ_iff_lt_or_eq.mp small with before | rfl
    · exact .inl ⟨k, before, lr⟩
    · exact .inr lr
  · rintro (⟨k, small, lr⟩ | lr)
    · exact ⟨k, by omega, lr⟩
    · exact ⟨n, by omega, lr⟩

def KeepsHistory (n : Nat) : Prop :=
  Loaded cpu m startPC stackPointer n ∨
    ¬TakesReservation (usedRun cpu m startPC stackPointer n).2.1
      (usedRun cpu m startPC stackPointer n).2.2

theorem coupled_zero : Coupled (Loaded cpu m startPC stackPointer 0)
    (usedRun cpu m startPC stackPointer 0).2 (freshRun cpu m startPC stackPointer 0).2 where
  same := ⟨rfl, ⟨rfl, rfl, rfl, rfl⟩⟩
  fresh _ := rfl
  reserved := by
    rintro ⟨k, small, _⟩
    omega

theorem history_erased (wide : 0 < xlen) (n : Nat) :
    ((usedRun cpu m startPC stackPointer n).1 = (freshRun cpu m startPC stackPointer n).1 ∧
      (∀ k ≤ n, SameMachine (usedRun cpu m startPC stackPointer k).2
        (freshRun cpu m startPC stackPointer k).2) ↔
      ∀ k < n, KeepsHistory cpu m startPC stackPointer k) ∧
    ((∀ k < n, KeepsHistory cpu m startPC stackPointer k) →
      Coupled (Loaded cpu m startPC stackPointer n) (usedRun cpu m startPC stackPointer n).2
        (freshRun cpu m startPC stackPointer n).2) := by
  induction n with
  | zero =>
    have start := coupled_zero cpu m startPC stackPointer
    refine ⟨iff_of_true ⟨rfl, ?_⟩ (fun k small => absurd small (by omega)), fun _ => start⟩
    intro k le
    rw [Nat.le_zero.mp le]
    exact start.same
  | succ n ih =>
    have split : (∀ k < n + 1, KeepsHistory cpu m startPC stackPointer k) ↔
        (∀ k < n, KeepsHistory cpu m startPC stackPointer k) ∧
          KeepsHistory cpu m startPC stackPointer n := Nat.forall_lt_succ_right
    have outcomes : (usedRun cpu m startPC stackPointer (n + 1)).1 =
        (freshRun cpu m startPC stackPointer (n + 1)).1 ↔
        (usedRun cpu m startPC stackPointer n).1 = (freshRun cpu m startPC stackPointer n).1 ∧
        (machine (usedRun cpu m startPC stackPointer n).2).1 =
          (machine (freshRun cpu m startPC stackPointer n).2).1 := by
      rw [usedRun, outcomes_succ, freshRun, outcomes_succ]
      exact List.append_singleton_inj
    have states : (∀ k ≤ n + 1, SameMachine (usedRun cpu m startPC stackPointer k).2
          (freshRun cpu m startPC stackPointer k).2) ↔
        (∀ k ≤ n, SameMachine (usedRun cpu m startPC stackPointer k).2
          (freshRun cpu m startPC stackPointer k).2) ∧
        SameMachine (machine (usedRun cpu m startPC stackPointer n).2).2
          (machine (freshRun cpu m startPC stackPointer n).2).2 := by
      rw [← usedRun_succ, ← freshRun_succ]
      simp only [← Nat.lt_succ_iff]
      exact Nat.forall_lt_succ_right
    rw [split, outcomes, states, usedRun_succ, freshRun_succ, loaded_succ]
    constructor
    · constructor
      · rintro ⟨⟨earlier, last⟩, same, next⟩
        have kept := ih.1.mp ⟨earlier, same⟩
        exact ⟨kept, ((ih.2 kept).step_iff wide).1.mp ⟨last, next⟩⟩
      · rintro ⟨kept, now⟩
        obtain ⟨earlier, same⟩ := ih.1.mpr kept
        obtain ⟨last, next⟩ := ((ih.2 kept).step_iff wide).1.mpr now
        exact ⟨⟨earlier, last⟩, same, next⟩
    · rintro ⟨kept, now⟩
      exact ((ih.2 kept).step_iff wide).2 now

end Runs

/-- For every number of steps, the run after init() goes like the one of a fresh processor on a
    fresh memory object, exceptions included, exactly where no step takes a reservation from
    before init(). XLEN is 32 or 64. -/
theorem init_erases_history_iff (wide : 0 < xlen) (cpu : RVModel xlen)
    (m : MemoryModel xlen Dev) (startPC stackPointer : BitVec xlen) (n : Nat) :
    (usedRun cpu m startPC stackPointer n).1 = (freshRun cpu m startPC stackPointer n).1 ∧
      (∀ k ≤ n, SameMachine (usedRun cpu m startPC stackPointer k).2
        (freshRun cpu m startPC stackPointer k).2) ↔
    ∀ k < n, Loaded cpu m startPC stackPointer k ∨
      ¬TakesReservation (usedRun cpu m startPC stackPointer k).2.1
        (usedRun cpu m startPC stackPointer k).2.2 :=
  (history_erased cpu m startPC stackPointer wide n).1

/-- lr.w x3, (x0), and sc.w x6, x0, (x0) after it. -/
def reservingImage : MemoryModel 32 Unit := .ofWords 16 [0x100021AF#32, 0x1800232F#32] ()

def reservedRun : RVModel 32 × MemoryModel 32 Unit :=
  stateAfter machine 1 ((RVModel.new ⟨Config.EXT_A⟩).init 0#32 0#32, reservingImage)

/-- init(0, 0), and the lr.w and the sc.w again: the sc.w succeeds on the new reservation. -/
theorem init_erases_history_iff_reserved :
    reservedRun.2.heldAddr = some 0#32 ∧
    (usedRun reservedRun.1 reservedRun.2 0#32 0#32 2).2.1.regs.get 6#5 = 0#32 ∧
    (usedRun reservedRun.1 reservedRun.2 0#32 0#32 2).1 =
      (freshRun reservedRun.1 reservedRun.2 0#32 0#32 2).1 ∧
    SameMachine (usedRun reservedRun.1 reservedRun.2 0#32 0#32 2).2
      (freshRun reservedRun.1 reservedRun.2 0#32 0#32 2).2 := by
  have word : (usedRun reservedRun.1 reservedRun.2 0#32 0#32 0).2.1.fetched
      (usedRun reservedRun.1 reservedRun.2 0#32 0#32 0).2.2 = some 0x100021AF#32 := by decide
  have lr : amoAt (usedRun reservedRun.1 reservedRun.2 0#32 0#32 0).2.1
      (Decoder.decode 32 0x100021AF#32)
      (usedRun reservedRun.1 reservedRun.2 0#32 0#32 0).2.2 = some (.lr, 0#32) := by decide
  have kept : ∀ k < 2, Loaded reservedRun.1 reservedRun.2 0#32 0#32 k ∨
      ¬TakesReservation (usedRun reservedRun.1 reservedRun.2 0#32 0#32 k).2.1
        (usedRun reservedRun.1 reservedRun.2 0#32 0#32 k).2.2 := by
    intro k small
    rcases Nat.lt_succ_iff_lt_or_eq.mp small with before | rfl
    · obtain rfl : k = 0 := by omega
      refine .inr ?_
      rintro ⟨raw, pa, word', sc, _⟩
      obtain rfl := Option.some.inj (word.symm.trans word')
      rw [lr] at sc
      exact absurd sc (by simp)
    · exact .inl ⟨0, by omega, 0x100021AF#32, word, 0#32, lr, by decide⟩
  obtain ⟨outcomes, states⟩ :=
    (init_erases_history_iff (by decide) reservedRun.1 reservedRun.2 0#32 0#32 2).mpr kept
  exact ⟨by decide, by decide, outcomes, states 2 le_rfl⟩

/-- init(4, 0) and the sc.w: it succeeds on the reservation that the lr.w made before init(). -/
theorem stale_reservation_after_init :
    (usedRun reservedRun.1 reservedRun.2 4#32 0#32 1).2.1.regs.get 6#5 = 0#32 ∧
    (freshRun reservedRun.1 reservedRun.2 4#32 0#32 1).2.1.regs.get 6#5 = 1#32 ∧
    ¬SameMachine (usedRun reservedRun.1 reservedRun.2 4#32 0#32 1).2
      (freshRun reservedRun.1 reservedRun.2 4#32 0#32 1).2 := by
  have used : (usedRun reservedRun.1 reservedRun.2 4#32 0#32 1).2.1.regs.get 6#5 = 0#32 := by
    decide
  have fresh : (freshRun reservedRun.1 reservedRun.2 4#32 0#32 1).2.1.regs.get 6#5 = 1#32 := by
    decide
  refine ⟨used, fresh, fun same => ?_⟩
  rw [same.cpu.twins.regs, used] at fresh
  exact absurd fresh (by decide)

end RVModel

end XorOS
