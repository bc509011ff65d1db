import XorOS.Simulator.Privilege

/- Which values the privilege mode takes. Trap entry sets it to M; MRET casts the two bits of
   mstatus.MPP, which a guest in M-mode can set to 2. -/
namespace XorOS.RVModel
open ISA Runs
variable {xlen : Nat} {M : Type} [MemT xlen M]

def Real (priv : PrivMode) : Prop := priv = .U ∨ priv = .S ∨ priv = .M

instance (priv : PrivMode) : Decidable (Real priv) := inferInstanceAs (Decidable (_ ∨ _ ∨ _))

theorem real_machine : Real .M := Or.inr (Or.inr rfl)

theorem privMode_of_trap {s s' : RVModel xlen} {cause tval : BitVec xlen}
    (real : Real s.privMode) (same : arch s' = arch (s.fireTrap cause tval)) :
    Real s'.privMode := by
  obtain ⟨_, _, ⟨_, priv, _⟩ | ⟨_, priv, _⟩⟩ := trap_cases same
  · rw [priv]
    exact real
  · rw [priv]
    exact real_machine

def MretReal (t : Watched xlen M) (c : Call xlen) : Prop :=
  match c with
  | .step => ExecutesMRET t.cpu t.mem → Real (mpp (t.cpu.csr.read CSR.MSTATUS))
  | .interrupt _ => True

theorem real_call_iff (wide : 8 ≤ xlen) {t : Watched xlen M} (real : Real t.cpu.privMode)
    (c : Call xlen) : Real (t.after c).cpu.privMode ↔ MretReal t c := by
  cases c with
  | step =>
    unfold MretReal
    by_cases mret : ExecutesMRET t.cpu t.mem
    · have priv : (t.after .step).cpu.privMode = mpp (t.cpu.csr.read CSR.MSTATUS) :=
        privMode_of_arch (step_of_mret wide mret)
      simp only [mret, true_imp_iff]
      rw [priv]
    · simp only [mret, false_imp_iff, iff_true]
      have effect : StepEffect t.cpu t.mem (t.after .step).cpu := step_effect t.cpu t.mem
      cases effect with
      | trap cause tval same => exact privMode_of_trap real same
      | mret raw word instr same => exact absurd ⟨raw, word, instr⟩ mret
      | csrAccess f addr rs1 v allowed csr priv count =>
        rw [priv]
        exact real
      | quiet same =>
        rw [same.privMode]
        exact real
  | interrupt cause =>
    simp only [MretReal, iff_true]
    unfold Watched.after call triggerInterrupt
    simp only
    split
    · exact real
    split
    · exact real
    split
    · exact real
    · exact privMode_of_trap real rfl

/-- Each trap that is taken saves the mode it came from in mstatus.MPP. -/
theorem mpp_of_trap (wide : 13 ≤ xlen) {t : Watched xlen M} {c : Call xlen}
    (vector : t.cpu.csr.getMTVEC ≠ 0#(xlen))
    (trapped : (t.after c).cpu.trapCount = t.cpu.trapCount + 1) :
    mpp ((t.after c).cpu.csr.read CSR.MSTATUS) = t.cpu.privMode := by
  have effect : StepEffect t.cpu t.mem (t.after c).cpu := call_effect t.cpu t.mem c
  cases effect with
  | trap cause tval same =>
    have saved : (t.after c).cpu.csr.read CSR.MSTATUS =
        trapMstatus (t.cpu.csr.regs CSR.MSTATUS) t.cpu.privMode := by
      rw [csr_of_trap vector same]
      exact (regs_trapCsr _ _ _ _ _ CSR.MSTATUS).trans (if_pos rfl)
    rw [saved]
    exact mpp_trapMstatus wide _ _
  | mret raw word instr same =>
    have count : (t.after c).cpu.trapCount = t.cpu.trapCount := (trapCount_of_arch same).trans rfl
    omega
  | csrAccess f addr rs1 v allowed csr priv count => omega
  | quiet same =>
    have count := same.trapCount
    omega

/-- In a run in which every MRET finds a real mode in mstatus.MPP the mode is real in every state,
    every trap saves a real mode, and a call that breaks the condition ends that. XLEN is 32
    or 64. -/
theorem mode_real_iff (wide : 13 ≤ xlen) {t : Watched xlen M}
    (reached : ((calls xlen M).restrict MretReal).Reachable t) :
    Real t.cpu.privMode ∧ ∀ c,
      ((t.after c).cpu.trapCount = t.cpu.trapCount + 1 → t.cpu.csr.getMTVEC ≠ 0#(xlen) →
        Real (mpp ((t.after c).cpu.csr.read CSR.MSTATUS))) ∧
      (Real (t.after c).cpu.privMode ↔ MretReal t c) := by
  have real : Real t.cpu.privMode := by
    refine reached.invariant (fun t => Real t.cpu.privMode) ?_ ?_
    · rintro _ ⟨cpu, startPC, stackPointer, m, rfl⟩
      exact real_machine
    · rintro t c _ real ⟨rfl, allowed⟩
      exact (real_call_iff (by omega) real c).mpr allowed
  refine ⟨real, fun c => ⟨fun trapped vector => ?_, real_call_iff (by omega) real c⟩⟩
  rw [mpp_of_trap wide vector trapped]
  exact real

theorem mretReal_of_fetched {t : Watched xlen M} (raw : WordT)
    (word : t.cpu.fetched t.mem = some raw) (other : ¬IsMRET (Decoder.decode xlen raw)) :
    MretReal t .step := by
  rintro ⟨raw', word', mret⟩
  rw [word] at word'
  rw [← Option.some.inj word'] at mret
  exact absurd mret other

/-- The mret of ecallImage goes to U-mode. -/
theorem mode_real_iff_mret :
    let t := ((reset ecallImage).after .step).after .step
    ExecutesMRET t.cpu t.mem ∧ Real (t.after .step).cpu.privMode := by
  intro t
  have start : ((calls 32 _).restrict MretReal).Reachable (reset ecallImage) :=
    .of_init ⟨_, _, _, _, rfl⟩
  have first : MretReal (reset ecallImage) .step :=
    mretReal_of_fetched 0x30585073#32 (by decide) (by decide)
  have second : MretReal ((reset ecallImage).after .step) .step :=
    mretReal_of_fetched 0x34165073#32 (by decide) (by decide)
  have reached : ((calls 32 _).restrict MretReal).Reachable t :=
    (start.next ⟨rfl, first⟩).next ⟨rfl, second⟩
  have mret : ExecutesMRET t.cpu t.mem := ⟨0x30200073#32, by decide, by decide⟩
  exact ⟨mret, (((mode_real_iff (by decide) reached).2 .step).2).mpr fun _ => by decide⟩

/-- From reset: lui x1, 1; csrrw x0, mstatus, x1; mret. -/
def reservedModeImage : MemoryModel 32 Unit :=
  .ofWords 16 [0x000010B7#32, 0x30009073#32, 0x30200073#32] ()

/-- The mret takes the reserved value 2 from mstatus.MPP. -/
theorem mret_to_reserved_mode :
    let t := (((reset reservedModeImage).after .step).after .step).after .step
    (calls 32 _).Reachable t ∧ t.cpu.privMode = 2#2 ∧ ¬Real t.cpu.privMode := by
  intro t
  have reached : (calls 32 _).Reachable t :=
    reachable_after (reachable_after (reachable_after (reset_reachable _) _) _) _
  exact ⟨reached, by decide, by decide⟩

end XorOS.RVModel
