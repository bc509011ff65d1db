import XorOS.Simulator.Privilege

/- Who keeps the program counter word aligned. Jumps and branches check their target and trap
   entry masks mtvec; MRET takes mepc as it is. -/
namespace XorOS.RVModel
open ISA Bits Runs
variable {xlen : Nat} {M : Type} [MemT xlen M]

theorem pcAligned_iff (wide : 8 ≤ xlen) (s : RVModel xlen) :
    PcAligned s ↔ s.pc.toNat % 4 = 0 :=
  (and_mask_eq_zero_iff (k := 2) (by omega) s.pc).trans (lowClear_iff_mod 2 s.pc)

theorem lowClear_four (wide : 8 ≤ xlen) : LowClear 2 (4#(xlen)) := by
  have fits : 4 < 2 ^ xlen :=
    calc 4 < 2 ^ 8 := by decide
      _ ≤ 2 ^ xlen := Nat.pow_le_pow_right (by decide) wide
  rw [lowClear_iff_mod, BitVec.toNat_ofNat, Nat.mod_eq_of_lt fits]
  rfl

theorem lowClear_add (wide : 8 ≤ xlen) {x y : BitVec xlen} (hx : LowClear 2 x)
    (hy : LowClear 2 y) : LowClear 2 (x + y) := by
  rw [lowClear_iff_mod] at hx hy ⊢
  have split : 2 ^ xlen = 2 ^ 2 * 2 ^ (xlen - 2) := by
    rw [← Nat.pow_add]
    congr 1
    omega
  rw [BitVec.toNat_add, split, Nat.mod_mul_right_mod]
  omega

theorem aligned_advancePC (wide : 8 ≤ xlen) {s : RVModel xlen} (aligned : LowClear 2 s.pc) :
    LowClear 2 s.advancePC.pc :=
  lowClear_add wide aligned (lowClear_four wide)

theorem aligned_fireTrap (wide : 8 ≤ xlen) {s : RVModel xlen} (aligned : LowClear 2 s.pc)
    (cause tval : BitVec xlen) : LowClear 2 (s.fireTrap cause tval).pc := by
  by_cases vector : s.csr.getMTVEC = 0#(xlen)
  · have halts : arch (s.fireTrap cause tval) = _ := arch_of_trap_unvectored vector rfl
    rw [pc_of_arch halts]
    exact aligned
  · have entered : arch (s.fireTrap cause tval) = _ := arch_of_trap vector rfl
    rw [pc_of_arch entered]
    exact lowClear_and_not_mask (k := 2) (by omega) _

theorem aligned_jumpTo (wide : 8 ≤ xlen) {s : RVModel xlen} (aligned : LowClear 2 s.pc)
    (target : BitVec xlen) : LowClear 2 (s.jumpTo target).2.pc := by
  unfold jumpTo
  split
  · exact aligned_fireTrap wide aligned _ _
  · rename_i check
    exact (and_mask_eq_zero_iff (k := 2) (by omega) target).mp (not_not.mp check)

theorem aligned_executeJAL (wide : 8 ≤ xlen) {s : RVModel xlen} (aligned : LowClear 2 s.pc)
    (d : DecodedInstr xlen) : LowClear 2 (s.executeJAL d).2.pc := by
  unfold executeJAL
  simp only
  split
  · exact aligned_fireTrap wide aligned _ _
  · rename_i check
    exact (and_mask_eq_zero_iff (k := 2) (by omega) _).mp (not_not.mp check)

theorem aligned_executeJALR (wide : 8 ≤ xlen) {s : RVModel xlen} (aligned : LowClear 2 s.pc)
    (d : DecodedInstr xlen) : LowClear 2 (s.executeJALR d).2.pc := by
  unfold executeJALR
  simp only
  split
  · exact aligned_fireTrap wide aligned _ _
  · rename_i check
    have second := (and_bit_eq_zero_iff _ 1).mp (not_not.mp check)
    have first := lowClear_and_not_mask (k := 1) (by omega) (s.regs.get d.rs1 + d.imm)
    intro i small
    have which : i = 0 ∨ i = 1 := by omega
    rcases which with rfl | rfl
    · exact first 0 (by omega)
    · exact second

theorem aligned_executeBranch (wide : 8 ≤ xlen) {s : RVModel xlen} (aligned : LowClear 2 s.pc)
    (d : DecodedInstr xlen) : LowClear 2 (s.executeBranch d).2.pc := by
  unfold executeBranch
  split
  · exact aligned_fireTrap wide aligned _ _
  split
  · exact aligned_jumpTo wide aligned _
  · exact aligned

theorem aligned_executeSystem (wide : 8 ≤ xlen) {s : RVModel xlen} (aligned : LowClear 2 s.pc)
    {d : DecodedInstr xlen} (notMret : ¬(d.funct3 = 0#3 ∧ d.imm = 0x302#(xlen))) :
    LowClear 2 (s.executeSystem d).2.pc := by
  unfold executeSystem
  split
  · rename_i funct3
    split
    · exact aligned_fireTrap wide aligned _ _
    split
    · rename_i imm
      exact absurd ⟨funct3, imm⟩ notMret
    split
    · exact aligned
    · exact aligned
  · unfold executeCSR
    simp only
    split
    · exact aligned_fireTrap wide aligned _ _
    split
    · exact aligned_fireTrap wide aligned _ _
    · exact aligned

theorem Plain.aligned (wide : 8 ≤ xlen) {s : RVModel xlen} (aligned : LowClear 2 s.pc)
    {r : Bool × RVModel xlen} (h : Plain s r) : LowClear 2 r.2.pc := by
  cases h with
  | trap cause tval => exact aligned_fireTrap wide aligned cause tval
  | write regs => exact aligned

omit [MemT xlen M] in
theorem PlainOrThrows.aligned (wide : 8 ≤ xlen) {ε : Type} {s : RVModel xlen}
    (aligned : LowClear 2 s.pc) {r : Except ε Bool × RVModel xlen × M}
    (h : PlainOrThrows s r) : LowClear 2 r.2.1.pc := by
  rcases r with ⟨result, s', m'⟩
  cases result with
  | error e =>
    have same : s' = s := h
    rw [same]
    exact aligned
  | ok modified => exact Plain.aligned wide aligned h

theorem aligned_executeInstr (wide : 8 ≤ xlen) {s : RVModel xlen} (aligned : LowClear 2 s.pc)
    {d : DecodedInstr xlen} (notMret : ¬IsMRET d) (m : M) :
    LowClear 2 (s.executeInstr d m).2.1.pc := by
  unfold executeInstr
  cases op : Opcode.ofBits? d.opcode with
  | none => exact (executeIllegal_plain s d m).aligned wide aligned
  | some opcode =>
    cases opcode with
    | jal => exact aligned_executeJAL wide aligned d
    | jalr => exact aligned_executeJALR wide aligned d
    | branch => exact aligned_executeBranch wide aligned d
    | load => exact (executeLoad_plain s d m).aligned wide aligned
    | store => exact (executeStore_plain s d m).aligned wide aligned
    | op => exact (executeOp_plain s d).aligned wide aligned
    | amo => exact ((executeAMO_plain s d m).mapError Exn.outOfRange).aligned wide aligned
    | system => exact aligned_executeSystem wide aligned fun h => notMret ⟨op, h⟩
    | _ => exact aligned

theorem aligned_executeWord (wide : 8 ≤ xlen) {s : RVModel xlen} (aligned : LowClear 2 s.pc)
    {raw : WordT} (notMret : ¬IsMRET (Decoder.decode xlen raw)) (m : M) :
    LowClear 2 (s.executeWord raw m).2.1.pc := by
  have hook := arch_callStepHook s (Disasm.disassemble (Decoder.decode xlen raw))
  rw [← pc_of_arch hook] at aligned
  have kept := aligned_executeInstr wide aligned notMret m
  unfold executeWord
  simp only
  split
  · rename_i eq
    rw [eq] at kept
    exact kept
  · rename_i modified t m' eq
    rw [eq] at kept
    cases modified with
    | true => exact kept
    | false => exact aligned_advancePC wide kept

theorem aligned_step (wide : 8 ≤ xlen) {s : RVModel xlen} {m : M} (aligned : LowClear 2 s.pc)
    (notMret : ¬ExecutesMRET s m) : LowClear 2 (s.step m).2.1.pc := by
  cases word : s.fetched m with
  | some raw =>
    obtain ⟨m', step⟩ := step_of_fetched word
    rw [step]
    exact aligned_executeWord wide aligned (fun mret => notMret ⟨raw, word, mret⟩) m'
  | none =>
    rcases (step_of_not_fetched word).2 with ⟨_, same⟩ | ⟨cause, tval, trap⟩
    · rw [same]
      exact aligned
    · rw [pc_of_arch trap]
      exact aligned_fireTrap wide aligned cause tval

/-- The call is not an MRET whose mepc is misaligned. -/
def MretAligned (t : Watched xlen M) (c : Call xlen) : Prop :=
  match c with
  | .step => ExecutesMRET t.cpu t.mem → t.cpu.csr.getMEPC.toNat % 4 = 0
  | .interrupt _ => True

instance (t : Watched xlen M) : (c : Call xlen) → Decidable (MretAligned t c)
  | .step => inferInstanceAs (Decidable (_ → _))
  | .interrupt _ => .isTrue trivial

theorem aligned_call_iff (wide : 8 ≤ xlen) {t : Watched xlen M} (aligned : LowClear 2 t.cpu.pc)
    (c : Call xlen) : LowClear 2 (t.after c).cpu.pc ↔ MretAligned t c := by
  cases c with
  | step =>
    unfold MretAligned
    by_cases mret : ExecutesMRET t.cpu t.mem
    · have pc : (t.after .step).cpu.pc = t.cpu.executeMRET.pc :=
        pc_of_arch (step_of_mret wide mret)
      have mepc : t.cpu.executeMRET.pc = t.cpu.csr.getMEPC :=
        (regs_executeMRET t.cpu CSR.MEPC).trans (if_neg (by decide))
      simp only [mret, true_imp_iff]
      rw [pc, mepc]
      exact lowClear_iff_mod 2 _
    · simp only [mret, false_imp_iff, iff_true]
      exact aligned_step wide aligned mret
  | interrupt cause =>
    simp only [MretAligned, iff_true]
    unfold Watched.after call triggerInterrupt
    simp only
    split
    · exact aligned
    split
    · exact aligned
    split
    · exact aligned
    · exact aligned_fireTrap wide aligned _ _

def alignedCalls (xlen : Nat) (M : Type) [MemT xlen M] :
    System (Watched xlen M) (Call xlen) where
  init t := ∃ (cpu : RVModel xlen) (startPC stackPointer : BitVec xlen) (m : M),
    startPC.toNat % 4 = 0 ∧ t = ⟨cpu.init startPC stackPointer, m, 0#(xlen)⟩
  step := (calls xlen M).step

/-- In a run in which every MRET finds an aligned mepc the PC is always aligned, and a call that
    breaks this condition misaligns it. XLEN is 32 or 64. -/
theorem pc_aligned_iff (wide : 8 ≤ xlen) {t : Watched xlen M}
    (reached : ((alignedCalls xlen M).restrict MretAligned).Reachable t) :
    t.cpu.pc.toNat % 4 = 0 ∧ PcAligned t.cpu ∧
      ∀ c, (t.after c).cpu.pc.toNat % 4 = 0 ↔ MretAligned t c := by
  have aligned : LowClear 2 t.cpu.pc := by
    refine reached.invariant (fun t => LowClear 2 t.cpu.pc) ?_ ?_
    · rintro _ ⟨cpu, startPC, stackPointer, m, aligned, rfl⟩
      exact (lowClear_iff_mod 2 startPC).mpr aligned
    · rintro t c _ aligned ⟨rfl, allowed⟩
      exact (aligned_call_iff wide aligned c).mpr allowed
  have pc := (lowClear_iff_mod 2 t.cpu.pc).mp aligned
  refine ⟨pc, (pcAligned_iff wide t.cpu).mpr pc, fun c => ?_⟩
  rw [← aligned_call_iff wide aligned c]
  exact (lowClear_iff_mod 2 _).symm

/-- mstatus.MPP = M, csrrwi mepc, 20; mret; csrrwi mepc, 2; mret. -/
def twoReturnsImage : MemoryModel 32 Unit :=
  .ofWords 32 [0x000020B7#32, 0x80008093#32, 0x30009073#32, 0x341A5073#32, 0x30200073#32,
    0x34115073#32, 0x30200073#32] ()

def twoReturns : Nat → Watched 32 (MemoryModel 32 Unit)
  | 0 => reset twoReturnsImage
  | k + 1 => (twoReturns k).after .step

/-- The first mret goes on at 20. The second one breaks the condition. -/
theorem pc_aligned_iff_csrrwi :
    (twoReturns 5).cpu.pc = 20#32 ∧ (twoReturns 6).cpu.pc.toNat % 4 = 0 ∧
      ¬(twoReturns 7).cpu.pc.toNat % 4 = 0 := by
  have start : ((alignedCalls 32 _).restrict MretAligned).Reachable (twoReturns 0) :=
    .of_init ⟨_, 0#32, _, _, rfl, rfl⟩
  have allowed : ∀ k < 6, MretAligned (twoReturns k) .step := by decide
  have reached : ∀ k ≤ 6, ((alignedCalls 32 _).restrict MretAligned).Reachable (twoReturns k) := by
    intro k
    induction k with
    | zero => exact fun _ => start
    | succ k ih => exact fun small => (ih (by omega)).next ⟨rfl, allowed k (by omega)⟩
  obtain ⟨aligned, _, next⟩ := pc_aligned_iff (by decide) (reached 6 (by decide))
  refine ⟨by decide, aligned, fun kept => ?_⟩
  have mepc := (next .step).mp kept ⟨0x30200073#32, by decide, by decide⟩
  exact absurd mepc (by decide)

/-- From reset: csrrwi mepc, 2; mret. -/
def oddReturnImage : MemoryModel 32 Unit := .ofWords 16 [0x34115073#32, 0x30200073#32] ()

/-- The mret goes to address 2, where the next step() asserts. -/
theorem mret_misaligns_pc :
    let t := ((reset oddReturnImage).after .step).after .step
    (alignedCalls 32 _).Reachable t ∧ t.cpu.pc = 2#32 ∧ ¬t.cpu.pc.toNat % 4 = 0 ∧
      ¬PcAligned t.cpu := by
  intro t
  have start : (alignedCalls 32 _).Reachable (reset oddReturnImage) :=
    .of_init ⟨_, 0#32, _, _, rfl, rfl⟩
  exact ⟨(start.next rfl).next rfl, by decide, by decide, by decide⟩

end XorOS.RVModel
