import XorOS.Library.Bits
import XorOS.Library.Runs
import XorOS.Simulator.RvModel

/- RVModel<32, MemT> issues naturally aligned physical accesses only, so two memory types that
   answer such accesses alike give the same processor. -/
namespace XorOS
open Bits ISA

/-- M and N answer aligned accesses alike in related states. The texts of byte and half
    read errors are left free: RVModel catches these and drops them. -/
structure AlignedSim {M N : Type} [MemT 32 M] [MemT 32 N] (R : M → N → Prop) : Prop where
  readByte : ∀ {m n}, R m n → ∀ a : BitVec 32,
    (MemT.readByte a m).1.toOption = (MemT.readByte a n).1.toOption ∧
      R (MemT.readByte a m).2 (MemT.readByte a n).2
  readHalf : ∀ {m n}, R m n → ∀ {a : BitVec 32}, LowClear 1 a →
    (MemT.readHalf a m).1.toOption = (MemT.readHalf a n).1.toOption ∧
      R (MemT.readHalf a m).2 (MemT.readHalf a n).2
  readWord : ∀ {m n}, R m n → ∀ {a : BitVec 32}, LowClear 2 a →
    (MemT.readWord a m).1 = (MemT.readWord a n).1 ∧
      R (MemT.readWord a m).2 (MemT.readWord a n).2
  writeByte : ∀ {m n}, R m n → ∀ (a : BitVec 32) (v : ByteT),
    (MemT.writeByte a v m).1 = (MemT.writeByte a v n).1 ∧
      R (MemT.writeByte a v m).2 (MemT.writeByte a v n).2
  writeHalf : ∀ {m n}, R m n → ∀ {a : BitVec 32}, LowClear 1 a → ∀ v : HalfT,
    (MemT.writeHalf a v m).1 = (MemT.writeHalf a v n).1 ∧
      R (MemT.writeHalf a v m).2 (MemT.writeHalf a v n).2
  writeWord : ∀ {m n}, R m n → ∀ {a : BitVec 32}, LowClear 2 a → ∀ v : WordT,
    (MemT.writeWord a v m).1 = (MemT.writeWord a v n).1 ∧
      R (MemT.writeWord a v m).2 (MemT.writeWord a v n).2
  reserveLoad : ∀ {m n}, R m n → ∀ a : BitVec 32,
    R (MemT.reserveLoad a m) (MemT.reserveLoad a n)
  storeConditional : ∀ {m n}, R m n → ∀ {a : BitVec 32}, LowClear 2 a → ∀ v : WordT,
    (MemT.storeConditional a v m).1 = (MemT.storeConditional a v n).1 ∧
      R (MemT.storeConditional a v m).2 (MemT.storeConditional a v n).2
  invalidateReservation : ∀ {m n}, R m n →
    R (MemT.invalidateReservation 32 m) (MemT.invalidateReservation 32 n)

def Alike {M N : Type} (R : M → N → Prop) {α : Type} (x : α × RVModel 32 × M)
    (y : α × RVModel 32 × N) : Prop :=
  x.1 = y.1 ∧ x.2.1 = y.2.1 ∧ R x.2.2 y.2.2

namespace RVModel

/-- A machine is a processor beside its memory; its outcomes are what escapes step(). -/
def machine {xlen : Nat} {M : Type} [MemT xlen M] (p : RVModel xlen × M) :
    Except Exn Unit × (RVModel xlen × M) := p.1.step p.2

variable {M N : Type} {R : M → N → Prop}

theorem answers_eq {α : Type} {x : α × M} {y : α × N} (same : x.1 = y.1 ∧ R x.2 y.2) :
    ∃ a m n, x = (a, m) ∧ y = (a, n) ∧ R m n := by
  obtain ⟨a, m⟩ := x
  obtain ⟨b, n⟩ := y
  obtain ⟨rfl, rel⟩ := same
  exact ⟨a, m, n, rfl, rfl, rel⟩

theorem answers_toOption {ε α : Type} {x : Except ε α × M} {y : Except ε α × N}
    (same : x.1.toOption = y.1.toOption ∧ R x.2 y.2) :
    (∃ e e' m n, x = (.error e, m) ∧ y = (.error e', n) ∧ R m n) ∨
      ∃ a m n, x = (.ok a, m) ∧ y = (.ok a, n) ∧ R m n := by
  obtain ⟨x, m⟩ := x
  obtain ⟨y, n⟩ := y
  obtain ⟨value, rel⟩ := same
  cases x with
  | error e =>
    cases y with
    | error e' => exact Or.inl ⟨e, e', m, n, rfl, rfl, rel⟩
    | ok b => simp [Except.toOption] at value
  | ok a =>
    cases y with
    | error e' => simp [Except.toOption] at value
    | ok b =>
      simp only [Except.toOption, Option.some.injEq] at value
      subst value
      exact Or.inr ⟨a, m, n, rfl, rfl, rel⟩

theorem alike_answers {α : Type} {x : α × RVModel 32 × M} {y : α × RVModel 32 × N}
    (same : Alike R x y) : ∃ a s m n, x = (a, s, m) ∧ y = (a, s, n) ∧ R m n := by
  obtain ⟨a, s, m⟩ := x
  obtain ⟨b, t, n⟩ := y
  obtain ⟨rfl, rfl, rel⟩ := same
  exact ⟨a, s, m, n, rfl, rfl, rel⟩

theorem toOption_map {ε α β : Type} (f : α → β) (x : Except ε α) :
    (x.map f).toOption = x.toOption.map f := by
  cases x with
  | error e => rfl
  | ok a => rfl

theorem map_alike {ε α β : Type} (f : α → β) {x : Except ε α × M} {y : Except ε α × N}
    (same : x.1.toOption = y.1.toOption ∧ R x.2 y.2) :
    (x.map (Except.map f) id).1.toOption = (y.map (Except.map f) id).1.toOption ∧
      R (x.map (Except.map f) id).2 (y.map (Except.map f) id).2 := by
  obtain ⟨value, rel⟩ := same
  simp only [Prod.map_fst, Prod.map_snd, toOption_map, value]
  exact ⟨trivial, rel⟩

theorem leafAddr_clear {xlen : Nat} {priv : PrivMode} {va pte pa : BitVec xlen} {lvl k : Nat}
    (le : k ≤ 12) (clear : LowClear k va) (leaf : leafAddr priv va lvl pte = some pa) :
    LowClear k pa := by
  unfold leafAddr at leaf
  split at leaf
  · simp at leaf
  split at leaf
  · simp at leaf
  split at leaf
  · simp only [Option.some.injEq] at leaf
    subst leaf
    apply lowClear_or
    · apply lowClear_or
      · exact lowClear_shiftLeft _ (by omega)
      · exact lowClear_shiftLeft _ (by omega)
    · exact lowClear_and_left _ clear
  · simp only [Option.some.injEq] at leaf
    subst leaf
    apply lowClear_or
    · exact lowClear_shiftLeft _ (by omega)
    · exact lowClear_and_left _ clear

theorem translateAddr_clear {xlen : Nat} [MemT xlen M] {s s' : RVModel xlen} {va pa : BitVec xlen}
    {access : MemAccess} {m m' : M} {k : Nat} (le : k ≤ 12) (clear : LowClear k va)
    (found : s.translateAddr va access m = (some pa, s', m')) : LowClear k pa := by
  unfold translateAddr at found
  simp only at found
  split at found
  · simp only [Prod.mk.injEq, Option.some.injEq] at found
    exact found.1 ▸ clear
  split at found
  · simp at found
  split at found
  · simp at found
  · rename_i leaf
    simp only [Prod.mk.injEq, Option.some.injEq] at found
    exact leafAddr_clear le clear (found.1 ▸ leaf)

variable [MemT 32 M] [MemT 32 N]

theorem entry_clear {a : BitVec 32} (clear : LowClear 2 a) (va : BitVec 32) (lvl : Nat) :
    LowClear 2 (a ||| (vpn va lvl <<< 2)) :=
  lowClear_or clear (lowClear_shiftLeft _ (by omega))

theorem walkLeaf_alike (sim : AlignedSim R) (va : BitVec 32) :
    ∀ (lvl : Nat) (a : BitVec 32) {m : M} {n : N}, LowClear 2 a → R m n →
      (walkLeaf va lvl a m).1 = (walkLeaf va lvl a n).1 ∧
        R (walkLeaf va lvl a m).2 (walkLeaf va lvl a n).2 := by
  intro lvl
  induction lvl with
  | zero =>
    intro a m n clear rel
    obtain ⟨x, m', n', hx, hy, rel'⟩ := answers_eq (sim.readWord rel (entry_clear clear va 0))
    unfold walkLeaf
    rw [hx, hy]
    cases x with
    | error e => exact ⟨rfl, rel'⟩
    | ok raw =>
      simp only
      split
      · exact ⟨rfl, rel'⟩
      split
      · exact ⟨rfl, rel'⟩
      · exact ⟨rfl, rel'⟩
  | succ lvl ih =>
    intro a m n clear rel
    obtain ⟨x, m', n', hx, hy, rel'⟩ :=
      answers_eq (sim.readWord rel (entry_clear clear va (lvl + 1)))
    unfold walkLeaf
    rw [hx, hy]
    cases x with
    | error e => exact ⟨rfl, rel'⟩
    | ok raw =>
      simp only
      split
      · exact ⟨rfl, rel'⟩
      split
      · exact ⟨rfl, rel'⟩
      · exact ih _ (lowClear_shiftLeft _ (by omega)) rel'

theorem rootTable_clear (satp : BitVec 32) : LowClear 2 (rootTable satp) :=
  lowClear_shiftLeft _ (by omega)

theorem translateAddr_alike (sim : AlignedSim R) (s : RVModel 32) (va : BitVec 32)
    (access : MemAccess) {m : M} {n : N} (rel : R m n) :
    Alike R (s.translateAddr va access m) (s.translateAddr va access n) := by
  obtain ⟨x, m', n', hx, hy, rel'⟩ :=
    answers_eq (walkLeaf_alike sim va 1 _ (rootTable_clear (s.csr.read CSR.SATP)) rel)
  unfold translateAddr
  simp only
  split
  · exact ⟨rfl, rfl, rel⟩
  rw [hx, hy]
  cases x with
  | none => exact ⟨rfl, rfl, rel'⟩
  | some leaf =>
    simp only
    split
    · exact ⟨rfl, rfl, rel'⟩
    · exact ⟨rfl, rfl, rel'⟩

theorem loadValue_alike (sim : AlignedSim R) (f : Funct3Load) {pa : BitVec 32}
    (word : f = .lw → LowClear 2 pa) (half : f = .lh ∨ f = .lhu → LowClear 1 pa)
    {m : M} {n : N} (rel : R m n) :
    (loadValue f pa m).1.toOption = (loadValue f pa n).1.toOption ∧
      R (loadValue f pa m).2 (loadValue f pa n).2 := by
  cases f with
  | lb => exact map_alike _ (sim.readByte rel pa)
  | lh => exact map_alike _ (sim.readHalf rel (half (Or.inl rfl)))
  | lw =>
    obtain ⟨same, rel'⟩ := sim.readWord rel (word rfl)
    exact map_alike _ ⟨congrArg Except.toOption same, rel'⟩
  | lbu => exact map_alike _ (sim.readByte rel pa)
  | lhu => exact map_alike _ (sim.readHalf rel (half (Or.inr rfl)))

theorem storeValue_alike (sim : AlignedSim R) (f : Funct3Store) {pa : BitVec 32}
    (data : BitVec 32) (word : f = .sw → LowClear 2 pa) (half : f = .sh → LowClear 1 pa)
    {m : M} {n : N} (rel : R m n) :
    (storeValue f pa data m).1 = (storeValue f pa data n).1 ∧
      R (storeValue f pa data m).2 (storeValue f pa data n).2 := by
  cases f with
  | sb => exact sim.writeByte rel pa _
  | sh => exact sim.writeHalf rel (half rfl) _
  | sw => exact sim.writeWord rel (word rfl) _

theorem misaligned_word {a : BitVec 32} (ok : ¬a &&& 0b11#32 ≠ 0#32) : LowClear 2 a :=
  (and_mask_eq_zero_iff (w := 32) (k := 2) (by omega) a).mp (not_not.mp ok)

theorem misaligned_half {a : BitVec 32} (ok : ¬a &&& 0b01#32 ≠ 0#32) : LowClear 1 a :=
  (and_mask_eq_zero_iff (w := 32) (k := 1) (by omega) a).mp (not_not.mp ok)

theorem executeLoad_alike (sim : AlignedSim R) (s : RVModel 32) (d : DecodedInstr 32)
    {m : M} {n : N} (rel : R m n) : Alike R (s.executeLoad d m) (s.executeLoad d n) := by
  obtain ⟨x, s', m', n', hx, hy, rel'⟩ :=
    alike_answers (translateAddr_alike sim s (s.regs.get d.rs1 + d.imm) .load rel)
  unfold executeLoad
  simp only
  split
  · exact ⟨rfl, rfl, rel⟩
  rename_i word
  split
  · exact ⟨rfl, rfl, rel⟩
  rename_i half
  rw [hx, hy]
  cases x with
  | none => exact ⟨rfl, rfl, rel'⟩
  | some pa =>
    simp only
    cases f3 : Funct3Load.ofBits? d.funct3 with
    | none => exact ⟨rfl, rfl, rel'⟩
    | some f =>
      have wordClear : f = .lw → LowClear 2 pa := by
        rintro rfl
        refine translateAddr_clear (by omega) (misaligned_word ?_) hx
        intro bad
        exact word ⟨f3, bad⟩
      have halfClear : f = .lh ∨ f = .lhu → LowClear 1 pa := by
        intro which
        refine translateAddr_clear (by omega) (misaligned_half ?_) hx
        intro bad
        refine half ⟨?_, bad⟩
        rcases which with rfl | rfl
        · exact Or.inl f3
        · exact Or.inr f3
      simp only
      rcases answers_toOption (loadValue_alike sim f wordClear halfClear rel') with
        ⟨_, _, m'', n'', lx, ly, rel''⟩ | ⟨v, m'', n'', lx, ly, rel''⟩
      · rw [lx, ly]
        exact ⟨rfl, rfl, rel''⟩
      · rw [lx, ly]
        exact ⟨rfl, rfl, rel''⟩

theorem executeStore_alike (sim : AlignedSim R) (s : RVModel 32) (d : DecodedInstr 32)
    {m : M} {n : N} (rel : R m n) : Alike R (s.executeStore d m) (s.executeStore d n) := by
  obtain ⟨x, s', m', n', hx, hy, rel'⟩ :=
    alike_answers (translateAddr_alike sim s (s.regs.get d.rs1 + d.imm) .store rel)
  unfold executeStore
  simp only
  split
  · exact ⟨rfl, rfl, rel⟩
  rename_i word
  split
  · exact ⟨rfl, rfl, rel⟩
  rename_i half
  rw [hx, hy]
  cases x with
  | none => exact ⟨rfl, rfl, rel'⟩
  | some pa =>
    simp only
    cases f3 : Funct3Store.ofBits? d.funct3 with
    | none => exact ⟨rfl, rfl, rel'⟩
    | some f =>
      have wordClear : f = .sw → LowClear 2 pa := by
        rintro rfl
        refine translateAddr_clear (by omega) (misaligned_word ?_) hx
        intro bad
        exact word ⟨f3, bad⟩
      have halfClear : f = .sh → LowClear 1 pa := by
        rintro rfl
        refine translateAddr_clear (by omega) (misaligned_half ?_) hx
        intro bad
        exact half ⟨f3, bad⟩
      obtain ⟨x, m'', n'', wx, wy, rel''⟩ :=
        answers_eq (storeValue_alike sim f (s.regs.get d.rs2) wordClear halfClear rel')
      simp only
      rw [wx, wy]
      cases x with
      | error e => exact ⟨rfl, rfl, rel''⟩
      | ok => exact ⟨rfl, rfl, sim.invalidateReservation rel''⟩

theorem executeLR_alike (sim : AlignedSim R) (s : RVModel 32) (d : DecodedInstr 32)
    {pa : BitVec 32} (clear : LowClear 2 pa) {m : M} {n : N} (rel : R m n) :
    Alike R (s.executeLR d pa m) (s.executeLR d pa n) := by
  obtain ⟨x, m', n', hx, hy, rel'⟩ := answers_eq (sim.readWord rel clear)
  unfold executeLR
  rw [hx, hy]
  cases x with
  | error e => exact ⟨rfl, rfl, rel'⟩
  | ok w => exact ⟨rfl, rfl, sim.reserveLoad rel' pa⟩

theorem executeSC_alike (sim : AlignedSim R) (s : RVModel 32) (d : DecodedInstr 32)
    {pa : BitVec 32} (clear : LowClear 2 pa) (rs2v : BitVec 32) {m : M} {n : N} (rel : R m n) :
    Alike R (s.executeSC d pa rs2v m) (s.executeSC d pa rs2v n) := by
  obtain ⟨x, m', n', hx, hy, rel'⟩ :=
    answers_eq (sim.storeConditional rel clear (rs2v.setWidth 32))
  unfold executeSC
  rw [hx, hy]
  cases x with
  | error e => exact ⟨rfl, rfl, rel'⟩
  | ok done => exact ⟨rfl, rfl, rel'⟩

theorem executeAMOrmw_alike (sim : AlignedSim R) (s : RVModel 32) (d : DecodedInstr 32)
    (f : Option Funct5AMO) {pa : BitVec 32} (clear : LowClear 2 pa) (rs2v : BitVec 32)
    {m : M} {n : N} (rel : R m n) :
    Alike R (s.executeAMOrmw d f pa rs2v m) (s.executeAMOrmw d f pa rs2v n) := by
  obtain ⟨x, m', n', hx, hy, rel'⟩ := answers_eq (sim.readWord rel clear)
  unfold executeAMOrmw
  rw [hx, hy]
  cases x with
  | error e => exact ⟨rfl, rfl, rel'⟩
  | ok w =>
    simp only
    cases f.bind fun f => amoResult f (w.setWidth 32) rs2v with
    | none => exact ⟨rfl, rfl, rel'⟩
    | some result =>
      obtain ⟨x, m'', n'', wx, wy, rel''⟩ := answers_eq
        (sim.writeWord (sim.invalidateReservation rel') clear (result.setWidth 32))
      simp only
      rw [wx, wy]
      cases x with
      | error e => exact ⟨rfl, rfl, rel''⟩
      | ok => exact ⟨rfl, rfl, rel''⟩

theorem executeAMO_alike (sim : AlignedSim R) (s : RVModel 32) (d : DecodedInstr 32)
    {m : M} {n : N} (rel : R m n) : Alike R (s.executeAMO d m) (s.executeAMO d n) := by
  obtain ⟨x, s', m', n', hx, hy, rel'⟩ :=
    alike_answers (translateAddr_alike sim s (s.regs.get d.rs1) .store rel)
  unfold executeAMO
  simp only
  split
  · exact ⟨rfl, rfl, rel⟩
  split
  · exact ⟨rfl, rfl, rel⟩
  rename_i aligned
  rw [hx, hy]
  cases x with
  | none => exact ⟨rfl, rfl, rel'⟩
  | some pa =>
    have clear : LowClear 2 pa := translateAddr_clear (by omega) (misaligned_word aligned) hx
    simp only
    split
    · exact executeLR_alike sim _ d clear rel'
    · exact executeSC_alike sim _ d clear _ rel'
    · exact executeAMOrmw_alike sim _ d _ clear _ rel'

theorem executeInstr_alike (sim : AlignedSim R) (s : RVModel 32) (d : DecodedInstr 32)
    {m : M} {n : N} (rel : R m n) : Alike R (s.executeInstr d m) (s.executeInstr d n) := by
  unfold executeInstr
  cases Opcode.ofBits? d.opcode with
  | none => exact ⟨rfl, rfl, rel⟩
  | some opcode =>
    cases opcode with
    | load =>
      obtain ⟨same, cpu, rel'⟩ := executeLoad_alike sim s d rel
      exact ⟨congrArg Except.ok same, cpu, rel'⟩
    | store =>
      obtain ⟨same, cpu, rel'⟩ := executeStore_alike sim s d rel
      exact ⟨congrArg Except.ok same, cpu, rel'⟩
    | amo =>
      obtain ⟨same, cpu, rel'⟩ := executeAMO_alike sim s d rel
      exact ⟨congrArg (Except.mapError Exn.outOfRange) same, cpu, rel'⟩
    | _ => exact ⟨rfl, rfl, rel⟩

theorem executeWord_alike (sim : AlignedSim R) (s : RVModel 32) (raw : WordT) {m : M} {n : N}
    (rel : R m n) : Alike R (s.executeWord raw m) (s.executeWord raw n) := by
  let d : DecodedInstr 32 := Decoder.decode 32 raw
  obtain ⟨x, s', m', n', hx, hy, rel'⟩ :=
    alike_answers (executeInstr_alike sim (s.callStepHook (Disasm.disassemble d)) d rel)
  unfold executeWord
  simp only
  rw [hx, hy]
  cases x with
  | error e => exact ⟨rfl, rfl, rel'⟩
  | ok modified => exact ⟨rfl, rfl, rel'⟩

/-- One step of the processor over related memories, under step()'s alignment assert. -/
theorem step_alike (sim : AlignedSim R) (s : RVModel 32) (aligned : s.PcAligned) {m : M} {n : N}
    (rel : R m n) : Alike R (s.step m) (s.step n) := by
  obtain ⟨x, s', m', n', hx, hy, rel'⟩ :=
    alike_answers (translateAddr_alike sim s s.pc .fetch rel)
  unfold step
  split
  · exact ⟨rfl, rfl, rel⟩
  rw [hx, hy]
  cases x with
  | none => exact ⟨rfl, rfl, rel'⟩
  | some pa =>
    have clear : LowClear 2 pa := translateAddr_clear (by omega)
      (misaligned_word fun bad => bad aligned) hx
    obtain ⟨x, m'', n'', fx, fy, rel''⟩ := answers_eq (sim.readWord rel' clear)
    simp only
    rw [fx, fy]
    cases x with
    | error e => exact ⟨rfl, rfl, rel''⟩
    | ok raw =>
      simp only
      split
      · exact ⟨rfl, rfl, rel''⟩
      · exact executeWord_alike sim _ raw rel''

/-- Whole runs over related memories, as long as the assert holds of the second machine. -/
theorem run_alike (sim : AlignedSim R) (s : RVModel 32) (n : Nat) {m : M} {m' : N} (rel : R m m')
    (aligned : ∀ k < n, (Runs.stateAfter machine k (s, m')).1.PcAligned) :
    Alike R (Runs.runFor machine n (s, m)) (Runs.runFor machine n (s, m')) := by
  refine Runs.runFor_simulation (fun p q => p.1 = q.1 ∧ R p.2 q.2) (fun q => q.1.PcAligned)
    ?_ n (s, m) (s, m') ⟨rfl, rel⟩ aligned
  rintro ⟨s, m⟩ ⟨_, m'⟩ ⟨rfl, rel⟩ aligned
  exact step_alike sim s aligned rel

end RVModel

end XorOS
