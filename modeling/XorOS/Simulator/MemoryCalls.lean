import Mathlib.Logic.Relation
import XorOS.Simulator.MemorySimulation

/- RVModel changes its memory object through the members of MemT only, and stores to aligned
   addresses, so what each of these calls keeps, step() keeps. -/
namespace XorOS
open ISA Bits Relation

/-- One call of a member; a store goes to an address with a property of interest. -/
inductive MemberCall {M : Type} [MemT 32 M] (target : BitVec 32 → Prop) : M → M → Prop
  | readByte (m : M) (a : BitVec 32) : MemberCall target m (MemT.readByte a m).2
  | readHalf (m : M) (a : BitVec 32) : MemberCall target m (MemT.readHalf a m).2
  | readWord (m : M) (a : BitVec 32) : MemberCall target m (MemT.readWord a m).2
  | writeByte (m : M) (a : BitVec 32) (v : ByteT) (stores : target a) :
      MemberCall target m (MemT.writeByte a v m).2
  | writeHalf (m : M) (a : BitVec 32) (v : HalfT) (aligned : LowClear 1 a) (stores : target a) :
      MemberCall target m (MemT.writeHalf a v m).2
  | writeWord (m : M) (a : BitVec 32) (v : WordT) (aligned : LowClear 2 a) (stores : target a) :
      MemberCall target m (MemT.writeWord a v m).2
  | reserveLoad (m : M) (a : BitVec 32) : MemberCall target m (MemT.reserveLoad a m)
  | storeConditional (m : M) (a : BitVec 32) (v : WordT) (aligned : LowClear 2 a)
      (stores : target a) : MemberCall target m (MemT.storeConditional a v m).2
  | invalidateReservation (m : M) : MemberCall target m (MemT.invalidateReservation 32 m)

abbrev MemberCalls {M : Type} [MemT 32 M] (target : BitVec 32 → Prop) : M → M → Prop :=
  ReflTransGen (MemberCall target)

namespace MemberCalls
variable {M α : Type} [MemT 32 M] {target : BitVec 32 → Prop}

theorem of_call {m m' : M} {r : α × M} (call : MemberCall target m r.2) {a : α} (eq : r = (a, m')) :
    MemberCalls target m m' := by
  rw [eq] at call
  exact .single call

theorem preserves {P : M → Prop} (keep : ∀ m m', MemberCall target m m' → P m → P m') {m m' : M}
    (calls : MemberCalls target m m') (start : P m) : P m' := by
  induction calls with
  | refl => exact start
  | tail _ last ih => exact keep _ _ last ih

theorem relates {R : M → M → Prop} (refl : ∀ m, R m m) (trans : ∀ {a b c}, R a b → R b c → R a c)
    (call : ∀ m m', MemberCall target m m' → R m m') {m m' : M} (calls : MemberCalls target m m') :
    R m m' := by
  induction calls with
  | refl => exact refl m
  | tail _ last ih => exact trans ih (call _ _ last)

end MemberCalls

namespace RVModel
open MemberCalls
variable {M : Type} [MemT 32 M]

def Anywhere (_ : BitVec 32) : Prop := True

theorem walkLeaf_calls (va : BitVec 32) :
    ∀ (lvl : Nat) (a : BitVec 32) (m : M), MemberCalls Anywhere m (walkLeaf va lvl a m).2 := by
  intro lvl
  induction lvl with
  | zero =>
    intro a m
    unfold walkLeaf
    rcases read : MemT.readWord (a ||| (vpn va 0 <<< 2)) m with ⟨_ | raw, m'⟩
    · exact of_call (.readWord m _) read
    · simp only
      split
      · exact of_call (.readWord m _) read
      split
      · exact of_call (.readWord m _) read
      · exact of_call (.readWord m _) read
  | succ lvl ih =>
    intro a m
    unfold walkLeaf
    rcases read : MemT.readWord (a ||| (vpn va (lvl + 1) <<< 2)) m with ⟨_ | raw, m'⟩
    · exact of_call (.readWord m _) read
    · simp only
      split
      · exact of_call (.readWord m _) read
      split
      · exact of_call (.readWord m _) read
      · exact (of_call (.readWord m _) read).trans (ih _ m')

theorem translateAddr_calls (s : RVModel 32) (va : BitVec 32) (access : MemAccess) (m : M) :
    MemberCalls Anywhere m (s.translateAddr va access m).2.2 := by
  have walk := walkLeaf_calls va 1 (rootTable (s.csr.read CSR.SATP)) m
  unfold translateAddr
  simp only
  split
  · exact .refl
  rcases found : walkLeaf va 1 (rootTable (s.csr.read CSR.SATP)) m with ⟨_ | ⟨lvl, pte⟩, m'⟩
  · rw [found] at walk
    exact walk
  · rw [found] at walk
    simp only
    split
    · exact walk
    · exact walk

theorem loadValue_calls (f : Funct3Load) (pa : BitVec 32) (m : M) :
    MemberCalls Anywhere m (loadValue f pa m).2 := by
  cases f with
  | lb => exact .single (.readByte m pa)
  | lh => exact .single (.readHalf m pa)
  | lw => exact .single (.readWord m pa)
  | lbu => exact .single (.readByte m pa)
  | lhu => exact .single (.readHalf m pa)

theorem storeValue_calls (f : Funct3Store) {pa : BitVec 32} (word : f = .sw → LowClear 2 pa)
    (half : f = .sh → LowClear 1 pa) (data : BitVec 32) (m : M) :
    MemberCalls Anywhere m (storeValue f pa data m).2 := by
  cases f with
  | sb => exact .single (.writeByte m pa _ trivial)
  | sh => exact .single (.writeHalf m pa _ (half rfl) trivial)
  | sw => exact .single (.writeWord m pa _ (word rfl) trivial)

theorem executeLoad_calls (s : RVModel 32) (d : DecodedInstr 32) (m : M) :
    MemberCalls Anywhere m (s.executeLoad d m).2.2 := by
  have translated := translateAddr_calls s (s.regs.get d.rs1 + d.imm) .load m
  unfold executeLoad
  simp only
  split
  · exact .refl
  split
  · exact .refl
  rcases found : s.translateAddr (s.regs.get d.rs1 + d.imm) .load m with ⟨_ | pa, s', m'⟩
  · rw [found] at translated
    exact translated
  · rw [found] at translated
    simp only
    split
    · exact translated
    · rename_i f _
      have loaded := loadValue_calls f pa m'
      split
      · rename_i eq
        rw [eq] at loaded
        exact translated.trans loaded
      · rename_i eq
        rw [eq] at loaded
        exact translated.trans loaded

theorem executeStore_calls (s : RVModel 32) (d : DecodedInstr 32) (m : M) :
    MemberCalls Anywhere m (s.executeStore d m).2.2 := by
  have translated := translateAddr_calls s (s.regs.get d.rs1 + d.imm) .store m
  unfold executeStore
  simp only
  split
  · exact .refl
  rename_i word
  split
  · exact .refl
  rename_i half
  rcases found : s.translateAddr (s.regs.get d.rs1 + d.imm) .store m with ⟨_ | pa, s', m'⟩
  · rw [found] at translated
    exact translated
  · rw [found] at translated
    simp only
    cases f3 : Funct3Store.ofBits? d.funct3 with
    | none => exact translated
    | some f =>
      have wordClear : f = .sw → LowClear 2 pa := by
        rintro rfl
        exact translateAddr_clear (by omega) (misaligned_word fun bad => word ⟨f3, bad⟩) found
      have halfClear : f = .sh → LowClear 1 pa := by
        rintro rfl
        exact translateAddr_clear (by omega) (misaligned_half fun bad => half ⟨f3, bad⟩) found
      have stored := storeValue_calls f wordClear halfClear (s.regs.get d.rs2) m'
      simp only
      split
      · rename_i eq
        rw [eq] at stored
        exact translated.trans stored
      · rename_i eq
        rw [eq] at stored
        exact (translated.trans stored).tail (.invalidateReservation _)

theorem executeLR_calls (s : RVModel 32) (d : DecodedInstr 32) (pa : BitVec 32) (m : M) :
    MemberCalls Anywhere m (s.executeLR d pa m).2.2 := by
  unfold executeLR
  rcases read : MemT.readWord pa m with ⟨_ | w, m'⟩
  · exact of_call (.readWord m pa) read
  · exact (of_call (.readWord m pa) read).tail (.reserveLoad m' pa)

theorem executeSC_calls (s : RVModel 32) (d : DecodedInstr 32) {pa : BitVec 32}
    (clear : LowClear 2 pa) (rs2v : BitVec 32) (m : M) :
    MemberCalls Anywhere m (s.executeSC d pa rs2v m).2.2 := by
  unfold executeSC
  rcases stored : MemT.storeConditional pa (rs2v.setWidth 32) m with ⟨_ | ok, m'⟩
  · exact of_call (.storeConditional m pa _ clear trivial) stored
  · exact of_call (.storeConditional m pa _ clear trivial) stored

theorem executeAMOrmw_calls (s : RVModel 32) (d : DecodedInstr 32) (f : Option Funct5AMO)
    {pa : BitVec 32} (clear : LowClear 2 pa) (rs2v : BitVec 32) (m : M) :
    MemberCalls Anywhere m (s.executeAMOrmw d f pa rs2v m).2.2 := by
  unfold executeAMOrmw
  rcases read : MemT.readWord pa m with ⟨_ | w, m'⟩
  · exact of_call (.readWord m pa) read
  have cleared : MemberCalls Anywhere m (MemT.invalidateReservation 32 m') :=
    (of_call (.readWord m pa) read).tail (.invalidateReservation m')
  simp only
  split
  · exact of_call (.readWord m pa) read
  · split
    · rename_i wrote
      exact cleared.trans (of_call (.writeWord _ pa _ clear trivial) wrote)
    · rename_i wrote
      exact cleared.trans (of_call (.writeWord _ pa _ clear trivial) wrote)

theorem executeAMO_calls (s : RVModel 32) (d : DecodedInstr 32) (m : M) :
    MemberCalls Anywhere m (s.executeAMO d m).2.2 := by
  have translated := translateAddr_calls s (s.regs.get d.rs1) .store m
  unfold executeAMO
  split
  · exact .refl
  simp only
  split
  · exact .refl
  rename_i aligned
  rcases found : s.translateAddr (s.regs.get d.rs1) .store m with ⟨_ | pa, s', m'⟩
  · rw [found] at translated
    exact translated
  · rw [found] at translated
    have clear : LowClear 2 pa := translateAddr_clear (by omega) (misaligned_word aligned) found
    simp only
    split
    · exact translated.trans (executeLR_calls s' d pa m')
    · exact translated.trans (executeSC_calls s' d clear _ m')
    · exact translated.trans (executeAMOrmw_calls s' d _ clear _ m')

theorem executeInstr_calls (s : RVModel 32) (d : DecodedInstr 32) (m : M) :
    MemberCalls Anywhere m (s.executeInstr d m).2.2 := by
  unfold executeInstr
  cases Opcode.ofBits? d.opcode with
  | none => exact .refl
  | some opcode =>
    cases opcode with
    | load => exact executeLoad_calls s d m
    | store => exact executeStore_calls s d m
    | amo => exact executeAMO_calls s d m
    | _ => exact .refl

theorem executeWord_calls (s : RVModel 32) (raw : WordT) (m : M) :
    MemberCalls Anywhere m (s.executeWord raw m).2.2 := by
  let d : DecodedInstr 32 := Decoder.decode 32 raw
  have executed := executeInstr_calls (s.callStepHook (Disasm.disassemble d)) d m
  unfold executeWord
  simp only
  split
  · rename_i eq
    rw [eq] at executed
    exact executed
  · rename_i eq
    rw [eq] at executed
    exact executed

theorem step_calls (s : RVModel 32) (m : M) : MemberCalls Anywhere m (s.step m).2.2 := by
  have translated := translateAddr_calls s s.pc .fetch m
  unfold step
  split
  · exact .refl
  rcases found : s.translateAddr s.pc .fetch m with ⟨_ | pa, s', m'⟩
  · rw [found] at translated
    exact translated
  · rw [found] at translated
    simp only
    rcases read : MemT.readWord pa m' with ⟨_ | raw, m''⟩
    · exact translated.trans (of_call (.readWord m' pa) read)
    · have fetched : MemberCalls Anywhere m m'' := translated.trans (of_call (.readWord m' pa) read)
      simp only
      split
      · exact fetched
      · exact fetched.trans (executeWord_calls s' raw m'')

end RVModel

end XorOS
