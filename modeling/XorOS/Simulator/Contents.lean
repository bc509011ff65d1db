import XorOS.Simulator.Translation

/- A step over two memories that hold the same bytes and devices and may differ in the LR
   reservation: only SC.W tells them apart. -/
namespace XorOS
open ISA

namespace MemoryModel
variable {xlen : Nat} {Dev : Type} {m m' : MemoryModel xlen Dev}

/-- Everything of a memory object but its reservation. -/
structure SameContents (m m' : MemoryModel xlen Dev) : Prop where
  size : m'.size = m.size
  data : m'.data = m.data
  mmio : m'.mmio = m.mmio
  dev : m'.dev = m.dev

def heldAddr (m : MemoryModel xlen Dev) : Option (BitVec xlen) :=
  if m.lrValid then some m.lrAddr else none

namespace SameContents

theorem symm (h : SameContents m m') : SameContents m' m :=
  ⟨h.size.symm, h.data.symm, h.mmio.symm, h.dev.symm⟩

theorem trans {n : MemoryModel xlen Dev} (h : SameContents m m') (h' : SameContents m' n) :
    SameContents m n :=
  ⟨h'.size.trans h.size, h'.data.trans h.data, h'.mmio.trans h.mmio, h'.dev.trans h.dev⟩

theorem eq (h : SameContents m m') :
    m' = { m with lrAddr := m'.lrAddr, lrValid := m'.lrValid } := by
  obtain ⟨size, data, mmio, dev⟩ := h
  rw [← size, ← data, ← mmio, ← dev]

theorem readByte (h : SameContents m m') (a : BitVec xlen) : m'.readByte a = m.readByte a := by
  rw [h.eq]
  rfl

theorem readHalf (h : SameContents m m') (a : BitVec xlen) : m'.readHalf a = m.readHalf a := by
  rw [h.eq]
  rfl

theorem readWord (h : SameContents m m') (a : BitVec xlen) : m'.readWord a = m.readWord a := by
  rw [h.eq]
  rfl

theorem findMmio (h : SameContents m m') (a : BitVec xlen) : m'.findMmio a = m.findMmio a := by
  rw [h.eq]
  rfl

theorem checkBounds (h : SameContents m m') (a : BitVec xlen) (width : Nat) :
    m'.checkBounds a width = m.checkBounds a width := by
  rw [h.eq]
  rfl

theorem setByte (h : SameContents m m') (a : BitVec xlen) (v : ByteT) :
    SameContents (m.setByte a v) (m'.setByte a v) where
  size := h.size
  data := by
    unfold MemoryModel.setByte
    rw [h.data]
  mmio := h.mmio
  dev := h.dev

end SameContents

structure SameWrite (m m' : MemoryModel xlen Dev)
    (x y : Except OutOfRange Unit × MemoryModel xlen Dev) : Prop where
  answer : x.1 = y.1
  contents : SameContents x.2 y.2
  left : x.2.heldAddr = m.heldAddr
  right : y.2.heldAddr = m'.heldAddr

theorem writeByte_same (h : SameContents m m') (a : BitVec xlen) (v : ByteT) :
    SameWrite m m' (m.writeByte a v) (m'.writeByte a v) := by
  unfold writeByte
  rw [h.findMmio, h.checkBounds]
  cases m.findMmio a with
  | some r =>
    rw [h.dev]
    exact ⟨rfl, ⟨h.size, h.data, h.mmio, rfl⟩, rfl, rfl⟩
  | none =>
    cases m.checkBounds a 1 with
    | error e => exact ⟨rfl, h, rfl, rfl⟩
    | ok => exact ⟨rfl, h.setByte _ _, rfl, rfl⟩

theorem writeHalf_same (h : SameContents m m') (a : BitVec xlen) (v : HalfT) :
    SameWrite m m' (m.writeHalf a v) (m'.writeHalf a v) := by
  unfold writeHalf
  rw [h.findMmio, h.checkBounds]
  cases m.findMmio a with
  | some r =>
    rw [h.dev]
    exact ⟨rfl, ⟨h.size, h.data, h.mmio, rfl⟩, rfl, rfl⟩
  | none =>
    cases m.checkBounds a 2 with
    | error e => exact ⟨rfl, h, rfl, rfl⟩
    | ok => exact ⟨rfl, (h.setByte _ _).setByte _ _, rfl, rfl⟩

theorem writeWord_same (h : SameContents m m') (a : BitVec xlen) (v : WordT) :
    SameWrite m m' (m.writeWord a v) (m'.writeWord a v) := by
  unfold writeWord
  rw [h.findMmio, h.checkBounds]
  cases m.findMmio a with
  | some r =>
    rw [h.dev]
    exact ⟨rfl, ⟨h.size, h.data, h.mmio, rfl⟩, rfl, rfl⟩
  | none =>
    cases m.checkBounds a 4 with
    | error e => exact ⟨rfl, h, rfl, rfl⟩
    | ok => exact ⟨rfl, (((h.setByte _ _).setByte _ _).setByte _ _).setByte _ _, rfl, rfl⟩

theorem invalidate_contents (m : MemoryModel xlen Dev) :
    SameContents m m.invalidateReservation := ⟨rfl, rfl, rfl, rfl⟩

theorem storeConditional_held {a : BitVec xlen} (held : m.heldAddr = some a) (v : WordT) :
    m.storeConditional a v =
      ((m.invalidateReservation.writeWord a v).1.map fun _ => true,
        (m.invalidateReservation.writeWord a v).2) := by
  have valid : ¬(!m.lrValid ∨ m.lrAddr ≠ a) := by
    unfold heldAddr at held
    cases set : m.lrValid with
    | false => simp [set] at held
    | true => simpa [set] using held
  unfold storeConditional
  rw [if_neg valid]
  rcases write : m.invalidateReservation.writeWord a v with ⟨_ | _, written⟩
  · unfold invalidateReservation at write
    rw [write]
    rfl
  · unfold invalidateReservation at write
    rw [write]
    rfl

theorem storeConditional_free {a : BitVec xlen} (free : m.heldAddr ≠ some a) (v : WordT) :
    m.storeConditional a v = (.ok false, m) := by
  have invalid : !m.lrValid ∨ m.lrAddr ≠ a := by
    unfold heldAddr at free
    cases set : m.lrValid with
    | false => simp
    | true => simpa [set] using free
  unfold storeConditional
  rw [if_pos invalid]

theorem invalidate_same (h : SameContents m m') :
    SameContents m.invalidateReservation m'.invalidateReservation :=
  ⟨h.size, h.data, h.mmio, h.dev⟩

end MemoryModel

namespace RVModel
open MemoryModel
variable {xlen : Nat} {Dev : Type}

/-- What an instruction makes of the reservation. -/
inductive ReservationUse (xlen : Nat) where
  | keep
  | clear
  | lr (pa : BitVec xlen)
  | sc (pa : BitVec xlen)

def ReservationUse.apply : ReservationUse xlen → Option (BitVec xlen) → Option (BitVec xlen)
  | .keep, held => held
  | .clear, _ => none
  | .lr pa, _ => some pa
  | .sc pa, held => if held = some pa then none else held

/-- The AMO-class instruction that d is, with the physical address it gets to. -/
def amoAt (s : RVModel xlen) (d : DecodedInstr xlen) (m : MemoryModel xlen Dev) :
    Option (Funct5AMO × BitVec xlen) :=
  if Opcode.ofBits? d.opcode = some .amo then
    match dataAccess s d with
    | none => none
    | some (_, va) =>
        match (s.translateAddr va .store m).1, Funct5AMO.ofBits? (funct5 d) with
        | some pa, some f => some (f, pa)
        | _, _ => none
  else none

def CompletesLR (s : RVModel xlen) (d : DecodedInstr xlen) (m : MemoryModel xlen Dev) : Prop :=
  ∃ pa, amoAt s d m = some (.lr, pa) ∧ (m.readWord pa).isOk

def Uses (s : RVModel xlen) (d : DecodedInstr xlen) (m : MemoryModel xlen Dev) :
    ReservationUse xlen → Prop
  | .keep | .clear => ¬CompletesLR s d m
  | .lr pa => amoAt s d m = some (.lr, pa) ∧ (m.readWord pa).isOk
  | .sc pa => amoAt s d m = some (.sc, pa)

variable {m m' : MemoryModel xlen Dev}

/-- Two executions that differ in the reservations only, and make the same use of them. -/
structure InStep {α : Type} (use : ReservationUse xlen) (m m' : MemoryModel xlen Dev)
    (x y : α × RVModel xlen × MemoryModel xlen Dev) : Prop where
  outcome : x.1 = y.1
  cpu : x.2.1 = y.2.1
  contents : SameContents x.2.2 y.2.2
  left : x.2.2.heldAddr = use.apply m.heldAddr
  right : y.2.2.heldAddr = use.apply m'.heldAddr

theorem walkLeaf_same (h : SameContents m m') (va : BitVec xlen) (lvl : Nat) (a : BitVec xlen) :
    (walkLeaf va lvl a m').1 = (walkLeaf va lvl a m).1 := by
  induction lvl generalizing a with
  | zero =>
    unfold walkLeaf
    rw [memT_readWord, memT_readWord, h.readWord]
    cases m.readWord (a ||| (vpn va 0 <<< 2)) with
    | error e => rfl
    | ok raw =>
      simp only
      split
      · rfl
      split
      · rfl
      · rfl
  | succ lvl ih =>
    unfold walkLeaf
    rw [memT_readWord, memT_readWord, h.readWord]
    cases m.readWord (a ||| (vpn va (lvl + 1) <<< 2)) with
    | error e => rfl
    | ok raw =>
      simp only
      split
      · rfl
      split
      · rfl
      · exact ih _

theorem translateAddr_same (h : SameContents m m') (s : RVModel xlen) (va : BitVec xlen)
    (access : MemAccess) :
    (s.translateAddr va access m').1 = (s.translateAddr va access m).1 ∧
      (s.translateAddr va access m').2.1 = (s.translateAddr va access m).2.1 := by
  by_cases paging : s.Paging
  · have leaf : s.leaf va m' = s.leaf va m := walkLeaf_same h va 1 _
    rw [translateAddr_paging paging, translateAddr_paging paging, leaf]
    split
    · exact ⟨rfl, rfl⟩
    · exact ⟨rfl, rfl⟩
  · rw [translateAddr_bare paging, translateAddr_bare paging]
    exact ⟨rfl, rfl⟩

theorem translateAddr_both (h : SameContents m m') (s : RVModel xlen) (va : BitVec xlen)
    (access : MemAccess) :
    (∃ pa, s.translateAddr va access m = (some pa, s, m) ∧
      s.translateAddr va access m' = (some pa, s, m')) ∨
    s.translateAddr va access m = (none, s.fireTrap (pageFaultCause access) va, m) ∧
      s.translateAddr va access m' = (none, s.fireTrap (pageFaultCause access) va, m') := by
  obtain ⟨found, _⟩ := translateAddr_same h s va access
  rcases translateAddr_cases s va access m with ⟨pa, eq⟩ | eq
  · rcases translateAddr_cases s va access m' with ⟨pa', eq'⟩ | eq'
    · rw [eq, eq'] at found
      rw [Option.some.inj found] at eq'
      exact .inl ⟨pa, eq, eq'⟩
    · rw [eq, eq'] at found
      simp at found
  · rcases translateAddr_cases s va access m' with ⟨pa', eq'⟩ | eq'
    · rw [eq, eq'] at found
      simp at found
    · exact .inr ⟨eq, eq'⟩

theorem amoAt_same (h : SameContents m m') (s : RVModel xlen) (d : DecodedInstr xlen) :
    amoAt s d m' = amoAt s d m := by
  unfold amoAt
  simp only [(translateAddr_same h s _ .store).1]

theorem loadValue_same (h : SameContents m m') (f : Funct3Load) (pa : BitVec xlen) :
    ∃ r, loadValue f pa m = (r, m) ∧ loadValue f pa m' = (r, m') := by
  have byte : MemT.readByte pa m' = (m.readByte pa, m') := congrArg (·, m') (h.readByte pa)
  have half : MemT.readHalf pa m' = (m.readHalf pa, m') := congrArg (·, m') (h.readHalf pa)
  have word : MemT.readWord pa m' = (m.readWord pa, m') := congrArg (·, m') (h.readWord pa)
  unfold loadValue
  cases f with
  | lb | lbu =>
    simp only
    rw [byte]
    exact ⟨_, rfl, rfl⟩
  | lh | lhu =>
    simp only
    rw [half]
    exact ⟨_, rfl, rfl⟩
  | lw =>
    simp only
    rw [word]
    exact ⟨_, rfl, rfl⟩

theorem storeValue_same (h : SameContents m m') (f : Funct3Store) (pa data : BitVec xlen) :
    SameWrite m m' (storeValue f pa data m) (storeValue f pa data m') := by
  cases f with
  | sb => exact writeByte_same h _ _
  | sh => exact writeHalf_same h _ _
  | sw => exact writeWord_same h _ _

theorem executeLoad_same (h : SameContents m m') (s : RVModel xlen) (d : DecodedInstr xlen) :
    InStep .keep m m' (s.executeLoad d m) (s.executeLoad d m') := by
  unfold executeLoad
  simp only
  split
  · exact ⟨rfl, rfl, h, rfl, rfl⟩
  split
  · exact ⟨rfl, rfl, h, rfl, rfl⟩
  rcases translateAddr_both h s (s.regs.get d.rs1 + d.imm) .load with ⟨pa, eq, eq'⟩ | ⟨eq, eq'⟩
  · rw [eq, eq']
    simp only
    cases Funct3Load.ofBits? d.funct3 with
    | none => exact ⟨rfl, rfl, h, rfl, rfl⟩
    | some f =>
      obtain ⟨r, read, read'⟩ := loadValue_same h f pa
      simp only
      rw [read, read']
      cases r with
      | error e => exact ⟨rfl, rfl, h, rfl, rfl⟩
      | ok result => exact ⟨rfl, rfl, h, rfl, rfl⟩
  · rw [eq, eq']
    exact ⟨rfl, rfl, h, rfl, rfl⟩

theorem executeStore_same (h : SameContents m m') (s : RVModel xlen) (d : DecodedInstr xlen) :
    InStep .keep m m' (s.executeStore d m) (s.executeStore d m') ∨
      InStep .clear m m' (s.executeStore d m) (s.executeStore d m') := by
  unfold executeStore
  simp only
  split
  · exact .inl ⟨rfl, rfl, h, rfl, rfl⟩
  split
  · exact .inl ⟨rfl, rfl, h, rfl, rfl⟩
  rcases translateAddr_both h s (s.regs.get d.rs1 + d.imm) .store with ⟨pa, eq, eq'⟩ | ⟨eq, eq'⟩
  · rw [eq, eq']
    simp only
    cases Funct3Store.ofBits? d.funct3 with
    | none => exact .inl ⟨rfl, rfl, h, rfl, rfl⟩
    | some f =>
      obtain ⟨answer, contents, left, right⟩ := storeValue_same h f pa (s.regs.get d.rs2)
      simp only
      rcases stored : storeValue f pa (s.regs.get d.rs2) m with ⟨r, n⟩
      rcases stored' : storeValue f pa (s.regs.get d.rs2) m' with ⟨r', n'⟩
      rw [stored, stored'] at answer contents
      rw [stored] at left
      rw [stored'] at right
      obtain rfl : r = r' := answer
      cases r with
      | error e => exact .inl ⟨rfl, rfl, contents, left, right⟩
      | ok => exact .inr ⟨rfl, rfl, invalidate_same contents, rfl, rfl⟩
  · rw [eq, eq']
    exact .inl ⟨rfl, rfl, h, rfl, rfl⟩

theorem not_completesLR {s : RVModel xlen} {d : DecodedInstr xlen}
    (other : ∀ pa, amoAt s d m ≠ some (.lr, pa)) : ¬CompletesLR s d m := by
  rintro ⟨pa, lr, _⟩
  exact other pa lr

theorem executeLR_same (h : SameContents m m') {s : RVModel xlen} {d : DecodedInstr xlen}
    {pa : BitVec xlen} (lr : amoAt s d m = some (.lr, pa)) :
    ∃ use, Uses s d m use ∧ InStep use m m' (s.executeLR d pa m) (s.executeLR d pa m') := by
  unfold executeLR
  rw [memT_readWord, memT_readWord, h.readWord]
  cases read : m.readWord pa with
  | error e =>
    refine ⟨.keep, ?_, ⟨rfl, rfl, h, rfl, rfl⟩⟩
    rintro ⟨pa', lr', readable⟩
    rw [lr] at lr'
    obtain rfl : pa = pa' := congrArg Prod.snd (Option.some.inj lr')
    rw [read] at readable
    simp at readable
  | ok w =>
    have readable : (m.readWord pa).isOk := by
      rw [read]
      rfl
    exact ⟨.lr pa, ⟨lr, readable⟩, ⟨rfl, rfl, ⟨h.size, h.data, h.mmio, h.dev⟩, rfl, rfl⟩⟩

theorem executeSC_same (h : SameContents m m') (s : RVModel xlen) (d : DecodedInstr xlen)
    {pa : BitVec xlen} (agree : m.heldAddr = some pa ↔ m'.heldAddr = some pa)
    (rs2v : BitVec xlen) :
    InStep (.sc pa) m m' (s.executeSC d pa rs2v m) (s.executeSC d pa rs2v m') := by
  unfold executeSC
  rw [memT_storeConditional, memT_storeConditional]
  by_cases held : m.heldAddr = some pa
  · have held' := agree.mp held
    have cleared : none = (ReservationUse.sc pa).apply m.heldAddr := (if_pos held).symm
    have cleared' : none = (ReservationUse.sc pa).apply m'.heldAddr := (if_pos held').symm
    rw [storeConditional_held held, storeConditional_held held']
    obtain ⟨answer, contents, left, right⟩ :=
      writeWord_same (invalidate_same h) pa (rs2v.setWidth 32)
    rw [← answer]
    cases (m.invalidateReservation.writeWord pa (rs2v.setWidth 32)).1 with
    | error e => exact ⟨rfl, rfl, contents, left.trans cleared, right.trans cleared'⟩
    | ok => exact ⟨rfl, rfl, contents, left.trans cleared, right.trans cleared'⟩
  · have free' : m'.heldAddr ≠ some pa := fun held' => held (agree.mpr held')
    have kept : m.heldAddr = (ReservationUse.sc pa).apply m.heldAddr := (if_neg held).symm
    have kept' : m'.heldAddr = (ReservationUse.sc pa).apply m'.heldAddr := (if_neg free').symm
    rw [storeConditional_free held, storeConditional_free free']
    exact ⟨rfl, rfl, h, kept, kept'⟩

theorem executeAMOrmw_same (h : SameContents m m') (s : RVModel xlen) (d : DecodedInstr xlen)
    (f : Option Funct5AMO) (pa rs2v : BitVec xlen) :
    InStep .keep m m' (s.executeAMOrmw d f pa rs2v m) (s.executeAMOrmw d f pa rs2v m') ∨
      InStep .clear m m' (s.executeAMOrmw d f pa rs2v m) (s.executeAMOrmw d f pa rs2v m') := by
  unfold executeAMOrmw
  rw [memT_readWord, memT_readWord, h.readWord]
  cases m.readWord pa with
  | error e => exact .inl ⟨rfl, rfl, h, rfl, rfl⟩
  | ok w =>
    simp only
    cases f.bind fun f => amoResult f (w.setWidth xlen) rs2v with
    | none => exact .inl ⟨rfl, rfl, h, rfl, rfl⟩
    | some result =>
      obtain ⟨answer, contents, left, right⟩ :=
        writeWord_same (invalidate_same h) pa (result.setWidth 32)
      change (MemT.writeWord pa (result.setWidth 32) (MemT.invalidateReservation xlen m)).1 =
        (MemT.writeWord pa (result.setWidth 32) (MemT.invalidateReservation xlen m')).1 at answer
      simp only
      rcases wrote : MemT.writeWord pa (result.setWidth 32) (MemT.invalidateReservation xlen m)
        with ⟨r, n⟩
      rcases wrote' : MemT.writeWord pa (result.setWidth 32) (MemT.invalidateReservation xlen m')
        with ⟨r', n'⟩
      rw [wrote, wrote'] at answer
      obtain rfl : r = r' := answer
      obtain rfl : n = _ := (congrArg Prod.snd wrote).symm
      obtain rfl : n' = _ := (congrArg Prod.snd wrote').symm
      cases r with
      | error e => exact .inr ⟨rfl, rfl, contents, left, right⟩
      | ok => exact .inr ⟨rfl, rfl, contents, left, right⟩

theorem executeAMO_same (h : SameContents m m') {s : RVModel xlen} {d : DecodedInstr xlen}
    (opcode : Opcode.ofBits? d.opcode = some .amo)
    (agree : ∀ pa, amoAt s d m = some (.sc, pa) →
      (m.heldAddr = some pa ↔ m'.heldAddr = some pa)) :
    ∃ use, Uses s d m use ∧ InStep use m m' (s.executeAMO d m) (s.executeAMO d m') := by
  have nothing (stopped : amoAt s d m = none) : Uses s d m .keep := by
    apply not_completesLR
    intro pa lr
    rw [stopped] at lr
    simp at lr
  unfold executeAMO
  by_cases extension : !s.config.hasExtension Config.EXT_A
  · rw [if_pos extension, if_pos extension]
    refine ⟨.keep, nothing ?_, ⟨rfl, rfl, h, rfl, rfl⟩⟩
    unfold amoAt dataAccess
    simp only [opcode, if_pos extension, if_true]
  rw [if_neg extension, if_neg extension]
  by_cases misaligned : s.regs.get d.rs1 &&& 0b11#(xlen) ≠ 0#(xlen)
  · simp only
    rw [if_pos misaligned, if_pos misaligned]
    refine ⟨.keep, nothing ?_, ⟨rfl, rfl, h, rfl, rfl⟩⟩
    unfold amoAt dataAccess
    simp only [opcode, if_neg extension, if_pos misaligned, if_true]
  simp only
  rw [if_neg misaligned, if_neg misaligned]
  have reached : amoAt s d m =
      match (s.translateAddr (s.regs.get d.rs1) .store m).1, Funct5AMO.ofBits? (funct5 d) with
      | some pa, some f => some (f, pa)
      | _, _ => none := by
    unfold amoAt dataAccess
    simp only [opcode, if_neg extension, if_neg misaligned, if_true]
  rcases translateAddr_both h s (s.regs.get d.rs1) .store with ⟨pa, eq, eq'⟩ | ⟨eq, eq'⟩
  · rw [eq] at reached
    rw [eq, eq']
    simp only at reached ⊢
    have rmw (f : Option Funct5AMO) (other : ∀ pa, amoAt s d m ≠ some (.lr, pa)) :
        ∃ use, Uses s d m use ∧ InStep use m m'
          (s.executeAMOrmw d f pa (s.regs.get d.rs2) m)
          (s.executeAMOrmw d f pa (s.regs.get d.rs2) m') := by
      rcases executeAMOrmw_same h s d f pa (s.regs.get d.rs2) with kept | cleared
      · exact ⟨.keep, not_completesLR other, kept⟩
      · exact ⟨.clear, not_completesLR other, cleared⟩
    cases which : Funct5AMO.ofBits? (funct5 d) with
    | none =>
      rw [which] at reached
      exact rmw none (by simp [reached])
    | some f =>
      rw [which] at reached
      cases f with
      | lr => exact executeLR_same h reached
      | sc => exact ⟨.sc pa, reached, executeSC_same h s d (agree pa reached) _⟩
      | _ => exact rmw _ (by simp [reached])
  · rw [eq] at reached
    rw [eq, eq']
    exact ⟨.keep, nothing reached, ⟨rfl, rfl, h, rfl, rfl⟩⟩

theorem not_completesLR_of_opcode {s : RVModel xlen} {d : DecodedInstr xlen}
    (other : Opcode.ofBits? d.opcode ≠ some .amo) : ¬CompletesLR s d m := by
  apply not_completesLR
  intro pa
  rw [amoAt, if_neg other]
  simp

theorem executeInstr_same (h : SameContents m m') (s : RVModel xlen) (d : DecodedInstr xlen)
    (agree : ∀ pa, amoAt s d m = some (.sc, pa) →
      (m.heldAddr = some pa ↔ m'.heldAddr = some pa)) :
    ∃ use, Uses s d m use ∧ InStep use m m' (s.executeInstr d m) (s.executeInstr d m') := by
  unfold executeInstr
  cases opcode : Opcode.ofBits? d.opcode with
  | none =>
    have quiet : ¬CompletesLR s d m := not_completesLR_of_opcode (by simp [opcode])
    exact ⟨.keep, quiet, ⟨rfl, rfl, h, rfl, rfl⟩⟩
  | some o =>
    by_cases amo : o = .amo
    · subst amo
      obtain ⟨use, uses, outcome, cpu, contents, left, right⟩ := executeAMO_same h opcode agree
      exact ⟨use, uses, ⟨congrArg (Except.mapError Exn.outOfRange) outcome, cpu, contents, left,
        right⟩⟩
    have quiet : ¬CompletesLR s d m := not_completesLR_of_opcode (by simpa [opcode] using amo)
    have inMemory {use : ReservationUse xlen}
        {x y : Bool × RVModel xlen × MemoryModel xlen Dev} (same : InStep use m m' x y) :
        InStep use m m' ((.ok x.1, x.2) : Except Exn Bool × _) (.ok y.1, y.2) :=
      ⟨congrArg Except.ok same.outcome, same.cpu, same.contents, same.left, same.right⟩
    cases o with
    | amo => exact absurd rfl amo
    | load => exact ⟨.keep, quiet, inMemory (executeLoad_same h s d)⟩
    | store =>
      rcases executeStore_same h s d with kept | cleared
      · exact ⟨.keep, quiet, inMemory kept⟩
      · exact ⟨.clear, quiet, inMemory cleared⟩
    | _ => exact ⟨.keep, quiet, ⟨rfl, rfl, h, rfl, rfl⟩⟩

theorem fetched_same (h : SameContents m m') (s : RVModel xlen) :
    s.fetched m' = s.fetched m := by
  unfold fetched
  split
  · rfl
  rcases translateAddr_both h s s.pc .fetch with ⟨pa, eq, eq'⟩ | ⟨eq, eq'⟩
  · rw [eq, eq']
    simp only
    rw [memT_readWord, memT_readWord, h.readWord]
    cases m.readWord pa with
    | error e => rfl
    | ok raw => rfl
  · rw [eq, eq']

theorem step_same_of_not_fetched (h : SameContents m m') {s : RVModel xlen}
    (word : s.fetched m = none) : InStep .keep m m' (s.step m) (s.step m') := by
  unfold fetched at word
  unfold step
  by_cases halted : s.halted
  · rw [if_pos halted, if_pos halted]
    exact ⟨rfl, rfl, h, rfl, rfl⟩
  rw [if_neg halted] at word
  rw [if_neg halted, if_neg halted]
  rcases translateAddr_both h s s.pc .fetch with ⟨pa, eq, eq'⟩ | ⟨eq, eq'⟩
  · rw [eq] at word
    rw [eq, eq']
    simp only at word ⊢
    rw [memT_readWord] at word
    rw [memT_readWord, memT_readWord, h.readWord]
    cases read : m.readWord pa with
    | error e => exact ⟨rfl, rfl, h, rfl, rfl⟩
    | ok raw =>
      rw [read] at word
      simp only at word ⊢
      by_cases zero : raw = 0#32
      · rw [if_pos zero, if_pos zero]
        exact ⟨rfl, rfl, h, rfl, rfl⟩
      · rw [if_neg zero] at word
        simp at word
  · rw [eq, eq']
    exact ⟨rfl, rfl, h, rfl, rfl⟩

theorem amoAt_of_arch {s t : RVModel xlen} (same : arch t = arch s) (d : DecodedInstr xlen)
    (m : MemoryModel xlen Dev) : amoAt t d m = amoAt s d m := by
  unfold amoAt
  simp only [dataAccess_of_arch same, translateAddr_of_arch same]

def ExecutesLR (s : RVModel xlen) (m : MemoryModel xlen Dev) : Prop :=
  ∃ raw, s.fetched m = some raw ∧ CompletesLR s (Decoder.decode xlen raw) m

def ExecutesSC (s : RVModel xlen) (m : MemoryModel xlen Dev) (pa : BitVec xlen) : Prop :=
  ∃ raw, s.fetched m = some raw ∧ amoAt s (Decoder.decode xlen raw) m = some (.sc, pa)

def StepUses (s : RVModel xlen) (m : MemoryModel xlen Dev) : ReservationUse xlen → Prop
  | .keep | .clear => ¬ExecutesLR s m
  | .lr _ => ExecutesLR s m
  | .sc pa => ExecutesSC s m pa

theorem executeWord_inStep {use : ReservationUse xlen} {s : RVModel xlen} {raw : WordT}
    (same : InStep use m m'
      ((s.callStepHook (Disasm.disassemble (Decoder.decode xlen raw))).executeInstr
        (Decoder.decode xlen raw) m)
      ((s.callStepHook (Disasm.disassemble (Decoder.decode xlen raw))).executeInstr
        (Decoder.decode xlen raw) m')) :
    InStep use m m' (s.executeWord raw m) (s.executeWord raw m') := by
  unfold executeWord
  simp only
  generalize s.callStepHook (Disasm.disassemble (Decoder.decode xlen raw)) = t at same ⊢
  generalize t.executeInstr (Decoder.decode xlen raw) m = x at same ⊢
  generalize t.executeInstr (Decoder.decode xlen raw) m' = y at same ⊢
  obtain ⟨r, u, n⟩ := x
  obtain ⟨r', u', n'⟩ := y
  obtain ⟨outcome, cpu, contents, left, right⟩ := same
  obtain rfl : r = r' := outcome
  obtain rfl : u = u' := cpu
  cases r with
  | error e => exact ⟨rfl, rfl, contents, left, right⟩
  | ok modified => exact ⟨rfl, rfl, contents, left, right⟩

/-- One step over both memories: equal in all but the reservations, which it uses alike, as
    long as an SC.W that it executes finds them alike. -/
theorem step_same (h : SameContents m m') (s : RVModel xlen)
    (agree : ∀ pa, ExecutesSC s m pa → (m.heldAddr = some pa ↔ m'.heldAddr = some pa)) :
    ∃ use, StepUses s m use ∧ InStep use m m' (s.step m) (s.step m') := by
  cases word : s.fetched m with
  | none =>
    refine ⟨.keep, ?_, step_same_of_not_fetched h word⟩
    rintro ⟨raw, word', _⟩
    rw [word] at word'
    simp at word'
  | some raw =>
    have word' : s.fetched m' = some raw := (fetched_same h s).trans word
    have hook := arch_callStepHook s (Disasm.disassemble (Decoder.decode xlen raw))
    have amo := amoAt_of_arch hook (Decoder.decode xlen raw) m
    have lr : CompletesLR (s.callStepHook (Disasm.disassemble (Decoder.decode xlen raw)))
        (Decoder.decode xlen raw) m ↔ ExecutesLR s m := by
      unfold ExecutesLR CompletesLR
      rw [word, amo]
      simp
    obtain ⟨use, uses, same⟩ := executeInstr_same h
      (s.callStepHook (Disasm.disassemble (Decoder.decode xlen raw))) (Decoder.decode xlen raw)
      fun pa sc => agree pa ⟨raw, word, amo.symm.trans sc⟩
    rw [step_eq_executeWord word, step_eq_executeWord word']
    refine ⟨use, ?_, executeWord_inStep same⟩
    cases use with
    | keep => exact fun executes => uses (lr.mpr executes)
    | clear => exact fun executes => uses (lr.mpr executes)
    | lr pa => exact lr.mp ⟨pa, uses⟩
    | sc pa => exact ⟨raw, word, amo.symm.trans uses⟩

theorem executeInstr_of_sc {s : RVModel xlen} {d : DecodedInstr xlen} {pa : BitVec xlen}
    (sc : amoAt s d m = some (.sc, pa)) : s.executeInstr d m =
      (s.executeSC d pa (s.regs.get d.rs2) m).map (Except.mapError Exn.outOfRange) id := by
  unfold amoAt at sc
  by_cases opcode : Opcode.ofBits? d.opcode = some .amo
  · rw [if_pos opcode] at sc
    unfold dataAccess at sc
    unfold executeInstr executeAMO
    rw [opcode] at sc ⊢
    simp only at sc ⊢
    by_cases extension : !s.config.hasExtension Config.EXT_A
    · rw [if_pos extension] at sc
      simp at sc
    rw [if_neg extension] at sc ⊢
    by_cases misaligned : s.regs.get d.rs1 &&& 0b11#(xlen) ≠ 0#(xlen)
    · rw [if_pos misaligned] at sc
      simp at sc
    rw [if_neg misaligned] at sc ⊢
    simp only at sc
    rcases translateAddr_cases s (s.regs.get d.rs1) .store m with ⟨pa', eq⟩ | eq
    · rw [eq] at sc ⊢
      cases which : Funct5AMO.ofBits? (funct5 d) with
      | none => simp [which] at sc
      | some f =>
        simp only [which, Option.some.injEq, Prod.mk.injEq] at sc
        obtain ⟨rfl, rfl⟩ := sc
        rfl
    · simp [eq] at sc
  · rw [if_neg opcode] at sc
    simp at sc

def scRetired (s : RVModel xlen) (raw : WordT) (result : BitVec xlen) : RVModel xlen :=
  let d := Decoder.decode xlen raw
  ((s.callStepHook (Disasm.disassemble d)).setReg d.rd result).advancePC.countInstr

def scData (s : RVModel xlen) (raw : WordT) : WordT :=
  (s.regs.get (Decoder.decode xlen raw).rs2).setWidth 32

theorem step_sc_free {s : RVModel xlen} {raw : WordT} {pa : BitVec xlen}
    (word : s.fetched m = some raw)
    (sc : amoAt s (Decoder.decode xlen raw) m = some (.sc, pa)) (free : m.heldAddr ≠ some pa) :
    s.step m = (.ok (), s.scRetired raw 1#(xlen), m) := by
  have hook := arch_callStepHook s (Disasm.disassemble (Decoder.decode xlen raw))
  have sc' := (amoAt_of_arch hook _ m).trans sc
  rw [step_eq_executeWord word, executeWord]
  rw [executeInstr_of_sc sc', executeSC, memT_storeConditional, storeConditional_free free]
  rfl

theorem step_sc_held {s : RVModel xlen} {raw : WordT} {pa : BitVec xlen}
    (word : s.fetched m = some raw)
    (sc : amoAt s (Decoder.decode xlen raw) m = some (.sc, pa)) (held : m.heldAddr = some pa) :
    (s.step m).2.2 = (m.invalidateReservation.writeWord pa (s.scData raw)).2 ∧
    ((s.step m).1 = .ok () ↔
      (m.invalidateReservation.writeWord pa (s.scData raw)).1 = .ok ()) ∧
    ((s.step m).1 = .ok () → (s.step m).2.1 = s.scRetired raw 0#(xlen)) := by
  have hook := arch_callStepHook s (Disasm.disassemble (Decoder.decode xlen raw))
  have sc' := (amoAt_of_arch hook _ m).trans sc
  have data : (s.callStepHook (Disasm.disassemble (Decoder.decode xlen raw))).regs = s.regs :=
    regs_of_arch hook
  rw [step_eq_executeWord word, executeWord]
  rw [executeInstr_of_sc sc', executeSC, memT_storeConditional, storeConditional_held held, data]
  unfold scData
  rcases wrote : m.invalidateReservation.writeWord pa
    ((s.regs.get (Decoder.decode xlen raw).rs2).setWidth 32) with ⟨_ | _, written⟩
  · simp [Except.map, Except.mapError]
  · exact ⟨rfl, iff_of_true rfl rfl, fun _ => rfl⟩

end RVModel

end XorOS
