import XorOS.Simulator.MemorySimulation
import XorOS.Simulator.RamWords
import XorOS.Simulator.Translation

/- The A extension on MemoryModel<XLEN>: a word exchanged with a register, against what the
   instructions are to do with 32-bit operands. -/
namespace XorOS
open ISA Bits

namespace MemoryModel
variable {xlen : Nat} {Dev : Type}

def ramWord (m : MemoryModel xlen Dev) (pa : BitVec xlen) : WordT :=
  leWord fun i => m.byteAt (pa + BitVec.ofNat xlen i)

section Word
variable {m : MemoryModel xlen Dev} {pa : BitVec xlen}

theorem checkBounds_inside {width : Nat} (inside : pa.toNat + width ≤ m.size) :
    m.checkBounds pa width = .ok () := by
  have small := Nat.mod_le (pa.toNat + width) (2 ^ 64)
  unfold checkBounds
  rw [if_neg (by omega)]

theorem readWord_ramWord (ram : m.findMmio pa = none) (inside : pa.toNat + 4 ≤ m.size) :
    m.readWord pa = .ok (m.ramWord pa) := by
  unfold readWord
  rw [ram, checkBounds_inside inside]
  simp only [ramWord, leWord, BitVec.add_zero]
  rfl

theorem writeWord_bytes (wide : 2 ≤ xlen) (aligned : LowClear 2 pa) (ram : m.findMmio pa = none)
    (inside : pa.toNat + 4 ≤ m.size) (v : WordT) :
    ∃ m', m.writeWord pa v = (.ok (), m') ∧ m'.readWord pa = .ok v ∧
      ∀ i, i < pa.toNat ∨ pa.toNat + 4 ≤ i → m'.data i = m.data i := by
  have byte (i : Nat) (below : i < 4) : (pa + BitVec.ofNat xlen i).toNat = pa.toNat + i :=
    toNat_add_of_clear wide aligned below
  have first := byte 1 (by omega)
  have second := byte 2 (by omega)
  have third := byte 3 (by omega)
  unfold writeWord
  rw [ram, checkBounds_inside inside]
  refine ⟨_, rfl, ?_, ?_⟩
  · rw [readWord_ramWord (by exact ram) (by exact inside)]
    congr 1
    conv => rhs; rw [← leWord_bytes v]
    unfold ramWord
    apply leWord_congr
    intro i below
    have cases4 : i = 0 ∨ i = 1 ∨ i = 2 ∨ i = 3 := by omega
    simp only [byteAt, setByte, byte i below, first, second, third]
    rcases cases4 with rfl | rfl | rfl | rfl <;> simp
  · intro i outside
    simp only [setByte, first, second, third]
    rw [if_neg (by omega), if_neg (by omega), if_neg (by omega), if_neg (by omega)]

end Word

end MemoryModel

namespace RVModel
open MemoryModel
variable {xlen : Nat} {Dev : Type}

def amoWord (f : Funct5AMO) (old operand : WordT) : WordT :=
  match f with
  | .amoswap => operand
  | .amoadd => old + operand
  | .amoxor => old ^^^ operand
  | .amoand => old &&& operand
  | .amoor => old ||| operand
  | .amomin => if old.toInt < operand.toInt then old else operand
  | .amomax => if operand.toInt < old.toInt then old else operand
  | .amominu => if old.toNat < operand.toNat then old else operand
  | .amomaxu => if operand.toNat < old.toNat then old else operand
  | .lr => old
  | .sc => operand

def amoReturned (f : Funct5AMO) (old : WordT) (reserved : Prop) [Decidable reserved] :
    BitVec xlen :=
  match f with
  | .sc => if reserved then 0#(xlen) else 1#(xlen)
  | _ => old.signExtend xlen

def amoStored (f : Funct5AMO) (old operand : WordT) (reserved : Prop) [Decidable reserved] :
    WordT :=
  match f with
  | .sc => if reserved then operand else old
  | f => amoWord f old operand

abbrev Reserves (m : MemoryModel xlen Dev) (pa : BitVec xlen) : Prop :=
  m.lrValid = true ∧ m.lrAddr = pa

/-- The instruction returned, rd has received the one word and memory the other, and nothing else
    has changed. -/
structure Exchanged (s : RVModel xlen) (rd : BitVec 5) (m : MemoryModel xlen Dev)
    (pa returned : BitVec xlen) (stored : WordT)
    (r : Except OutOfRange Bool × RVModel xlen × MemoryModel xlen Dev) : Prop where
  completes : r.1 = .ok false
  cpu : r.2.1 = s.setReg rd returned
  word : r.2.2.readWord pa = .ok stored
  others : ∀ i, i < pa.toNat ∨ pa.toNat + 4 ≤ i → r.2.2.data i = m.data i

/-- executeAMO widens the old word with zeros. -/
def ReturnExact (xlen : Nat) (f : Funct5AMO) (rd : BitVec 5) (old : WordT) : Prop :=
  f = .sc ∨ rd = 0#5 ∨ xlen = 32 ∨ old.msb = false

/-- executeAMO compares the widened word with the whole of rs2. -/
def StoreExact (f : Funct5AMO) (old : WordT) (rs2v : BitVec xlen) : Prop :=
  match f with
  | .amomin | .amomax =>
      ((old.setWidth xlen).toInt < rs2v.toInt ↔ old.toInt < (rs2v.setWidth 32).toInt) ∨
        old = rs2v.setWidth 32
  | .amominu | .amomaxu =>
      (old.toNat < rs2v.toNat ↔ old.toNat < (rs2v.setWidth 32).toNat) ∨ old = rs2v.setWidth 32
  | _ => True

def amoLoaded (f : Funct5AMO) (old : WordT) (reserved : Prop) [Decidable reserved] :
    BitVec xlen :=
  match f with
  | .sc => if reserved then 0#(xlen) else 1#(xlen)
  | _ => old.setWidth xlen

def amoLeft (f : Funct5AMO) (old : WordT) (rs2v : BitVec xlen) (reserved : Prop)
    [Decidable reserved] : WordT :=
  match f with
  | .lr => old
  | .sc => if reserved then rs2v.setWidth 32 else old
  | f => ((amoResult f (old.setWidth xlen) rs2v).getD 0#(xlen)).setWidth 32

theorem Exchanged.iff {s : RVModel xlen} {rd : BitVec 5} {m : MemoryModel xlen Dev}
    {pa returned returned' : BitVec xlen} {stored stored' : WordT}
    {r : Except OutOfRange Bool × RVModel xlen × MemoryModel xlen Dev}
    (done : Exchanged s rd m pa returned stored r) :
    Exchanged s rd m pa returned' stored' r ↔
      s.setReg rd returned = s.setReg rd returned' ∧ stored = stored' := by
  constructor
  · intro other
    constructor
    · rw [← done.cpu, ← other.cpu]
    · have same := done.word.symm.trans other.word
      exact Except.ok.inj same
  · rintro ⟨regs, rfl⟩
    exact ⟨done.completes, done.cpu.trans regs, done.word, done.others⟩

section Execute
variable {s : RVModel xlen} {d : DecodedInstr xlen} {m : MemoryModel xlen Dev} {pa : BitVec xlen}
  {f : Funct5AMO}

theorem executeLR_exchanged (ram : m.findMmio pa = none) (inside : pa.toNat + 4 ≤ m.size) :
    Exchanged s d.rd m pa ((m.ramWord pa).setWidth xlen) (m.ramWord pa) (s.executeLR d pa m) := by
  have read := readWord_ramWord ram inside
  unfold executeLR
  rw [memT_readWord, read]
  exact ⟨rfl, rfl, read, fun _ _ => rfl⟩

theorem executeSC_exchanged (wide : 2 ≤ xlen) (aligned : LowClear 2 pa)
    (ram : m.findMmio pa = none) (inside : pa.toNat + 4 ≤ m.size) (rs2v : BitVec xlen) :
    Exchanged s d.rd m pa (if Reserves m pa then 0#(xlen) else 1#(xlen))
      (if Reserves m pa then rs2v.setWidth 32 else m.ramWord pa) (s.executeSC d pa rs2v m) := by
  unfold executeSC
  rw [memT_storeConditional]
  unfold storeConditional
  by_cases reserved : Reserves m pa
  · obtain ⟨m', wrote, read, others⟩ :=
      writeWord_bytes (m := { m with lrValid := false }) wide aligned ram inside (rs2v.setWidth 32)
    have found : ¬(!m.lrValid ∨ m.lrAddr ≠ pa) := by simp [reserved.1, reserved.2]
    rw [if_neg found, wrote, if_pos reserved, if_pos reserved]
    exact ⟨rfl, rfl, read, others⟩
  · have lost : !m.lrValid ∨ m.lrAddr ≠ pa := by
      by_cases valid : m.lrValid = true
      · exact Or.inr fun here => reserved ⟨valid, here⟩
      · simp [valid]
    rw [if_pos lost, if_neg reserved, if_neg reserved]
    exact ⟨rfl, rfl, readWord_ramWord ram inside, fun _ _ => rfl⟩

theorem executeAMOrmw_exchanged (wide : 2 ≤ xlen) (aligned : LowClear 2 pa)
    (ram : m.findMmio pa = none) (inside : pa.toNat + 4 ≤ m.size) {rs2v result : BitVec xlen}
    (operation : amoResult f ((m.ramWord pa).setWidth xlen) rs2v = some result) :
    Exchanged s d.rd m pa ((m.ramWord pa).setWidth xlen) (result.setWidth 32)
      (s.executeAMOrmw d (some f) pa rs2v m) := by
  obtain ⟨m', wrote, read, others⟩ :=
    writeWord_bytes (m := m.invalidateReservation) wide aligned ram inside (result.setWidth 32)
  have done : MemT.writeWord pa (result.setWidth 32) (MemT.invalidateReservation xlen m) =
      (.ok (), m') := wrote
  unfold executeAMOrmw
  rw [memT_readWord, readWord_ramWord ram inside]
  simp only [Option.bind_some, operation, done]
  exact ⟨rfl, rfl, read, others⟩

theorem amoResult_some (exchange : f ≠ .lr) (store : f ≠ .sc) (loaded rs2v : BitVec xlen) :
    amoResult f loaded rs2v = some ((amoResult f loaded rs2v).getD 0#(xlen)) := by
  cases f with
  | lr => exact absurd rfl exchange
  | sc => exact absurd rfl store
  | _ => rfl

theorem executeAMO_exchanged (wide : 2 ≤ xlen)
    (extension : s.config.hasExtension Config.EXT_A = true)
    (code : Funct5AMO.ofBits? (funct5 d) = some f)
    (aligned : s.regs.get d.rs1 &&& 0b11#(xlen) = 0#(xlen))
    (translated : (s.translateAddr (s.regs.get d.rs1) .store m).1 = some pa)
    (ram : m.findMmio pa = none) (inside : pa.toNat + 4 ≤ m.size) :
    Exchanged s d.rd m pa (amoLoaded f (m.ramWord pa) (Reserves m pa))
      (amoLeft f (m.ramWord pa) (s.regs.get d.rs2) (Reserves m pa)) (s.executeAMO d m) := by
  have clear : LowClear 2 (s.regs.get d.rs1) := (and_mask_eq_zero_iff wide _).mp aligned
  rcases translateAddr_cases s (s.regs.get d.rs1) .store m with ⟨found, eq⟩ | eq
  · rw [eq] at translated
    have same : found = pa := Option.some.inj translated
    subst same
    have landed : LowClear 2 found := translateAddr_clear (by omega) clear eq
    unfold executeAMO
    simp only [extension, Bool.not_true, Bool.false_eq_true, if_false, ne_eq, aligned,
      not_true_eq_false, eq, code]
    cases f with
    | lr => exact executeLR_exchanged ram inside
    | sc => exact executeSC_exchanged wide landed ram inside _
    | _ =>
      refine executeAMOrmw_exchanged wide landed ram inside ?_
      exact amoResult_some (by decide) (by decide) _ _
  · rw [eq] at translated
    cases translated

end Execute

section Widths
variable {f : Funct5AMO} {rd : BitVec 5} {old : WordT}

theorem setWidth_eq_signExtend_iff (wide : 32 ≤ xlen) (w : WordT) :
    w.setWidth xlen = w.signExtend xlen ↔ xlen = 32 ∨ w.msb = false := by
  constructor
  · intro same
    by_cases negative : w.msb = false
    · exact Or.inr negative
    · left
      have sign : w.msb = true := by simpa using negative
      have top := congrArg (fun x => x.getLsbD (xlen - 1)) same
      simp only [BitVec.getLsbD_setWidth, BitVec.getLsbD_signExtend] at top
      by_contra other
      have beyond : ¬xlen - 1 < 32 := by omega
      have inside : xlen - 1 < xlen := by omega
      rw [if_neg beyond, BitVec.getLsbD_of_ge w _ (by omega), sign] at top
      simp [inside] at top
  · rintro (rfl | positive)
    · rw [BitVec.setWidth_eq, BitVec.signExtend_eq]
    · exact (BitVec.signExtend_eq_setWidth_of_msb_false positive).symm

theorem setReg_eq_iff {s : RVModel xlen} {v w : BitVec xlen} :
    s.setReg rd v = s.setReg rd w ↔ rd = 0#5 ∨ v = w := by
  constructor
  · intro same
    by_cases zero : rd = 0#5
    · exact Or.inl zero
    · right
      have value := congrArg (fun t => t.regs.get rd) same
      simpa [setReg, zero] using value
  · rintro (rfl | rfl)
    · rfl
    · rfl

theorem returned_iff (wide : 32 ≤ xlen) (s : RVModel xlen) (reserved : Prop)
    [Decidable reserved] :
    s.setReg rd (amoLoaded f old reserved) = s.setReg rd (amoReturned f old reserved) ↔
      ReturnExact xlen f rd old := by
  rw [setReg_eq_iff]
  unfold ReturnExact
  cases f with
  | sc => simp [amoLoaded, amoReturned]
  | _ =>
    simp only [amoLoaded, amoReturned, setWidth_eq_signExtend_iff wide, reduceCtorEq, false_or]

theorem pick_iff {α : Type} {p q : Prop} [Decidable p] [Decidable q] {a b : α} :
    (if p then a else b) = (if q then a else b) ↔ (p ↔ q) ∨ a = b := by
  by_cases first : p
  · by_cases second : q
    · simp [first, second]
    · simp [first, second]
  · by_cases second : q
    · simp [first, second, eq_comm]
    · simp [first, second]

theorem pick_max {α β : Type} [LinearOrder β] {key : α → β} (injective : Function.Injective key)
    (a b : α) : (if key b < key a then a else b) = if key a < key b then b else a := by
  rcases lt_trichotomy (key a) (key b) with less | same | greater
  · rw [if_pos less, if_neg (not_lt_of_gt less)]
  · rw [injective same, ite_self]
  · rw [if_pos greater, if_neg (not_lt_of_gt greater)]

theorem low_word (wide : 32 ≤ xlen) (w : WordT) : (w.setWidth xlen).setWidth 32 = w := by
  rw [BitVec.setWidth_setWidth_of_le w wide, BitVec.setWidth_eq]

theorem stored_iff (wide : 32 ≤ xlen) (rs2v : BitVec xlen) (reserved : Prop)
    [Decidable reserved] :
    amoLeft f old rs2v reserved = amoStored f old (rs2v.setWidth 32) reserved ↔
      StoreExact f old rs2v := by
  have widened : (old.setWidth xlen).toNat = old.toNat := BitVec.toNat_setWidth_of_le wide
  cases f with
  | lr => simp [amoLeft, amoStored, amoWord, StoreExact]
  | sc => simp [amoLeft, amoStored, StoreExact]
  | amoswap => simp [amoLeft, amoStored, amoWord, amoResult, StoreExact]
  | amoadd =>
    simp only [amoLeft, amoStored, amoWord, amoResult, StoreExact, Option.getD_some,
      BitVec.setWidth_add _ _ wide, low_word wide]
  | amoxor =>
    simp only [amoLeft, amoStored, amoWord, amoResult, StoreExact, Option.getD_some,
      BitVec.setWidth_xor, low_word wide]
  | amoand =>
    simp only [amoLeft, amoStored, amoWord, amoResult, StoreExact, Option.getD_some,
      BitVec.setWidth_and, low_word wide]
  | amoor =>
    simp only [amoLeft, amoStored, amoWord, amoResult, StoreExact, Option.getD_some,
      BitVec.setWidth_or, low_word wide]
  | amomin =>
    simp only [amoLeft, amoStored, amoWord, amoResult, StoreExact, Option.getD_some,
      BitVec.slt_iff_toInt_lt, apply_ite (BitVec.setWidth 32), low_word wide]
    exact pick_iff
  | amomax =>
    have ordered := pick_max (fun _ _ => BitVec.eq_of_toInt_eq) old (rs2v.setWidth 32)
    have whole := pick_max (fun _ _ => BitVec.eq_of_toInt_eq) (old.setWidth xlen) rs2v
    simp only [amoLeft, amoStored, amoWord, amoResult, StoreExact, Option.getD_some,
      BitVec.slt_iff_toInt_lt, ordered, whole, apply_ite (BitVec.setWidth 32), low_word wide]
    rw [pick_iff, eq_comm (a := old)]
  | amominu =>
    simp only [amoLeft, amoStored, amoWord, amoResult, StoreExact, Option.getD_some,
      BitVec.lt_def, widened, apply_ite (BitVec.setWidth 32), low_word wide]
    exact pick_iff
  | amomaxu =>
    have ordered := pick_max (fun _ _ => BitVec.eq_of_toNat_eq) old (rs2v.setWidth 32)
    have whole := pick_max (fun _ _ => BitVec.eq_of_toNat_eq) (old.setWidth xlen) rs2v
    rw [widened] at whole
    simp only [amoLeft, amoStored, amoWord, amoResult, StoreExact, Option.getD_some,
      BitVec.lt_def, widened, ordered, whole, apply_ite (BitVec.setWidth 32), low_word wide]
    rw [pick_iff, eq_comm (a := old)]

end Widths

/-- A 32-bit machine has nothing to widen. -/
theorem atomic_exact_32 (f : Funct5AMO) (rd : BitVec 5) (old : WordT) (rs2v : BitVec 32) :
    ReturnExact 32 f rd old ∧ StoreExact f old rs2v := by
  constructor
  · exact Or.inr (Or.inr (Or.inl rfl))
  · cases f with
    | amomin => simp [StoreExact]
    | amomax => simp [StoreExact]
    | amominu => simp [StoreExact]
    | amomaxu => simp [StoreExact]
    | _ => trivial

/-- The read-modify-write law of LR.W, SC.W and the AMOs holds exactly where widening the old word
    with zeros loses no sign and the wide comparison agrees with that of 32 bits. -/
theorem atomic_law_iff (wide : 32 ≤ xlen) {s : RVModel xlen} {d : DecodedInstr xlen}
    {m : MemoryModel xlen Dev} {pa : BitVec xlen} {f : Funct5AMO}
    (extension : s.config.hasExtension Config.EXT_A = true)
    (code : Funct5AMO.ofBits? (funct5 d) = some f)
    (aligned : s.regs.get d.rs1 &&& 0b11#(xlen) = 0#(xlen))
    (translated : (s.translateAddr (s.regs.get d.rs1) .store m).1 = some pa)
    (ram : m.findMmio pa = none) (inside : pa.toNat + 4 ≤ m.size) :
    Exchanged s d.rd m pa (amoReturned f (m.ramWord pa) (Reserves m pa))
        (amoStored f (m.ramWord pa) ((s.regs.get d.rs2).setWidth 32) (Reserves m pa))
        (s.executeAMO d m) ↔
      ReturnExact xlen f d.rd (m.ramWord pa) ∧
        StoreExact f (m.ramWord pa) (s.regs.get d.rs2) := by
  have done := executeAMO_exchanged (by omega) extension code aligned translated ram inside
  rw [done.iff, returned_iff wide, stored_iff wide]

def minCpu (xlen : Nat) : RVModel xlen :=
  { RVModel.new ⟨Config.EXT_A⟩ with regs := RegisterFile.new.set 2#5 7#(xlen) }

def minInstr (xlen : Nat) : DecodedInstr xlen := Decoder.decode xlen 0x8020A1AF#32

def minImage (xlen : Nat) (word : WordT) : MemoryModel xlen Unit := .ofWords 16 [word] ()

/-- A negative word on 32 bits, and a positive one on 64. -/
theorem atomic_law_iff_widths :
    Exchanged (minCpu 32) 3#5 (minImage 32 0xFFFFFFFF#32) 0#32 0xFFFFFFFF#32 0xFFFFFFFF#32
        ((minCpu 32).executeAMO (minInstr 32) (minImage 32 0xFFFFFFFF#32)) ∧
      Exchanged (minCpu 64) 3#5 (minImage 64 5#32) 0#64 5#64 5#32
        ((minCpu 64).executeAMO (minInstr 64) (minImage 64 5#32)) := by
  have here : ((minCpu 32).translateAddr 0#32 .store (minImage 32 0xFFFFFFFF#32)).1 =
      some 0#32 := by decide
  have there : ((minCpu 64).translateAddr 0#64 .store (minImage 64 5#32)).1 = some 0#64 := by
    decide
  have narrow := (atomic_law_iff (Nat.le_refl 32) (d := minInstr 32) (f := .amomin) rfl
    (by decide) (by decide) here rfl (by decide)).mpr (by unfold ReturnExact StoreExact; decide)
  have wide := (atomic_law_iff (show 32 ≤ 64 by decide) (d := minInstr 64) (f := .amomin) rfl
    (by decide) (by decide) there rfl (by decide)).mpr (by unfold ReturnExact StoreExact; decide)
  exact ⟨narrow, wide⟩

/-- On 64 bits the word -1 counts as 0xFFFFFFFF: rd gets that, and 7 is taken for the minimum. -/
theorem negative_word_widened :
    ((minCpu 64).executeAMO (minInstr 64) (minImage 64 0xFFFFFFFF#32)).2.1.regs.get 3#5 =
        0xFFFFFFFF#64 ∧
      ((minCpu 64).executeAMO (minInstr 64) (minImage 64 0xFFFFFFFF#32)).2.2.readWord 0#64 =
        .ok 7#32 ∧
      (amoReturned .amomin 0xFFFFFFFF#32 False : BitVec 64) = 0xFFFFFFFFFFFFFFFF#64 ∧
      amoStored .amomin 0xFFFFFFFF#32 7#32 False = 0xFFFFFFFF#32 ∧
      ¬Exchanged (minCpu 64) 3#5 (minImage 64 0xFFFFFFFF#32) 0#64 0xFFFFFFFFFFFFFFFF#64
        0xFFFFFFFF#32 ((minCpu 64).executeAMO (minInstr 64) (minImage 64 0xFFFFFFFF#32)) := by
  have stored :
      ((minCpu 64).executeAMO (minInstr 64) (minImage 64 0xFFFFFFFF#32)).2.2.readWord 0#64 =
        .ok 7#32 := by decide
  refine ⟨by decide, stored, by decide, by decide, ?_⟩
  intro law
  have same := stored.symm.trans law.word
  exact absurd (Except.ok.inj same) (by decide)

end RVModel

end XorOS
