import XorOS.Simulator.Semantics

/- One step() over a word that InstrBuilder has built is one step of the hart. -/
namespace XorOS.RVModel
open ISA IntHart MemoryModel Bits
variable {Dev : Type}

def hart (s : RVModel 32) (m : MemoryModel 32 Dev) : Hart (Storage Dev) where
  pc := s.pc.toNat
  x := fun r => (s.regs.get (BitVec.ofFin r)).toNat
  mem := m.storage

/-- What executeInstr leaves behind where the hart does o. The reservation goes with a store that
    is carried out. -/
def Agrees (s : RVModel 32) (m : MemoryModel 32 Dev) (store : Bool)
    (r : Except Exn Bool × RVModel 32 × MemoryModel 32 Dev) : Outcome (Storage Dev) → Prop
  | .done h => ∃ modified, r.1 = .ok modified ∧
      hart (if modified then r.2.1 else r.2.1.advancePC) r.2.2 = h ∧
      r.2.1 = { s with pc := r.2.1.pc, regs := r.2.1.regs } ∧ r.2.2.lrAddr = m.lrAddr ∧
      r.2.2.lrValid = (m.lrValid && !store)
  | .trap cause tval =>
      r = (.ok true, s.fireTrap (uword cause.code) (BitVec.ofInt 32 tval), m)

theorem toNat_ofInt (v : Int) : ((BitVec.ofInt 32 v).toNat : Int) = reduce v := by
  rw [BitVec.toNat_ofInt]
  unfold reduce
  omega

theorem toNat_add_toInt (x y : BitVec 32) :
    ((x + y).toNat : Int) = reduce (x.toNat + y.toInt) := by
  rw [BitVec.toNat_add, BitVec.toInt_eq_toNat_cond]
  unfold reduce
  split
  · omega
  · omega

theorem hart_advancePC (s : RVModel 32) (m : MemoryModel 32 Dev) :
    hart s.advancePC m = (hart s m).next := by
  unfold hart Hart.next advancePC
  simp only [Hart.mk.injEq, and_true]
  rw [BitVec.toNat_add, BitVec.toNat_ofNat]
  unfold reduce
  omega

theorem hart_setReg (s : RVModel 32) (m : MemoryModel 32 Dev) (rd : BitVec 5) (v : Int) :
    hart (s.setReg rd (BitVec.ofInt 32 v)) m = (hart s m).set rd.toFin v := by
  unfold hart Hart.set setReg
  simp only [Hart.mk.injEq, true_and, and_true]
  funext r
  rw [RegisterFile.get_set]
  have target : BitVec.ofFin r = rd ↔ r = rd.toFin := by
    constructor
    · rintro rfl
      rfl
    · rintro rfl
      rfl
  have zero : rd ≠ 0#5 ↔ rd.toFin ≠ 0 := by
    rw [not_iff_not]
    constructor
    · rintro rfl
      rfl
    · intro same
      exact BitVec.eq_of_toFin_eq same
  simp only [target, zero]
  split
  · exact toNat_ofInt v
  · rfl

theorem agrees_setReg (s : RVModel 32) (m : MemoryModel 32 Dev) (rd : BitVec 5) {v : BitVec 32}
    {z : Int} (value : v = BitVec.ofInt 32 z) :
    Agrees s m false (.ok false, s.setReg rd v, m) (.done ((hart s m).set rd.toFin z).next) := by
  subst value
  refine ⟨false, rfl, ?_, rfl, rfl, (Bool.and_true _).symm⟩
  rw [if_neg Bool.false_ne_true, hart_advancePC, hart_setReg]

theorem agrees_next (s : RVModel 32) (m : MemoryModel 32 Dev) :
    Agrees s m false (.ok false, s, m) (.done (hart s m).next) :=
  ⟨false, rfl, hart_advancePC s m, rfl, rfl, (Bool.and_true _).symm⟩

theorem ofInt_toNat (x : BitVec 32) : x = BitVec.ofInt 32 x.toNat := by
  rw [BitVec.ofInt_natCast, BitVec.ofNat_toNat, BitVec.setWidth_eq]

theorem agrees_trap (s : RVModel 32) (m : MemoryModel 32 Dev) (store : Bool) (cause : Cause)
    (tval : BitVec 32) :
    Agrees s m store (.ok true, s.fireTrap (uword cause.code) tval, m)
      (.trap cause tval.toNat) := by
  change (_, _, _) = (_, _, _)
  rw [← ofInt_toNat tval]

theorem misaligned_iff (x : BitVec 32) : x &&& 0b11#32 ≠ 0#32 ↔ (x.toNat : Int) % 4 ≠ 0 := by
  have low := (and_mask_eq_zero_iff (k := 2) (w := 32) (by omega) x).trans (lowClear_iff_mod 2 x)
  rw [show (0b11#32) = BitVec.ofNat 32 (2 ^ 2 - 1) from rfl, ne_eq, low]
  omega

theorem agrees_jump (s : RVModel 32) (m : MemoryModel 32 Dev) (rd : BitVec 5) (target : BitVec 32)
    {r : Bool × RVModel 32} (result : r =
      if target &&& 0b11#32 ≠ 0#32 then
        (true, s.fireTrap (uword CSR.EXC_INSN_MISALIGN) target)
      else (true, (s.setReg rd (s.pc + 4#32)).jump target)) :
    Agrees s m false (.ok r.1, r.2, m) ((hart s m).jump rd.toFin target.toNat) := by
  subst result
  unfold Hart.jump
  by_cases misaligned : target &&& 0b11#32 ≠ 0#32
  · rw [if_pos misaligned, if_pos ((misaligned_iff target).mp misaligned)]
    exact agrees_trap s m false .insnMisaligned target
  · rw [if_neg misaligned, if_neg (mt (misaligned_iff target).mpr misaligned)]
    refine ⟨true, rfl, ?_, rfl, rfl, (Bool.and_true _).symm⟩
    have link : s.pc + 4#32 = BitVec.ofInt 32 ((hart s m).pc + 4) := by
      apply BitVec.eq_of_toNat_eq
      rw [BitVec.toNat_add, BitVec.toNat_ofInt]
      unfold hart
      simp only [BitVec.toNat_ofNat]
      omega
    rw [if_pos rfl, link, ← hart_setReg]
    rfl

theorem odd_iff (x : BitVec 32) : x &&& 0b01#32 ≠ 0#32 ↔ (x.toNat : Int) % 2 ≠ 0 := by
  have low := (and_mask_eq_zero_iff (k := 1) (w := 32) (by omega) x).trans (lowClear_iff_mod 1 x)
  rw [show (0b01#32) = BitVec.ofNat 32 (2 ^ 1 - 1) from rfl, ne_eq, low]
  omega

theorem loadMisaligned_iff (f : Funct3Load) (addr : BitVec 32) :
    (f = .lw ∧ addr &&& 0b11#32 ≠ 0#32 ∨
      (f = .lh ∨ f = .lhu) ∧ addr &&& 0b01#32 ≠ 0#32) ↔
      (addr.toNat : Int) % Instr.loadWidth f ≠ 0 := by
  rw [misaligned_iff, odd_iff]
  cases f with
  | lb => simp [Instr.loadWidth]
  | lh => simp [Instr.loadWidth]
  | lw => simp [Instr.loadWidth]
  | lbu => simp [Instr.loadWidth]
  | lhu => simp [Instr.loadWidth]

theorem storeMisaligned_iff (f : Funct3Store) (addr : BitVec 32) :
    (f = .sw ∧ addr &&& 0b11#32 ≠ 0#32 ∨ f = .sh ∧ addr &&& 0b01#32 ≠ 0#32) ↔
      (addr.toNat : Int) % Instr.storeWidth f ≠ 0 := by
  rw [misaligned_iff, odd_iff]
  cases f with
  | sb => simp [Instr.storeWidth]
  | sh => simp [Instr.storeWidth]
  | sw => simp [Instr.storeWidth]

theorem signExtend_ofInt {w : WordT} {bits : Nat} (fit : bits ≤ 32) (small : w.toNat < 2 ^ bits) :
    signExtend 32 w bits = BitVec.ofInt 32 (signed bits w.toNat) := by
  rw [← toInt_signExtend fit small, BitVec.ofInt_toInt]

def Reads (value : Nat → Int) (stored : Option Nat) (r : Except OutOfRange (BitVec 32)) : Prop :=
  match stored with
  | none => ∃ e, r = .error e
  | some n => r = .ok (BitVec.ofInt 32 (value n))

theorem reads_map {w : Nat} {read : Except OutOfRange (BitVec w)} {stored : Option Nat}
    {g : BitVec w → BitVec 32} {value : Nat → Int}
    (same : read.toOption.map BitVec.toNat = stored)
    (shown : ∀ b, g b = BitVec.ofInt 32 (value b.toNat)) : Reads value stored (read.map g) := by
  subst same
  cases read with
  | error e => exact ⟨e, rfl⟩
  | ok b => exact congrArg Except.ok (shown b)

def loadNumber (f : Funct3Load) (n : Nat) : Int :=
  if Instr.loadSigns f then signed (8 * Instr.loadWidth f) n else n

theorem loadValue_read {f : Funct3Load} {addr : BitVec 32} (m : MemoryModel 32 Dev)
    (aligned : (addr.toNat : Int) % Instr.loadWidth f = 0) :
    (loadValue f addr m).2 = m ∧ Reads (loadNumber f)
      (m.storage.read addr.toNat (Instr.loadWidth f)) (loadValue f addr m).1 := by
  refine ⟨by cases f <;> rfl, ?_⟩
  have widen {k : Nat} (fit : k ≤ 32) (b : BitVec k) : (b.setWidth 32).toNat = b.toNat := by
    rw [BitVec.toNat_setWidth, Nat.mod_eq_of_lt (Nat.lt_of_lt_of_le b.isLt
      (Nat.pow_le_pow_right (by omega) fit))]
  have signs {k : Nat} (fit : k ≤ 32) (b : BitVec k) :
      signExtend 32 (b.setWidth 32) k = BitVec.ofInt 32 (signed k b.toNat) := by
    rw [signExtend_ofInt fit (by rw [widen fit]; exact b.isLt), widen fit]
  have zeros {k : Nat} (fit : k ≤ 32) (b : BitVec k) :
      b.setWidth 32 = BitVec.ofInt 32 b.toNat := by
    rw [← widen fit]
    exact ofInt_toNat _
  cases f with
  | lb =>
    have number : loadNumber .lb = fun n : Nat => signed 8 n := by
      funext n
      simp [loadNumber, Instr.loadSigns, Instr.loadWidth]
    rw [number]
    exact reads_map (readByte_storage m addr) fun b => signs (by omega) b
  | lh =>
    have even : addr.toNat % 2 = 0 := by exact_mod_cast aligned
    have number : loadNumber .lh = fun n : Nat => signed 16 n := by
      funext n
      simp [loadNumber, Instr.loadSigns, Instr.loadWidth]
    rw [number]
    exact reads_map (readHalf_storage m even) fun h => signs (by omega) h
  | lw =>
    have whole : addr.toNat % 4 = 0 := by exact_mod_cast aligned
    have number : loadNumber .lw = fun n : Nat => signed 32 n := by
      funext n
      simp [loadNumber, Instr.loadSigns, Instr.loadWidth]
    rw [number]
    refine reads_map (readWord_storage m whole) fun w => ?_
    rw [signed_toNat, BitVec.ofInt_toInt, BitVec.signExtend_eq]
  | lbu => exact reads_map (readByte_storage m addr) (zeros (by omega))
  | lhu =>
    have even : addr.toNat % 2 = 0 := by exact_mod_cast aligned
    exact reads_map (readHalf_storage m even) (zeros (by omega))

theorem executeLoad_agrees {s : RVModel 32} (bare : ¬s.Paging) {d : DecodedInstr 32}
    {f : Funct3Load} (funct : Funct3Load.ofBits? d.funct3 = some f) (m : MemoryModel 32 Dev) :
    Agrees s m false (.ok (s.executeLoad d m).1, (s.executeLoad d m).2)
      ((hart s m).load (Instr.loadWidth f) (Instr.loadSigns f) d.rd.toFin
        (s.regs.get d.rs1 + d.imm).toNat) := by
  have check := loadMisaligned_iff f (s.regs.get d.rs1 + d.imm)
  unfold executeLoad Hart.load
  simp only [funct, Option.some.injEq, translateAddr_bare bare]
  generalize s.regs.get d.rs1 + d.imm = addr at check ⊢
  rw [← ite_or]
  by_cases misaligned : (addr.toNat : Int) % Instr.loadWidth f ≠ 0
  · rw [if_pos misaligned, if_pos (check.mpr misaligned)]
    exact agrees_trap s m false .loadMisaligned addr
  · rw [if_neg misaligned, if_neg (mt check.mp misaligned), Int.toNat_natCast]
    obtain ⟨same, value⟩ := loadValue_read m (not_not.mp misaligned)
    rcases eq : loadValue f addr m with ⟨result, m'⟩
    rw [eq] at same value
    subst same
    unfold Reads at value
    change Agrees s m' false _ (match m'.storage.read addr.toNat (Instr.loadWidth f) with
      | none => _
      | some v => _)
    cases stored : m'.storage.read addr.toNat (Instr.loadWidth f) with
    | none =>
      rw [stored] at value
      obtain ⟨e, threw⟩ := value
      subst threw
      exact agrees_trap s m' false .loadFault addr
    | some v =>
      rw [stored] at value
      dsimp only at value
      subst value
      exact agrees_setReg s m' d.rd rfl

theorem storeValue_writes {f : Funct3Store} {addr : BitVec 32} (m : MemoryModel 32 Dev)
    (data : BitVec 32) (aligned : (addr.toNat : Int) % Instr.storeWidth f = 0) :
    Writes m (m.storage.write addr.toNat (Instr.storeWidth f) data.toNat)
      (storeValue f addr data m) := by
  cases f with
  | sb => exact writeByte_storage m addr (toNat_byte data 0)
  | sh =>
    have even : addr.toNat % 2 = 0 := by exact_mod_cast aligned
    have half : ((data &&& 0xFFFF#32).setWidth 16).toNat = data.toNat % 2 ^ 16 := by
      have mask : (data &&& 0xFFFF#32).toNat = data.toNat % 2 ^ 16 :=
        toNat_and_mask (w := 32) (k := 16) (by omega) data
      rw [BitVec.toNat_setWidth, mask, Nat.mod_mod]
    generalize eq : (data &&& 0xFFFF#32).setWidth 16 = h at half
    have byte (x : HalfT) : ((x &&& 0xFF#16).setWidth 8).toNat = x.toNat % 2 ^ 8 := by
      have mask : (x &&& 0xFF#16).toNat = x.toNat % 2 ^ 8 :=
        toNat_and_mask (w := 16) (k := 8) (by omega) x
      rw [BitVec.toNat_setWidth, mask, Nat.mod_mod]
    change Writes m _ (m.writeHalf addr ((data &&& 0xFFFF#32).setWidth 16))
    rw [eq]
    refine writeHalf_storage m even ?_ ?_
    · rw [byte, half]
      unfold byteOf
      omega
    · rw [byte, BitVec.toNat_ushiftRight, Nat.shiftRight_eq_div_pow, half]
      unfold byteOf
      omega
  | sw =>
    have whole : addr.toNat % 4 = 0 := by exact_mod_cast aligned
    change Writes m _ (m.writeWord addr (data.setWidth 32))
    rw [BitVec.setWidth_eq]
    exact writeWord_storage m whole data

theorem executeStore_agrees {s : RVModel 32} (bare : ¬s.Paging) {d : DecodedInstr 32}
    {f : Funct3Store} (funct : Funct3Store.ofBits? d.funct3 = some f) (m : MemoryModel 32 Dev) :
    Agrees s m true (.ok (s.executeStore d m).1, (s.executeStore d m).2)
      ((hart s m).store (Instr.storeWidth f) ((hart s m).x d.rs2.toFin)
        (s.regs.get d.rs1 + d.imm).toNat) := by
  have check := storeMisaligned_iff f (s.regs.get d.rs1 + d.imm)
  unfold executeStore Hart.store
  simp only [funct, Option.some.injEq, translateAddr_bare bare]
  generalize s.regs.get d.rs1 + d.imm = addr at check ⊢
  rw [← ite_or]
  by_cases misaligned : (addr.toNat : Int) % Instr.storeWidth f ≠ 0
  · rw [if_pos misaligned, if_pos (check.mpr misaligned)]
    exact agrees_trap s m true .storeMisaligned addr
  · rw [if_neg misaligned, if_neg (mt check.mp misaligned)]
    have wrote := storeValue_writes m (s.regs.get d.rs2) (not_not.mp misaligned)
    rcases eq : storeValue f addr (s.regs.get d.rs2) m with ⟨result, m'⟩
    rw [eq] at wrote
    unfold Writes at wrote
    have read : ((hart s m).x d.rs2.toFin).toNat = (s.regs.get d.rs2).toNat := rfl
    rw [read, Int.toNat_natCast]
    have target : Memory.write addr.toNat (Instr.storeWidth f) (s.regs.get d.rs2).toNat
        (hart s m).mem =
      m.storage.write addr.toNat (Instr.storeWidth f) (s.regs.get d.rs2).toNat := rfl
    rw [target]
    cases stored : m.storage.write addr.toNat (Instr.storeWidth f) (s.regs.get d.rs2).toNat with
    | none =>
      rw [stored] at wrote
      obtain ⟨⟨e, threw⟩, same⟩ := wrote
      dsimp only at threw same
      subst threw same
      exact agrees_trap s m' true .storeFault addr
    | some t =>
      rw [stored] at wrote
      obtain ⟨done, storage, lrAddr, lrValid⟩ := wrote
      dsimp only at done storage lrAddr
      subst done
      refine ⟨false, rfl, ?_, rfl, lrAddr, (Bool.and_false _).symm⟩
      have kept : (MemT.invalidateReservation 32 m').storage = t := storage
      rw [if_neg Bool.false_ne_true, hart_advancePC]
      unfold hart
      rw [kept]

theorem aluOp_of_code {d : DecodedInstr 32} {f : ALU.Op} (funct7 : d.funct7 = f.code.1)
    (funct3 : d.funct3 = f.code.2.setWidth 3) (base : f.code.1 ≠ F7_MEXT) : aluOp d = f := by
  unfold aluOp
  rw [funct7, funct3]
  cases f with
  | ADD | SUB | AND | OR | XOR | SLL | SRL | SRA | SLT | SLTU => rfl
  | MUL | MULH | MULHSU | MULHU | DIV | DIVU | REM | REMU => exact absurd rfl base

theorem mulOp_of_code {f : ALU.Op} (mext : f.code.1 = F7_MEXT) :
    mulOp (Funct3MUL.ofBits (f.code.2.setWidth 3)) = f := by
  cases f with
  | MUL | MULH | MULHSU | MULHU | DIV | DIVU | REM | REMU => rfl
  | ADD | SUB | AND | OR | XOR | SLL | SRL | SRA | SLT | SLTU => exact absurd mext (by decide)

theorem executeOp_of_code {s : RVModel 32} {d : DecodedInstr 32} {f : ALU.Op}
    (funct7 : d.funct7 = f.code.1) (funct3 : d.funct3 = f.code.2.setWidth 3)
    (ext : f.code.1 = F7_MEXT → s.config.hasExtension Config.EXT_M = true) :
    s.executeOp d =
      (false, s.setReg d.rd (ALU.execute f (s.regs.get d.rs1) (s.regs.get d.rs2))) := by
  unfold executeOp
  by_cases mext : f.code.1 = F7_MEXT
  · have op := mulOp_of_code mext
    rw [← funct3] at op
    simp only [funct7, mext, if_true, ext mext, Bool.not_true, Bool.false_eq_true, if_false, op]
  · simp only [funct7, mext, if_false, aluOp_of_code funct7 funct3 mext]

theorem opImmResult_imm {d : DecodedInstr 32} {f : ImmOp}
    (funct3 : d.funct3 = f.funct3.bits.setWidth 3) (a b : BitVec 32) :
    opImmResult d a b = ALU.execute f.alu a b := by
  unfold opImmResult
  rw [funct3]
  cases f <;> rfl

theorem opImmResult_shift {d : DecodedInstr 32} {f : ShiftOp} (funct7 : d.funct7 = f.funct7)
    (funct3 : d.funct3 = f.funct3.bits.setWidth 3) (a b : BitVec 32) :
    opImmResult d a b = ALU.execute f.alu a b := by
  unfold opImmResult
  rw [funct3, funct7]
  cases f <;> rfl

theorem exact_shift (f : ShiftOp) (a : Int) {b c : Int} (same : b % 32 = c % 32) :
    ALU.exact f.alu a b = ALU.exact f.alu a c := by
  cases f with
  | slli | srli | srai => simp only [ShiftOp.alu, ALU.exact, same]

theorem branchTaken_eq (f : Funct3Branch) (a b : BitVec 32) :
    branchTaken f a b = Instr.taken f a.toNat b.toNat := by
  have unsigned : (a.toNat : Int) = b.toNat ↔ a = b := by
    rw [Int.ofNat_inj, BitVec.toNat_inj]
  cases f with
  | beq => simp only [branchTaken, Instr.taken, unsigned]
  | bne => simp only [branchTaken, Instr.taken, ne_eq, unsigned]
  | blt => simp only [branchTaken, Instr.taken, signed_toNat, BitVec.slt_eq_decide]
  | bge => simp only [branchTaken, Instr.taken, signed_toNat, BitVec.sle_eq_decide]
  | bltu => simp only [branchTaken, Instr.taken, BitVec.lt_def, Int.ofNat_lt]
  | bgeu => simp only [branchTaken, Instr.taken, BitVec.le_def, Int.ofNat_le]

theorem toNat_eq_reduce (x : BitVec 32) : (x.toNat : Int) = reduce x.toInt := by
  rw [BitVec.toInt_eq_toNat_cond]
  unfold reduce
  split
  · omega
  · omega

theorem decodeImm_of_opcode {w : WordT} {o : Opcode} (op : Opcode.ofBits? (getOpcode w) = some o) :
    (o = .load ∨ o = .opImm ∨ o = .jalr → Decoder.decodeImm 32 w = decodeImmI 32 w) ∧
      (o = .store → Decoder.decodeImm 32 w = decodeImmS 32 w) ∧
      (o = .branch → Decoder.decodeImm 32 w = decodeImmB 32 w) ∧
      (o = .lui ∨ o = .auipc → Decoder.decodeImm 32 w = decodeImmU w) ∧
      (o = .jal → Decoder.decodeImm 32 w = decodeImmJ 32 w) := by
  unfold Decoder.decodeImm
  rw [op]
  refine ⟨?_, ?_, ?_, ?_, ?_⟩
  · rintro (rfl | rfl | rfl) <;> rfl
  · rintro rfl
    rfl
  · rintro rfl
    rfl
  · rintro (rfl | rfl) <;> exact BitVec.signExtend_eq _
  · rintro rfl
    rfl

variable {s : RVModel 32} {m : MemoryModel 32 Dev} {w : WordT}

theorem op_agrees {f : ALU.Op} {rd rs1 rs2 : BitVec 8}
    (built : (Instr.op f rd rs1 rs2).word = some w)
    (ext : f.code.1 = F7_MEXT → s.config.hasExtension Config.EXT_M = true) :
    Agrees s m false (s.executeInstr (Decoder.decode 32 w) m)
      ((hart s m).step (Instr.op f rd rs1 rs2).meaning) := by
  obtain ⟨op, d, s1, s2, f3, f7⟩ := InstrBuilder.decode_R built
  have funct7 : (Decoder.decode 32 w).funct7 = f.code.1 :=
    f7.trans (BitVec.setWidth_setWidth_of_le f.code.1 (by omega))
  unfold executeInstr
  simp only [show (Decoder.decode 32 w).opcode = getOpcode w from rfl, op]
  rw [executeOp_of_code funct7 f3 ext]
  simp only [show (Decoder.decode 32 w).rd = getRd w from rfl, d,
    show (Decoder.decode 32 w).rs1 = getRs1 w from rfl, s1,
    show (Decoder.decode 32 w).rs2 = getRs2 w from rfl, s2]
  exact agrees_setReg s m _ (ALU.execute_eq_exact f _ _)

theorem opImm_agrees {f : ImmOp} {rd rs1 : BitVec 8} {imm : BitVec 16}
    (built : (Instr.opImm f rd rs1 imm).word = some w) :
    Agrees s m false (s.executeInstr (Decoder.decode 32 w) m)
      ((hart s m).step (Instr.opImm f rd rs1 imm).meaning) := by
  obtain ⟨op, d, s1, f3, value⟩ := InstrBuilder.decode_I (by decide : 12 ≤ 32) built
  have immI := (decodeImm_of_opcode op).1 (by simp)
  unfold executeInstr
  simp only [show (Decoder.decode 32 w).opcode = getOpcode w from rfl, op]
  unfold executeOpImm
  rw [opImmResult_imm f3, ALU.execute_eq_exact, toNat_eq_reduce (Decoder.decode 32 w).imm]
  simp only [show (Decoder.decode 32 w).rd = getRd w from rfl, d,
    show (Decoder.decode 32 w).rs1 = getRs1 w from rfl, s1,
    show (Decoder.decode 32 w).imm = Decoder.decodeImm 32 w from rfl, immI, value]
  exact agrees_setReg s m _ rfl

theorem shift_agrees {f : ShiftOp} {rd rs1 shamt : BitVec 8}
    (built : (Instr.shift f rd rs1 shamt).word = some w) :
    Agrees s m false (s.executeInstr (Decoder.decode 32 w) m)
      ((hart s m).step (Instr.shift f rd rs1 shamt).meaning) := by
  obtain ⟨op, d, s1, _, f3, f7⟩ := InstrBuilder.decode_R built
  have low := InstrBuilder.decode_shamt built
  have immI := (decodeImm_of_opcode op).1 (by simp)
  have funct7 : (Decoder.decode 32 w).funct7 = f.funct7 :=
    f7.trans (BitVec.setWidth_setWidth_of_le f.funct7 (by omega))
  have amount : (((decodeImmI 32 w).toNat : Nat) : Int) % 32 = reduce (shamt.toNat : Int) % 32 := by
    unfold reduce
    omega
  unfold executeInstr
  simp only [show (Decoder.decode 32 w).opcode = getOpcode w from rfl, op]
  unfold executeOpImm
  rw [opImmResult_shift funct7 f3, ALU.execute_eq_exact]
  simp only [show (Decoder.decode 32 w).rd = getRd w from rfl, d,
    show (Decoder.decode 32 w).rs1 = getRs1 w from rfl, s1,
    show (Decoder.decode 32 w).imm = Decoder.decodeImm 32 w from rfl, immI, exact_shift f _ amount]
  exact agrees_setReg s m _ rfl

theorem upper_value {imm : BitVec 32}
    (value : (decodeImmU w).toNat = imm.toNat / 2 ^ 12 * 2 ^ 12) (x : BitVec 32) :
    x + decodeImmU w = BitVec.ofInt 32 (x.toNat + imm.toInt / 2 ^ 12 * 2 ^ 12) := by
  apply BitVec.eq_of_toNat_eq
  rw [BitVec.toNat_add, value, BitVec.toNat_ofInt, BitVec.toInt_eq_toNat_cond]
  split
  · omega
  · omega

theorem lui_agrees {rd : BitVec 8} {imm : BitVec 32}
    (built : (Instr.lui rd imm).word = some w) :
    Agrees s m false (s.executeInstr (Decoder.decode 32 w) m)
      ((hart s m).step (Instr.lui rd imm).meaning) := by
  obtain ⟨op, d, value⟩ := InstrBuilder.decode_U built
  have immU := (decodeImm_of_opcode op).2.2.2.1 (by simp)
  have upper := upper_value value 0#32
  rw [BitVec.zero_add, BitVec.toNat_zero, Int.natCast_zero, Int.zero_add] at upper
  unfold executeInstr
  simp only [show (Decoder.decode 32 w).opcode = getOpcode w from rfl, op,
    show (Decoder.decode 32 w).rd = getRd w from rfl, d,
    show (Decoder.decode 32 w).imm = Decoder.decodeImm 32 w from rfl, immU]
  exact agrees_setReg s m _ upper

theorem auipc_agrees {rd : BitVec 8} {imm : BitVec 32}
    (built : (Instr.auipc rd imm).word = some w) :
    Agrees s m false (s.executeInstr (Decoder.decode 32 w) m)
      ((hart s m).step (Instr.auipc rd imm).meaning) := by
  obtain ⟨op, d, value⟩ := InstrBuilder.decode_U built
  have immU := (decodeImm_of_opcode op).2.2.2.1 (by simp)
  unfold executeInstr
  simp only [show (Decoder.decode 32 w).opcode = getOpcode w from rfl, op,
    show (Decoder.decode 32 w).rd = getRd w from rfl, d,
    show (Decoder.decode 32 w).imm = Decoder.decodeImm 32 w from rfl, immU]
  exact agrees_setReg s m _ (upper_value value s.pc)

theorem jal_agrees {rd : BitVec 8} {offset : BitVec 32}
    (built : (Instr.jal rd offset).word = some w) :
    Agrees s m false (s.executeInstr (Decoder.decode 32 w) m)
      ((hart s m).step (Instr.jal rd offset).meaning) := by
  obtain ⟨op, d, value⟩ := InstrBuilder.decode_J (by decide : 21 ≤ 32) built
  have immJ := (decodeImm_of_opcode op).2.2.2.2 rfl
  have target : ((s.pc + decodeImmJ 32 w).toNat : Int) =
      reduce ((hart s m).pc + signed 21 (offset.toInt % 2 ^ 21)) := by
    rw [toNat_add_toInt, value]
    rfl
  unfold executeInstr
  simp only [show (Decoder.decode 32 w).opcode = getOpcode w from rfl, op]
  change Agrees s m false _ ((hart s m).jump _ (reduce _))
  rw [← target]
  refine agrees_jump s m (rd.setWidth 5) _ ?_
  unfold executeJAL
  simp only [show (Decoder.decode 32 w).rd = getRd w from rfl, d,
    show (Decoder.decode 32 w).imm = Decoder.decodeImm 32 w from rfl, immJ]

theorem jalr_agrees {rd rs1 : BitVec 8} {imm : BitVec 16}
    (built : (Instr.jalr rd rs1 imm).word = some w) :
    Agrees s m false (s.executeInstr (Decoder.decode 32 w) m)
      ((hart s m).step (Instr.jalr rd rs1 imm).meaning) := by
  obtain ⟨op, d, s1, _, value⟩ := InstrBuilder.decode_I (by decide : 12 ≤ 32) built
  have immI := (decodeImm_of_opcode op).1 (by simp)
  have sum : ((s.regs.get (rs1.setWidth 5) + decodeImmI 32 w).toNat : Int) =
      reduce ((hart s m).x (Instr.reg rs1) + imm.toInt) := by
    rw [toNat_add_toInt, value]
    rfl
  have clear : ((s.regs.get (rs1.setWidth 5) + decodeImmI 32 w) &&& ~~~0b01#32).toNat =
      (s.regs.get (rs1.setWidth 5) + decodeImmI 32 w).toNat -
        (s.regs.get (rs1.setWidth 5) + decodeImmI 32 w).toNat % 2 ^ 1 :=
    toNat_and_not_mask (w := 32) (k := 1) (by omega) _
  have even := lowClear_and_not_mask (w := 32) (k := 1) (by omega)
    (s.regs.get (rs1.setWidth 5) + decodeImmI 32 w)
  have target : (((s.regs.get (rs1.setWidth 5) + decodeImmI 32 w) &&& ~~~0b01#32).toNat : Int) =
      reduce ((hart s m).x (Instr.reg rs1) + imm.toInt) -
        reduce ((hart s m).x (Instr.reg rs1) + imm.toInt) % 2 := by
    rw [← sum]
    omega
  unfold executeInstr
  simp only [show (Decoder.decode 32 w).opcode = getOpcode w from rfl, op]
  change Agrees s m false _ ((hart s m).jump _ (reduce _ - reduce _ % 2))
  rw [← target]
  refine agrees_jump s m (rd.setWidth 5) _ ?_
  unfold executeJALR
  simp only [show (Decoder.decode 32 w).rd = getRd w from rfl, d,
    show (Decoder.decode 32 w).rs1 = getRs1 w from rfl, s1,
    show (Decoder.decode 32 w).imm = Decoder.decodeImm 32 w from rfl, immI]
  have check : ((s.regs.get (rs1.setWidth 5) + decodeImmI 32 w) &&& ~~~0b01#32) &&& 0b10#32 =
    ((s.regs.get (rs1.setWidth 5) + decodeImmI 32 w) &&& ~~~0b01#32) &&& 0b11#32 :=
    even_offset even
  rw [check]

theorem branch_agrees {f : Funct3Branch} {rs1 rs2 : BitVec 8} {offset : BitVec 16}
    (built : (Instr.branch f rs1 rs2 offset).word = some w) :
    Agrees s m false (s.executeInstr (Decoder.decode 32 w) m)
      ((hart s m).step (Instr.branch f rs1 rs2 offset).meaning) := by
  obtain ⟨op, s1, s2, f3, value⟩ := InstrBuilder.decode_B (by decide : 13 ≤ 32) built
  have immB := (decodeImm_of_opcode op).2.2.1 rfl
  have funct : Funct3Branch.ofBits? (getFunct3 w) = some f := by
    rw [f3]
    cases f <;> rfl
  have target : ((s.pc + decodeImmB 32 w).toNat : Int) =
      reduce ((hart s m).pc + offset.toInt) := by
    rw [toNat_add_toInt, value]
    rfl
  unfold executeInstr
  simp only [show (Decoder.decode 32 w).opcode = getOpcode w from rfl, op]
  unfold executeBranch
  simp only [show (Decoder.decode 32 w).funct3 = getFunct3 w from rfl, funct,
    show (Decoder.decode 32 w).rs1 = getRs1 w from rfl, s1,
    show (Decoder.decode 32 w).rs2 = getRs2 w from rfl, s2,
    show (Decoder.decode 32 w).imm = Decoder.decodeImm 32 w from rfl, immB, branchTaken_eq]
  change Agrees s m false _ (if Instr.taken f (s.regs.get (rs1.setWidth 5)).toNat
    (s.regs.get (rs2.setWidth 5)).toNat then (hart s m).jump 0 (reduce _) else _)
  by_cases taken : Instr.taken f (s.regs.get (rs1.setWidth 5)).toNat
      (s.regs.get (rs2.setWidth 5)).toNat
  · rw [if_pos taken, if_pos taken, ← target]
    have link : s.setReg 0#5 (s.pc + 4#32) = s := by simp [setReg, RegisterFile.set]
    refine agrees_jump s m 0#5 _ ?_
    rw [link]
    rfl
  · rw [if_neg taken, if_neg taken]
    exact agrees_next s m

theorem load_agrees {f : Funct3Load} {rd rs1 : BitVec 8} {imm : BitVec 16}
    (built : (Instr.load f rd rs1 imm).word = some w) (bare : ¬s.Paging) :
    Agrees s m false (s.executeInstr (Decoder.decode 32 w) m)
      ((hart s m).step (Instr.load f rd rs1 imm).meaning) := by
  obtain ⟨op, d, s1, f3, value⟩ := InstrBuilder.decode_I (by decide : 12 ≤ 32) built
  have immI := (decodeImm_of_opcode op).1 (by simp)
  have funct : Funct3Load.ofBits? (Decoder.decode 32 w).funct3 = some f := by
    change Funct3Load.ofBits? (getFunct3 w) = some f
    rw [f3]
    cases f <;> rfl
  have addr : ((s.regs.get (Decoder.decode 32 w).rs1 + (Decoder.decode 32 w).imm).toNat : Int) =
      reduce ((hart s m).x (Instr.reg rs1) + imm.toInt) := by
    rw [toNat_add_toInt, show (Decoder.decode 32 w).rs1 = getRs1 w from rfl, s1,
      show (Decoder.decode 32 w).imm = Decoder.decodeImm 32 w from rfl, immI, value]
    rfl
  have target : (Decoder.decode 32 w).rd = rd.setWidth 5 := d
  have agrees := executeLoad_agrees bare funct m
  rw [addr, target] at agrees
  unfold executeInstr
  simp only [show (Decoder.decode 32 w).opcode = getOpcode w from rfl, op]
  exact agrees

theorem store_agrees {f : Funct3Store} {rs2 rs1 : BitVec 8} {imm : BitVec 16}
    (built : (Instr.store f rs2 rs1 imm).word = some w) (bare : ¬s.Paging) :
    Agrees s m true (s.executeInstr (Decoder.decode 32 w) m)
      ((hart s m).step (Instr.store f rs2 rs1 imm).meaning) := by
  obtain ⟨op, s1, s2, f3, value⟩ := InstrBuilder.decode_S (by decide : 12 ≤ 32) built
  have immS := (decodeImm_of_opcode op).2.1 rfl
  have funct : Funct3Store.ofBits? (Decoder.decode 32 w).funct3 = some f := by
    change Funct3Store.ofBits? (getFunct3 w) = some f
    rw [f3]
    cases f <;> rfl
  have addr : ((s.regs.get (Decoder.decode 32 w).rs1 + (Decoder.decode 32 w).imm).toNat : Int) =
      reduce ((hart s m).x (Instr.reg rs1) + imm.toInt) := by
    rw [toNat_add_toInt, show (Decoder.decode 32 w).rs1 = getRs1 w from rfl, s1,
      show (Decoder.decode 32 w).imm = Decoder.decodeImm 32 w from rfl, immS, value]
    rfl
  have data : (Decoder.decode 32 w).rs2 = rs2.setWidth 5 := s2
  have agrees := executeStore_agrees bare funct m
  rw [addr, data] at agrees
  unfold executeInstr
  simp only [show (Decoder.decode 32 w).opcode = getOpcode w from rfl, op]
  exact agrees

/-- executeInstr over a built word does what the hart does. -/
theorem executeInstr_agrees {i : Instr} (built : i.word = some w)
    (ext : i.isMext → s.config.hasExtension Config.EXT_M = true) (bare : ¬s.Paging) :
    Agrees s m i.isStore (s.executeInstr (Decoder.decode 32 w) m) ((hart s m).step i.meaning) := by
  cases i with
  | op f rd rs1 rs2 => exact op_agrees built fun mext => ext (by simpa [Instr.isMext] using mext)
  | opImm f rd rs1 imm => exact opImm_agrees built
  | shift f rd rs1 shamt => exact shift_agrees built
  | lui rd imm => exact lui_agrees built
  | auipc rd imm => exact auipc_agrees built
  | branch f rs1 rs2 offset => exact branch_agrees built
  | jal rd offset => exact jal_agrees built
  | jalr rd rs1 imm => exact jalr_agrees built
  | load f rd rs1 imm => exact load_agrees built bare
  | store f rs2 rs1 imm => exact store_agrees built bare

theorem opcode_of_word {i : Instr} (built : i.word = some w) :
    ∃ o, Opcode.ofBits? (getOpcode w) = some o := by
  cases i with
  | op f rd rs1 rs2 => exact ⟨_, (InstrBuilder.decode_R built).1⟩
  | opImm f rd rs1 imm => exact ⟨_, (InstrBuilder.decode_I (by decide : 12 ≤ 32) built).1⟩
  | shift f rd rs1 shamt => exact ⟨_, (InstrBuilder.decode_R built).1⟩
  | lui rd imm => exact ⟨_, (InstrBuilder.decode_U built).1⟩
  | auipc rd imm => exact ⟨_, (InstrBuilder.decode_U built).1⟩
  | branch f rs1 rs2 offset => exact ⟨_, (InstrBuilder.decode_B (by decide : 13 ≤ 32) built).1⟩
  | jal rd offset => exact ⟨_, (InstrBuilder.decode_J (by decide : 21 ≤ 32) built).1⟩
  | jalr rd rs1 imm => exact ⟨_, (InstrBuilder.decode_I (by decide : 12 ≤ 32) built).1⟩
  | load f rd rs1 imm => exact ⟨_, (InstrBuilder.decode_I (by decide : 12 ≤ 32) built).1⟩
  | store f rs2 rs1 imm => exact ⟨_, (InstrBuilder.decode_S (by decide : 12 ≤ 32) built).1⟩

theorem word_ne_zero {i : Instr} (built : i.word = some w) : w ≠ 0#32 := by
  rintro rfl
  obtain ⟨o, op⟩ := opcode_of_word built
  cases op

structure Placed (s : RVModel 32) (m : MemoryModel 32 Dev) (w : WordT) : Prop where
  aligned : s.PcAligned
  ram : m.findMmio s.pc = none
  inside : s.pc.toNat + 4 ≤ m.size
  bytes : ∀ k, k < 4 → m.data (s.pc.toNat + k) = ((w >>> (8 * k)) &&& 0xFF#32).setWidth 8

theorem readWord_placed (placed : Placed s m w) : m.readWord s.pc = .ok w := by
  have clear : LowClear 2 s.pc := (and_mask_eq_zero_iff (k := 2) (w := 32) (by omega) s.pc).mp
    placed.aligned
  rw [readWord_ram m placed.ram, if_pos placed.inside, ← leWord_bytes w]
  congr 1
  apply leWord_congr
  intro k below
  rw [byteAt, toNat_add_small clear below]
  exact placed.bytes k below

theorem step_placed (placed : Placed s m w) (nonzero : w ≠ 0#32) (running : s.halted = false)
    (bare : ¬s.Paging) : s.step m = s.executeWord w m := by
  unfold step
  simp only [running, Bool.false_eq_true, if_false, translateAddr_bare bare, memT_readWord,
    readWord_placed placed, nonzero]

/-- What a step leaves behind: the instruction count and the step hook's calls go on, and where the
    hart retires the instruction its registers, pc and bytes are those of h. -/
structure Retired (s : RVModel 32) (m : MemoryModel 32 Dev) (w : WordT) (store : Bool)
    (h : Hart (Storage Dev)) (s' : RVModel 32) (m' : MemoryModel 32 Dev) : Prop where
  hart : hart s' m' = h
  frame : s' = { (s.callStepHook (Disasm.disassemble (Decoder.decode 32 w))).countInstr with
    pc := s'.pc
    regs := s'.regs }
  lrAddr : m'.lrAddr = m.lrAddr
  lrValid : m'.lrValid = (m.lrValid && !store)

/-- Where it traps, the memory stays, and so does all but what trap entry changes; with no vector
    the processor halts. -/
structure Trapped (s : RVModel 32) (m : MemoryModel 32 Dev) (w : WordT) (cause : Cause)
    (tval : Int) (s' : RVModel 32) (m' : MemoryModel 32 Dev) : Prop where
  memory : m' = m
  fired : s' = ((s.callStepHook (Disasm.disassemble (Decoder.decode 32 w))).fireTrap
    (uword cause.code) (BitVec.ofInt 32 tval)).countInstr
  vectored : s.csr.getMTVEC ≠ 0#32 → PreciseTrap s s' ∧
    (s'.csr.read CSR.MCAUSE).toNat = cause.code ∧ ((s'.csr.read CSR.MTVAL).toNat : Int) = tval
  unvectored : s.csr.getMTVEC = 0#32 →
    arch s' = { arch s with halted := true, trapCount := s.trapCount + 1 }

def Steps (s : RVModel 32) (m : MemoryModel 32 Dev) (w : WordT) (store : Bool)
    (r : Except Exn Unit × RVModel 32 × MemoryModel 32 Dev) : Outcome (Storage Dev) → Prop
  | .done h => r.1 = .ok () ∧ Retired s m w store h r.2.1 r.2.2
  | .trap cause tval => r.1 = .ok () ∧ Trapped s m w cause tval r.2.1 r.2.2

theorem trapped_fireTrap {cause : Cause} {tval : Int} (range : 0 ≤ tval ∧ tval < 2 ^ 32) :
    Trapped s m w cause tval ((s.callStepHook (Disasm.disassemble (Decoder.decode 32 w))).fireTrap
      (uword cause.code) (BitVec.ofInt 32 tval)).countInstr m := by
  have same : arch ((s.callStepHook (Disasm.disassemble (Decoder.decode 32 w))).fireTrap
      (uword cause.code) (BitVec.ofInt 32 tval)).countInstr =
      arch (s.fireTrap (uword cause.code) (BitVec.ofInt 32 tval)) := by
    rw [arch_countInstr, arch_fireTrap, arch_fireTrap, arch_callStepHook]
  refine ⟨rfl, rfl, fun vector => ⟨preciseTrap_of_arch vector same, ?_⟩, fun vector => ?_⟩
  · obtain ⟨mcause, mtval⟩ := trap_reports vector same
    rw [mcause, mtval, toNat_ofInt]
    refine ⟨by cases cause <;> rfl, ?_⟩
    unfold reduce
    omega
  · exact arch_of_trap_unvectored vector same

theorem callStepHook_eq (s : RVModel 32) (dis : String) :
    s.callStepHook dis = { s with hookCalls := (s.callStepHook dis).hookCalls } := by
  unfold callStepHook
  split
  · rfl
  · rfl

/-- One step over a built word: the hart's step, in every field. -/
theorem step_instr {i : Instr} (built : i.word = some w)
    (ext : i.isMext → s.config.hasExtension Config.EXT_M = true) (placed : Placed s m w)
    (running : s.halted = false) (bare : s.csr.read CSR.SATP = 0#32) :
    Steps s m w i.isStore (s.step m) ((hart s m).step i.meaning) := by
  have off : ¬s.Paging := by
    unfold Paging
    rw [bare]
    decide
  rw [step_placed placed (word_ne_zero built) running off]
  have hooked := callStepHook_eq s (Disasm.disassemble (Decoder.decode 32 w))
  have agrees : Agrees (s.callStepHook (Disasm.disassemble (Decoder.decode 32 w))) m i.isStore
      ((s.callStepHook (Disasm.disassemble (Decoder.decode 32 w))).executeInstr
        (Decoder.decode 32 w) m)
      ((hart s m).step i.meaning) := by
    rw [hooked]
    exact executeInstr_agrees (s := { s with hookCalls := _ }) built ext off
  unfold executeWord
  simp only
  cases outcome : (hart s m).step i.meaning with
  | trap cause tval =>
    rw [outcome] at agrees
    rw [show (s.callStepHook (Disasm.disassemble (Decoder.decode 32 w))).executeInstr
      (Decoder.decode 32 w) m = _ from agrees]
    exact ⟨rfl, trapped_fireTrap (Hart.step_tval outcome)⟩
  | done h =>
    rw [outcome] at agrees
    obtain ⟨modified, ok, harts, frame, lrAddr, lrValid⟩ := agrees
    rcases eq : (s.callStepHook (Disasm.disassemble (Decoder.decode 32 w))).executeInstr
      (Decoder.decode 32 w) m with ⟨result, t, m'⟩
    rw [eq] at ok harts frame lrAddr lrValid
    dsimp only at ok harts frame lrAddr lrValid
    subst ok
    refine ⟨rfl, harts, ?_, lrAddr, lrValid⟩
    dsimp only
    cases modified with
    | true =>
      rw [if_pos rfl]
      rw [frame]
      rfl
    | false =>
      rw [if_neg Bool.false_ne_true]
      rw [frame]
      rfl

def jalrImage : MemoryModel 32 Unit := .ofWords 16 [0x006080E7#32] ()

def jalrCpu : RVModel 32 := { RVModel.new ⟨0#32⟩ with regs := RegisterFile.new.set 1#5 3#32 }

theorem step_instr_jalr : Steps jalrCpu jalrImage 0x006080E7#32 false (jalrCpu.step jalrImage)
    ((hart jalrCpu jalrImage).step (Instr.jalr 1#8 1#8 6#16).meaning) :=
  step_instr (i := .jalr 1#8 1#8 6#16) (by decide) (by decide)
    ⟨by decide, by decide, by decide, by decide⟩ (by decide) (by decide)

def resetCpu : RVModel 32 := .new ⟨0#32⟩

def reservedImage : MemoryModel 32 Unit :=
  { MemoryModel.ofWords 16 [0x00002223#32] () with lrValid := true }

def oddLoadImage : MemoryModel 32 Unit := .ofWords 16 [0x00202083#32] ()

/-- A store changes the reservation as well, and without a vector a misaligned load halts the
    processor and reports no cause. -/
theorem store_drops_reservation :
    ((Instr.store .sw 0#8 0#8 4#16).word = some 0x00002223#32 ∧
      Placed resetCpu reservedImage 0x00002223#32 ∧ reservedImage.lrValid = true ∧
      (resetCpu.step reservedImage).2.2.lrValid = false) ∧
    (Instr.load .lw 1#8 0#8 2#16).word = some 0x00202083#32 ∧
      Placed resetCpu oddLoadImage 0x00202083#32 ∧
      (resetCpu.step oddLoadImage).2.1.halted = true ∧
      (resetCpu.step oddLoadImage).2.1.csr.read CSR.MCAUSE ≠
        uword CSR.EXC_LOAD_MISALIGN :=
  ⟨⟨by decide, ⟨by decide, by decide, by decide, by decide⟩, by decide, by decide⟩, by decide,
    ⟨by decide, by decide, by decide, by decide⟩, by decide, by decide⟩

end XorOS.RVModel
