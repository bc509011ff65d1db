import XorOS.Simulator.MulDivLaws
import XorOS.Simulator.StepEffects

/- step() at XLEN = 32 with its signed arithmetic as C++ has it: none where an operation overflows
   its type, divides by zero or shifts by a count that is no bit number. Unsigned arithmetic and
   shifts by a literal below the width are defined for all operands and stay as they are. -/
namespace XorOS
open ISA

namespace Cxx
variable {w : Nat}

def add (a b : BitVec w) : Option (BitVec w) := ALU.signedValue w (a.toInt + b.toInt)

def sub (a b : BitVec w) : Option (BitVec w) := ALU.signedValue w (a.toInt - b.toInt)

def shiftCount (w : Nat) (count : BitVec 32) : Option Nat :=
  if 0 ≤ count.toInt ∧ count.toInt < w then some count.toNat else none

theorem add_of_fits {a b : BitVec w} (fits : ALU.FitsSigned w (a.toInt + b.toInt)) :
    add a b = some (a + b) := by
  rw [add, ALU.signedValue, if_pos fits, BitVec.ofInt_add, BitVec.ofInt_toInt, BitVec.ofInt_toInt]

theorem add_of_not_fits {a b : BitVec w} (fits : ¬ALU.FitsSigned w (a.toInt + b.toInt)) :
    add a b = none := by
  rw [add, ALU.signedValue, if_neg fits]

section Literals
variable {m n : Nat}

theorem toNat_literal (small : n < 2 ^ 31) : (BitVec.ofNat 32 n).toNat = n := by
  rw [BitVec.toNat_ofNat]
  omega

theorem toInt_literal (small : n < 2 ^ 31) : (BitVec.ofNat 32 n).toInt = n := by
  rw [BitVec.toInt_eq_toNat_cond, toNat_literal small, if_pos (by omega)]

theorem signedValue_natural (small : n < 2 ^ 31) :
    ALU.signedValue 32 n = some (BitVec.ofNat 32 n) := by
  have fits : ALU.FitsSigned 32 n := by
    constructor
    · omega
    · exact_mod_cast small
  rw [ALU.signedValue, if_pos fits, BitVec.ofInt_natCast]

theorem sub_literals (below : m ≤ n) (small : n < 2 ^ 31) :
    sub (BitVec.ofNat 32 n) (BitVec.ofNat 32 m) = some (BitVec.ofNat 32 (n - m)) := by
  have difference : (n : Int) - m = (n - m : Nat) := by omega
  rw [sub, toInt_literal small, toInt_literal (Nat.lt_of_le_of_lt below small), difference,
    signedValue_natural (by omega)]

theorem add_literals (small : m + n < 2 ^ 31) :
    add (BitVec.ofNat 32 m) (BitVec.ofNat 32 n) = some (BitVec.ofNat 32 (m + n)) := by
  have sum : (m : Int) + n = (m + n : Nat) := by omega
  rw [add, toInt_literal (by omega), toInt_literal (by omega), sum, signedValue_natural small]

theorem shiftCount_literal (below : n < 32) : shiftCount 32 (BitVec.ofNat 32 n) = some n := by
  rw [shiftCount, toInt_literal (by omega), toNat_literal (by omega), if_pos (by omega)]

end Literals

end Cxx

namespace ISA

def extractBitsDefined (instr : WordT) (hi lo : BitVec 32) : Option WordT := do
  let span ← Cxx.sub hi lo
  let width ← Cxx.add span 1#32
  let mask ←
    if width = 32#32 then some 0xFFFFFFFF#32
    else (Cxx.shiftCount 32 width).map fun k => (1#32 <<< k) - 1#32
  let k ← Cxx.shiftCount 32 lo
  return (instr >>> k) &&& mask

def signExtendDefined (val : WordT) (bits : BitVec 32) : Option (BitVec 32) := do
  let shift ← Cxx.sub 32#32 bits
  let k ← Cxx.shiftCount 32 shift
  return (val <<< k).sshiftRight k

def decodeImmIDefined (i : WordT) : Option (BitVec 32) := do
  let field ← extractBitsDefined i 31#32 20#32
  signExtendDefined field 12#32

def decodeImmSDefined (i : WordT) : Option (BitVec 32) := do
  let hi ← extractBitsDefined i 31#32 25#32
  let lo ← extractBitsDefined i 11#32 7#32
  signExtendDefined ((hi <<< 5) ||| lo) 12#32

def decodeImmBDefined (i : WordT) : Option (BitVec 32) := do
  let b12 ← extractBitsDefined i 31#32 31#32
  let b11 ← extractBitsDefined i 7#32 7#32
  let b10_5 ← extractBitsDefined i 30#32 25#32
  let b4_1 ← extractBitsDefined i 11#32 8#32
  signExtendDefined ((b12 <<< 12) ||| (b11 <<< 11) ||| (b10_5 <<< 5) ||| (b4_1 <<< 1)) 13#32

def decodeImmJDefined (i : WordT) : Option (BitVec 32) := do
  let b20 ← extractBitsDefined i 31#32 31#32
  let b19_12 ← extractBitsDefined i 19#32 12#32
  let b11 ← extractBitsDefined i 20#32 20#32
  let b10_1 ← extractBitsDefined i 30#32 21#32
  signExtendDefined ((b20 <<< 20) ||| (b19_12 <<< 12) ||| (b11 <<< 11) ||| (b10_1 <<< 1)) 21#32

theorem extractBits_defined (instr : WordT) {hi lo : Nat} (order : lo ≤ hi) (bound : hi ≤ 31) :
    extractBitsDefined instr (BitVec.ofNat 32 hi) (BitVec.ofNat 32 lo) =
      some (extractBits instr hi lo) := by
  have span := Cxx.sub_literals order (show hi < 2 ^ 31 by omega)
  have width := Cxx.add_literals (show hi - lo + 1 < 2 ^ 31 by omega)
  have low := Cxx.shiftCount_literal (show lo < 32 by omega)
  have whole : BitVec.ofNat 32 (hi - lo + 1) = 32#32 ↔ hi - lo + 1 = 32 := by
    rw [← BitVec.toNat_inj, Cxx.toNat_literal (by omega)]
    rfl
  unfold extractBitsDefined extractBits
  simp only [span, width, low, whole, Option.bind_eq_bind, Option.bind_some]
  by_cases full : hi - lo + 1 = 32
  · simp only [full, if_true]
    rfl
  · simp only [full, if_false, Cxx.shiftCount_literal (show hi - lo + 1 < 32 by omega)]
    rfl

theorem signExtend_defined (val : WordT) (bits : Nat) (positive : 1 ≤ bits) (fits : bits ≤ 32) :
    signExtendDefined val (BitVec.ofNat 32 bits) = some (signExtend 32 val bits) := by
  have shift := Cxx.sub_literals fits (show 32 < 2 ^ 31 by omega)
  have count := Cxx.shiftCount_literal (show 32 - bits < 32 by omega)
  unfold signExtendDefined signExtend
  simp only [shift, count, Option.bind_eq_bind, Option.bind_some, BitVec.setWidth_eq]
  rfl

theorem decodeImmI_defined (i : WordT) : decodeImmIDefined i = some (decodeImmI 32 i) := by
  unfold decodeImmIDefined
  rw [extractBits_defined i (show 20 ≤ 31 by omega) (Nat.le_refl 31)]
  exact signExtend_defined _ 12 (by omega) (by omega)

theorem decodeImmS_defined (i : WordT) : decodeImmSDefined i = some (decodeImmS 32 i) := by
  unfold decodeImmSDefined
  rw [extractBits_defined i (show 25 ≤ 31 by omega) (Nat.le_refl 31),
    extractBits_defined i (show 7 ≤ 11 by omega) (by omega)]
  exact signExtend_defined _ 12 (by omega) (by omega)

theorem decodeImmB_defined (i : WordT) : decodeImmBDefined i = some (decodeImmB 32 i) := by
  unfold decodeImmBDefined
  rw [extractBits_defined i (Nat.le_refl 31) (Nat.le_refl 31),
    extractBits_defined i (Nat.le_refl 7) (by omega),
    extractBits_defined i (show 25 ≤ 30 by omega) (by omega),
    extractBits_defined i (show 8 ≤ 11 by omega) (by omega)]
  exact signExtend_defined _ 13 (by omega) (by omega)

theorem decodeImmJ_defined (i : WordT) : decodeImmJDefined i = some (decodeImmJ 32 i) := by
  unfold decodeImmJDefined
  rw [extractBits_defined i (Nat.le_refl 31) (Nat.le_refl 31),
    extractBits_defined i (show 12 ≤ 19 by omega) (by omega),
    extractBits_defined i (Nat.le_refl 20) (by omega),
    extractBits_defined i (show 21 ≤ 30 by omega) (by omega)]
  exact signExtend_defined _ 21 (by omega) (by omega)

end ISA

namespace Decoder

def decodeImmDefined (raw : WordT) : Option (BitVec 32) :=
  match Opcode.ofBits? (getOpcode raw) with
  | some .load | some .opImm | some .jalr | some .miscMem | some .system => decodeImmIDefined raw
  | some .store => decodeImmSDefined raw
  | some .branch => decodeImmBDefined raw
  | some .jal => decodeImmJDefined raw
  | _ => some (decodeImm 32 raw)

def decodeDefined (raw : WordT) : Option (DecodedInstr 32) :=
  (decodeImmDefined raw).map fun imm => { decode 32 raw with imm := imm }

theorem decode_defined (raw : WordT) : decodeDefined raw = some (decode 32 raw) := by
  have imm : decodeImmDefined raw = some (decodeImm 32 raw) := by
    unfold decodeImmDefined decodeImm
    cases Opcode.ofBits? (getOpcode raw) with
    | none => rfl
    | some code =>
      cases code with
      | load => exact decodeImmI_defined raw
      | opImm => exact decodeImmI_defined raw
      | jalr => exact decodeImmI_defined raw
      | miscMem => exact decodeImmI_defined raw
      | system => exact decodeImmI_defined raw
      | store => exact decodeImmS_defined raw
      | branch => exact decodeImmB_defined raw
      | jal => exact decodeImmJ_defined raw
      | _ => rfl
  unfold decodeDefined
  rw [imm]
  rfl

end Decoder

namespace ALU

def aluDefined (op : Op) (a b : BitVec 32) : Option (BitVec 32) :=
  match op with
  | .SLL => (Cxx.shiftCount 32 (b &&& 31#32)).map fun k => a <<< k
  | .SRL => (Cxx.shiftCount 32 (b &&& 31#32)).map fun k => a >>> k
  | .SRA => (Cxx.shiftCount 32 (b &&& 31#32)).map fun k => a.sshiftRight k
  | op => executeDefined op a b

theorem alu_defined (op : Op) (a b : BitVec 32) : aluDefined op a b = some (execute op a b) := by
  have masked : (b &&& 31#32).toNat < 32 := by
    rw [BitVec.toNat_and]
    exact Nat.lt_of_le_of_lt Nat.and_le_right (by decide)
  have count : Cxx.shiftCount 32 (b &&& 31#32) = some (b &&& 31#32).toNat := by
    have literal := Cxx.shiftCount_literal masked
    rwa [BitVec.ofNat_toNat, BitVec.setWidth_eq] at literal
  cases op with
  | SLL =>
    simp only [aluDefined, count, Option.map_some]
    rfl
  | SRL =>
    simp only [aluDefined, count, Option.map_some]
    rfl
  | SRA =>
    simp only [aluDefined, count, Option.map_some]
    rfl
  | _ =>
    unfold aluDefined
    exact execute_defined (by omega) _ a b

end ALU

namespace RVModel
open MemoryModel
variable {M : Type} [MemT 32 M]

def opImmOp (d : DecodedInstr 32) : ALU.Op :=
  match Funct3ALU.ofBits d.funct3 with
  | .addSub => .ADD
  | .sll => .SLL
  | .slt => .SLT
  | .sltu => .SLTU
  | .xor => .XOR
  | .srlSra => if d.funct7 &&& 0b00100000#7 ≠ 0#7 then .SRA else .SRL
  | .or => .OR
  | .and => .AND

def executeOpImmDefined (s : RVModel 32) (d : DecodedInstr 32) : Option (Bool × RVModel 32) :=
  (ALU.aluDefined (opImmOp d) (s.regs.get d.rs1) d.imm).map fun r => (false, s.setReg d.rd r)

def executeOpDefined (s : RVModel 32) (d : DecodedInstr 32) : Option (Bool × RVModel 32) :=
  let rs1v := s.regs.get d.rs1
  let rs2v := s.regs.get d.rs2
  if d.funct7 = F7_MEXT then
    if !s.config.hasExtension Config.EXT_M then some (s.illegalInsn d)
    else
      (ALU.aluDefined (mulOp (Funct3MUL.ofBits d.funct3)) rs1v rs2v).map fun r =>
        (false, s.setReg d.rd r)
  else (ALU.aluDefined (aluOp d) rs1v rs2v).map fun r => (false, s.setReg d.rd r)

def loadValueDefined (f : Funct3Load) (pa : BitVec 32) (m : M) :
    Option (Except OutOfRange (BitVec 32) × M) :=
  match f with
  | .lb =>
      match MemT.readByte pa m with
      | (.error e, m) => some (.error e, m)
      | (.ok b, m) => (signExtendDefined (b.setWidth 32) 8#32).map fun v => (.ok v, m)
  | .lh =>
      match MemT.readHalf pa m with
      | (.error e, m) => some (.error e, m)
      | (.ok h, m) => (signExtendDefined (h.setWidth 32) 16#32).map fun v => (.ok v, m)
  | f => some (loadValue f pa m)

def executeLoadDefined (s : RVModel 32) (d : DecodedInstr 32) (m : M) :
    Option (Bool × RVModel 32 × M) := do
  let f3 := Funct3Load.ofBits? d.funct3
  let addr ← Cxx.add (s.regs.get d.rs1) d.imm
  if f3 = some .lw ∧ addr &&& 0b11#32 ≠ 0#32 then
    return (true, s.fireTrap (uword CSR.EXC_LOAD_MISALIGN) addr, m)
  else if (f3 = some .lh ∨ f3 = some .lhu) ∧ addr &&& 0b01#32 ≠ 0#32 then
    return (true, s.fireTrap (uword CSR.EXC_LOAD_MISALIGN) addr, m)
  else
    match s.translateAddr addr .load m with
    | (none, s, m) => return (true, s, m)
    | (some pa, s, m) =>
        match f3 with
        | none => return (true, s.fireTrap (uword CSR.EXC_ILLEGAL_INSN) (d.opcode.setWidth 32), m)
        | some f =>
            match ← loadValueDefined f pa m with
            | (.error _, m) => return (true, s.fireTrap (uword CSR.EXC_LOAD_FAULT) addr, m)
            | (.ok result, m) => return (false, s.setReg d.rd result, m)

def executeStoreDefined (s : RVModel 32) (d : DecodedInstr 32) (m : M) :
    Option (Bool × RVModel 32 × M) := do
  let f3 := Funct3Store.ofBits? d.funct3
  let addr ← Cxx.add (s.regs.get d.rs1) d.imm
  let data := s.regs.get d.rs2
  if f3 = some .sw ∧ addr &&& 0b11#32 ≠ 0#32 then
    return (true, s.fireTrap (uword CSR.EXC_STORE_MISALIGN) addr, m)
  else if f3 = some .sh ∧ addr &&& 0b01#32 ≠ 0#32 then
    return (true, s.fireTrap (uword CSR.EXC_STORE_MISALIGN) addr, m)
  else
    match s.translateAddr addr .store m with
    | (none, s, m) => return (true, s, m)
    | (some pa, s, m) =>
        match f3 with
        | none => return (true, s.fireTrap (uword CSR.EXC_ILLEGAL_INSN) (d.opcode.setWidth 32), m)
        | some f =>
            match storeValue f pa data m with
            | (.error _, m) => return (true, s.fireTrap (uword CSR.EXC_STORE_FAULT) addr, m)
            | (.ok (), m) => return (false, s, MemT.invalidateReservation 32 m)

/-- Every other instruction adds unsigned and only compares signed. -/
def executeInstrDefined (s : RVModel 32) (d : DecodedInstr 32) (m : M) :
    Option (Except Exn Bool × RVModel 32 × M) :=
  match Opcode.ofBits? d.opcode with
  | some .load => (s.executeLoadDefined d m).map fun r => (.ok r.1, r.2)
  | some .store => (s.executeStoreDefined d m).map fun r => (.ok r.1, r.2)
  | some .opImm => (s.executeOpImmDefined d).map fun r => (.ok r.1, r.2, m)
  | some .op => (s.executeOpDefined d).map fun r => (.ok r.1, r.2, m)
  | _ => some (s.executeInstr d m)

def executeWordDefined (s : RVModel 32) (raw : WordT) (m : M) :
    Option (Except Exn Unit × RVModel 32 × M) := do
  let instr ← Decoder.decodeDefined raw
  match ← (s.callStepHook (Disasm.disassemble instr)).executeInstrDefined instr m with
  | (.error e, s, m) => return (.error e, s, m)
  | (.ok pcModified, s, m) =>
      return (.ok (), (if pcModified then s else s.advancePC).countInstr, m)

def stepDefined (s : RVModel 32) (m : M) : Option (Except Exn Unit × RVModel 32 × M) :=
  if s.halted then some (.ok (), s, m)
  else
    match s.translateAddr s.pc .fetch m with
    | (none, s, m) => some (.ok (), s.countInstr, m)
    | (some pa, s, m) =>
        match MemT.readWord pa m with
        | (.error _, m) =>
            some (.ok (), (s.fireTrap (uword CSR.EXC_INSN_FAULT) s.pc).countInstr, m)
        | (.ok raw, m) =>
            if raw = 0#32 then some (.ok (), s.halt, m)
            else s.executeWordDefined raw m

def AddressFits (s : RVModel 32) (d : DecodedInstr 32) : Prop :=
  Opcode.ofBits? d.opcode = some .load ∨ Opcode.ofBits? d.opcode = some .store →
    ALU.FitsSigned 32 ((s.regs.get d.rs1).toInt + d.imm.toInt)

section Execute
variable (s : RVModel 32) (d : DecodedInstr 32) (m : M)

theorem opImmResult_eq (a b : BitVec 32) : opImmResult d a b = ALU.execute (opImmOp d) a b := by
  unfold opImmResult opImmOp
  cases Funct3ALU.ofBits d.funct3 with
  | _ => rfl

theorem executeOpImm_defined : s.executeOpImmDefined d = some (s.executeOpImm d) := by
  rw [executeOpImmDefined, ALU.alu_defined, Option.map_some, executeOpImm, opImmResult_eq]

theorem executeOp_defined : s.executeOpDefined d = some (s.executeOp d) := by
  unfold executeOpDefined executeOp
  simp only [ALU.alu_defined, Option.map_some]
  split
  · split
    · rfl
    · rfl
  · rfl

theorem loadValue_defined (f : Funct3Load) (pa : BitVec 32) :
    loadValueDefined f pa m = some (loadValue f pa m) := by
  cases f with
  | lb =>
    unfold loadValueDefined loadValue
    rcases MemT.readByte pa m with ⟨result, m'⟩
    cases result with
    | error e => rfl
    | ok b =>
      simp only [signExtend_defined _ 8 (by omega) (by omega), Option.map_some]
      rfl
  | lh =>
    unfold loadValueDefined loadValue
    rcases MemT.readHalf pa m with ⟨result, m'⟩
    cases result with
    | error e => rfl
    | ok h =>
      simp only [signExtend_defined _ 16 (by omega) (by omega), Option.map_some]
      rfl
  | _ => rfl

theorem executeLoad_defined
    (fits : ALU.FitsSigned 32 ((s.regs.get d.rs1).toInt + d.imm.toInt)) :
    s.executeLoadDefined d m = some (s.executeLoad d m) := by
  unfold executeLoadDefined executeLoad
  simp only [Cxx.add_of_fits fits, Option.bind_eq_bind, Option.bind_some]
  split
  · rfl
  split
  · rfl
  rcases s.translateAddr (s.regs.get d.rs1 + d.imm) .load m with ⟨found, s', m'⟩
  cases found with
  | none => rfl
  | some pa =>
    cases Funct3Load.ofBits? d.funct3 with
    | none => rfl
    | some f =>
      simp only [loadValue_defined, Option.bind_some]
      rcases loadValue f pa m' with ⟨result, m''⟩
      cases result with
      | error e => rfl
      | ok v => rfl

theorem executeStore_defined
    (fits : ALU.FitsSigned 32 ((s.regs.get d.rs1).toInt + d.imm.toInt)) :
    s.executeStoreDefined d m = some (s.executeStore d m) := by
  unfold executeStoreDefined executeStore
  simp only [Cxx.add_of_fits fits, Option.bind_eq_bind, Option.bind_some]
  split
  · rfl
  split
  · rfl
  rcases s.translateAddr (s.regs.get d.rs1 + d.imm) .store m with ⟨found, s', m'⟩
  cases found with
  | none => rfl
  | some pa =>
    cases Funct3Store.ofBits? d.funct3 with
    | none => rfl
    | some f =>
      simp only
      rcases storeValue f pa (s.regs.get d.rs2) m' with ⟨result, m''⟩
      cases result with
      | error e => rfl
      | ok => rfl

theorem executeLoad_overflow
    (overflow : ¬ALU.FitsSigned 32 ((s.regs.get d.rs1).toInt + d.imm.toInt)) :
    s.executeLoadDefined d m = none := by
  unfold executeLoadDefined
  simp only [Cxx.add_of_not_fits overflow, Option.bind_eq_bind, Option.bind_none]

theorem executeStore_overflow
    (overflow : ¬ALU.FitsSigned 32 ((s.regs.get d.rs1).toInt + d.imm.toInt)) :
    s.executeStoreDefined d m = none := by
  unfold executeStoreDefined
  simp only [Cxx.add_of_not_fits overflow, Option.bind_eq_bind, Option.bind_none]

variable {s d}

theorem executeInstr_defined (fits : s.AddressFits d) :
    s.executeInstrDefined d m = some (s.executeInstr d m) := by
  unfold executeInstrDefined executeInstr
  cases code : Opcode.ofBits? d.opcode with
  | none => rfl
  | some which =>
    cases which with
    | load => simp only [executeLoad_defined s d m (fits (Or.inl code)), Option.map_some]
    | store => simp only [executeStore_defined s d m (fits (Or.inr code)), Option.map_some]
    | opImm => simp only [executeOpImm_defined, Option.map_some]
    | op => simp only [executeOp_defined, Option.map_some]
    | _ => rfl

theorem executeInstr_overflow (overflow : ¬s.AddressFits d) :
    s.executeInstrDefined d m = none := by
  obtain ⟨access, wraps⟩ := Classical.not_imp.mp overflow
  unfold executeInstrDefined
  rcases access with load | store
  · rw [load]
    simp only [executeLoad_overflow s d m wraps, Option.map_none]
  · rw [store]
    simp only [executeStore_overflow s d m wraps, Option.map_none]

theorem addressFits_callStepHook (dis : String) :
    (s.callStepHook dis).AddressFits d ↔ s.AddressFits d := by
  have same : (s.callStepHook dis).regs = s.regs := by
    unfold callStepHook
    split
    · rfl
    · rfl
  unfold AddressFits
  rw [same]

theorem executeWord_defined {raw : WordT} (fits : s.AddressFits (Decoder.decode 32 raw)) :
    s.executeWordDefined raw m = some (s.executeWord raw m) := by
  have hooked := (addressFits_callStepHook
    (Disasm.disassemble (Decoder.decode 32 raw))).mpr fits
  unfold executeWordDefined executeWord
  simp only [Decoder.decode_defined, Option.bind_eq_bind, Option.bind_some,
    executeInstr_defined m hooked]
  rcases (s.callStepHook (Disasm.disassemble (Decoder.decode 32 raw))).executeInstr
    (Decoder.decode 32 raw) m with ⟨result, s', m'⟩
  cases result with
  | error e => rfl
  | ok pcModified => rfl

theorem executeWord_overflow {raw : WordT}
    (overflow : ¬s.AddressFits (Decoder.decode 32 raw)) : s.executeWordDefined raw m = none := by
  have hooked := mt (addressFits_callStepHook
    (Disasm.disassemble (Decoder.decode 32 raw))).mp overflow
  unfold executeWordDefined
  simp only [Decoder.decode_defined, Option.bind_eq_bind, Option.bind_some,
    executeInstr_overflow m hooked, Option.bind_none]

theorem stepDefined_cases (s : RVModel 32) (m : M) :
    (s.fetched m = none ∧ s.stepDefined m = some (s.step m)) ∨
      ∃ raw m', s.fetched m = some raw ∧ s.stepDefined m = s.executeWordDefined raw m' ∧
        s.step m = s.executeWord raw m' := by
  unfold fetched stepDefined step
  by_cases stopped : s.halted
  · left
    rw [if_pos stopped, if_pos stopped, if_pos stopped]
    exact ⟨rfl, rfl⟩
  rw [if_neg stopped, if_neg stopped, if_neg stopped]
  rcases translateAddr_effect s s.pc .fetch m with ⟨pa, m', eq⟩ | ⟨m', eq⟩
  · rcases read : MemT.readWord pa m' with ⟨result, m''⟩
    simp only [eq, read]
    cases result with
    | error e => exact Or.inl ⟨rfl, rfl⟩
    | ok raw =>
      by_cases zero : raw = 0#32
      · subst zero
        exact Or.inl ⟨rfl, rfl⟩
      · simp only [zero, if_false]
        exact Or.inr ⟨raw, m'', rfl, rfl, rfl⟩
  · rw [eq]
    exact Or.inl ⟨rfl, rfl⟩

end Execute

/-- The signed arithmetic of step() is defined exactly where the effective address of a fetched
    load or store does not overflow int32_t, and the step is then that of the model. -/
theorem signed_arithmetic_iff (s : RVModel 32) (m : M) :
    ((s.stepDefined m).isSome ↔
      ∀ raw, s.fetched m = some raw → s.AddressFits (Decoder.decode 32 raw)) ∧
    ∀ r, s.stepDefined m = some r → r = s.step m := by
  rcases stepDefined_cases s m with ⟨none, defined⟩ | ⟨raw, m', word, defined, stepped⟩
  · rw [none, defined]
    constructor
    · simp
    · intro r same
      exact (Option.some.inj same).symm
  · rw [word, defined, stepped]
    by_cases fits : s.AddressFits (Decoder.decode 32 raw)
    · rw [executeWord_defined m' fits]
      constructor
      · simp [fits]
      · intro r same
        exact (Option.some.inj same).symm
    · rw [executeWord_overflow m' fits]
      constructor
      · simp [fits]
      · intro r same
        cases same

/-- lb x2, 1(x1) with x1 = INT_MAX. -/
theorem load_address_overflows :
    let s : RVModel 32 := { RVModel.new ⟨0⟩ with regs := RegisterFile.new.set 1#5 0x7FFFFFFF#32 }
    let m : MemoryModel 32 Unit := .ofWords 16 [0x00108103#32] ()
    s.fetched m = some 0x00108103#32 ∧ s.stepDefined m = none := by
  decide

end RVModel

end XorOS
