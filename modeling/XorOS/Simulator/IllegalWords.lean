import XorOS.Simulator.Translation

/- The instruction table of the README, and what step() makes of the words outside it. -/
namespace XorOS.ISA

structure Encoding where
  opcode : Opcode
  funct3 : Option (BitVec 3)
  funct7 : Option (BitVec 7)
  funct5 : Option (BitVec 5)
  rs2 : Option (BitVec 5)
  rs1 : Option (BitVec 5)
  rd : Option (BitVec 5)
  deriving DecidableEq

namespace Encoding

def base (opcode : Opcode) : Encoding := ⟨opcode, none, none, none, none, none, none⟩

def f3 (opcode : Opcode) (funct3 : BitVec 3) : Encoding :=
  { base opcode with funct3 := some funct3 }

def f7 (opcode : Opcode) (funct3 : BitVec 3) (funct7 : BitVec 7) : Encoding :=
  { f3 opcode funct3 with funct7 := some funct7 }

def atomic (funct5 : BitVec 5) : Encoding := { f3 .amo 0b010#3 with funct5 := some funct5 }

def bare (funct7 : BitVec 7) (rs2 : BitVec 5) : Encoding :=
  { f7 .system 0b000#3 funct7 with rs2 := some rs2, rs1 := some 0#5, rd := some 0#5 }

def fits {n : Nat} (code : Option (BitVec n)) (field : BitVec n) : Bool :=
  code.all fun c => field = c

def accepts (e : Encoding) (w : WordT) : Bool :=
  Opcode.ofBits? (getOpcode w) = some e.opcode && fits e.funct3 (getFunct3 w) &&
    fits e.funct7 (getFunct7 w) && fits e.funct5 ((getFunct7 w >>> 2).setWidth 5) &&
    fits e.rs2 (getRs2 w) && fits e.rs1 (getRs1 w) && fits e.rd (getRd w)

end Encoding

open Encoding in
def instructionTable : List Encoding :=
  -- ADD SUB ADDI LUI AUIPC
  [f7 .op 0b000#3 F7_NORMAL, f7 .op 0b000#3 F7_ALT, f3 .opImm 0b000#3, base .lui, base .auipc,
  -- AND OR XOR ANDI ORI XORI
  f7 .op 0b111#3 F7_NORMAL, f7 .op 0b110#3 F7_NORMAL, f7 .op 0b100#3 F7_NORMAL,
  f3 .opImm 0b111#3, f3 .opImm 0b110#3, f3 .opImm 0b100#3,
  -- SLL SRL SRA SLLI SRLI SRAI
  f7 .op 0b001#3 F7_NORMAL, f7 .op 0b101#3 F7_NORMAL, f7 .op 0b101#3 F7_ALT,
  f7 .opImm 0b001#3 F7_NORMAL, f7 .opImm 0b101#3 F7_NORMAL, f7 .opImm 0b101#3 F7_ALT,
  -- SLT SLTU SLTI SLTIU
  f7 .op 0b010#3 F7_NORMAL, f7 .op 0b011#3 F7_NORMAL, f3 .opImm 0b010#3, f3 .opImm 0b011#3,
  -- BEQ BNE BLT BGE BLTU BGEU
  f3 .branch 0b000#3, f3 .branch 0b001#3, f3 .branch 0b100#3, f3 .branch 0b101#3,
  f3 .branch 0b110#3, f3 .branch 0b111#3,
  -- JAL JALR
  base .jal, f3 .jalr 0b000#3,
  -- LB LH LW LBU LHU
  f3 .load 0b000#3, f3 .load 0b001#3, f3 .load 0b010#3, f3 .load 0b100#3, f3 .load 0b101#3,
  -- SB SH SW
  f3 .store 0b000#3, f3 .store 0b001#3, f3 .store 0b010#3,
  -- ECALL MRET FENCE SFENCE.VMA
  bare 0b0000000#7 0b00000#5, bare 0b0011000#7 0b00010#5, f3 .miscMem 0b000#3,
  { f7 .system 0b000#3 0b0001001#7 with rd := some 0#5 },
  -- MUL MULH MULHSU MULHU DIV DIVU REM REMU
  f7 .op 0b000#3 F7_MEXT, f7 .op 0b001#3 F7_MEXT, f7 .op 0b010#3 F7_MEXT, f7 .op 0b011#3 F7_MEXT,
  f7 .op 0b100#3 F7_MEXT, f7 .op 0b101#3 F7_MEXT, f7 .op 0b110#3 F7_MEXT, f7 .op 0b111#3 F7_MEXT,
  -- LR.W SC.W AMO(SWAP/ADD/XOR/AND/OR/MIN/MAX/MINU/MAXU)
  { atomic 0b00010#5 with rs2 := some 0#5 }, atomic 0b00011#5, atomic 0b00001#5,
  atomic 0b00000#5, atomic 0b00100#5, atomic 0b01100#5, atomic 0b01000#5, atomic 0b10000#5,
  atomic 0b10100#5, atomic 0b11000#5, atomic 0b11100#5,
  -- CSRRW CSRRS CSRRC CSRRWI CSRRSI CSRRCI
  f3 .system 0b001#3, f3 .system 0b010#3, f3 .system 0b011#3, f3 .system 0b101#3,
  f3 .system 0b110#3, f3 .system 0b111#3]

def Encodes (w : WordT) : Prop := ∃ e ∈ instructionTable, e.accepts w

instance (w : WordT) : Decidable (Encodes w) := inferInstanceAs (Decidable (∃ e ∈ _, _))

theorem encodes_f3 {w : WordT} {o : Opcode} (known : Opcode.ofBits? (getOpcode w) = some o)
    (row : Encoding.f3 o (getFunct3 w) ∈ instructionTable) : Encodes w := by
  refine ⟨_, row, ?_⟩
  simp [Encoding.accepts, Encoding.fits, Encoding.f3, Encoding.base, known]

theorem encodes_base {w : WordT} {o : Opcode} (known : Opcode.ofBits? (getOpcode w) = some o)
    (row : Encoding.base o ∈ instructionTable) : Encodes w := by
  refine ⟨_, row, ?_⟩
  simp [Encoding.accepts, Encoding.fits, Encoding.base, known]

theorem branch_listed (b : BitVec 3) : Funct3Branch.ofBits? b = none ∨
    Encoding.f3 .branch b ∈ instructionTable := by
  revert b
  decide

theorem load_listed (b : BitVec 3) : Funct3Load.ofBits? b = none ∨
    Encoding.f3 .load b ∈ instructionTable := by
  revert b
  decide

theorem store_listed (b : BitVec 3) : Funct3Store.ofBits? b = none ∨
    Encoding.f3 .store b ∈ instructionTable := by
  revert b
  decide

theorem csr_listed (b : BitVec 3) : Funct3CSR.ofBits? b = none ∨
    Encoding.f3 .system b ∈ instructionTable := by
  revert b
  decide

end XorOS.ISA

namespace XorOS.RVModel
open ISA
variable {xlen : Nat} {Dev : Type}

/-- The step from s over m has fired EXC_ILLEGAL_INSN and done nothing else that a program sees. -/
structure Rejected (s : RVModel xlen) (m : MemoryModel xlen Dev)
    (r : Except Exn Unit × RVModel xlen × MemoryModel xlen Dev) : Prop where
  returns : r.1 = .ok ()
  fired : r.2.1.trapCount = s.trapCount + 1
  cause : r.2.1.csr.read CSR.MCAUSE = uword CSR.EXC_ILLEGAL_INSN
  regs : r.2.1.regs = s.regs
  bytes : r.2.2.data = m.data
  reservation : r.2.2.lrValid = m.lrValid ∧ r.2.2.lrAddr = m.lrAddr

/-- A word outside the table that one of the default branches gets to see. -/
def Refused (s : RVModel xlen) (m : MemoryModel xlen Dev) (w : WordT) : Prop :=
  match Opcode.ofBits? (getOpcode w) with
  | none | some .branch | some .load | some .store | some .system => True
  | some .amo =>
      Funct5AMO.ofBits? ((getFunct7 w >>> 2).setWidth 5) = none ∧
        s.regs.get (getRs1 w) &&& 0b11#(xlen) = 0#(xlen) ∧
        (m.readWord (s.regs.get (getRs1 w))).isOk
  | _ => False

/-- Not the illegal instruction trap: an exception, no trap at all, or one for another cause. -/
def NotIllegal (s : RVModel xlen) (r : Except Exn Bool × RVModel xlen × MemoryModel xlen Dev) :
    Prop :=
  match r with
  | (.error _, _, _) => True
  | (.ok _, s', _) =>
      s'.trapCount = s.trapCount ∨ s'.csr.read CSR.MCAUSE ≠ uword CSR.EXC_ILLEGAL_INSN

def traced (s : RVModel xlen) (w : WordT) : RVModel xlen :=
  s.callStepHook (Disasm.disassemble (Decoder.decode xlen w))

section Illegal
variable {s : RVModel xlen} {m : MemoryModel xlen Dev} {w : WordT}

theorem step_rejected (word : s.fetched m = some w) (vector : s.csr.getMTVEC ≠ 0#(xlen))
    {tval : BitVec xlen} (exec : (s.traced w).executeInstr (Decoder.decode xlen w) m =
      (.ok true, (s.traced w).fireTrap (uword CSR.EXC_ILLEGAL_INSN) tval, m)) :
    Rejected s m (s.step m) := by
  have same : arch ((s.traced w).fireTrap (uword CSR.EXC_ILLEGAL_INSN) tval).countInstr =
      arch (s.fireTrap (uword CSR.EXC_ILLEGAL_INSN) tval) := by
    rw [arch_countInstr, arch_fireTrap, arch_fireTrap, traced, arch_callStepHook]
  obtain ⟨count, regs, _⟩ := trap_cases same
  rw [step_eq_executeWord word]
  unfold traced at exec
  unfold executeWord
  simp only [exec]
  exact ⟨rfl, count, (trap_reports vector same).1, regs, rfl, rfl, rfl⟩

theorem step_not_rejected (word : s.fetched m = some w)
    (exec : NotIllegal (s.traced w) ((s.traced w).executeInstr (Decoder.decode xlen w) m)) :
    ¬Rejected s m (s.step m) := by
  have hook : (s.traced w).trapCount = s.trapCount :=
    trapCount_of_arch (arch_callStepHook s _)
  have same : s.callStepHook (Disasm.disassemble (Decoder.decode xlen w)) = s.traced w := rfl
  rw [step_eq_executeWord word]
  unfold executeWord
  simp only [same]
  rcases eq : (s.traced w).executeInstr (Decoder.decode xlen w) m with ⟨result, s', m'⟩
  rw [eq] at exec
  rintro ⟨returns, fired, cause, _⟩
  cases result with
  | error e => cases returns
  | ok modified =>
    have count : s'.trapCount = s.trapCount + 1 := by
      cases modified with
      | true => exact fired
      | false => exact fired
    have code : s'.csr.read CSR.MCAUSE = uword CSR.EXC_ILLEGAL_INSN := by
      cases modified with
      | true => exact cause
      | false => exact cause
    rcases exec with quiet | other
    · omega
    · exact other code

theorem notIllegal_trap (wide : 32 ≤ xlen) {s : RVModel xlen} {m : MemoryModel xlen Dev}
    (vector : s.csr.getMTVEC ≠ 0#(xlen)) {cause : Nat} (small : cause < 2 ^ 32)
    (other : cause ≠ CSR.EXC_ILLEGAL_INSN) (tval : BitVec xlen) :
    NotIllegal s (.ok true, s.fireTrap (uword cause) tval, m) := by
  refine .inr fun same => other ?_
  rw [(trap_reports vector rfl).1] at same
  have numbers := congrArg BitVec.toNat same
  have fits : 2 ^ 32 ≤ 2 ^ xlen := Nat.pow_le_pow_right (by omega) wide
  rw [BitVec.toNat_ofNat, BitVec.toNat_ofNat, Nat.mod_eq_of_lt (by omega),
    Nat.mod_eq_of_lt (Nat.lt_of_lt_of_le (by decide) fits)] at numbers
  exact numbers

theorem executeJALR_notIllegal (wide : 32 ≤ xlen) {s : RVModel xlen}
    (vector : s.csr.getMTVEC ≠ 0#(xlen)) (d : DecodedInstr xlen) :
    NotIllegal s (.ok (s.executeJALR d).1, (s.executeJALR d).2, m) := by
  unfold executeJALR
  simp only
  split
  · exact notIllegal_trap wide vector (by decide) (by decide) _
  · exact .inl rfl

theorem executeOp_notIllegal {s : RVModel xlen} (ext : s.config.hasExtension Config.EXT_M = true)
    (d : DecodedInstr xlen) : NotIllegal s (.ok (s.executeOp d).1, (s.executeOp d).2, m) := by
  unfold executeOp
  simp only [ext]
  split
  · exact .inl rfl
  · exact .inl rfl

theorem executeLR_notIllegal (s : RVModel xlen) (d : DecodedInstr xlen) (pa : BitVec xlen) :
    NotIllegal s ((s.executeLR d pa m).map (Except.mapError Exn.outOfRange) id) := by
  unfold executeLR
  rw [MemoryModel.memT_readWord]
  cases m.readWord pa with
  | error e => trivial
  | ok v => exact .inl rfl

theorem executeSC_notIllegal (s : RVModel xlen) (d : DecodedInstr xlen) (pa v : BitVec xlen) :
    NotIllegal s ((s.executeSC d pa v m).map (Except.mapError Exn.outOfRange) id) := by
  unfold executeSC
  rw [MemoryModel.memT_storeConditional]
  rcases m.storeConditional pa (v.setWidth 32) with ⟨result, m'⟩
  cases result with
  | error e => trivial
  | ok stored => exact .inl rfl

theorem executeAMOrmw_notIllegal (s : RVModel xlen) (d : DecodedInstr xlen)
    {f : Option Funct5AMO} {pa v : BitVec xlen}
    (computes : ∀ w, m.readWord pa = .ok w →
      (f.bind fun f => amoResult f (w.setWidth xlen) v).isSome) :
    NotIllegal s ((s.executeAMOrmw d f pa v m).map (Except.mapError Exn.outOfRange) id) := by
  unfold executeAMOrmw
  rw [MemoryModel.memT_readWord]
  cases read : m.readWord pa with
  | error e => trivial
  | ok w =>
    obtain ⟨result, value⟩ := Option.isSome_iff_exists.mp (computes w read)
    simp only [value]
    rcases MemT.writeWord pa (result.setWidth 32) (MemT.invalidateReservation xlen m) with
      ⟨done, m'⟩
    cases done with
    | error e => trivial
    | ok => exact .inl rfl

theorem executeAMO_notIllegal (wide : 32 ≤ xlen) {s : RVModel xlen}
    (vector : s.csr.getMTVEC ≠ 0#(xlen)) (bare : ¬s.Paging)
    (ext : s.config.hasExtension Config.EXT_A = true) {d : DecodedInstr xlen}
    (accepted : Funct5AMO.ofBits? (funct5 d) ≠ none ∨
      s.regs.get d.rs1 &&& 0b11#(xlen) ≠ 0#(xlen) ∨ ¬(m.readWord (s.regs.get d.rs1)).isOk) :
    NotIllegal s ((s.executeAMO d m).map (Except.mapError Exn.outOfRange) id) := by
  unfold executeAMO
  simp only [ext]
  by_cases aligned : s.regs.get d.rs1 &&& 0b11#(xlen) = 0#(xlen)
  · rw [if_neg (by decide), if_neg (not_not.mpr aligned), translateAddr_bare bare]
    simp only
    cases which : Funct5AMO.ofBits? (funct5 d) with
    | none =>
      have unreadable := accepted.resolve_left (not_not.mpr which)
      have threw := unreadable.resolve_left (not_not.mpr aligned)
      refine executeAMOrmw_notIllegal s d fun w read => absurd ?_ threw
      rw [read]
      rfl
    | some f =>
      cases f with
      | lr => exact executeLR_notIllegal s d _
      | sc => exact executeSC_notIllegal s d _ _
      | _ => exact executeAMOrmw_notIllegal s d fun w _ => rfl
  · rw [if_neg (by decide), if_pos aligned]
    exact notIllegal_trap wide vector (by decide) (by decide) _

theorem executeInstr_default {s : RVModel xlen} (vector : s.csr.getMTVEC ≠ 0#(xlen))
    (bare : ¬s.Paging) (ext : s.config.hasExtension Config.EXT_A = true)
    (unlisted : ¬Encodes w)
    (operands : Opcode.ofBits? (getOpcode w) = some .system → getFunct3 w ≠ 0b000#3)
    (refused : Refused s m w) : ∃ tval, s.executeInstr (Decoder.decode xlen w) m =
      (.ok true, s.fireTrap (uword CSR.EXC_ILLEGAL_INSN) tval, m) := by
  unfold Refused at refused
  unfold executeInstr
  have opcode : (Decoder.decode xlen w).opcode = getOpcode w := rfl
  have funct3 : (Decoder.decode xlen w).funct3 = getFunct3 w := rfl
  rw [opcode]
  cases known : Opcode.ofBits? (getOpcode w) with
  | none =>
    unfold executeIllegal
    simp only [ne_eq, vector]
    exact ⟨_, rfl⟩
  | some o =>
    rw [known] at refused operands
    cases o with
    | branch =>
      have default := (branch_listed (getFunct3 w)).resolve_right fun row =>
        unlisted (encodes_f3 known row)
      simp only [executeBranch, funct3, default]
      exact ⟨_, rfl⟩
    | load =>
      have default := (load_listed (getFunct3 w)).resolve_right fun row =>
        unlisted (encodes_f3 known row)
      simp only [executeLoad, funct3, default, translateAddr_bare bare]
      exact ⟨_, rfl⟩
    | store =>
      have default := (store_listed (getFunct3 w)).resolve_right fun row =>
        unlisted (encodes_f3 known row)
      simp only [executeStore, funct3, default, translateAddr_bare bare]
      exact ⟨_, rfl⟩
    | system =>
      have default := (csr_listed (getFunct3 w)).resolve_right fun row =>
        unlisted (encodes_f3 known row)
      simp only [executeSystem, funct3, if_neg (operands rfl)]
      unfold executeCSR
      simp only [funct3, default]
      split
      · exact ⟨_, rfl⟩
      · exact ⟨_, rfl⟩
    | amo =>
      obtain ⟨default, aligned, readable⟩ := refused
      have rs1 : (Decoder.decode xlen w).rs1 = getRs1 w := rfl
      have code : Funct5AMO.ofBits? (funct5 (Decoder.decode xlen w)) = none := default
      simp only [executeAMO, ext, rs1, aligned, translateAddr_bare bare, code, executeAMOrmw,
        MemoryModel.memT_readWord]
      cases read : m.readWord (s.regs.get (getRs1 w)) with
      | error e =>
        rw [read] at readable
        cases readable
      | ok v => exact ⟨_, rfl⟩
    | _ => exact refused.elim

/-- The other words are executed as an instruction of the table, or trap for another reason. -/
theorem executeInstr_notIllegal (wide : 32 ≤ xlen) {s : RVModel xlen}
    (vector : s.csr.getMTVEC ≠ 0#(xlen)) (bare : ¬s.Paging)
    (mul : s.config.hasExtension Config.EXT_M = true)
    (atomic : s.config.hasExtension Config.EXT_A = true) (unlisted : ¬Encodes w)
    (fence : Opcode.ofBits? (getOpcode w) ≠ some .miscMem) (accepted : ¬Refused s m w) :
    NotIllegal s (s.executeInstr (Decoder.decode xlen w) m) := by
  unfold Refused at accepted
  unfold executeInstr
  have opcode : (Decoder.decode xlen w).opcode = getOpcode w := rfl
  rw [opcode]
  cases known : Opcode.ofBits? (getOpcode w) with
  | none =>
    rw [known] at accepted
    exact absurd trivial accepted
  | some o =>
    rw [known] at accepted fence
    cases o with
    | lui => exact absurd (encodes_base known (by decide)) unlisted
    | auipc => exact absurd (encodes_base known (by decide)) unlisted
    | jal => exact absurd (encodes_base known (by decide)) unlisted
    | miscMem => exact absurd rfl fence
    | jalr => exact executeJALR_notIllegal wide vector _
    | opImm => exact .inl rfl
    | op => exact executeOp_notIllegal mul _
    | amo =>
      refine executeAMO_notIllegal wide vector bare atomic ?_
      by_contra none
      push Not at none
      exact accepted none
    | _ => exact absurd trivial accepted

end Illegal

/-- A word outside the table, SYSTEM words with funct3 = 0 and MISC-MEM words aside, is rejected if
    and only if a default branch gets to see it. -/
theorem illegal_words_rejected_iff (wide : 32 ≤ xlen) {s : RVModel xlen}
    {m : MemoryModel xlen Dev} {w : WordT} (word : s.fetched m = some w)
    (vector : s.csr.getMTVEC ≠ 0#(xlen)) (bare : s.csr.read CSR.SATP = 0#(xlen))
    (mul : s.config.hasExtension Config.EXT_M = true)
    (atomic : s.config.hasExtension Config.EXT_A = true) (unlisted : ¬Encodes w)
    (operands : Opcode.ofBits? (getOpcode w) = some .system → getFunct3 w ≠ 0b000#3)
    (fence : Opcode.ofBits? (getOpcode w) ≠ some .miscMem) :
    Rejected s m (s.step m) ↔ Refused s m w := by
  have hook : arch (s.traced w) = arch s := arch_callStepHook s _
  have regs : (s.traced w).regs = s.regs := regs_of_arch hook
  have config : (s.traced w).config = s.config := config_of_arch hook
  have vector' : (s.traced w).csr.getMTVEC ≠ 0#(xlen) := by
    rwa [csr_of_arch hook]
  have bare' : ¬(s.traced w).Paging := by
    unfold Paging
    rw [csr_of_arch hook, bare]
    simp
  have refused : Refused (s.traced w) m w ↔ Refused s m w := by
    unfold Refused
    rw [regs]
  rw [← config] at mul atomic
  rw [← refused]
  constructor
  · intro rejected
    by_contra accepted
    exact step_not_rejected word
      (executeInstr_notIllegal wide vector' bare' mul atomic unlisted fence accepted) rejected
  · intro default
    obtain ⟨tval, exec⟩ := executeInstr_default vector' bare' atomic unlisted operands default
    exact step_rejected word vector exec

def wordCpu : RVModel 32 :=
  { RVModel.new ⟨Config.EXT_M ||| Config.EXT_A⟩ with csr := CsrFile.new.put CSR.MTVEC 0x40#32 }

def wordImage (w : WordT) : MemoryModel 32 Unit := .ofWords 16 [w] ()

/-- A load with funct3 = 3 is rejected. -/
theorem illegal_words_rejected_iff_load :
    Rejected wordCpu (wordImage 0x00003003#32) (wordCpu.step (wordImage 0x00003003#32)) :=
  (illegal_words_rejected_iff (w := 0x00003003#32) (by decide) rfl (by decide) rfl (by decide)
    (by decide) (by decide) (by decide) (by decide)).mpr trivial

/-- An OP word with funct7 = 2 is executed as ADD. -/
theorem op_executed_with_unallocated_funct7 :
    ¬Encodes 0x040000B3#32 ∧ wordCpu.fetched (wordImage 0x040000B3#32) = some 0x040000B3#32 ∧
      ¬Rejected wordCpu (wordImage 0x040000B3#32) (wordCpu.step (wordImage 0x040000B3#32)) :=
  ⟨by decide, rfl, fun rejected => nomatch rejected.fired⟩

end XorOS.RVModel
