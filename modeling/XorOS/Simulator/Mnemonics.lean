import XorOS.Library.Text
import XorOS.Simulator.EncodeDecode

/- The text of disassemble as a mnemonic and its operands, which can be read back from it. -/
namespace XorOS.Disasm
open ISA

inductive Mnemonic where
  | opImm (f : Funct3ALU)
  | srai
  | op (f : Funct3ALU)
  | sub
  | sra
  | mext (f : Funct3MUL)
  | load (f : Funct3Load)
  | store (f : Funct3Store)
  | branch (f : Funct3Branch)
  | lui
  | auipc
  | jal
  | jalr
  | ecall
  | ebreak
  | mret
  | csr (f : Funct3CSR)
  | fence
  | amo (f : Funct5AMO)
  deriving DecidableEq

namespace Mnemonic

def text : Mnemonic → String
  | opImm .addSub => "addi"
  | opImm .sll => "slli"
  | opImm .slt => "slti"
  | opImm .sltu => "sltiu"
  | opImm .xor => "xori"
  | opImm .srlSra => "srli"
  | opImm .or => "ori"
  | opImm .and => "andi"
  | srai => "srai"
  | op .addSub => "add"
  | op .sll => "sll"
  | op .slt => "slt"
  | op .sltu => "sltu"
  | op .xor => "xor"
  | op .srlSra => "srl"
  | op .or => "or"
  | op .and => "and"
  | sub => "sub"
  | sra => "sra"
  | mext .mul => "mul"
  | mext .mulh => "mulh"
  | mext .mulhsu => "mulhsu"
  | mext .mulhu => "mulhu"
  | mext .div => "div"
  | mext .divu => "divu"
  | mext .rem => "rem"
  | mext .remu => "remu"
  | load .lb => "lb"
  | load .lh => "lh"
  | load .lw => "lw"
  | load .lbu => "lbu"
  | load .lhu => "lhu"
  | store .sb => "sb"
  | store .sh => "sh"
  | store .sw => "sw"
  | branch .beq => "beq"
  | branch .bne => "bne"
  | branch .blt => "blt"
  | branch .bge => "bge"
  | branch .bltu => "bltu"
  | branch .bgeu => "bgeu"
  | lui => "lui"
  | auipc => "auipc"
  | jal => "jal"
  | jalr => "jalr"
  | ecall => "ecall"
  | ebreak => "ebreak"
  | mret => "mret"
  | csr .csrrw => "csrrw"
  | csr .csrrs => "csrrs"
  | csr .csrrc => "csrrc"
  | csr .csrrwi => "csrrwi"
  | csr .csrrsi => "csrrsi"
  | csr .csrrci => "csrrci"
  | fence => "fence"
  | amo .lr => "lr.w"
  | amo .sc => "sc.w"
  | amo .amoswap => "amoswap.w"
  | amo .amoadd => "amoadd.w"
  | amo .amoxor => "amoxor.w"
  | amo .amoor => "amoor.w"
  | amo .amoand => "amoand.w"
  | amo .amomin => "amomin.w"
  | amo .amomax => "amomax.w"
  | amo .amominu => "amominu.w"
  | amo .amomaxu => "amomaxu.w"

def all : List Mnemonic :=
  [.addSub, .sll, .slt, .sltu, .xor, .srlSra, .or, .and].flatMap (fun f => [opImm f, op f]) ++
  [.mul, .mulh, .mulhsu, .mulhu, .div, .divu, .rem, .remu].map mext ++
  [.lb, .lh, .lw, .lbu, .lhu].map load ++ [.sb, .sh, .sw].map store ++
  [.beq, .bne, .blt, .bge, .bltu, .bgeu].map branch ++
  [.csrrw, .csrrs, .csrrc, .csrrwi, .csrrsi, .csrrci].map csr ++
  [.lr, .sc, .amoswap, .amoadd, .amoxor, .amoor, .amoand, .amomin, .amomax, .amominu,
    .amomaxu].map amo ++
  [srai, sub, sra, lui, auipc, jal, jalr, ecall, ebreak, mret, fence]

theorem mem_all (k : Mnemonic) : k ∈ all := by
  cases k with
  | opImm f => cases f with | _ => decide
  | op f => cases f with | _ => decide
  | mext f => cases f with | _ => decide
  | load f => cases f with | _ => decide
  | store f => cases f with | _ => decide
  | branch f => cases f with | _ => decide
  | csr f => cases f with | _ => decide
  | amo f => cases f with | _ => decide
  | _ => decide

theorem text_injective {k k' : Mnemonic} (same : k.text = k'.text) : k = k' := by
  have distinct : (all.map text).Nodup := by decide
  exact List.inj_on_of_nodup_map distinct (mem_all k) (mem_all k') same

theorem text_plain (k : Mnemonic) :
    ' ' ∉ k.text.toList ∧ ¬"unknown".toList <+: k.text.toList := by
  have plain : ∀ k ∈ all, ' ' ∉ k.text.toList ∧ ¬"unknown".toList <+: k.text.toList := by decide
  exact plain k (mem_all k)

end Mnemonic

variable (d : DecodedInstr 32)

/-- The mnemonic that disassemble chooses, none where it falls through to "unknown". -/
def mnemonic : Option Mnemonic :=
  match Opcode.ofBits? d.opcode with
  | some .opImm =>
      let f := Funct3ALU.ofBits d.funct3
      some (if f = .srlSra ∧ d.funct7 = F7_ALT then .srai else .opImm f)
  | some .op =>
      let f := Funct3ALU.ofBits d.funct3
      some (if d.funct7 = F7_MEXT then .mext (Funct3MUL.ofBits d.funct3)
        else if f = .addSub ∧ d.funct7 = F7_ALT then .sub
        else if f = .srlSra ∧ d.funct7 = F7_ALT then .sra else .op f)
  | some .load => (Funct3Load.ofBits? d.funct3).map .load
  | some .store => (Funct3Store.ofBits? d.funct3).map .store
  | some .branch => (Funct3Branch.ofBits? d.funct3).map .branch
  | some .lui => some .lui
  | some .auipc => some .auipc
  | some .jal => some .jal
  | some .jalr => some .jalr
  | some .system =>
      if d.funct3 = 0#3 ∧ d.imm = 0#32 then some .ecall
      else if d.funct3 = 0#3 ∧ d.imm = 1#32 then some .ebreak
      else if d.funct3 = 0#3 ∧ d.imm = 0x302#32 then some .mret
      else (Funct3CSR.ofBits? d.funct3).map .csr
  | some .miscMem => some .fence
  | some .amo => (Funct5AMO.ofBits? ((d.funct7 >>> 2).setWidth 5)).map .amo
  | none => none

def offsetText : String := immText d ++ "(" ++ regName d.rs1 ++ ")"

def pointerText : String := "(" ++ regName d.rs1 ++ ")"

def csrArg : Funct3CSR → String
  | .csrrw | .csrrs | .csrrc => regName d.rs1
  | .csrrwi | .csrrsi | .csrrci => toString d.rs1.toNat

def operands : Mnemonic → List String
  | .opImm .sll | .opImm .srlSra | .srai => [regName d.rd, regName d.rs1, toString d.rs2.toNat]
  | .opImm _ | .jalr => [regName d.rd, regName d.rs1, immText d]
  | .op _ | .sub | .sra | .mext _ => [regName d.rd, regName d.rs1, regName d.rs2]
  | .load _ => [regName d.rd, offsetText d]
  | .store _ => [regName d.rs2, offsetText d]
  | .branch _ => [regName d.rs1, regName d.rs2, immText d]
  | .lui | .auipc => [regName d.rd, toString (d.imm.sshiftRight 12).toInt]
  | .jal => [regName d.rd, immText d]
  | .csr f => [regName d.rd, csrText d, csrArg d f]
  | .amo .lr => [regName d.rd, pointerText d]
  | .amo _ => [regName d.rd, regName d.rs2, pointerText d]
  | .ecall | .ebreak | .mret | .fence => []

section Lines
variable (mn : String)

theorem line_three (a b c : String) :
    mn ++ " " ++ a ++ ", " ++ b ++ ", " ++ c = Text.line mn [a, b, c] := by
  simp [Text.line, Text.listed, String.append_assoc]

theorem line_two (a b : String) : mn ++ " " ++ a ++ ", " ++ b = Text.line mn [a, b] := by
  simp [Text.line, Text.listed, String.append_assoc]

theorem line_offset (a : String) :
    mn ++ " " ++ a ++ ", " ++ immText d ++ "(" ++ regName d.rs1 ++ ")" =
      Text.line mn [a, offsetText d] := by
  simp [Text.line, Text.listed, offsetText, String.append_assoc]

theorem line_pointer :
    amotype d mn = Text.line mn [regName d.rd, regName d.rs2, pointerText d] := by
  have comma : ", (" = ", " ++ "(" := by decide
  unfold amotype pointerText
  rw [comma]
  simp only [Text.line, Text.listed, String.append_assoc, String.append_empty]

end Lines

theorem known_eq : known d = (mnemonic d).map fun k => Text.line k.text (operands d k) := by
  unfold known mnemonic
  cases Opcode.ofBits? d.opcode with
  | none => rfl
  | some o =>
    cases o with
    | opImm =>
      simp only [opImmText, Option.map_some]
      cases Funct3ALU.ofBits d.funct3 with
      | srlSra =>
        by_cases alt : d.funct7 = F7_ALT
        · simp only [alt, and_self, if_true]
          exact congrArg some (line_three _ _ _ _)
        · simp only [alt, and_false, if_false]
          exact congrArg some (line_three _ _ _ _)
      | _ => exact congrArg some (line_three _ _ _ _)
    | load =>
      simp only [loadText]
      cases Funct3Load.ofBits? d.funct3 with
      | none => rfl
      | some f =>
        cases f with
        | _ => exact congrArg some (line_offset d _ _)
    | store =>
      simp only [storeText]
      cases Funct3Store.ofBits? d.funct3 with
      | none => rfl
      | some f =>
        cases f with
        | _ => exact congrArg some (line_offset d _ _)
    | branch =>
      simp only [branchText]
      cases Funct3Branch.ofBits? d.funct3 with
      | none => rfl
      | some f =>
        cases f with
        | _ => exact congrArg some (line_three _ _ _ _)
    | lui => exact congrArg some (line_two _ _ _)
    | auipc => exact congrArg some (line_two _ _ _)
    | jal =>
      have head : "jal " = "jal" ++ " " := by decide
      simp only [Option.map_some]
      rw [head]
      exact congrArg some (line_two _ _ _)
    | jalr =>
      have head : "jalr " = "jalr" ++ " " := by decide
      simp only [Option.map_some]
      rw [head]
      exact congrArg some (line_three _ _ _ _)
    | miscMem => rfl
    | op =>
      simp only [opText, Option.map_some]
      by_cases mext : d.funct7 = F7_MEXT
      · simp only [mext, if_true]
        cases Funct3MUL.ofBits d.funct3 with
        | _ => exact congrArg some (line_three _ _ _ _)
      · simp only [mext, if_false]
        cases Funct3ALU.ofBits d.funct3 with
        | addSub =>
          by_cases alt : d.funct7 = F7_ALT
          · simp only [alt, and_self, if_true]
            exact congrArg some (line_three _ _ _ _)
          · simp only [alt, and_false, if_false]
            exact congrArg some (line_three _ _ _ _)
        | srlSra =>
          by_cases alt : d.funct7 = F7_ALT
          · simp only [alt, and_self, if_true]
            exact congrArg some (line_three _ _ _ _)
          · simp only [alt, and_false, if_false]
            exact congrArg some (line_three _ _ _ _)
        | _ => exact congrArg some (line_three _ _ _ _)
    | system =>
      simp only [systemText]
      split
      · rfl
      split
      · rfl
      split
      · rfl
      simp only [csrInstrText]
      cases Funct3CSR.ofBits? d.funct3 with
      | none => rfl
      | some f =>
        cases f with
        | _ => exact congrArg some (line_three _ _ _ _)
    | amo =>
      simp only [amoText]
      cases Funct5AMO.ofBits? ((d.funct7 >>> 2).setWidth 5) with
      | none => rfl
      | some f =>
        cases f with
        | lr =>
          have head : "lr.w " = "lr.w" ++ " " := by decide
          have comma : ", (" = ", " ++ "(" := by decide
          simp only [Option.map_some, operands, pointerText, Mnemonic.text]
          rw [head, comma]
          simp only [Text.line, Text.listed, String.append_assoc, String.append_empty]
        | _ => exact congrArg some (line_pointer d _)

theorem regName_plain (r : BitVec 5) : ',' ∉ (regName r).toList := by
  revert r
  decide

theorem regName_injective {r r' : BitVec 5} (same : regName r = regName r') : r = r' := by
  have table : ∀ r r' : BitVec 5, regName r = regName r' → r = r' := by decide
  exact table r r' same

theorem repr_plain (i : Int) : ',' ∉ (toString i).toList ∧ '(' ∉ (toString i).toList := by
  constructor
  · intro member
    rcases Text.mem_repr i member with sign | digit
    · cases sign
    · cases digit
  · intro member
    rcases Text.mem_repr i member with sign | digit
    · cases sign
    · cases digit

theorem nat_plain (n : Nat) : ',' ∉ (toString n).toList := (repr_plain (n : Int)).1

theorem immText_injective {d d' : DecodedInstr 32} (same : immText d = immText d') :
    d.imm = d'.imm := BitVec.toInt_inj.mp (Int.repr_injective same)

theorem offsetText_plain : ',' ∉ (offsetText d).toList := by
  unfold offsetText
  simp only [String.toList_append, List.mem_append, not_or]
  exact ⟨⟨⟨(repr_plain _).1, by decide⟩, regName_plain _⟩, by decide⟩

theorem offsetText_injective {d d' : DecodedInstr 32} (same : offsetText d = offsetText d') :
    d.imm = d'.imm ∧ d.rs1 = d'.rs1 := by
  have lists := congrArg String.toList same
  unfold offsetText at lists
  simp only [String.toList_append, List.append_assoc] at lists
  obtain ⟨imm, rest⟩ := Text.append_split (repr_plain d.imm.toInt).2 (repr_plain d'.imm.toInt).2
    (.inr rfl) (.inr rfl) lists
  have reg := List.append_cancel_right (List.append_cancel_left rest)
  exact ⟨immText_injective (String.toList_inj.mp imm), regName_injective (String.toList_inj.mp reg)⟩

theorem pointerText_plain : ',' ∉ (pointerText d).toList := by
  unfold pointerText
  simp only [String.toList_append, List.mem_append, not_or]
  exact ⟨⟨by decide, regName_plain _⟩, by decide⟩

theorem pointerText_injective {d d' : DecodedInstr 32} (same : pointerText d = pointerText d') :
    d.rs1 = d'.rs1 := by
  have lists := congrArg String.toList same
  unfold pointerText at lists
  simp only [String.toList_append, List.append_assoc] at lists
  have reg := List.append_cancel_right (List.append_cancel_left lists)
  exact regName_injective (String.toList_inj.mp reg)

def csrNames : List (BitVec 12 × String) :=
  [(0x180#12, "satp"), (0x300#12, "mstatus"), (0x301#12, "misa"), (0x304#12, "mie"),
    (0x305#12, "mtvec"), (0x340#12, "mscratch"), (0x341#12, "mepc"), (0x342#12, "mcause"),
    (0x343#12, "mtval"), (0x344#12, "mip"), (0xB00#12, "mcycle"), (0xB02#12, "minstret"),
    (0xF11#12, "mvendorid"), (0xF12#12, "marchid"), (0xF13#12, "mimpid"), (0xF14#12, "mhartid")]

theorem csrName_cases (a : BitVec 12) :
    (a, csrName a) ∈ csrNames ∨ csrName a = toHex a.toNat := by
  unfold csrName
  split
  case h_17 => exact .inr rfl
  all_goals exact .inl (by decide)

theorem toHex_plain (n : Nat) : ',' ∉ (toHex n).toList := by
  unfold toHex
  rw [String.toList_append, List.mem_append, not_or]
  refine ⟨by decide, fun member => ?_⟩
  rw [String.toList_ofList] at member
  obtain ⟨digit, small, same⟩ := Text.mem_toDigits (by omega : 1 < 16) n _ member
  have digits : ∀ i < 16, ',' ≠ Nat.digitChar i := by decide
  exact digits digit small same

theorem csrName_plain (a : BitVec 12) : ',' ∉ (csrName a).toList := by
  rcases csrName_cases a with row | hex
  · have rows : ∀ row ∈ csrNames, ',' ∉ row.2.toList := by decide
    exact rows _ row
  · rw [hex]
    exact toHex_plain _

theorem csrName_injective {a a' : BitVec 12} (same : csrName a = csrName a') : a = a' := by
  have named {b : BitVec 12} {n : Nat} (row : (b, csrName b) ∈ csrNames) :
      csrName b ≠ toHex n := by
    have rows : ∀ row ∈ csrNames, row.2.toList.head? ≠ some '0' := by decide
    intro hex
    refine rows _ row ?_
    change (csrName b).toList.head? = some '0'
    rw [hex]
    unfold toHex
    rw [String.toList_append]
    rfl
  rcases csrName_cases a with row | hex
  · rcases csrName_cases a' with row' | hex'
    · have rows : ∀ row ∈ csrNames, ∀ row' ∈ csrNames, row.2 = row'.2 → row.1 = row'.1 := by decide
      exact rows _ row _ row' same
    · exact absurd (same.trans hex') (named row)
  · rcases csrName_cases a' with row' | hex'
    · exact absurd (same.symm.trans hex) (named row')
    · rw [hex, hex'] at same
      unfold toHex at same
      have lists := congrArg String.toList same
      simp only [String.toList_append, String.toList_ofList] at lists
      exact BitVec.eq_of_toNat_eq
        (Text.toDigits_injective (by omega) (by omega) _ (List.append_cancel_left lists))

theorem csrArg_plain (f : Funct3CSR) : ',' ∉ (csrArg d f).toList := by
  cases f with
  | csrrw => exact regName_plain _
  | csrrs => exact regName_plain _
  | csrrc => exact regName_plain _
  | csrrwi => exact nat_plain _
  | csrrsi => exact nat_plain _
  | csrrci => exact nat_plain _

theorem natText_injective {r r' : BitVec 5} (same : toString r.toNat = toString r'.toNat) :
    r = r' := BitVec.eq_of_toNat_eq (Nat.repr_injective same)

theorem csrArg_injective {d d' : DecodedInstr 32} {f : Funct3CSR}
    (same : csrArg d f = csrArg d' f) : d.rs1 = d'.rs1 := by
  cases f with
  | csrrw => exact regName_injective same
  | csrrs => exact regName_injective same
  | csrrc => exact regName_injective same
  | csrrwi => exact natText_injective same
  | csrrsi => exact natText_injective same
  | csrrci => exact natText_injective same

theorem operands_plain (k : Mnemonic) : ∀ x ∈ operands d k, ',' ∉ x.toList := by
  unfold operands
  split
  all_goals simp only [List.forall_mem_cons, List.not_mem_nil, false_imp_iff, implies_true,
    and_true, regName_plain, offsetText_plain, pointerText_plain, nat_plain, csrArg_plain, immText,
    not_false_eq_true, true_and, csrText, csrName_plain]
  all_goals exact (repr_plain _).1

theorem known_injective {d d' : DecodedInstr 32} {k k' : Mnemonic} (which : mnemonic d = some k)
    (which' : mnemonic d' = some k') (same : disassemble d = disassemble d') :
    k = k' ∧ operands d k = operands d' k' := by
  unfold disassemble at same
  rw [known_eq, known_eq, which, which'] at same
  obtain ⟨texts, parts⟩ := Text.line_injective k.text_plain.1 k'.text_plain.1
    (operands_plain d k) (operands_plain d' k') same
  exact ⟨Mnemonic.text_injective texts, parts⟩

theorem unknown_iff : "unknown".toList <+: (disassemble d).toList ↔ mnemonic d = none := by
  unfold disassemble
  rw [known_eq]
  cases which : mnemonic d with
  | none =>
    have head : "unknown " = "unknown" ++ " " := by decide
    simp only [Option.map_none, Option.getD_none, iff_true]
    rw [head, String.toList_append, String.toList_append, List.append_assoc]
    exact List.prefix_append _ _
  | some k =>
    simp only [Option.map_some, Option.getD_some, reduceCtorEq, iff_false]
    intro starts
    exact k.text_plain.2 (Text.prefix_of_line (by decide) starts)

end XorOS.Disasm
