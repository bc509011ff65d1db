import XorOS.Library.IntHart

/- Programs of the register machine: instructions one after another in memory, four bytes each,
   run for as long as none of them is stored to. -/
namespace IntHart.Hart
variable {M : Type}

def fetch (program : List Insn) (base : Nat) (h : Hart M) : Option Insn :=
  if base ≤ h.pc ∧ (h.pc - base) % 4 = 0 then program[((h.pc - base) / 4).toNat]? else none

theorem fetch_some {program : List Insn} {base : Nat} {h : Hart M} {i : Insn}
    (fetched : h.fetch program base = some i) :
    ∃ k : Nat, program[k]? = some i ∧ h.pc = base + 4 * k := by
  unfold fetch at fetched
  split at fetched
  · rename_i inside
    refine ⟨((h.pc - base) / 4).toNat, fetched, ?_⟩
    omega
  · cases fetched

def storesTo (h : Hart M) : Insn → Option (Int × Nat)
  | .store width _ rs1 offset => some (reduce (h.x rs1 + offset), width)
  | _ => none

def Spares (lo hi : Nat) (h : Hart M) (i : Insn) : Prop :=
  ∀ a width, h.storesTo i = some (a, width) → a + width ≤ lo ∨ hi ≤ a

variable [Memory M]

/-- n instructions of the program retire, and none stores to a byte from base to limit. -/
inductive Executes (program : List Insn) (base limit : Nat) : Nat → Hart M → Hart M → Prop
  | refl (h : Hart M) : Executes program base limit 0 h h
  | next {n : Nat} {h h' h'' : Hart M} {i : Insn} (fetched : h.fetch program base = some i)
      (spares : h.Spares base limit i) (done : h.step i = .done h')
      (rest : Executes program base limit n h' h'') : Executes program base limit (n + 1) h h''

/-- The program is over: the pc is behind its last instruction, or the instruction at the pc
    traps. -/
inductive Ends (program : List Insn) (base : Nat) (h : Hart M) : Bool → Prop
  | behind (pc : h.pc = base + 4 * program.length) : Ends program base h false
  | traps {i : Insn} {cause : Cause} {tval : Int} (fetched : h.fetch program base = some i)
      (trap : h.step i = .trap cause tval) : Ends program base h true

omit [Memory M] in
theorem jump_mem {h h' : Hart M} {rd : Fin 32} {target : Int}
    (done : h.jump rd target = .done h') : h'.mem = h.mem := by
  unfold jump at done
  split at done
  · cases done
  · cases done
    rfl

theorem step_mem {h h' : Hart M} {i : Insn} (done : h.step i = .done h') :
    h'.mem = h.mem ∨ ∃ a width, ∃ v : Nat, h.storesTo i = some (a, width) ∧ 0 ≤ a ∧
      Memory.write a.toNat width v h.mem = some h'.mem := by
  cases i with
  | op f rd rs1 rs2 =>
    cases done
    exact Or.inl rfl
  | opImm f rd rs1 imm =>
    cases done
    exact Or.inl rfl
  | lui rd imm =>
    cases done
    exact Or.inl rfl
  | auipc rd imm =>
    cases done
    exact Or.inl rfl
  | branch taken rs1 rs2 offset =>
    simp only [step] at done
    split at done
    · exact Or.inl (jump_mem done)
    · cases done
      exact Or.inl rfl
  | jal rd offset => exact Or.inl (jump_mem done)
  | jalr rd rs1 offset => exact Or.inl (jump_mem done)
  | load width signs rd rs1 offset =>
    simp only [step, load] at done
    split at done
    · cases done
    · split at done
      · cases done
      · cases done
        exact Or.inl rfl
  | store width rs2 rs1 offset =>
    simp only [step, store] at done
    split at done
    · cases done
    · split at done
      · cases done
      · rename_i mem wrote
        cases done
        refine Or.inr ⟨_, _, _, rfl, ?_, wrote⟩
        unfold reduce
        omega

end IntHart.Hart
