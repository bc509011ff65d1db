import Mathlib.Algebra.BigOperators.Group.Finset.Basic
import Mathlib.Tactic

/- A 32-bit register machine over the integers: a register holds an integer from 0 to 2 ^ 32 - 1,
   and an instruction leaves the exact integer result, reduced. The memory is a parameter. -/
namespace IntHart

def reduce (x : Int) : Int := x % 2 ^ 32

def signed (bits : Nat) (x : Int) : Int := if 2 * x < 2 ^ bits then x else x - 2 ^ bits

theorem signed_toNat {w : Nat} (x : BitVec w) : signed w x.toNat = x.toInt := by
  unfold signed BitVec.toInt
  by_cases low : 2 * x.toNat < 2 ^ w
  · rw [if_pos low, if_pos (by exact_mod_cast low)]
  · rw [if_neg low, if_neg (by exact_mod_cast low)]
    push_cast
    rfl

theorem signed_emod {bits : Nat} {x : Int} (lo : 0 ≤ x) (hi : x < 2 ^ bits) :
    signed bits x % 2 ^ bits = x := by
  unfold signed
  split
  · exact Int.emod_eq_of_lt lo hi
  · rw [Int.sub_emod_right, Int.emod_eq_of_lt lo hi]

theorem signed_bounds {bits : Nat} (pos : 0 < bits) {x : Int} (lo : 0 ≤ x) (hi : x < 2 ^ bits) :
    -2 ^ (bits - 1) ≤ signed bits x ∧ signed bits x < 2 ^ (bits - 1) := by
  have split : (2 : Int) ^ bits = 2 * 2 ^ (bits - 1) := by
    rw [← pow_succ', Nat.sub_add_cancel pos]
  unfold signed
  rw [split] at hi ⊢
  split
  · omega
  · omega

/-- The number that width bytes make up, least significant first. -/
def littleEndian (byte : Nat → Nat) (width : Nat) : Nat :=
  ∑ k ∈ Finset.range width, byte k * 256 ^ k

def byteOf (v k : Nat) : Nat := v / 256 ^ k % 256

/-- Byte-addressed memory: little-endian reads and writes of width bytes, none out of range. -/
class Memory (M : Type) where
  read (addr width : Nat) (m : M) : Option Nat
  write (addr width v : Nat) (m : M) : Option M

structure Hart (M : Type) where
  pc : Int
  x : Fin 32 → Int
  mem : M

inductive Insn where
  | op (f : Int → Int → Int) (rd rs1 rs2 : Fin 32)
  | opImm (f : Int → Int → Int) (rd rs1 : Fin 32) (imm : Int)
  | lui (rd : Fin 32) (imm : Int)
  | auipc (rd : Fin 32) (imm : Int)
  | branch (taken : Int → Int → Bool) (rs1 rs2 : Fin 32) (offset : Int)
  | jal (rd : Fin 32) (offset : Int)
  | jalr (rd rs1 : Fin 32) (offset : Int)
  | load (width : Nat) (signs : Bool) (rd rs1 : Fin 32) (offset : Int)
  | store (width : Nat) (rs2 rs1 : Fin 32) (offset : Int)

inductive Cause where
  | insnMisaligned | loadMisaligned | loadFault | storeMisaligned | storeFault
  deriving DecidableEq, Repr

def Cause.code : Cause → Nat
  | insnMisaligned => 0
  | loadMisaligned => 4
  | loadFault => 5
  | storeMisaligned => 6
  | storeFault => 7

inductive Outcome (M : Type) where
  | done (h : Hart M)
  | trap (cause : Cause) (tval : Int)

namespace Hart
variable {M : Type}

def set (h : Hart M) (rd : Fin 32) (v : Int) : Hart M :=
  { h with x := fun r => if r = rd ∧ rd ≠ 0 then reduce v else h.x r }

def next (h : Hart M) : Hart M := { h with pc := reduce (h.pc + 4) }

/-- A jump that links: rd gets the address behind the jump unless the target is misaligned. -/
def jump (h : Hart M) (rd : Fin 32) (target : Int) : Outcome M :=
  if target % 4 ≠ 0 then .trap .insnMisaligned target
  else .done { h.set rd (h.pc + 4) with pc := target }

variable [Memory M]

def load (h : Hart M) (width : Nat) (signs : Bool) (rd : Fin 32) (addr : Int) : Outcome M :=
  if addr % width ≠ 0 then .trap .loadMisaligned addr
  else
    match Memory.read addr.toNat width h.mem with
    | none => .trap .loadFault addr
    | some v => .done (h.set rd (if signs then signed (8 * width) v else v)).next

def store (h : Hart M) (width : Nat) (v addr : Int) : Outcome M :=
  if addr % width ≠ 0 then .trap .storeMisaligned addr
  else
    match Memory.write addr.toNat width v.toNat h.mem with
    | none => .trap .storeFault addr
    | some mem => .done { h with mem := mem }.next

def step (h : Hart M) : Insn → Outcome M
  | .op f rd rs1 rs2 => .done (h.set rd (f (h.x rs1) (h.x rs2))).next
  | .opImm f rd rs1 imm => .done (h.set rd (f (h.x rs1) (reduce imm))).next
  | .lui rd imm => .done (h.set rd imm).next
  | .auipc rd imm => .done (h.set rd (h.pc + imm)).next
  | .branch taken rs1 rs2 offset =>
      if taken (h.x rs1) (h.x rs2) then h.jump 0 (reduce (h.pc + offset)) else .done h.next
  | .jal rd offset => h.jump rd (reduce (h.pc + offset))
  | .jalr rd rs1 offset =>
      let target := reduce (h.x rs1 + offset)
      h.jump rd (target - target % 2)
  | .load width signs rd rs1 offset => h.load width signs rd (reduce (h.x rs1 + offset))
  | .store width rs2 rs1 offset => h.store width (h.x rs2) (reduce (h.x rs1 + offset))

omit [Memory M] in
theorem jump_tval {h : Hart M} {rd : Fin 32} {target tval : Int} {cause : Cause}
    (traps : h.jump rd target = .trap cause tval) : tval = target := by
  unfold jump at traps
  split at traps
  · cases traps
    rfl
  · cases traps

theorem load_tval {h : Hart M} {width : Nat} {signs : Bool} {rd : Fin 32} {addr tval : Int}
    {cause : Cause} (traps : h.load width signs rd addr = .trap cause tval) : tval = addr := by
  unfold load at traps
  split at traps
  · cases traps
    rfl
  · split at traps
    · cases traps
      rfl
    · cases traps

theorem store_tval {h : Hart M} {width : Nat} {v addr tval : Int} {cause : Cause}
    (traps : h.store width v addr = .trap cause tval) : tval = addr := by
  unfold store at traps
  split at traps
  · cases traps
    rfl
  · split at traps
    · cases traps
      rfl
    · cases traps

theorem step_tval {h : Hart M} {i : Insn} {cause : Cause} {tval : Int}
    (traps : h.step i = .trap cause tval) : 0 ≤ tval ∧ tval < 2 ^ 32 := by
  have range (x : Int) : 0 ≤ reduce x ∧ reduce x < 2 ^ 32 := by
    unfold reduce
    omega
  cases i with
  | op f rd rs1 rs2 => cases traps
  | opImm f rd rs1 imm => cases traps
  | lui rd imm => cases traps
  | auipc rd imm => cases traps
  | branch taken rs1 rs2 offset =>
    simp only [step] at traps
    split at traps
    · rw [jump_tval traps]
      exact range _
    · cases traps
  | jal rd offset =>
    rw [jump_tval traps]
    exact range _
  | jalr rd rs1 offset =>
    have bounds := range (h.x rs1 + offset)
    rw [jump_tval traps]
    omega
  | load width signs rd rs1 offset =>
    rw [load_tval traps]
    exact range _
  | store width rs2 rs1 offset =>
    rw [store_tval traps]
    exact range _

end Hart

end IntHart
