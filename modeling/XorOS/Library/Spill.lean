import Mathlib.Data.List.Basic
import Mathlib.Logic.Function.Basic

/- Registers stored into slots of a memory, one after the other, and loaded back. -/
namespace Spill
variable {R A V : Type*}

section Store
variable [DecidableEq A]

def store (regs : R → V) : List (R × A) → (A → V) → A → V
  | [], mem => mem
  | (r, a) :: rest, mem => store regs rest (Function.update mem a (regs r))

theorem store_congr (regs : R → V) (slots : List (R × A)) {mem mem' : A → V} {a : A}
    (same : mem a = mem' a) : store regs slots mem a = store regs slots mem' a := by
  induction slots generalizing mem mem' with
  | nil => exact same
  | cons p rest ih =>
    apply ih
    simp only [Function.update_apply, same]

theorem store_other (regs : R → V) {slots : List (R × A)} {a : A} (other : a ∉ slots.map Prod.snd)
    (mem : A → V) : store regs slots mem a = mem a := by
  induction slots generalizing mem with
  | nil => rfl
  | cons p rest ih =>
    simp only [List.map_cons, List.mem_cons, not_or] at other
    simp only [store, ih other.2, Function.update_of_ne other.1]

theorem store_slot (regs : R → V) {slots : List (R × A)} (apart : (slots.map Prod.snd).Nodup)
    {r : R} {a : A} (slot : (r, a) ∈ slots) (mem : A → V) : store regs slots mem a = regs r := by
  induction slots generalizing mem with
  | nil => cases slot
  | cons p rest ih =>
    simp only [List.map_cons, List.nodup_cons] at apart
    rcases List.mem_cons.mp slot with here | later
    · subst here
      simp only [store, store_other regs apart.1, Function.update_self]
    · exact ih apart.2 later _

end Store

section Load
variable [DecidableEq R]

def load (mem : A → V) : List (R × A) → (R → V) → R → V
  | [], regs => regs
  | (r, a) :: rest, regs => load mem rest (Function.update regs r (mem a))

theorem load_other (mem : A → V) {slots : List (R × A)} {r : R} (other : r ∉ slots.map Prod.fst)
    (regs : R → V) : load mem slots regs r = regs r := by
  induction slots generalizing regs with
  | nil => rfl
  | cons p rest ih =>
    simp only [List.map_cons, List.mem_cons, not_or] at other
    simp only [load, ih other.2, Function.update_of_ne other.1]

theorem load_slot (mem : A → V) {slots : List (R × A)} (apart : (slots.map Prod.fst).Nodup)
    {r : R} {a : A} (slot : (r, a) ∈ slots) (regs : R → V) : load mem slots regs r = mem a := by
  induction slots generalizing regs with
  | nil => cases slot
  | cons p rest ih =>
    simp only [List.map_cons, List.nodup_cons] at apart
    rcases List.mem_cons.mp slot with here | later
    · subst here
      simp only [load, load_other mem apart.1, Function.update_self]
    · exact ih apart.2 later _

end Load

end Spill
