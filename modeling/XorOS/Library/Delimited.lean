import XorOS.Library.Text

/- Printers whose text shows where it ends, so that whatever follows it can be told from it.
   Numbers with a fixed count of digits, and texts that are closed by a symbol. -/
namespace Text
variable {σ α : Type*}

/-- The value and the rest can be read off a text that starts with a printed value. -/
def Delimits (print : α → List σ) : Prop :=
  ∀ ⦃a b : α⦄ ⦃x y : List σ⦄, print a ++ x = print b ++ y → a = b ∧ x = y

theorem skip {word : List σ} {more more' : List (List σ)} {x y : List σ}
    (same : (word :: more).flatten ++ x = (word :: more').flatten ++ y) :
    more.flatten ++ x = more'.flatten ++ y := by
  rw [List.flatten_cons, List.flatten_cons, List.append_assoc, List.append_assoc] at same
  exact List.append_cancel_left same

namespace Delimits
variable {print : α → List σ}

theorem fixed {n : Nat} (size : ∀ a, (print a).length = n)
    (injective : Function.Injective print) : Delimits print := by
  intro a b x y same
  obtain ⟨heads, tails⟩ := List.append_inj same ((size a).trans (size b).symm)
  exact ⟨injective heads, tails⟩

theorem closed {sep : σ} (clean : ∀ a, sep ∉ print a) (injective : Function.Injective print) :
    Delimits fun a => print a ++ [sep] := by
  intro a b x y same
  simp only [List.append_assoc, List.singleton_append] at same
  obtain ⟨heads, tails⟩ := append_split (clean a) (clean b) (Or.inr rfl) (Or.inr rfl) same
  exact ⟨injective heads, (List.cons.inj tails).2⟩

theorem piece (delimits : Delimits print) {a b : α} {more more' : List (List σ)} {x y : List σ}
    (same : (print a :: more).flatten ++ x = (print b :: more').flatten ++ y) :
    a = b ∧ more.flatten ++ x = more'.flatten ++ y := by
  rw [List.flatten_cons, List.flatten_cons, List.append_assoc, List.append_assoc] at same
  exact delimits same

theorem flatMap (delimits : Delimits print) (visible : ∀ a, print a ≠ []) :
    Function.Injective fun as : List α => as.flatMap print := by
  intro as
  induction as with
  | nil =>
    intro bs same
    cases bs with
    | nil => rfl
    | cons b bs =>
      have empty : print b ++ bs.flatMap print = [] := same.symm
      exact absurd (List.append_eq_nil_iff.mp empty).1 (visible b)
  | cons a as ih =>
    intro bs same
    cases bs with
    | nil =>
      have empty : print a ++ as.flatMap print = [] := same
      exact absurd (List.append_eq_nil_iff.mp empty).1 (visible a)
    | cons b bs =>
      simp only [List.flatMap_cons] at same
      obtain ⟨rfl, rest⟩ := delimits same
      rw [ih rest]

end Delimits

theorem table_tells {ι : Type*} {cells : List ι} {f g : ι → List σ} {Told : ι → Prop}
    (each : ∀ i ∈ cells, ∀ ⦃x y : List σ⦄, f i ++ x = g i ++ y → Told i ∧ x = y) {x y : List σ}
    (same : cells.flatMap f ++ x = cells.flatMap g ++ y) : (∀ i ∈ cells, Told i) ∧ x = y := by
  induction cells with
  | nil => exact ⟨fun _ none => absurd none List.not_mem_nil, same⟩
  | cons i cells ih =>
    rw [List.flatMap_cons, List.flatMap_cons, List.append_assoc, List.append_assoc] at same
    obtain ⟨told, rest⟩ := each i List.mem_cons_self same
    obtain ⟨others, tails⟩ := ih (fun j member => each j (List.mem_cons_of_mem i member)) rest
    exact ⟨List.forall_mem_cons.mpr ⟨told, others⟩, tails⟩

def digits (base : Nat) : Nat → Nat → List Char
  | 0, _ => []
  | size + 1, n => digits base size (n / base) ++ [Nat.digitChar (n % base)]

theorem length_digits (base size n : Nat) : (digits base size n).length = size := by
  induction size generalizing n with
  | zero => rfl
  | succ size ih => simp [digits, ih]

theorem digits_zero (base size : Nat) : digits base size 0 = List.replicate size '0' := by
  induction size with
  | zero => rfl
  | succ size ih =>
    rw [digits, Nat.zero_div, Nat.zero_mod, ih, List.replicate_succ']
    rfl

section Base
variable {base : Nat} (large : 1 < base) (listed : base ≤ 16)
include large

include listed in
theorem digits_injective {size m n : Nat} (hm : m < base ^ size) (hn : n < base ^ size)
    (same : digits base size m = digits base size n) : m = n := by
  induction size generalizing m n with
  | zero =>
    rw [Nat.pow_zero] at hm hn
    omega
  | succ size ih =>
    obtain ⟨high, low⟩ := List.append_inj' same rfl
    have quotients := ih (Nat.div_lt_of_lt_mul (by rwa [Nat.mul_comm, ← Nat.pow_succ]))
      (Nat.div_lt_of_lt_mul (by rwa [Nat.mul_comm, ← Nat.pow_succ])) high
    have lowest := digitChar_injective
      (Nat.lt_of_lt_of_le (Nat.mod_lt m (by omega)) listed)
      (Nat.lt_of_lt_of_le (Nat.mod_lt n (by omega)) listed) (List.cons.inj low).1
    rw [← Nat.div_add_mod m base, ← Nat.div_add_mod n base, quotients, lowest]

theorem padded_toDigits {size n : Nat} (some : 0 < size) (small : n < base ^ size) :
    List.replicate (size - (Nat.toDigits base n).length) '0' ++ Nat.toDigits base n =
      digits base size n := by
  induction size generalizing n with
  | zero => omega
  | succ size ih =>
    rw [Nat.toDigits_eq_if large]
    split
    · rename_i digit
      rw [digits, Nat.div_eq_of_lt digit, Nat.mod_eq_of_lt digit, digits_zero]
      rfl
    · rename_i long
      have quotient : n / base < base ^ size :=
        Nat.div_lt_of_lt_mul (by rwa [Nat.mul_comm, ← Nat.pow_succ])
      have more : 0 < size := by
        by_contra none
        have zero : size = 0 := by omega
        subst zero
        have first : 1 ≤ n / base := (Nat.one_le_div_iff (by omega)).mpr (by omega)
        rw [Nat.pow_zero] at quotient
        omega
      rw [digits, ← ih more quotient, List.length_append, List.length_singleton,
        Nat.add_sub_add_right, List.append_assoc]

end Base

theorem delimits_word {w size : Nat} (fits : 2 ^ w ≤ 16 ^ size) :
    Delimits fun v : BitVec w => digits 16 size v.toNat := by
  refine Delimits.fixed (fun (v : BitVec w) => length_digits 16 size v.toNat) ?_
  intro (u : BitVec w) (v : BitVec w) same
  exact BitVec.eq_of_toNat_eq (digits_injective (by omega) (Nat.le_refl 16)
    (Nat.lt_of_lt_of_le u.isLt fits) (Nat.lt_of_lt_of_le v.isLt fits) same)

end Text
