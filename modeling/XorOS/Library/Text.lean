import Mathlib

/- Lines of text: a head, a blank and operands with ", " between them. Where no head has a blank and
   no operand a comma, a line can be read back. Numbers in a base up to sixteen. -/
namespace Text

theorem append_split {α : Type*} {sep : α} {a b x y : List α} (ha : sep ∉ a) (hb : sep ∉ b)
    (hx : x = [] ∨ x.head? = some sep) (hy : y = [] ∨ y.head? = some sep)
    (same : a ++ x = b ++ y) : a = b ∧ x = y := by
  induction a generalizing b with
  | nil =>
    cases b with
    | nil => exact ⟨rfl, same⟩
    | cons d b =>
      rw [List.nil_append] at same
      rw [same] at hx
      rcases hx with empty | first
      · cases empty
      · exact absurd (List.mem_cons.mpr (.inl (Option.some.inj first).symm)) hb
  | cons c a ih =>
    cases b with
    | nil =>
      rw [List.nil_append] at same
      rw [← same] at hy
      rcases hy with empty | first
      · cases empty
      · exact absurd (List.mem_cons.mpr (.inl (Option.some.inj first).symm)) ha
    | cons d b =>
      obtain ⟨rfl, rest⟩ := List.cons.inj same
      obtain ⟨rfl, tails⟩ := ih (List.not_mem_of_not_mem_cons ha)
        (List.not_mem_of_not_mem_cons hb) rest
      exact ⟨rfl, tails⟩

def listed : List String → String
  | [] => ""
  | x :: rest => ", " ++ x ++ listed rest

def line (head : String) : List String → String
  | [] => head
  | x :: rest => head ++ " " ++ x ++ listed rest

theorem listed_head (parts : List String) :
    (listed parts).toList = [] ∨ (listed parts).toList.head? = some ',' := by
  cases parts with
  | nil => exact .inl rfl
  | cons x rest =>
    right
    simp [listed]

theorem listed_injective {parts : List String} :
    ∀ {parts' : List String}, (∀ x ∈ parts, ',' ∉ x.toList) → (∀ x ∈ parts', ',' ∉ x.toList) →
      (listed parts).toList = (listed parts').toList → parts = parts' := by
  induction parts with
  | nil =>
    intro parts' _ _ same
    cases parts' with
    | nil => rfl
    | cons y rest' => simp [listed] at same
  | cons x rest ih =>
    intro parts' clean clean' same
    cases parts' with
    | nil => simp [listed] at same
    | cons y rest' =>
      simp only [listed, String.toList_append, List.append_assoc] at same
      obtain ⟨first, tails⟩ := append_split (clean x List.mem_cons_self)
        (clean' y List.mem_cons_self) (listed_head rest) (listed_head rest')
        (List.append_cancel_left same)
      rw [String.toList_inj.mp first,
        ih (fun z member => clean z (List.mem_cons_of_mem x member))
          (fun z member => clean' z (List.mem_cons_of_mem y member)) tails]

theorem line_injective {head head' : String} {parts parts' : List String}
    (blank : ' ' ∉ head.toList) (blank' : ' ' ∉ head'.toList)
    (clean : ∀ x ∈ parts, ',' ∉ x.toList) (clean' : ∀ x ∈ parts', ',' ∉ x.toList)
    (same : line head parts = line head' parts') : head = head' ∧ parts = parts' := by
  have tail (h : String) (p : List String) : ∃ rest, (line h p).toList = h.toList ++ rest ∧
      (p = [] ∧ rest = [] ∨ ∃ x q, p = x :: q ∧ rest = ' ' :: (x.toList ++ (listed q).toList)) := by
    cases p with
    | nil => exact ⟨[], by simp [line], .inl ⟨rfl, rfl⟩⟩
    | cons x q => exact ⟨_, by simp [line], .inr ⟨x, q, rfl, rfl⟩⟩
  obtain ⟨rest, eq, cases⟩ := tail head parts
  obtain ⟨rest', eq', cases'⟩ := tail head' parts'
  have starts {p : List String} {r : List Char} (h : p = [] ∧ r = [] ∨
      ∃ x q, p = x :: q ∧ r = ' ' :: (x.toList ++ (listed q).toList)) :
      r = [] ∨ r.head? = some ' ' := by
    rcases h with ⟨_, rfl⟩ | ⟨x, q, _, rfl⟩
    · exact .inl rfl
    · exact .inr rfl
  have lists : head.toList ++ rest = head'.toList ++ rest' := by
    rw [← eq, ← eq', same]
  obtain ⟨heads, rests⟩ := append_split blank blank' (starts cases) (starts cases') lists
  refine ⟨String.toList_inj.mp heads, ?_⟩
  rcases cases with ⟨rfl, rfl⟩ | ⟨x, q, rfl, rfl⟩
  · rcases cases' with ⟨rfl, _⟩ | ⟨y, q', _, rfl⟩
    · rfl
    · cases rests
  · rcases cases' with ⟨_, rfl⟩ | ⟨y, q', rfl, rfl⟩
    · cases rests
    · obtain ⟨first, tails⟩ := append_split (clean x List.mem_cons_self)
        (clean' y List.mem_cons_self) (listed_head q) (listed_head q') (List.cons.inj rests).2
      rw [String.toList_inj.mp first,
        listed_injective (fun z member => clean z (List.mem_cons_of_mem x member))
          (fun z member => clean' z (List.mem_cons_of_mem y member)) tails]

theorem prefix_of_line {word head : String} {parts : List String} (blank : ' ' ∉ word.toList)
    (starts : word.toList <+: (line head parts).toList) : word.toList <+: head.toList := by
  cases parts with
  | nil => exact starts
  | cons x rest =>
    have split : (line head (x :: rest)).toList =
        head.toList ++ ' ' :: (x.toList ++ (listed rest).toList) := by simp [line]
    rw [split] at starts
    rcases List.prefix_or_prefix_of_prefix starts (List.prefix_append _ _) with inside | ⟨t, eq⟩
    · exact inside
    · rw [← eq] at starts blank ⊢
      cases t with
      | nil => rw [List.append_nil]
      | cons c t =>
        obtain ⟨same, _⟩ := List.cons_prefix_cons.mp ((List.prefix_append_right_inj _).mp starts)
        rw [same] at blank
        exact absurd (List.mem_append_right _ List.mem_cons_self) blank

theorem digitChar_injective {m n : Nat} (hm : m < 16) (hn : n < 16)
    (same : m.digitChar = n.digitChar) : m = n := by
  have table : ∀ i < 16, ∀ j < 16, Nat.digitChar i = Nat.digitChar j → i = j := by decide
  exact table m hm n hn same

theorem toDigits_injective {b : Nat} (hb : 1 < b) (le : b ≤ 16) (m : Nat) :
    ∀ {n : Nat}, Nat.toDigits b m = Nat.toDigits b n → m = n := by
  induction m using Nat.strongRecOn with
  | ind m ih =>
    intro n same
    rw [Nat.toDigits_eq_if hb, Nat.toDigits_eq_if (n := n) hb] at same
    split at same
    · split at same
      · exact digitChar_injective (by omega) (by omega) (List.cons.inj same).1
      · have length := congrArg List.length same
        have some : 0 < (Nat.toDigits b (n / b)).length := Nat.length_toDigits_pos
        simp only [List.length_append, List.length_singleton] at length
        omega
    · split at same
      · have length := congrArg List.length same
        have some : 0 < (Nat.toDigits b (m / b)).length := Nat.length_toDigits_pos
        simp only [List.length_append, List.length_singleton] at length
        omega
      · obtain ⟨high, low⟩ := List.append_inj' same rfl
        have quotients := ih (m / b) (Nat.div_lt_self (by omega) hb) high
        have digits := digitChar_injective (Nat.lt_of_lt_of_le (Nat.mod_lt m (by omega)) le)
          (Nat.lt_of_lt_of_le (Nat.mod_lt n (by omega)) le) (List.cons.inj low).1
        rw [← Nat.div_add_mod m b, ← Nat.div_add_mod n b, quotients, digits]

theorem mem_toDigits {b : Nat} (hb : 1 < b) (n : Nat) :
    ∀ c ∈ Nat.toDigits b n, ∃ d < b, c = Nat.digitChar d := by
  induction n using Nat.strongRecOn with
  | ind n ih =>
    intro c member
    rw [Nat.toDigits_eq_if hb] at member
    split at member
    · rename_i small
      exact ⟨n, small, List.mem_singleton.mp member⟩
    · rcases List.mem_append.mp member with high | low
      · exact ih (n / b) (Nat.div_lt_self (by omega) hb) c high
      · exact ⟨n % b, Nat.mod_lt n (by omega), List.mem_singleton.mp low⟩

theorem mem_repr (i : Int) {c : Char} (member : c ∈ i.repr.toList) :
    c = '-' ∨ c.isDigit = true := by
  have digits (n : Nat) (member : c ∈ n.repr.toList) : c.isDigit = true := by
    rw [Nat.toList_repr] at member
    exact Nat.isDigit_of_mem_toDigits (by omega) (by omega) member
  cases i with
  | ofNat n => exact .inr (digits n member)
  | negSucc n =>
    have split : c ∈ ("-" ++ (n + 1).repr).toList := member
    rw [String.toList_append] at split
    rcases List.mem_append.mp split with sign | rest
    · exact .inl (List.mem_singleton.mp sign)
    · exact .inr (digits (n + 1) rest)

end Text
