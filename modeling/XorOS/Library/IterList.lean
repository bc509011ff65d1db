import Mathlib.Tactic

/-- A doubly linked list with stable iterators, as std::list: every node has an identity that
    no other node of the list ever had, so an iterator is that identity. The front comes first. -/
structure IterList (α : Type) where
  nodes : List (Nat × α)
  fresh : Nat
  nodup : (nodes.map Prod.fst).Nodup
  used : ∀ p ∈ nodes, p.1 < fresh

namespace IterList
variable {α : Type}

def empty : IterList α := ⟨[], 0, by simp, by simp⟩

def size (l : IterList α) : Nat := l.nodes.length

def back? (l : IterList α) : Option α := l.nodes.getLast?.map Prod.snd

def find? (l : IterList α) (it : Nat) : Option (Nat × α) := l.nodes.find? fun p => p.1 = it

def get? (l : IterList α) (it : Nat) : Option α := (l.find? it).map Prod.snd

def begin (l : IterList α) : Nat := (l.nodes.head?.map Prod.fst).getD l.fresh

def pushFront (l : IterList α) (a : α) : IterList α where
  nodes := (l.fresh, a) :: l.nodes
  fresh := l.fresh + 1
  nodup := by
    simp only [List.map_cons, List.nodup_cons, List.mem_map, not_exists, not_and]
    refine ⟨?_, l.nodup⟩
    intro p member same
    have := l.used p member
    omega
  used := by
    intro p member
    rcases List.mem_cons.mp member with rfl | old
    · simp
    · have := l.used p old
      omega

def popBack (l : IterList α) : IterList α where
  nodes := l.nodes.dropLast
  fresh := l.fresh
  nodup := (l.nodup.sublist ((List.dropLast_sublist _).map _))
  used := fun p member => l.used p (List.mem_of_mem_dropLast member)

/-- erase(it); an iterator of another list would be undefined. -/
def erase (l : IterList α) (it : Nat) : IterList α where
  nodes := l.nodes.filter fun p => p.1 ≠ it
  fresh := l.fresh
  nodup := l.nodup.sublist (List.filter_sublist.map _)
  used := fun p member => l.used p (List.mem_filter.mp member).1

def modify (l : IterList α) (it : Nat) (f : α → α) : IterList α where
  nodes := l.nodes.map fun p => if p.1 = it then (p.1, f p.2) else p
  fresh := l.fresh
  nodup := by
    have ids : (l.nodes.map fun p => if p.1 = it then (p.1, f p.2) else p).map Prod.fst =
        l.nodes.map Prod.fst := by
      rw [List.map_map]
      apply List.map_congr_left
      intro p _
      simp only [Function.comp_apply]
      split <;> rfl
    rw [ids]
    exact l.nodup
  used := by
    intro p member
    obtain ⟨q, old, rfl⟩ := List.mem_map.mp member
    have := l.used q old
    split <;> exact this

theorem mem_of_find? {l : IterList α} {it : Nat} {p : Nat × α} (found : l.find? it = some p) :
    p ∈ l.nodes ∧ p.1 = it := by
  refine ⟨List.mem_of_find?_eq_some found, ?_⟩
  simpa using List.find?_some found

theorem eq_of_mem {l : IterList α} {p q : Nat × α} (hp : p ∈ l.nodes) (hq : q ∈ l.nodes)
    (same : p.1 = q.1) : p = q :=
  List.inj_on_of_nodup_map l.nodup hp hq same

theorem find?_of_mem {l : IterList α} {p : Nat × α} (member : p ∈ l.nodes) :
    l.find? p.1 = some p := by
  cases found : l.find? p.1 with
  | none =>
    have absent := List.find?_eq_none.mp found p member
    simp at absent
  | some q =>
    obtain ⟨mem, id⟩ := mem_of_find? found
    rw [eq_of_mem mem member id]

theorem get?_eq_some_iff (l : IterList α) (it : Nat) (a : α) :
    l.get? it = some a ↔ (it, a) ∈ l.nodes := by
  constructor
  · intro got
    simp only [get?, Option.map_eq_some_iff] at got
    obtain ⟨p, found, rfl⟩ := got
    obtain ⟨mem, rfl⟩ := mem_of_find? found
    exact mem
  · intro member
    simp [get?, find?_of_mem member]

def spliceFront (l : IterList α) (it : Nat) : IterList α where
  nodes :=
    match l.find? it with
    | some p => p :: l.nodes.filter fun q => q.1 ≠ it
    | none => l.nodes
  fresh := l.fresh
  nodup := by
    split
    · rename_i p found
      have id := (mem_of_find? found).2
      simp only [List.map_cons, List.nodup_cons]
      refine ⟨?_, l.nodup.sublist (List.filter_sublist.map _)⟩
      intro again
      obtain ⟨q, kept, same⟩ := List.mem_map.mp again
      have ne := (List.mem_filter.mp kept).2
      simp [same, id] at ne
    · exact l.nodup
  used := by
    intro p member
    split at member
    · rename_i q found
      rcases List.mem_cons.mp member with rfl | kept
      · exact l.used _ (mem_of_find? found).1
      · exact l.used _ (List.mem_filter.mp kept).1
    · exact l.used p member

@[simp] theorem nodes_pushFront (l : IterList α) (a : α) :
    (l.pushFront a).nodes = (l.fresh, a) :: l.nodes := rfl

theorem mem_erase (l : IterList α) (it : Nat) (p : Nat × α) :
    p ∈ (l.erase it).nodes ↔ p ∈ l.nodes ∧ p.1 ≠ it := by
  simp [erase, List.mem_filter]

theorem mem_spliceFront (l : IterList α) (it : Nat) (p : Nat × α) :
    p ∈ (l.spliceFront it).nodes ↔ p ∈ l.nodes := by
  simp only [spliceFront]
  split
  · rename_i q found
    obtain ⟨mem, id⟩ := mem_of_find? found
    simp only [List.mem_cons, List.mem_filter]
    constructor
    · rintro (rfl | kept)
      · exact mem
      · exact kept.1
    · intro member
      by_cases same : p.1 = it
      · exact Or.inl (eq_of_mem member mem (same.trans id.symm))
      · exact Or.inr ⟨member, by simpa using same⟩
  · rfl

theorem mem_modify (l : IterList α) (it : Nat) (f : α → α) (j : Nat) (a : α) :
    (j, a) ∈ (l.modify it f).nodes ↔
      ∃ b, (j, b) ∈ l.nodes ∧ a = if j = it then f b else b := by
  simp only [modify, List.mem_map]
  constructor
  · rintro ⟨⟨i, b⟩, member, eq⟩
    by_cases same : i = it
    · simp only [same, ↓reduceIte, Prod.mk.injEq] at eq
      obtain ⟨rfl, rfl⟩ := eq
      exact ⟨b, same ▸ member, by simp⟩
    · simp only [same, ↓reduceIte, Prod.mk.injEq] at eq
      obtain ⟨rfl, rfl⟩ := eq
      exact ⟨b, member, by simp [same]⟩
  · rintro ⟨b, member, rfl⟩
    refine ⟨(j, b), member, ?_⟩
    split <;> rfl

theorem mem_popBack {l : IterList α} {last : Nat × α} (isLast : l.nodes.getLast? = some last)
    (p : Nat × α) : p ∈ l.popBack.nodes ↔ p ∈ l.nodes ∧ p.1 ≠ last.1 := by
  have shape : l.nodes = l.nodes.dropLast ++ [last] := (List.dropLast_append_getLast? _ isLast).symm
  have distinct := l.nodup
  rw [shape, List.map_append, List.nodup_append] at distinct
  simp only [popBack]
  constructor
  · intro kept
    refine ⟨List.mem_of_mem_dropLast kept, ?_⟩
    exact distinct.2.2 _ (List.mem_map_of_mem kept) _ (by simp)
  · rintro ⟨member, ne⟩
    rw [shape, List.mem_append, List.mem_singleton] at member
    rcases member with kept | rfl
    · exact kept
    · exact absurd rfl ne

theorem back?_eq_some {l : IterList α} {a : α} (h : l.back? = some a) :
    ∃ it, l.nodes.getLast? = some (it, a) := by
  simp only [back?, Option.map_eq_some_iff] at h
  obtain ⟨⟨it, b⟩, isLast, rfl⟩ := h
  exact ⟨it, isLast⟩

theorem back?_eq_none_iff (l : IterList α) : l.back? = none ↔ l.nodes = [] := by
  simp [back?]

end IterList
