import Mathlib.Tactic

/- Least recently used replacement on bare keys: a list of the resident keys, the most recently
   used one first, the inclusion of a smaller such list in a larger one, and lists kept in the
   order of time stamps. -/
namespace Recency
variable {α : Type*}

theorem sublist_dropLast {l k : List α} (sub : l.Sublist k) : l.dropLast.Sublist k.dropLast := by
  induction sub with
  | slnil => exact .slnil
  | @cons l k a sub ih =>
    cases k with
    | nil =>
      cases sub
      exact List.nil_sublist _
    | cons b k => exact ih.cons a
  | @cons_cons l k a sub ih =>
    cases l with
    | nil => exact List.nil_sublist _
    | cons b l =>
      cases k with
      | nil => cases sub
      | cons c k => exact ih.cons_cons a

theorem eq_getLast_of_not_mem_dropLast {l : List α} {a : α} (member : a ∈ l)
    (gone : a ∉ l.dropLast) : l.getLast? = some a := by
  induction l with
  | nil => simp at member
  | cons b l ih =>
    cases l with
    | nil => simp_all
    | cons c l =>
      simp only [List.dropLast_cons_cons, List.mem_cons, not_or] at gone
      rcases List.mem_cons.mp member with rfl | later
      · exact absurd rfl gone.1
      · rw [List.getLast?_cons_cons]
        exact ih later gone.2

theorem getLast_not_mem_dropLast {l : List α} (distinct : l.Nodup) {a : α}
    (isLast : l.getLast? = some a) : a ∉ l.dropLast := by
  intro kept
  rw [← List.dropLast_append_getLast? a isLast] at distinct
  exact (List.nodup_append.mp distinct).2.2 a kept a (by simp) rfl

def room (capacity : Nat) (l : List α) : List α :=
  if capacity ≤ l.length then l.dropLast else l

theorem room_sublist (capacity : Nat) (l : List α) : (room capacity l).Sublist l := by
  unfold room
  split
  · exact List.dropLast_sublist l
  · exact List.Sublist.refl l

theorem length_room (capacity : Nat) (l : List α) :
    (room capacity l).length = if capacity ≤ l.length then l.length - 1 else l.length := by
  unfold room
  split
  · exact List.length_dropLast
  · rfl

structure Sound (capacity : Nat) (l : List α) : Prop where
  distinct : l.Nodup
  bounded : l.length ≤ capacity

theorem sound_room {capacity : Nat} {l : List α} (h : Sound capacity l) :
    Sound capacity (room capacity l) where
  distinct := h.distinct.sublist (room_sublist capacity l)
  bounded := (room_sublist capacity l).length_le.trans h.bounded

theorem sound_bring {capacity : Nat} {l : List α} (h : Sound capacity l) (holds : 1 ≤ capacity)
    {a : α} (absent : a ∉ l) : Sound capacity (a :: room capacity l) where
  distinct := List.nodup_cons.mpr
    ⟨fun again => absent ((room_sublist capacity l).subset again), (sound_room h).distinct⟩
  bounded := by
    have bounded := h.bounded
    rw [List.length_cons, length_room]
    split <;> omega

/-- The smaller list is a part of the larger one in the same order, and the larger one has no
    more free places than the smaller. -/
structure Within (c₁ c₂ : Nat) (l₁ l₂ : List α) : Prop where
  sub : l₁.Sublist l₂
  gap : l₂.length + c₁ ≤ l₁.length + c₂

theorem within_room {c₁ c₂ : Nat} {l₁ l₂ : List α} (h : Within c₁ c₂ l₁ l₂)
    (s₂ : Sound c₂ l₂) (holds : 1 ≤ c₁) : Within c₁ c₂ (room c₁ l₁) (room c₂ l₂) := by
  have gap := h.gap
  have bounded := s₂.bounded
  have fewer := h.sub.length_le
  by_cases full : c₂ ≤ l₂.length
  · have full₁ : c₁ ≤ l₁.length := by omega
    simp only [room, if_pos full, if_pos full₁]
    refine ⟨sublist_dropLast h.sub, ?_⟩
    simp only [List.length_dropLast]
    omega
  · refine ⟨?_, ?_⟩
    · rw [show room c₂ l₂ = l₂ from if_neg full]
      exact (room_sublist c₁ l₁).trans h.sub
    · have length := length_room c₁ l₁
      rw [show room c₂ l₂ = l₂ from if_neg full]
      split at length <;> omega

/-- The resident keys in the order of their stamps, the newest first. -/
structure Dated (stamp : α → Nat) (now : Nat) (l : List α) : Prop where
  newest : l.Pairwise fun a b => stamp b < stamp a
  past : ∀ a ∈ l, stamp a ≤ now

theorem Dated.sublist {stamp : α → Nat} {now : Nat} {l k : List α} (h : Dated stamp now k)
    (sub : l.Sublist k) : Dated stamp now l where
  newest := h.newest.sublist sub
  past a member := h.past a (sub.subset member)

theorem Dated.later {stamp : α → Nat} {now now' : Nat} {l : List α} (h : Dated stamp now l)
    (le : now ≤ now') : Dated stamp now' l where
  newest := h.newest
  past a member := (h.past a member).trans le

theorem Dated.congr {stamp stamp' : α → Nat} {now : Nat} {l : List α} (h : Dated stamp now l)
    (same : ∀ a ∈ l, stamp' a = stamp a) : Dated stamp' now l where
  newest := h.newest.imp_of_mem fun {a b} ha hb lt => by rwa [same a ha, same b hb]
  past a member := (same a member).le.trans (h.past a member)

theorem Dated.oldest {stamp : α → Nat} {now : Nat} {l : List α} (h : Dated stamp now l) {w : α}
    (isLast : l.getLast? = some w) : ∀ a ∈ l, a ≠ w → stamp w < stamp a := by
  intro a member other
  rw [← List.dropLast_append_getLast? w isLast] at member
  have newest := h.newest
  rw [← List.dropLast_append_getLast? w isLast] at newest
  rcases List.mem_append.mp member with early | same
  · exact (List.pairwise_append.mp newest).2.2 a early w (by simp)
  · exact absurd (List.mem_singleton.mp same) other

variable [DecidableEq α]

/-- A request names the key it uses; a read of a key that is not resident brings it in if it
    is served, and a write of one brings in nothing. -/
inductive Request (α : Type*) where
  | read (a : α) (served : Bool)
  | write (a : α)
  | other

def promote (a : α) (l : List α) : List α := a :: l.erase a

def serve (capacity : Nat) (l : List α) : Request α → List α
  | .read a served =>
      if a ∈ l then promote a l
      else if served then a :: room capacity l
      else room capacity l
  | .write a => if a ∈ l then promote a l else l
  | .other => l

def Request.hit (l : List α) : Request α → Bool
  | .read a _ => a ∈ l
  | _ => false

theorem mem_promote {a : α} {l : List α} (member : a ∈ l) (distinct : l.Nodup) (b : α) :
    b ∈ promote a l ↔ b ∈ l := by
  by_cases same : b = a
  · subst same
    simp [promote, member]
  · simp [promote, same, distinct.mem_erase_iff]

theorem nodup_promote {a : α} {l : List α} (distinct : l.Nodup) : (promote a l).Nodup :=
  List.nodup_cons.mpr ⟨fun again => (distinct.mem_erase_iff.mp again).1 rfl, distinct.erase a⟩

theorem length_promote {a : α} {l : List α} (member : a ∈ l) :
    (promote a l).length = l.length := by
  have nonempty := List.length_pos_of_mem member
  simp only [promote, List.length_cons, List.length_erase_of_mem member]
  omega

theorem sound_promote {capacity : Nat} {l : List α} (h : Sound capacity l) {a : α}
    (member : a ∈ l) : Sound capacity (promote a l) where
  distinct := nodup_promote h.distinct
  bounded := (length_promote member).le.trans h.bounded

theorem sound_serve {capacity : Nat} {l : List α} (h : Sound capacity l) {r : Request α}
    (holds : ∀ a, r = .read a true → 1 ≤ capacity) : Sound capacity (serve capacity l r) := by
  cases r with
  | read a served =>
    simp only [serve]
    split
    · rename_i member
      exact sound_promote h member
    · rename_i absent
      split
      · rename_i brought
        exact sound_bring h (holds a (brought ▸ rfl)) absent
      · exact sound_room h
  | write a =>
    simp only [serve]
    split
    · rename_i member
      exact sound_promote h member
    · exact h
  | other => exact h

theorem within_promote {c₁ c₂ : Nat} {l₁ l₂ : List α} (h : Within c₁ c₂ l₁ l₂) {a : α}
    (member : a ∈ l₁) : Within c₁ c₂ (promote a l₁) (promote a l₂) where
  sub := (h.sub.erase a).cons_cons a
  gap := by
    rw [length_promote member, length_promote (h.sub.subset member)]
    exact h.gap

theorem within_promote_larger {c₁ c₂ : Nat} {l₁ l₂ : List α} (h : Within c₁ c₂ l₁ l₂) {a : α}
    (absent : a ∉ l₁) (member : a ∈ l₂) : Within c₁ c₂ l₁ (promote a l₂) where
  sub := by
    have kept := h.sub.erase a
    rw [List.erase_of_not_mem absent] at kept
    exact kept.cons a
  gap := by
    rw [length_promote member]
    exact h.gap

theorem within_bring {c₁ c₂ : Nat} {l₁ l₂ : List α} (h : Within c₁ c₂ l₁ l₂)
    (s₂ : Sound c₂ l₂) {a : α} (absent : a ∉ l₁) (member : a ∈ l₂) :
    Within c₁ c₂ (a :: room c₁ l₁) (promote a l₂) where
  sub := by
    have kept := h.sub.erase a
    rw [List.erase_of_not_mem absent] at kept
    exact ((room_sublist c₁ l₁).trans kept).cons_cons a
  gap := by
    have gap := h.gap
    have bounded := s₂.bounded
    rw [length_promote member, List.length_cons, length_room]
    split <;> omega

theorem within_serve {c₁ c₂ : Nat} {l₁ l₂ : List α} (h : Within c₁ c₂ l₁ l₂)
    (s₂ : Sound c₂ l₂) (holds : 1 ≤ c₁) {r : Request α}
    (served : ∀ a, r = .read a false → a ∉ l₂) :
    Within c₁ c₂ (serve c₁ l₁ r) (serve c₂ l₂ r) := by
  cases r with
  | read a answered =>
    by_cases small : a ∈ l₁
    · simp only [serve, if_pos small, if_pos (h.sub.subset small)]
      exact within_promote h small
    · simp only [serve, if_neg small]
      by_cases large : a ∈ l₂
      · cases answered with
        | false => exact absurd large (served a rfl)
        | true =>
          simp only [if_pos large, if_true]
          exact within_bring h s₂ small large
      · simp only [if_neg large]
        have roomy := within_room h s₂ holds
        split
        · refine ⟨roomy.sub.cons_cons a, ?_⟩
          have gap := roomy.gap
          simp only [List.length_cons]
          omega
        · exact roomy
  | write a =>
    by_cases small : a ∈ l₁
    · simp only [serve, if_pos small, if_pos (h.sub.subset small)]
      exact within_promote h small
    · simp only [serve, if_neg small]
      split
      · rename_i large
        exact within_promote_larger h small large
      · exact h
  | other => exact h

theorem Within.hit {c₁ c₂ : Nat} {l₁ l₂ : List α} (h : Within c₁ c₂ l₁ l₂) (r : Request α)
    (hit : r.hit l₁ = true) : r.hit l₂ = true := by
  cases r with
  | read a served =>
    simp only [Request.hit, decide_eq_true_eq] at hit ⊢
    exact h.sub.subset hit
  | write a => exact hit
  | other => exact hit

theorem leaves_serve {capacity : Nat} {l : List α} {r : Request α} (distinct : l.Nodup) {w : α}
    (member : w ∈ l) (gone : w ∉ serve capacity l r) :
    ∃ a served, r = .read a served ∧ a ∉ l ∧ capacity ≤ l.length ∧ l.getLast? = some w := by
  have lost (out : w ∉ room capacity l) : capacity ≤ l.length ∧ l.getLast? = some w := by
    unfold room at out
    split at out
    · rename_i full
      exact ⟨full, eq_getLast_of_not_mem_dropLast member out⟩
    · exact absurd member out
  cases r with
  | read a served =>
    refine ⟨a, served, rfl, ?_⟩
    simp only [serve] at gone
    split at gone
    · rename_i present
      exact absurd ((mem_promote present distinct w).mpr member) gone
    · rename_i absent
      refine ⟨absent, ?_⟩
      split at gone
      · exact lost fun kept => gone (List.mem_cons_of_mem a kept)
      · exact lost gone
  | write a =>
    simp only [serve] at gone
    split at gone
    · rename_i present
      exact absurd ((mem_promote present distinct w).mpr member) gone
    · exact absurd member gone
  | other => exact absurd member gone

theorem last_leaves {capacity : Nat} {l : List α} (distinct : l.Nodup) {a : α} (served : Bool)
    (absent : a ∉ l) (full : capacity ≤ l.length) {w : α} (isLast : l.getLast? = some w) :
    w ∉ serve capacity l (.read a served) := by
  have member : w ∈ l := List.mem_of_getLast? isLast
  have gone : w ∉ room capacity l := by
    rw [room, if_pos full]
    exact getLast_not_mem_dropLast distinct isLast
  simp only [serve, if_neg absent]
  split
  · intro kept
    rcases List.mem_cons.mp kept with rfl | kept
    · exact absent member
    · exact gone kept
  · exact gone

/-- A key that gets the newest stamp goes to the front. -/
theorem Dated.front {stamp : α → Nat} {now now' : Nat} {l : List α} {a : α}
    (h : Dated stamp now l) (later : now < now') (absent : a ∉ l) :
    Dated (Function.update stamp a now') now' (a :: l) := by
  have others : ∀ b ∈ l, Function.update stamp a now' b = stamp b := by
    intro b member
    apply Function.update_of_ne
    rintro rfl
    exact absent member
  constructor
  · refine List.pairwise_cons.mpr ⟨?_, (h.congr others).newest⟩
    intro b member
    rw [others b member, Function.update_self]
    exact (h.past b member).trans_lt later
  · intro b member
    rcases List.mem_cons.mp member with rfl | old
    · rw [Function.update_self]
    · rw [others b old]
      exact (h.past b old).trans later.le

def Request.uses (l : List α) : Request α → Option α
  | .read a _ => some a
  | .write a => if a ∈ l then some a else none
  | .other => none

def stamped (stamp : α → Nat) (key : Option α) (now : Nat) : α → Nat :=
  key.elim stamp fun a => Function.update stamp a now

theorem dated_promote {stamp : α → Nat} {now : Nat} {l : List α} (h : Dated stamp now l)
    (distinct : l.Nodup) (a : α) :
    Dated (Function.update stamp a (now + 1)) (now + 1) (promote a l) :=
  (h.sublist List.erase_sublist).front (Nat.lt_succ_self now)
    fun again => (distinct.mem_erase_iff.mp again).1 rfl

/-- Each request keeps the keys in the order of their last use. -/
theorem dated_serve {stamp : α → Nat} {now : Nat} {l : List α} (h : Dated stamp now l)
    (distinct : l.Nodup) (capacity : Nat) (r : Request α) :
    Dated (stamped stamp (r.uses l) (now + 1)) (now + 1) (serve capacity l r) := by
  have later := h.later (Nat.le_succ now)
  cases r with
  | read a served =>
    simp only [serve, Request.uses, stamped, Option.elim_some]
    split
    · exact dated_promote h distinct a
    · rename_i absent
      have roomy := h.sublist (room_sublist capacity l)
      have outside : a ∉ room capacity l := fun kept =>
        absent ((room_sublist capacity l).subset kept)
      have brought := roomy.front (Nat.lt_succ_self now) outside
      split
      · exact brought
      · exact brought.sublist (List.sublist_cons_self a _)
  | write a =>
    simp only [serve, Request.uses]
    split
    · exact dated_promote h distinct a
    · exact later
  | other => exact later

end Recency
