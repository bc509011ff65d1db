import Mathlib.Data.Finset.Card
import Mathlib.Data.List.Basic

/- Paging with the whole trace known: a cache that always keeps the pages used soonest has at
   least as many hits as any demand policy, bypassing included. -/
namespace Paging
variable {Page : Type*} [DecidableEq Page]

/-- Resident sets along the accesses: never more than k pages, and only the page just accessed may
    come in. -/
structure DemandPolicy (k : Nat) (accesses : List Page) (S : Nat → Finset Page) : Prop where
  start : S 0 = ∅
  size : ∀ i, (S i).card ≤ k
  step : ∀ i x, accesses[i]? = some x → S (i + 1) ⊆ insert x (S i)

def hits : List Page → (Nat → Finset Page) → Nat
  | [], _ => 0
  | x :: rest, S => (if x ∈ S 0 then 1 else 0) + hits rest fun i => S (i + 1)

def near (C : Finset Page) (rest : List Page) (t : Nat) : Nat :=
  (C.filter fun p => p ∈ rest.take t).card

theorem near_mono {C D : Finset Page} (sub : C ⊆ D) (rest : List Page) (t : Nat) :
    near C rest t ≤ near D rest t :=
  Finset.card_le_card (Finset.filter_subset_filter _ sub)

theorem near_le_card (C : Finset Page) (rest : List Page) (t : Nat) :
    near C rest t ≤ C.card :=
  Finset.card_filter_le _ _

/-- Of C and x, what follows the access of x keeps at least the k pages used soonest. -/
def KeepsNearest (k : Nat) (x : Page) (C : Finset Page) (rest : List Page)
    (C' : Finset Page) : Prop :=
  ∀ t, min k (near (insert x C) rest t) ≤ near C' rest t

theorem near_insert (C : Finset Page) (x : Page) (rest : List Page) (t : Nat) :
    near (insert x C) rest t =
      near (C.erase x) rest t + if x ∈ rest.take t then 1 else 0 := by
  have split : insert x C = insert x (C.erase x) := by
    ext p
    by_cases same : p = x
    · simp [same]
    · simp [same]
  unfold near
  rw [split, Finset.filter_insert]
  split
  · rw [Finset.card_insert_of_notMem (by simp)]
  · rfl

theorem near_cons (C : Finset Page) (x : Page) (rest : List Page) (t : Nat) :
    near C (x :: rest) (t + 1) = near (C.erase x) rest t + if x ∈ C then 1 else 0 := by
  unfold near
  by_cases resident : x ∈ C
  · have split : C.filter (fun p => p ∈ (x :: rest).take (t + 1)) =
        insert x ((C.erase x).filter fun p => p ∈ rest.take t) := by
      ext p
      by_cases same : p = x
      · simp [same, resident]
      · simp [same]
    rw [split, Finset.card_insert_of_notMem (by simp), if_pos resident]
  · have split : C.filter (fun p => p ∈ (x :: rest).take (t + 1)) =
        (C.erase x).filter fun p => p ∈ rest.take t := by
      rw [Finset.erase_eq_of_notMem resident]
      apply Finset.filter_congr
      intro p member
      have other : p ≠ x := fun same => resident (same ▸ member)
      simp [other]
    rw [split, if_neg resident, Nat.add_zero]

/-- S is ahead of C by at most h pages, up to every horizon. -/
def Behind (h : Nat) (C S : Finset Page) (rest : List Page) : Prop :=
  ∀ t, near S rest t ≤ near C rest t + h

theorem Behind.hit {h : Nat} {C S : Finset Page} {x : Page} {rest : List Page}
    (behind : Behind h C S (x :: rest)) :
    (if x ∈ S then 1 else 0) ≤ (if x ∈ C then 1 else 0) + h := by
  have now := behind 1
  rw [near_cons, near_cons] at now
  simpa [near] using now

theorem Behind.step {k h : Nat} {C S C' S' : Finset Page} {x : Page} {rest : List Page}
    (behind : Behind h C S (x :: rest)) (nearest : KeepsNearest k x C rest C')
    (size : S'.card ≤ k) (sub : S' ⊆ insert x S) :
    Behind (h + (if x ∈ C then 1 else 0) - if x ∈ S then 1 else 0) C' S' rest := by
  intro t
  have lag := behind (t + 1)
  have hit := behind.hit
  have grown := near_mono sub rest t
  have bounded := (near_le_card S' rest t).trans size
  have kept := nearest t
  rw [near_cons, near_cons] at lag
  rw [near_insert] at grown kept
  omega

theorem hits_le_of_behind {k : Nat} : ∀ {accesses : List Page} {h : Nat} {C S : Nat → Finset Page},
    Behind h (C 0) (S 0) accesses →
    (∀ i x, accesses[i]? = some x → KeepsNearest k x (C i) (accesses.drop (i + 1)) (C (i + 1))) →
    (∀ i, (S i).card ≤ k) → (∀ i x, accesses[i]? = some x → S (i + 1) ⊆ insert x (S i)) →
    hits accesses S ≤ hits accesses C + h := by
  intro accesses
  induction accesses with
  | nil =>
    intro h C S _ _ _ _
    exact Nat.zero_le _
  | cons x rest ih =>
    intro h C S behind nearest size step
    have hit := behind.hit
    have later := ih (behind.step (nearest 0 x rfl) (size 1) (step 0 x rfl))
      (C := fun i => C (i + 1)) (S := fun i => S (i + 1)) (fun i y found => nearest (i + 1) y found)
      (fun i => size (i + 1)) fun i y found => step (i + 1) y found
    simp only [hits]
    omega

/-- A cache that starts empty and keeps the nearest pages is optimal. -/
theorem hits_le_of_keepsNearest {k : Nat} {accesses : List Page} {C S : Nat → Finset Page}
    (start : C 0 = ∅)
    (nearest : ∀ i x, accesses[i]? = some x →
      KeepsNearest k x (C i) (accesses.drop (i + 1)) (C (i + 1)))
    (policy : DemandPolicy k accesses S) : hits accesses S ≤ hits accesses C := by
  have behind : Behind 0 (C 0) (S 0) accesses := by
    intro t
    rw [start, policy.start]
    exact Nat.le_refl _
  exact hits_le_of_behind behind nearest policy.size policy.step

theorem keepsNearest_insert (k : Nat) (x : Page) (C : Finset Page) (rest : List Page) :
    KeepsNearest k x C rest (insert x C) :=
  fun _ => Nat.min_le_right _ _

theorem mem_take_iff_idxOf (rest : List Page) (p : Page) (t : Nat) :
    p ∈ rest.take t ↔ p ∈ rest ∧ rest.idxOf p < t := by
  induction rest generalizing t with
  | nil => simp
  | cons x rest ih =>
    cases t with
    | zero => simp
    | succ t =>
      by_cases same : x = p
      · simp [same]
      · have other : p ≠ x := Ne.symm same
        simp [other, ih, List.idxOf_cons_ne _ same]

theorem keepsNearest_erase {k : Nat} {x : Page} {C : Finset Page} {rest : List Page} {v : Page}
    (last : ∀ p ∈ insert x C, rest.idxOf p ≤ rest.idxOf v)
    (full : v ∈ rest → k ≤ ((insert x C).erase v).card) :
    KeepsNearest k x C rest ((insert x C).erase v) := by
  intro t
  by_cases counted : v ∈ rest.take t
  · -- then every page that remains is used before the horizon
    obtain ⟨used, soon⟩ := (mem_take_iff_idxOf rest v t).mp counted
    have all : ((insert x C).erase v).filter (fun p => p ∈ rest.take t) =
        (insert x C).erase v := by
      apply Finset.filter_true_of_mem
      intro p member
      have before := last p (Finset.mem_of_mem_erase member)
      have lengths := List.idxOf_lt_length_of_mem used
      refine (mem_take_iff_idxOf rest p t).mpr ⟨?_, by omega⟩
      exact List.idxOf_lt_length_iff.mp (by omega)
    unfold near
    rw [all]
    exact (Nat.min_le_left _ _).trans (full used)
  · have same : near ((insert x C).erase v) rest t = near (insert x C) rest t := by
      unfold near
      rw [Finset.filter_erase, Finset.erase_eq_of_notMem (by simp [counted])]
    rw [same]
    exact Nat.min_le_right _ _

end Paging
