import XorOS.Library.Paging
import XorOS.Library.Recency

/- Caches that do not know the trace: one driven by calls is a demand policy on the pages that the
   calls ask for, and least recently used replacement has at most k + 1 misses to one of any
   demand policy of the same size, bypassing included. -/
namespace Paging
variable {Page : Type*}

section Driven
variable {σ Call : Type*} [DecidableEq Page]

/-- A cache, what a call makes of it, and the page that the call asks for, if any. -/
structure Driven (σ Call Page : Type*) where
  pages : σ → Finset Page
  next : σ → Call → σ
  asks : Call → Option Page

namespace Driven

def trace (d : Driven σ Call Page) (calls : List Call) : List Page := calls.filterMap d.asks

def hits (d : Driven σ Call Page) : σ → List Call → Nat
  | _, [] => 0
  | s, call :: rest =>
      (if (d.asks call).any fun x => x ∈ d.pages s then 1 else 0) + d.hits (d.next s call) rest

def residents (d : Driven σ Call Page) : σ → List Call → Nat → Finset Page
  | s, [] => fun _ => d.pages s
  | s, call :: rest =>
      match d.asks call with
      | none => d.residents (d.next s call) rest
      | some _ => fun
          | 0 => d.pages s
          | i + 1 => d.residents (d.next s call) rest i

/-- A call brings in no page but the one it asks for. -/
structure OnDemand (d : Driven σ Call Page) (k : Nat) (Inv : σ → Prop) : Prop where
  keeps : ∀ s call, Inv s → Inv (d.next s call)
  size : ∀ s, Inv s → (d.pages s).card ≤ k
  brings : ∀ s call, Inv s → ∀ x ∈ d.pages (d.next s call), d.asks call = some x ∨ x ∈ d.pages s

variable {d : Driven σ Call Page} {k : Nat} {Inv : σ → Prop}

omit [DecidableEq Page] in
theorem residents_idle {s : σ} {call : Call} (rest : List Call) (idle : d.asks call = none) :
    d.residents s (call :: rest) = d.residents (d.next s call) rest := by
  simp only [residents, idle]

omit [DecidableEq Page] in
theorem residents_start {s : σ} {call : Call} {x : Page} (rest : List Call)
    (asked : d.asks call = some x) : d.residents s (call :: rest) 0 = d.pages s := by
  simp only [residents, asked]

omit [DecidableEq Page] in
theorem residents_later {s : σ} {call : Call} {x : Page} (rest : List Call) (i : Nat)
    (asked : d.asks call = some x) :
    d.residents s (call :: rest) (i + 1) = d.residents (d.next s call) rest i := by
  simp only [residents, asked]

theorem hits_eq (s : σ) (calls : List Call) :
    Paging.hits (d.trace calls) (d.residents s calls) = d.hits s calls := by
  induction calls generalizing s with
  | nil => rfl
  | cons call rest ih =>
    have later := ih (d.next s call)
    cases asked : d.asks call with
    | none =>
      simp only [trace, List.filterMap_cons, asked] at later ⊢
      rw [residents_idle rest asked, later]
      simp [hits, asked]
    | some x =>
      simp only [trace, List.filterMap_cons, asked] at later ⊢
      simp only [Paging.hits, residents_start rest asked, residents_later rest _ asked, later]
      simp [hits, asked]

omit [DecidableEq Page] in
theorem residents_zero_subset (onDemand : d.OnDemand k Inv) {s : σ} (inv : Inv s)
    (calls : List Call) : d.residents s calls 0 ⊆ d.pages s := by
  induction calls generalizing s with
  | nil => exact subset_rfl
  | cons call rest ih =>
    cases asked : d.asks call with
    | none =>
      rw [residents_idle rest asked]
      refine (ih (onDemand.keeps s call inv)).trans fun x there => ?_
      rcases onDemand.brings s call inv x there with now | before
      · rw [asked] at now
        cases now
      · exact before
    | some x =>
      rw [residents_start rest asked]

omit [DecidableEq Page] in
theorem card_residents (onDemand : d.OnDemand k Inv) {s : σ} (inv : Inv s) (calls : List Call)
    (i : Nat) : (d.residents s calls i).card ≤ k := by
  induction calls generalizing s i with
  | nil => exact onDemand.size s inv
  | cons call rest ih =>
    have later := onDemand.keeps s call inv
    cases asked : d.asks call with
    | none =>
      rw [residents_idle rest asked]
      exact ih later i
    | some x =>
      cases i with
      | zero =>
        rw [residents_start rest asked]
        exact onDemand.size s inv
      | succ i =>
        rw [residents_later rest i asked]
        exact ih later i

theorem residents_step (onDemand : d.OnDemand k Inv) {s : σ} (inv : Inv s) (calls : List Call)
    (i : Nat) (x : Page) (requested : (d.trace calls)[i]? = some x) :
    d.residents s calls (i + 1) ⊆ insert x (d.residents s calls i) := by
  induction calls generalizing s i with
  | nil => simp [trace] at requested
  | cons call rest ih =>
    have later := onDemand.keeps s call inv
    cases asked : d.asks call with
    | none =>
      simp only [trace, List.filterMap_cons, asked] at requested
      rw [residents_idle rest asked]
      exact ih later i requested
    | some y =>
      simp only [trace, List.filterMap_cons, asked] at requested
      rw [residents_later rest i asked]
      cases i with
      | zero =>
        obtain rfl : y = x := by simpa using requested
        rw [residents_start rest asked]
        refine (residents_zero_subset onDemand later rest).trans fun z there => ?_
        rcases onDemand.brings s call inv z there with now | before
        · rw [asked] at now
          rw [Option.some.inj now]
          exact Finset.mem_insert_self z _
        · exact Finset.mem_insert_of_mem before
      | succ i =>
        rw [residents_later rest i asked]
        exact ih later i requested

theorem OnDemand.policy (onDemand : d.OnDemand k Inv) {s : σ} (inv : Inv s)
    (empty : d.pages s = ∅) (calls : List Call) :
    DemandPolicy k (d.trace calls) (d.residents s calls) where
  start := Finset.subset_empty.mp (empty ▸ residents_zero_subset onDemand inv calls)
  size := card_residents onDemand inv calls
  step := residents_step onDemand inv calls

end Driven
end Driven

section LeastRecentlyUsed
open Recency
variable [DecidableEq Page]

def lruMisses (k : Nat) : List Page → List Page → Nat
  | _, [] => 0
  | l, x :: rest => (if x ∈ l then 0 else 1) + lruMisses k (serve k l (.read x true)) rest

def misses : List Page → (Nat → Finset Page) → Nat
  | [], _ => 0
  | x :: rest, S => (if x ∈ S 0 then 0 else 1) + misses rest fun i => S (i + 1)

theorem hits_add_misses (accesses : List Page) (S : Nat → Finset Page) :
    hits accesses S + misses accesses S = accesses.length := by
  induction accesses generalizing S with
  | nil => rfl
  | cons x rest ih =>
    have later := ih fun i => S (i + 1)
    simp only [hits, misses, List.length_cons]
    split <;> omega

theorem serve_again {k : Nat} {phase older : List Page} {x : Page} (again : x ∈ phase) :
    serve k (phase ++ older) (.read x true) = promote x phase ++ older := by
  have there : x ∈ phase ++ older := List.mem_append_left older again
  simp only [serve, if_pos there, promote, List.erase_append_left older again, List.cons_append]

theorem serve_joins {k : Nat} {phase : List Page} (older : List Page) {x : Page} (fresh : x ∉ phase)
    (room : phase.length < k) :
    ∃ older', serve k (phase ++ older) (.read x true) = (x :: phase) ++ older' := by
  by_cases there : x ∈ phase ++ older
  · refine ⟨older.erase x, ?_⟩
    simp only [serve, if_pos there, promote, List.erase_append_right older fresh, List.cons_append]
  · simp only [serve, if_neg there, if_true]
    by_cases full : k ≤ (phase ++ older).length
    · have some : older ≠ [] := by
        rintro rfl
        rw [List.append_nil] at full
        omega
      refine ⟨older.dropLast, ?_⟩
      rw [Recency.room, if_pos full, List.dropLast_append_of_ne_nil some, List.cons_append]
    · exact ⟨older, by rw [Recency.room, if_neg full, List.cons_append]⟩

/-- Where the policy has missed nothing since the phase began, the phase was resident by then. -/
def Owed (k : Nat) (missed : Bool) (phase : List Page) (now : Finset Page) : Prop :=
  missed = true ∨ ∃ B : Finset Page, B.card ≤ k ∧ now ⊆ B ∧ ∀ x ∈ phase, x ∈ B

theorem Owed.access {k : Nat} {missed : Bool} {phase phase' : List Page} {now later : Finset Page}
    {x : Page} (owed : Owed k missed phase now) (sub : later ⊆ insert x now)
    (joins : ∀ y ∈ phase', y = x ∨ y ∈ phase) :
    Owed k (missed || decide (x ∉ now)) phase' later := by
  rcases owed with had | ⟨B, size, held, all⟩
  · exact Or.inl (by rw [had, Bool.true_or])
  · by_cases hit : x ∈ now
    · refine Or.inr ⟨B, size, fun y there => ?_, fun y there => ?_⟩
      · rcases Finset.mem_insert.mp (sub there) with rfl | before
        · exact held hit
        · exact held before
      · rcases joins y there with rfl | before
        · exact held hit
        · exact all y before
    · exact Or.inl (by simp [hit])

theorem Owed.paid {k : Nat} {missed : Bool} {phase : List Page} {now : Finset Page} {x : Page}
    (owed : Owed k missed phase now) (distinct : phase.Nodup) (full : phase.length = k)
    (fresh : x ∉ phase) : (missed || decide (x ∉ now)) = true := by
  rcases owed with had | ⟨B, size, held, all⟩
  · rw [had, Bool.true_or]
  · by_contra quiet
    have hit : x ∈ now := by
      by_contra absent
      exact quiet (by simp [absent])
    have sub : insert x phase.toFinset ⊆ B := by
      intro y there
      rcases Finset.mem_insert.mp there with rfl | before
      · exact held hit
      · exact all y (List.mem_toFinset.mp before)
    have large := Finset.card_le_card sub
    rw [Finset.card_insert_of_notMem (by simpa using fresh),
      List.toFinset_card_of_nodup distinct] at large
    omega

/-- Each phase of k + 1 pages costs the list at most k + 1 misses and the policy at least one. -/
theorem lruMisses_le_of_owed {k : Nat} (holds : 1 ≤ k) {accesses : List Page} :
    ∀ (phase older : List Page) {S : Nat → Finset Page} {missed : Bool},
      Recency.Sound k (phase ++ older) → Owed k missed phase (S 0) → (∀ i, (S i).card ≤ k) →
      (∀ i x, accesses[i]? = some x → S (i + 1) ⊆ insert x (S i)) →
      lruMisses k (phase ++ older) accesses ≤
        (k + 1) * (misses accesses S + missed.toNat) + (k - phase.length) := by
  induction accesses with
  | nil =>
    intro phase older S missed _ _ _ _
    exact Nat.zero_le _
  | cons x rest ih =>
    intro phase older S missed sound owed size step
    have sub := step 0 x rfl
    have step' : ∀ i y, rest[i]? = some y → S (i + 1 + 1) ⊆ insert y (S (i + 1)) :=
      fun i y found => step (i + 1) y found
    have served := sound_serve sound (r := .read x true) fun _ _ => holds
    have counted : (missed || decide (x ∉ S 0)).toNat ≤
        missed.toNat + if x ∈ S 0 then 0 else 1 := by
      by_cases hit : x ∈ S 0
      · simp [hit]
      · cases missed <;> simp [hit]
    simp only [lruMisses, misses]
    by_cases again : x ∈ phase
    · rw [serve_again again] at served ⊢
      have within : x ∈ phase ++ older := List.mem_append_left older again
      have same : (promote x phase).length = phase.length := length_promote again
      have later := ih _ _ served (owed.access sub fun y there => ?_) (fun i => size (i + 1)) step'
      · rw [if_pos within, Nat.zero_add]
        rw [same] at later
        refine later.trans (Nat.add_le_add_right (Nat.mul_le_mul_left _ ?_) _)
        omega
      · rcases List.mem_cons.mp there with rfl | before
        · exact Or.inl rfl
        · exact Or.inr (List.mem_of_mem_erase before)
    have one : (if x ∈ phase ++ older then 0 else 1) ≤ 1 := by
      split <;> omega
    by_cases room : phase.length < k
    · obtain ⟨older', joined⟩ := serve_joins older again room
      rw [joined] at served ⊢
      have later := ih _ _ served (owed.access sub fun y there => List.mem_cons.mp there)
        (fun i => size (i + 1)) step'
      have grown : (k + 1) * (misses rest (fun i => S (i + 1)) +
            (missed || decide (x ∉ S 0)).toNat) ≤
          (k + 1) * ((if x ∈ S 0 then 0 else 1) + misses rest (fun i => S (i + 1)) +
            missed.toNat) := Nat.mul_le_mul_left _ (by omega)
      rw [List.length_cons] at later
      omega
    · -- the phase ends, and the next one begins with the page sets as they are
      have bounded := sound.bounded
      rw [List.length_append] at bounded
      have full : phase.length = k := by omega
      have paid := owed.paid (sound.distinct.sublist (List.sublist_append_left _ _)) full again
      rw [paid] at counted
      have fresh : Owed k false [] (S 1) :=
        Or.inr ⟨S 1, size 1, subset_rfl, fun y there => absurd there List.not_mem_nil⟩
      have later := ih [] (serve k (phase ++ older) (.read x true))
        served fresh (fun i => size (i + 1)) step'
      have grown : (k + 1) * (misses rest (fun i => S (i + 1)) + 1) ≤
          (k + 1) * ((if x ∈ S 0 then 0 else 1) + misses rest (fun i => S (i + 1)) +
            missed.toNat) := Nat.mul_le_mul_left _ (by rw [Bool.toNat_true] at counted; omega)
      simp only [List.nil_append, Bool.toNat_false, Nat.add_zero, List.length_nil] at later
      rw [Nat.mul_succ] at grown
      omega

theorem lruMisses_le {k : Nat} (holds : 1 ≤ k) {accesses : List Page} {S : Nat → Finset Page}
    (policy : DemandPolicy k accesses S) :
    lruMisses k [] accesses ≤ (k + 1) * misses accesses S + k := by
  have owed : Owed k false [] (S 0) := by
    refine Or.inr ⟨∅, Nat.zero_le _, ?_, fun x there => absurd there List.not_mem_nil⟩
    rw [policy.start]
  exact lruMisses_le_of_owed holds [] [] ⟨List.nodup_nil, Nat.zero_le _⟩ owed
    policy.size policy.step

end LeastRecentlyUsed
end Paging
