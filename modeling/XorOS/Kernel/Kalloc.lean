import Mathlib.Data.Fintype.Basic
import Mathlib.Logic.Function.Basic
import XorOS.Library.Runs
import XorOS.Simulator.MemoryModel

/- kalloc.c, called by processes that preempt each other. Compiled without optimisation every use
   of bump is a load or a store of its own: one for the test, one for p, and two for bump +=. -/
namespace XorOS.Kernel.Kalloc
open Runs

def PAGE_SIZE : Nat := 4096
def KALLOC_PAGES : Nat := 4

def page (heap : BitVec 32) (k : Nat) : BitVec 32 := heap + BitVec.ofNat 32 (k * PAGE_SIZE)

inductive Doing where
  | idle
  | check
  | take
  | load (p : BitVec 32)
  | store (p old : BitVec 32)
deriving DecidableEq

def Doing.inside : Doing → Bool
  | .idle | .check => false
  | .take | .load _ | .store _ _ => true

/-- bump, the processes, and what the calls have returned, 0 for NULL. -/
structure Callers (T : Type) where
  bump : BitVec 32
  doing : T → Doing
  returned : List (T × BitVec 32)

namespace Callers
variable {T : Type} [DecidableEq T] (heap : BitVec 32)

def goesOn (s : Callers T) (t : T) (next : Doing) : Callers T :=
  { s with doing := Function.update s.doing t next }

/-- The next access of t to bump; an idle t makes a call. -/
def turn (s : Callers T) (t : T) : Callers T :=
  match s.doing t with
  | .idle => s.goesOn t .check
  | .check =>
      if page heap KALLOC_PAGES ≤ s.bump then
        { s.goesOn t .idle with returned := s.returned ++ [(t, 0#32)] }
      else s.goesOn t .take
  | .take => s.goesOn t (.load s.bump)
  | .load p => s.goesOn t (.store p s.bump)
  | .store p old =>
      { s.goesOn t .idle with
        bump := old + BitVec.ofNat 32 PAGE_SIZE
        returned := s.returned ++ [(t, p)] }

def start : Callers T := ⟨heap, fun _ => .idle, []⟩

def callers : System (Callers T) T :=
  .ofStep (· = start heap) fun s t => some (s.turn heap t)

/-- No two processes are past the test of a call. -/
def Alone (s : Callers T) : Prop :=
  ∀ t u, (s.doing t).inside = true → (s.doing u).inside = true → t = u

instance [Fintype T] (s : Callers T) : Decidable s.Alone :=
  inferInstanceAs (Decidable (∀ t u, _ → _ → t = u))

def undisturbed : System (Callers T) T := (callers heap).restrict fun s _ => s.Alone

/-- Where the linker puts heap: a page boundary, above the text at 0, and below 4 GiB. -/
structure Placed : Prop where
  aligned : heap.toNat % PAGE_SIZE = 0
  above : 0 < heap.toNat
  below : heap.toNat + KALLOC_PAGES * PAGE_SIZE < 2 ^ 32

section Pages
variable {heap} (placed : Placed heap)
include placed

theorem toNat_page {k : Nat} (few : k ≤ KALLOC_PAGES) :
    (page heap k).toNat = heap.toNat + k * PAGE_SIZE := by
  have below := placed.below
  unfold KALLOC_PAGES PAGE_SIZE at *
  unfold page
  rw [BitVec.toNat_add, BitVec.toNat_ofNat]
  unfold PAGE_SIZE
  omega

theorem full_iff {k : Nat} (few : k ≤ KALLOC_PAGES) :
    page heap KALLOC_PAGES ≤ page heap k ↔ k = KALLOC_PAGES := by
  rw [BitVec.le_def, toNat_page placed few, toNat_page placed (Nat.le_refl _)]
  unfold KALLOC_PAGES PAGE_SIZE at *
  omega

theorem page_injective {j k : Nat} (hj : j ≤ KALLOC_PAGES) (hk : k ≤ KALLOC_PAGES)
    (same : page heap j = page heap k) : j = k := by
  have values := congrArg BitVec.toNat same
  rw [toNat_page placed hj, toNat_page placed hk] at values
  unfold PAGE_SIZE at values
  omega

end Pages

theorem page_succ (k : Nat) : page heap k + BitVec.ofNat 32 PAGE_SIZE = page heap (k + 1) := by
  unfold page
  rw [BitVec.add_assoc, ← BitVec.ofNat_add, ← Nat.succ_mul]

def DoingAt (k : Nat) : Doing → Prop
  | .idle | .check => True
  | .take => k < KALLOC_PAGES
  | .load p => k < KALLOC_PAGES ∧ p = page heap k
  | .store p old => k < KALLOC_PAGES ∧ p = page heap k ∧ old = page heap k

theorem doingAt_outside {j k : Nat} {doing : Doing} (at_ : DoingAt heap k doing)
    (outside : doing.inside ≠ true) : DoingAt heap j doing := by
  cases doing with
  | idle | check => exact at_
  | take | load p | store p old => exact absurd rfl outside

/-- The first k pages in order, and after the last of them n refusals. -/
structure Handed (s : Callers T) (k n : Nat) : Prop where
  few : k ≤ KALLOC_PAGES
  bump : s.bump = page heap k
  returned : s.returned.map Prod.snd = (List.range k).map (page heap) ++ List.replicate n 0#32
  full : 0 < n → k = KALLOC_PAGES
  doing : ∀ t, DoingAt heap k (s.doing t)

theorem update_doingAt {s : Callers T} {k : Nat} (all : ∀ t, DoingAt heap k (s.doing t)) {t : T}
    {next : Doing} (here : DoingAt heap k next) (u : T) :
    DoingAt heap k ((s.goesOn t next).doing u) := by
  unfold goesOn
  by_cases same : u = t
  · rw [same]
    simpa using here
  · simpa [Function.update_of_ne same] using all u

theorem handed_turn (placed : Placed heap) {s : Callers T} {k n : Nat} (handed : Handed heap s k n)
    (alone : s.Alone) (t : T) : ∃ k' n', Handed heap (s.turn heap t) k' n' := by
  obtain ⟨few, bump, returned, full, all⟩ := handed
  have here := all t
  unfold turn
  cases doing : s.doing t with
  | idle => exact ⟨k, n, few, bump, returned, full, update_doingAt heap all trivial⟩
  | check =>
    simp only
    split
    · rename_i atEnd
      rw [bump, full_iff placed few] at atEnd
      refine ⟨k, n + 1, few, bump, ?_, fun _ => atEnd, update_doingAt heap all trivial⟩
      rw [List.map_append, returned, List.replicate_succ', List.append_assoc]
      rfl
    · rename_i room
      rw [bump, full_iff placed few] at room
      exact ⟨k, n, few, bump, returned, full,
        update_doingAt heap all (Nat.lt_of_le_of_ne few room)⟩
  | take =>
    rw [doing] at here
    exact ⟨k, n, few, bump, returned, full, update_doingAt heap all ⟨here, bump⟩⟩
  | load p =>
    rw [doing] at here
    exact ⟨k, n, few, bump, returned, full, update_doingAt heap all ⟨here.1, here.2, bump⟩⟩
  | store p old =>
    rw [doing] at here
    obtain ⟨room, rfl, rfl⟩ := here
    have none : n = 0 := by
      by_contra some
      exact absurd (full (Nat.pos_of_ne_zero some)) (Nat.ne_of_lt room)
    subst none
    refine ⟨k + 1, 0, room, page_succ heap k, ?_, fun some => absurd some (Nat.lt_irrefl 0), ?_⟩
    · simp only [List.map_append, returned, List.range_succ, List.replicate_zero, List.append_nil,
        List.map_cons, List.map_nil]
    · -- nobody else is past its test
      intro u
      by_cases same : u = t
      · rw [same]
        simp [goesOn, DoingAt]
      · have other : (s.goesOn t .idle).doing u = s.doing u := Function.update_of_ne same _ _
        change DoingAt heap (k + 1) ((s.goesOn t .idle).doing u)
        rw [other]
        apply doingAt_outside heap (all u)
        intro inside
        exact same (alone u t inside (by rw [doing]; rfl))

theorem handed_of_reachable (placed : Placed heap) {s : Callers T}
    (reached : (undisturbed heap).Reachable s) : ∃ k n, Handed heap s k n := by
  refine reached.invariant (fun s => ∃ k n, Handed heap s k n) ?_ ?_
  · rintro _ rfl
    refine ⟨0, 0, Nat.zero_le _, ?_, rfl, fun some => absurd some (Nat.lt_irrefl 0),
      fun _ => trivial⟩
    simp [page, start]
  · rintro s t s' ⟨k, n, handed⟩ ⟨turned, alone⟩
    obtain rfl := Option.some.inj turned
    exact handed_turn heap placed handed alone t

theorem placed_readme : Placed 0x6000#32 := ⟨by decide, by decide, by decide⟩

def inTurns : List Bool := [true, false, true, true, true, true, false, false, false, false]

def calls (n : Nat) (t : T) (s : Callers T) : Callers T := (fun s => s.turn heap t)^[5 * n] s

theorem call_alone (placed : Placed heap) {s : Callers T} {t : T} {k : Nat}
    (idle : s.doing t = .idle) (bump : s.bump = page heap k) (room : k < KALLOC_PAGES) :
    calls heap 1 t s = { s with
      bump := page heap (k + 1), returned := s.returned ++ [(t, page heap k)] } := by
  have passes : ¬page heap KALLOC_PAGES ≤ page heap k := by
    rw [full_iff placed (Nat.le_of_lt room)]
    exact Nat.ne_of_lt room
  obtain ⟨b, doing, returned⟩ := s
  simp only at idle bump
  subst bump
  have same : Function.update doing t .idle = doing := by
    rw [← idle]
    exact Function.update_eq_self t doing
  simp only [calls, Nat.mul_one, Function.iterate_succ, Function.iterate_zero, Function.comp_apply,
    id_eq, turn, goesOn, idle, Function.update_self, Function.update_idem, if_neg passes,
    page_succ, same]

theorem calls_alone (placed : Placed heap) {t : T} (n : Nat) {s : Callers T} {k : Nat}
    (idle : s.doing t = .idle) (bump : s.bump = page heap k) (room : k + n ≤ KALLOC_PAGES) :
    calls heap n t s = { s with
      bump := page heap (k + n)
      returned := s.returned ++ (List.range' k n).map fun i => (t, page heap i) } := by
  induction n generalizing s k with
  | zero =>
    obtain ⟨b, doing, returned⟩ := s
    simp only at bump
    subst bump
    simp [calls]
  | succ n ih =>
    have split : calls heap (n + 1) t s = calls heap n t (calls heap 1 t s) := by
      unfold calls
      rw [← Function.iterate_add_apply, Nat.mul_succ]
    let first : Callers T := { s with
      bump := page heap (k + 1), returned := s.returned ++ [(t, page heap k)] }
    have rest := ih (s := first) (k := k + 1) idle rfl (by omega)
    rw [split, call_alone heap placed idle bump (by omega), rest, List.range'_succ]
    simp [first, Nat.add_assoc, Nat.add_comm 1 n]

end Callers

end XorOS.Kernel.Kalloc
