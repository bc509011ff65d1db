import Mathlib.Logic.Relation

/- Runs of transition systems: labelled systems with their reachable states, and
   deterministic machines that yield an outcome at every step. -/
namespace Runs

structure System (S A : Type*) where
  init : S → Prop
  step : S → A → S → Prop

namespace System
variable {S A : Type*}

/-- A run lists the labels of its steps, oldest first. -/
inductive Path (sys : System S A) : S → List A → S → Prop
  | nil (s : S) : Path sys s [] s
  | snoc {s t u : S} {labels : List A} {a : A} :
      Path sys s labels t → sys.step t a u → Path sys s (labels ++ [a]) u

def Reachable (sys : System S A) (s : S) : Prop :=
  ∃ start labels, sys.init start ∧ sys.Path start labels s

def restrict (sys : System S A) (allowed : S → A → Prop) : System S A where
  init := sys.init
  step s a t := sys.step s a t ∧ allowed s a

theorem Path.preserves {sys : System S A} (Inv : S → Prop)
    (keep : ∀ s a t, Inv s → sys.step s a t → Inv t) {s t : S} {labels : List A}
    (path : sys.Path s labels t) (start : Inv s) : Inv t := by
  induction path with
  | nil => exact start
  | snoc _ last ih => exact keep _ _ _ ih last

theorem Reachable.of_init {sys : System S A} {s : S} (start : sys.init s) : sys.Reachable s :=
  ⟨s, [], start, .nil s⟩

theorem Reachable.next {sys : System S A} {s t : S} {a : A} (reached : sys.Reachable s)
    (step : sys.step s a t) : sys.Reachable t := by
  obtain ⟨start, labels, init, path⟩ := reached
  exact ⟨start, labels ++ [a], init, path.snoc step⟩

theorem Reachable.invariant {sys : System S A} (Inv : S → Prop)
    (base : ∀ s, sys.init s → Inv s) (keep : ∀ s a t, Inv s → sys.step s a t → Inv t) {s : S}
    (reached : sys.Reachable s) : Inv s := by
  obtain ⟨start, labels, init, path⟩ := reached
  exact path.preserves Inv keep (base start init)

theorem Reachable.of_restrict {sys : System S A} {allowed : S → A → Prop} {s : S}
    (reached : (sys.restrict allowed).Reachable s) : sys.Reachable s := by
  obtain ⟨start, labels, init, path⟩ := reached
  have keep : ∀ s a t, sys.Reachable s → (sys.restrict allowed).step s a t → sys.Reachable t :=
    fun s a t before step => before.next step.1
  exact path.preserves _ keep (.of_init init)

/-- A machine that may refuse an input, and what it does with a list of them. -/
def ofStep (init : S → Prop) (step : S → A → Option S) : System S A where
  init := init
  step s a t := step s a = some t

def follow (step : S → A → Option S) : List A → S → Option S
  | [], s => some s
  | a :: rest, s => (step s a).bind (follow step rest)

theorem follow_append (step : S → A → Option S) (first rest : List A) (s : S) :
    follow step (first ++ rest) s = (follow step first s).bind (follow step rest) := by
  induction first generalizing s with
  | nil => rfl
  | cons a first ih =>
    simp only [List.cons_append, follow, Option.bind_assoc]
    congr 1
    funext t
    exact ih t

theorem Reachable.follow {init : S → Prop} {step : S → A → Option S} :
    ∀ {inputs : List A} {s t : S}, (ofStep init step).Reachable s →
      System.follow step inputs s = some t → (ofStep init step).Reachable t := by
  intro inputs
  induction inputs with
  | nil =>
    intro s t reached done
    rw [← Option.some.inj done]
    exact reached
  | cons a rest ih =>
    intro s t reached done
    obtain ⟨u, first, done⟩ := Option.bind_eq_some_iff.mp done
    exact ih (reached.next first) done

theorem Path.cons {sys : System S A} {s t u : S} {a : A} {labels : List A} (step : sys.step s a t)
    (path : sys.Path t labels u) : sys.Path s (a :: labels) u := by
  induction path with
  | nil => exact .snoc (.nil s) step
  | snoc _ last ih => exact .snoc ih last

theorem Path.eq_of_nil {sys : System S A} {s t : S} {labels : List A}
    (path : sys.Path s labels t) (none : labels = []) : s = t := by
  cases path with
  | nil => rfl
  | snoc => simp at none

theorem Path.starts {sys : System S A} {s t : S} {labels : List A} (path : sys.Path s labels t) :
    labels = [] ∨ ∃ a u, sys.step s a u := by
  induction path with
  | nil => exact Or.inl rfl
  | snoc before last ih =>
    right
    rcases ih with none | first
    · rw [before.eq_of_nil none]
      exact ⟨_, _, last⟩
    · exact first

/-- A run of such a machine is what follow computes. -/
theorem Path.follow {init : S → Prop} {step : S → A → Option S} {s t : S} {inputs : List A}
    (path : (ofStep init step).Path s inputs t) : System.follow step inputs s = some t := by
  induction path with
  | nil => rfl
  | snoc _ last ih =>
    rw [follow_append, ih, Option.bind_some]
    simp only [System.follow]
    have last : step _ _ = some _ := last
    rw [last]
    rfl

theorem Path.of_follow {init : S → Prop} {step : S → A → Option S} {allowed : S → A → Prop} :
    ∀ {inputs : List A} {s t : S}, (∀ a ∈ inputs, ∀ u, allowed u a) →
      System.follow step inputs s = some t →
      ((ofStep init step).restrict allowed).Path s inputs t := by
  intro inputs
  induction inputs with
  | nil =>
    intro s t _ done
    rw [← Option.some.inj done]
    exact .nil s
  | cons a rest ih =>
    intro s t free done
    obtain ⟨u, first, done⟩ := Option.bind_eq_some_iff.mp done
    exact .cons ⟨first, free a List.mem_cons_self s⟩
      (ih (fun b member => free b (List.mem_cons_of_mem _ member)) done)

def after (step : S → A → Option S) (inputs : List A) (s : S) : S :=
  (follow step inputs s).getD s

theorem follow_after {step : S → A → Option S} {inputs : List A} {s : S}
    (accepted : (follow step inputs s).isSome) :
    follow step inputs s = some (after step inputs s) := by
  obtain ⟨t, done⟩ := Option.isSome_iff_exists.mp accepted
  unfold after
  rw [done]
  rfl

def allowing (step : S → A → Option S) (allowed : S → A → Prop) [∀ s a, Decidable (allowed s a)]
    (s : S) (a : A) : Option S := if allowed s a then step s a else none

theorem Reachable.of_allowing {init : S → Prop} {step : S → A → Option S} {allowed : S → A → Prop}
    [∀ s a, Decidable (allowed s a)] {inputs : List A} {s t : S} (start : init s)
    (done : System.follow (allowing step allowed) inputs s = some t) :
    ((ofStep init step).restrict allowed).Reachable t := by
  have base : (ofStep init (allowing step allowed)).Reachable s := .of_init start
  have through := base.follow done
  refine through.invariant _ (fun s base => .of_init base) ?_
  intro s a t before taken
  have taken : allowing step allowed s a = some t := taken
  unfold allowing at taken
  split at taken
  · rename_i may
    exact before.next ⟨taken, may⟩
  · cases taken

end System

section Deterministic
variable {S T O : Type*}

def runFor (next : S → O × S) : Nat → S → List O × S
  | 0, s => ([], s)
  | n + 1, s =>
      let first := next s
      let rest := runFor next n first.2
      (first.1 :: rest.1, rest.2)

def stateAfter (next : S → O × S) (n : Nat) (s : S) : S := (runFor next n s).2

theorem stateAfter_succ (next : S → O × S) (n : Nat) (s : S) :
    stateAfter next (n + 1) s = (next (stateAfter next n s)).2 := by
  induction n generalizing s with
  | zero => rfl
  | succ n ih => exact ih (next s).2

theorem outcomes_succ (next : S → O × S) (n : Nat) (s : S) :
    (runFor next (n + 1) s).1 = (runFor next n s).1 ++ [(next (stateAfter next n s)).1] := by
  induction n generalizing s with
  | zero => rfl
  | succ n ih => exact congrArg ((next s).1 :: ·) (ih (next s).2)

/-- Two machines whose related states step alike, as long as the second one satisfies
    Guard before each step, yield the same outcomes and stay related. -/
theorem runFor_simulation {next : S → O × S} {next' : T → O × T} (R : S → T → Prop)
    (Guard : T → Prop)
    (step : ∀ s t, R s t → Guard t → (next s).1 = (next' t).1 ∧ R (next s).2 (next' t).2) :
    ∀ (n : Nat) (s : S) (t : T), R s t → (∀ k < n, Guard (stateAfter next' k t)) →
      (runFor next n s).1 = (runFor next' n t).1 ∧
        R (stateAfter next n s) (stateAfter next' n t) := by
  intro n
  induction n with
  | zero => intro s t related _; exact ⟨rfl, related⟩
  | succ n ih =>
    intro s t related guard
    obtain ⟨outcome, related'⟩ := step s t related (guard 0 (by omega))
    obtain ⟨outcomes, final⟩ := ih _ _ related' fun k small => guard (k + 1) (by omega)
    refine ⟨?_, final⟩
    simp only [runFor]
    rw [outcome, outcomes]

variable {A : Type*}

def respond (next : S → A → O × S) : List A → S → List O × S
  | [], s => ([], s)
  | a :: rest, s =>
      let first := next s a
      let answers := respond next rest first.2
      (first.1 :: answers.1, answers.2)

/-- Related machines give the same answers to inputs that are allowed where they are made. -/
theorem respond_simulation {next : S → A → O × S} {next' : T → A → O × T} (R : S → T → Prop)
    (Allowed : A → Prop)
    (step : ∀ s t a, R s t → Allowed a →
      (next s a).1 = (next' t a).1 ∧ R (next s a).2 (next' t a).2) :
    ∀ (inputs : List A) (s : S) (t : T), R s t → (∀ a ∈ inputs, Allowed a) →
      (respond next inputs s).1 = (respond next' inputs t).1 ∧
        R (respond next inputs s).2 (respond next' inputs t).2 := by
  intro inputs
  induction inputs with
  | nil => intro s t related _; exact ⟨rfl, related⟩
  | cons a rest ih =>
    intro s t related allowed
    obtain ⟨answer, related'⟩ := step s t a related (allowed a List.mem_cons_self)
    obtain ⟨answers, final⟩ := ih _ _ related' fun b member =>
      allowed b (List.mem_cons_of_mem a member)
    refine ⟨?_, final⟩
    simp only [respond]
    rw [answer, answers]

def Guarded (next : S → A → O × S) (Guard : S → A → Prop) : List A → S → Prop
  | [], _ => True
  | a :: rest, s => Guard s a ∧ Guarded next Guard rest (next s a).2

/-- Related machines give the same answers to inputs that come to guarded states. -/
theorem respond_simulation_guarded {next : S → A → O × S} {next' : T → A → O × T}
    (R : S → T → Prop) (Guard : S → A → Prop)
    (step : ∀ s t a, R s t → Guard s a →
      (next s a).1 = (next' t a).1 ∧ R (next s a).2 (next' t a).2) :
    ∀ (inputs : List A) (s : S) (t : T), R s t → Guarded next Guard inputs s →
      (respond next inputs s).1 = (respond next' inputs t).1 ∧
        R (respond next inputs s).2 (respond next' inputs t).2 := by
  intro inputs
  induction inputs with
  | nil => intro s t related _; exact ⟨rfl, related⟩
  | cons a rest ih =>
    intro s t related guarded
    obtain ⟨answer, related'⟩ := step s t a related guarded.1
    obtain ⟨answers, final⟩ := ih _ _ related' guarded.2
    refine ⟨?_, final⟩
    simp only [respond]
    rw [answer, answers]

/-- A machine that may fail instead of answering, with the history of its answers. -/
def attempt (next : S → A → Option (O × S)) : List A → S → Option (List (A × O) × S)
  | [], s => some ([], s)
  | a :: rest, s => (next s a).bind fun first =>
      (attempt next rest first.2).map fun done => ((a, first.1) :: done.1, done.2)

theorem attempt_append (next : S → A → Option (O × S)) (inputs : List A) (a : A) (s : S) :
    attempt next (inputs ++ [a]) s = (attempt next inputs s).bind fun done =>
      (next done.2 a).map fun last => (done.1 ++ [(a, last.1)], last.2) := by
  induction inputs generalizing s with
  | nil =>
    simp only [List.nil_append, attempt, Option.map_some, Option.bind_some]
    cases next s a <;> rfl
  | cons b inputs ih =>
    simp only [List.cons_append, attempt]
    cases next s b with
    | none => rfl
    | some first =>
      simp only [Option.bind_some, ih]
      cases attempt next inputs first.2 with
      | none => rfl
      | some done =>
        simp only [Option.bind_some, Option.map_some]
        cases next done.2 a <;> rfl

/-- A machine that answers every allowed input where Inv holds of the history and the state
    never fails. -/
theorem attempt_invariant {next : S → A → Option (O × S)} (Inv : List (A × O) → S → Prop)
    (Allowed : A → Prop)
    (step : ∀ past s a, Inv past s → Allowed a →
      ∃ o t, next s a = some (o, t) ∧ Inv (past ++ [(a, o)]) t) :
    ∀ (inputs : List A) (past : List (A × O)) (s : S), Inv past s → (∀ a ∈ inputs, Allowed a) →
      ∃ history t, attempt next inputs s = some (history, t) ∧ history.map Prod.fst = inputs ∧
        Inv (past ++ history) t := by
  intro inputs
  induction inputs with
  | nil =>
    intro past s inv _
    refine ⟨[], s, rfl, rfl, ?_⟩
    rwa [List.append_nil]
  | cons a rest ih =>
    intro past s inv allowed
    obtain ⟨o, t, answered, inv⟩ := step past s a inv (allowed a List.mem_cons_self)
    obtain ⟨history, u, done, asked, inv⟩ := ih _ t inv fun b member =>
      allowed b (List.mem_cons_of_mem a member)
    refine ⟨(a, o) :: history, u, ?_, ?_, ?_⟩
    · simp only [attempt, answered, done, Option.bind_some, Option.map_some]
    · rw [List.map_cons, asked]
    · rwa [List.append_assoc] at inv

end Deterministic

end Runs
