import XorOS.Kernel.Scheduler

/- The invariant behind context switching: whose stream runs, what the suspended contexts
   hold, and whose return address mepc is. It holds along runs in which no ecall overlaps a
   timer interrupt and no timer interrupt lands between current = next and the end of
   context_switch. -/
namespace XorOS.Kernel
open ISA Runs
variable {n : Nat}

namespace Point

def OldIs (i : Fin n) : Point n → Prop
  | check old => old = i
  | scan old _ => old = i
  | test old _ => old = i
  | demote old _ => old = i
  | promote old _ => old = i
  | publish old _ => old = i
  | switch old _ => old = i
  | _ => True

def target : Point n → Option (Fin n)
  | test _ next => some next
  | demote _ next => some next
  | exitOld next => some next
  | promote _ next => some next
  | publish _ next => some next
  | switch _ next => some next
  | _ => none

def IsSwitch : Point n → Prop
  | switch _ _ => True
  | _ => False

def InExit : Point n → Prop
  | exitCheck => True
  | exitMark => True
  | exitScan _ => True
  | exitTest _ _ => True
  | exitOld _ => True
  | _ => False

def Searching : Point n → Prop
  | start => True
  | check _ => True
  | scan _ _ => True
  | ret => True
  | _ => False

end Point

namespace Stack

/-- Every scheduler call in progress is at a statement with p; Rest leaves out the innermost. -/
def All (p : Point n → Prop) : Stack n → Prop
  | process c => ∀ pt, c = some pt → p pt
  | handler _ c below => (∀ pt, c = some pt → p pt) ∧ below.All p

def Rest (p : Point n → Prop) : Stack n → Prop
  | process _ => True
  | handler _ _ below => below.All p

def Shaped : Stack n → Prop
  | process _ => True
  | handler _ c below => (∀ pt, c = some pt → ¬pt.InExit) ∧ below.Shaped

theorem all_iff (p : Point n → Prop) (s : Stack n) :
    s.All p ↔ (∀ pt, s.call = some pt → p pt) ∧ s.Rest p := by
  cases s with
  | process c => simp [All, Rest, call]
  | handler trap c below => simp [All, Rest, call]

@[simp] theorem rest_setCall (p : Point n → Prop) (c : Option (Point n)) (s : Stack n) :
    (s.setCall c).Rest p ↔ s.Rest p := by
  cases s with
  | process => exact Iff.rfl
  | handler => exact Iff.rfl

theorem all_setCall {p : Point n → Prop} {c : Option (Point n)} {s : Stack n}
    (top : ∀ pt, c = some pt → p pt) (rest : s.Rest p) : (s.setCall c).All p := by
  rw [all_iff, call_setCall, rest_setCall]
  exact ⟨top, rest⟩

theorem All.mono {p q : Point n → Prop} (weaken : ∀ pt, p pt → q pt) :
    ∀ {s : Stack n}, s.All p → s.All q := by
  intro s
  induction s with
  | process c => exact fun h pt here => weaken pt (h pt here)
  | handler trap c below ih => exact fun h => ⟨fun pt here => weaken pt (h.1 pt here), ih h.2⟩

theorem Rest.mono {p q : Point n → Prop} (weaken : ∀ pt, p pt → q pt) {s : Stack n}
    (h : s.Rest p) : s.Rest q := by
  cases s with
  | process => trivial
  | handler trap c below => exact All.mono weaken h

theorem shaped_setCall {c : Option (Point n)} {s : Stack n} (shaped : s.Shaped)
    (yields : ∀ pt, c = some pt → pt.InExit → s.traps = []) : (s.setCall c).Shaped := by
  cases s with
  | process => trivial
  | handler trap d below =>
    refine ⟨fun pt here inExit => ?_, shaped.2⟩
    exact absurd (yields pt here inExit) (by simp [traps])

theorem Shaped.exit {s : Stack n} (shaped : s.Shaped) {pt : Point n} (here : s.call = some pt)
    (inExit : pt.InExit) : s.traps = [] := by
  cases s with
  | process => rfl
  | handler trap c below => exact absurd inExit (shaped.1 pt here)

theorem whole_of_traps {s s' : Stack n} (same : s'.traps = s.traps)
    (whole : ∀ trap ∈ s.traps, trap.words = 0) : ∀ trap ∈ s'.traps, trap.words = 0 := by
  rw [same]
  exact whole

theorem not_torn {s : Stack n} (whole : ∀ trap ∈ s.traps, trap.words = 0) : s.torn = false := by
  unfold torn
  rw [List.any_eq_false]
  intro trap member
  simp [whole trap member]

/-- A process that waits for the processor: fresh, or inside its own context_switch. -/
structure Waits (i : Fin n) (s : Stack n) : Prop where
  call : ∀ pt, s.call = some pt → pt = .ret
  old : s.All (Point.OldIs i)
  noSwitch : s.All fun pt => ¬pt.IsSwitch
  whole : ∀ trap ∈ s.traps, trap.words = 0
  shape : s.Shaped

/-- The stream of process i runs, and current is i, or already next in context_switch. No
    handler on it interrupted a context_switch. -/
structure Going (i current : Fin n) (s : Stack n) : Prop where
  ahead : ∀ old next, s.call = some (.switch old next) → current = next
  here : (∀ pt, s.call = some pt → ¬pt.IsSwitch) → current = i
  old : s.All (Point.OldIs i)
  rest : s.Rest fun pt => ¬pt.IsSwitch
  whole : ∀ trap ∈ s.traps, trap.words = 0

/-- Only a context_switch has words behind it. After its stores the context of process i is
    saved. -/
structure Midway (i : Fin n) (ctx : Thread n) (s : Stack n) (words : Nat) : Prop where
  inside : words ≠ 0 → ∃ old next, s.call = some (.switch old next)
  saved : CONTEXT_WORDS ≤ words → ctx = ⟨i, s.setCall (some .ret)⟩

theorem midway_outside (i : Fin n) (ctx : Thread n) (s : Stack n) : Midway i ctx s 0 :=
  ⟨fun inside => absurd rfl inside, fun stores => absurd stores (by decide)⟩

theorem waits_fresh (i : Fin n) : Waits i (Thread.fresh i).stack :=
  ⟨by simp [Thread.fresh, Stack.call], by simp [Thread.fresh, All], by simp [Thread.fresh, All],
    by simp [Thread.fresh, traps], trivial⟩

theorem Waits.going {i : Fin n} {s : Stack n} (h : Waits i s) : Going i i s where
  ahead old next here := absurd (h.call _ here) (by simp)
  here _ := rfl
  old := h.old
  rest := ((all_iff _ s).mp h.noSwitch).2
  whole := h.whole

theorem Waits.no_target {i : Fin n} {s : Stack n} (h : Waits i s) (outside : s.traps = [])
    (p : Fin n → Prop) : s.All fun pt => ∀ j, pt.target = some j → p j := by
  cases s with
  | process c =>
    intro pt here j target
    rw [h.call pt here] at target
    simp [Point.target] at target
  | handler trap c below => simp [traps] at outside

end Stack

namespace Machine
open Stack

def stackOf (k : Machine n) (i : Fin n) : Stack n :=
  if i = k.thread.owner then k.thread.stack else (k.procs i).ctx.stack

def Alive (k : Machine n) (i : Fin n) : Prop :=
  i = k.thread.owner ∨ (k.procs i).state ≠ .unused ∧ (k.procs i).state ≠ .zombie

def InTrap (k : Machine n) : Prop := ∃ i, k.Alive i ∧ (k.stackOf i).traps ≠ []

/-- The running stream is between current = next and the end of context_switch, and the timer's
    sched_yield would find a process to switch to. -/
def InWindow (k : Machine n) : Prop :=
  (∃ old next, k.thread.stack.call = some (.switch old next)) ∧ ∃ i, (k.procs i).state = .ready

/-- The condition on each step under which the scheduler is safe. -/
def Clean (k : Machine n) : Event n → Prop
  | .timer => ¬k.InWindow
  | .ecall => ¬k.InTrap
  | _ => True

/-- Switching to j is harmless: it has been spawned, and if it has exited it did so outside
    the trap handler. -/
def Loadable (k : Machine n) (j : Fin n) : Prop :=
  (k.procs j).state ≠ .unused ∧ ((k.procs j).state = .zombie → (k.stackOf j).traps = [])

/-- A timer interrupt before the end of context_switch with no READY process: its sched_yield
    will find none and return. -/
def Idles (k : Machine n) : Prop :=
  ∃ trap c below, k.thread.stack = .handler trap c below ∧
    (∀ pt, c = some pt → pt.Searching) ∧ (∃ old next, below.call = some (.switch old next)) ∧
    (∀ i, (k.procs i).state ≠ .ready) ∧ Going k.thread.owner k.current below ∧
    Midway k.thread.owner (k.procs k.thread.owner).ctx below trap.words

/-- At most one live process is in the trap handler, once. Its mret will return to where it was
    interrupted, and interrupts are off until then. -/
structure Unreturned (k : Machine n) : Prop where
  resume : ∀ i, k.Alive i → ∀ trap ∈ (k.stackOf i).traps,
    trap.pc = k.cpu.csr.regs CSR.MEPC ∧ isEcall (k.cpu.csr.regs CSR.MCAUSE) = false
  single : ∀ i, k.Alive i → (k.stackOf i).traps.length ≤ 1
  alone : ∀ i j, k.Alive i → k.Alive j → (k.stackOf i).traps ≠ [] → (k.stackOf j).traps ≠ [] →
    i = j
  masked : k.InTrap → (k.cpu.csr.regs CSR.MSTATUS).getLsbD 3 = false

structure Inv (k : Machine n) : Prop where
  found : k.lost = false
  vector : k.cpu.csr.regs CSR.MTVEC ≠ 0#32
  used : (k.procs k.thread.owner).state ≠ .unused
  waiting : ∀ i, i ≠ k.thread.owner → (k.procs i).state ≠ .unused →
    (k.procs i).ctx.owner = i ∧ Waits i (k.procs i).ctx.stack
  shape : k.thread.stack.Shaped
  control : Going k.thread.owner k.current k.thread.stack ∨ k.Idles
  midway : Midway k.thread.owner (k.procs k.thread.owner).ctx k.thread.stack k.words
  unreturned : k.Unreturned
  targets : ∀ i, k.Alive i →
    (k.stackOf i).All fun pt => ∀ j, pt.target = some j → j ≠ i → k.Loadable j

theorem stackOf_owner (k : Machine n) : k.stackOf k.thread.owner = k.thread.stack := if_pos rfl

theorem stackOf_other {k : Machine n} {i : Fin n} (other : i ≠ k.thread.owner) :
    k.stackOf i = (k.procs i).ctx.stack := if_neg other

theorem Unreturned.of_none {k : Machine n} (none : ∀ i, k.Alive i → (k.stackOf i).traps = []) :
    k.Unreturned where
  resume i alive trap mem := by
    rw [none i alive] at mem
    simp at mem
  single i alive := by
    rw [none i alive]
    simp
  alone i _ alive _ inside _ := absurd (none i alive) inside
  masked := by
    rintro ⟨i, alive, inside⟩
    exact absurd (none i alive) inside

theorem Unreturned.of_within {k k' : Machine n} (h : k.Unreturned)
    (csr : k'.InTrap → k'.cpu.csr = k.cpu.csr)
    (within : ∀ i, k'.Alive i → (k'.stackOf i).traps ≠ [] →
      k.Alive i ∧ (k'.stackOf i).traps = (k.stackOf i).traps) : k'.Unreturned where
  resume i alive trap mem := by
    have inside := List.ne_nil_of_mem mem
    obtain ⟨was, same⟩ := within i alive inside
    rw [csr ⟨i, alive, inside⟩]
    rw [same] at mem
    exact h.resume i was trap mem
  single i alive := by
    by_cases inside : (k'.stackOf i).traps = []
    · rw [inside]
      simp
    · obtain ⟨was, same⟩ := within i alive inside
      rw [same]
      exact h.single i was
  alone i j alive alive' inside inside' := by
    obtain ⟨was, same⟩ := within i alive inside
    obtain ⟨was', same'⟩ := within j alive' inside'
    rw [same] at inside
    rw [same'] at inside'
    exact h.alone i j was was' inside inside'
  masked := by
    rintro ⟨i, alive, inside⟩
    obtain ⟨was, same⟩ := within i alive inside
    rw [csr ⟨i, alive, inside⟩]
    rw [same] at inside
    exact h.masked ⟨i, was, inside⟩

theorem Start.inv {k : Machine n} (h : k.Start) : Inv k := by
  have owner : k.thread.owner = k.current := by rw [h.stack]; rfl
  have stack : k.thread.stack = .process none := by rw [h.stack]; rfl
  have fresh : ∀ i, i ≠ k.thread.owner → (k.procs i).state ≠ .unused →
      (k.procs i).ctx = .fresh i := by
    intro i other used
    rw [owner] at other
    rcases h.others i other with unused | ⟨_, fresh⟩
    · exact absurd unused used
    · exact fresh
  have empty : ∀ i, k.Alive i → k.stackOf i = .process none := by
    intro i alive
    by_cases same : i = k.thread.owner
    · rw [same, stackOf_owner, stack]
    · rcases alive with same' | ⟨used, _⟩
      · exact absurd same' same
      · rw [stackOf_other same, fresh i same used]
        rfl
  refine ⟨h.found, h.vector, ?_, ?_, ?_, Or.inl ?_, ?_, ?_, ?_⟩
  · rw [owner, h.current]
    simp
  · intro i other used
    rw [fresh i other used]
    exact ⟨rfl, waits_fresh i⟩
  · rw [stack]
    trivial
  · rw [stack, owner]
    exact ⟨by simp [Stack.call], fun _ => rfl, by simp [All], trivial, by simp [traps]⟩
  · rw [h.outside]
    exact midway_outside _ _ _
  · refine .of_none fun i alive => ?_
    rw [empty i alive]
    rfl
  · intro i alive
    rw [empty i alive]
    simp [All]

theorem Inv.setCpu {k : Machine n} (h : Inv k) {cpu : RVModel 32}
    (vector : cpu.csr.regs CSR.MTVEC = k.cpu.csr.regs CSR.MTVEC)
    (csr : k.InTrap → cpu.csr = k.cpu.csr) : Inv { k with cpu := cpu } where
  found := h.found
  vector := by
    rw [vector]
    exact h.vector
  used := h.used
  waiting := h.waiting
  shape := h.shape
  control := h.control
  midway := h.midway
  unreturned := h.unreturned.of_within csr fun _ alive _ => ⟨alive, rfl⟩
  targets := h.targets

theorem Inv.moved {k : Machine n} (h : Inv k) (pc : BitVec 32) (regs : RegisterFile 32) :
    Inv (k.moved pc regs) :=
  h.setCpu rfl fun _ => rfl

theorem Inv.halt {k : Machine n} (h : Inv k) : Inv k.halt :=
  h.setCpu rfl fun _ => rfl

theorem traps_goto (k : Machine n) (c : Option (Point n)) (i : Fin n) :
    ((k.goto c).stackOf i).traps = (k.stackOf i).traps := by
  unfold stackOf goto
  by_cases same : i = k.thread.owner
  · rw [if_pos same, if_pos same]
    exact traps_setCall c _
  · rw [if_neg same, if_neg same]

theorem loadable_goto {k : Machine n} {j : Fin n} (h : k.Loadable j) (c : Option (Point n)) :
    (k.goto c).Loadable j :=
  ⟨h.1, fun exited => (traps_goto k c j).trans (h.2 exited)⟩

theorem Inv.outside {k : Machine n} (h : Inv k)
    (plain : ∀ pt, k.thread.stack.call = some pt → ¬pt.IsSwitch) : k.words = 0 := by
  by_contra inside
  obtain ⟨old, next, call⟩ := h.midway.inside inside
  exact plain _ call trivial

theorem Inv.jump {k : Machine n} (h : Inv k) {current : Fin n} {c : Option (Point n)}
    (outside : k.words = 0)
    (control : Going k.thread.owner current (k.thread.stack.setCall c) ∨
      ({ k with current := current }.goto c).Idles)
    (yields : ∀ pt, c = some pt → pt.InExit → k.thread.stack.traps = [])
    (target : ∀ pt, c = some pt → ∀ j, pt.target = some j → j ≠ k.thread.owner →
      k.Loadable j) : Inv ({ k with current := current }.goto c) where
  found := h.found
  vector := h.vector
  used := h.used
  waiting := h.waiting
  shape := shaped_setCall h.shape yields
  control := control
  midway := by
    change Midway _ _ _ k.words
    rw [outside]
    exact midway_outside _ _ _
  unreturned := h.unreturned.of_within (fun _ => rfl) fun i alive _ => ⟨alive, traps_goto k c i⟩
  targets i alive := by
    change ((k.goto c).stackOf i).All fun pt => ∀ j, pt.target = some j → j ≠ i →
      (k.goto c).Loadable j
    have before := (h.targets i alive).mono
      (q := fun pt => ∀ j, pt.target = some j → j ≠ i → (k.goto c).Loadable j)
      fun pt loads j here other => loadable_goto (loads j here other) c
    by_cases same : i = k.thread.owner
    · subst same
      rw [stackOf_owner] at before
      have top : (k.goto c).stackOf k.thread.owner = k.thread.stack.setCall c :=
        stackOf_owner (k.goto c)
      rw [top]
      refine all_setCall (fun pt here j aims other => ?_) ((all_iff _ _).mp before).2
      exact loadable_goto (target pt here j aims other) c
    · rw [stackOf_other same] at before
      rw [stackOf_other (k := k.goto c) same]
      exact before

theorem Inv.goto_going {k : Machine n} (h : Inv k) (outside : k.words = 0)
    (going : Going k.thread.owner k.current k.thread.stack)
    (here : k.current = k.thread.owner) {c : Option (Point n)}
    (plain : ∀ pt, c = some pt → ¬pt.IsSwitch)
    (old : ∀ pt, c = some pt → pt.OldIs k.thread.owner)
    (yields : ∀ pt, c = some pt → pt.InExit → k.thread.stack.traps = [])
    (target : ∀ pt, c = some pt → ∀ j, pt.target = some j → j ≠ k.thread.owner →
      k.Loadable j) : Inv (k.goto c) := by
  refine h.jump outside (Or.inl ⟨?_, fun _ => here, ?_, ?_, ?_⟩) yields target
  · intro old' next call
    rw [call_setCall] at call
    exact absurd trivial (plain _ call)
  · exact all_setCall old ((all_iff _ _).mp going.old).2
  · exact (rest_setCall _ _ _).mpr going.rest
  · exact whole_of_traps (traps_setCall _ _) going.whole

theorem Inv.goto_idles {k : Machine n} (h : Inv k) (idles : k.Idles) {c : Option (Point n)}
    (searching : ∀ pt, c = some pt → pt.Searching) : Inv (k.goto c) := by
  obtain ⟨trap, d, below, stack, search, window, noReady, going, midway⟩ := idles
  have outside : k.words = 0 := h.outside fun pt call inside => by
    rw [stack] at call
    cases pt with
    | switch old next => exact search _ call
    | _ => exact inside
  refine h.jump outside (Or.inr ?_) ?_ ?_
  · refine ⟨trap, c, below, ?_, searching, window, noReady, going, midway⟩
    change k.thread.stack.setCall c = _
    rw [stack]
    rfl
  · intro pt here inExit
    have search := searching pt here
    cases pt with
    | start => exact absurd inExit id
    | check => exact absurd inExit id
    | scan => exact absurd inExit id
    | ret => exact absurd inExit id
    | _ => exact absurd search id
  · intro pt here j aims
    have search := searching pt here
    cases pt with
    | start => simp [Point.target] at aims
    | check => simp [Point.target] at aims
    | scan => simp [Point.target] at aims
    | ret => simp [Point.target] at aims
    | _ => exact absurd search id

theorem stackOf_setState (k : Machine n) (i : Fin n) (state : ProcState) (j : Fin n) :
    (k.setState i state).stackOf j = k.stackOf j := by
  unfold stackOf setState
  by_cases same : j = k.thread.owner
  · rw [if_pos same, if_pos same]
  · rw [if_neg same, if_neg same]
    by_cases here : j = i
    · simp [here]
    · simp [here]

theorem state_setState (k : Machine n) (i : Fin n) (state : ProcState) (j : Fin n) :
    ((k.setState i state).procs j).state = if j = i then state else (k.procs j).state := by
  unfold setState
  by_cases here : j = i
  · simp [here]
  · simp [here]

theorem ctx_setState (k : Machine n) (i : Fin n) (state : ProcState) (j : Fin n) :
    ((k.setState i state).procs j).ctx = (k.procs j).ctx := by
  unfold setState
  by_cases here : j = i
  · simp [here]
  · simp [here]

def Resumable (k : Machine n) (i : Fin n) : Prop :=
  k.Alive i ∨ i ≠ k.thread.owner ∧ (k.procs i).state ≠ .unused ∧ (k.stackOf i).traps = []

theorem Inv.targets_of_resumable {k : Machine n} (h : Inv k) {i : Fin n}
    (was : k.Resumable i) :
    (k.stackOf i).All fun pt => ∀ j, pt.target = some j → j ≠ i → k.Loadable j := by
  rcases was with alive | ⟨other, used, outside⟩
  · exact h.targets i alive
  · have waits := (h.waiting i other used).2
    rw [stackOf_other other] at outside ⊢
    exact (waits.no_target outside _).mono fun pt aims j here _ => aims j here

theorem Unreturned.of_resumable {k k' : Machine n} (h : k.Unreturned)
    (csr : k'.cpu.csr = k.cpu.csr)
    (traps : ∀ i, (k'.stackOf i).traps = (k.stackOf i).traps)
    (was : ∀ i, k'.Alive i → k.Resumable i) : k'.Unreturned := by
  refine h.of_within (fun _ => csr) fun i alive inside => ?_
  rcases was i alive with before | ⟨_, _, outside⟩
  · exact ⟨before, traps i⟩
  · rw [traps] at inside
    exact absurd outside inside

theorem used_of_setState {k : Machine n} {i : Fin n} {state : ProcState}
    (loadable : i ≠ k.thread.owner → k.Loadable i) {j : Fin n} (other : j ≠ k.thread.owner)
    (after : ((k.setState i state).procs j).state ≠ .unused) : (k.procs j).state ≠ .unused := by
  rw [state_setState] at after
  split at after
  · rename_i same
    subst same
    exact (loadable other).1
  · exact after

theorem loadable_setState {k : Machine n} {i : Fin n} {state : ProcState} (used : state ≠ .unused)
    (exits : state = .zombie → i = k.thread.owner ∧ k.thread.stack.traps = []) {j : Fin n}
    (before : k.Loadable j) : (k.setState i state).Loadable j := by
  refine ⟨?_, fun exited => ?_⟩
  · rw [state_setState]
    split
    · exact used
    · exact before.1
  · rw [state_setState] at exited
    rw [stackOf_setState]
    split at exited
    · rename_i same
      obtain ⟨owner, outside⟩ := exits exited
      rw [same, owner, stackOf_owner]
      exact outside
    · exact before.2 exited

theorem resumable_setState {k : Machine n} {i : Fin n} {state : ProcState}
    (loadable : i ≠ k.thread.owner → k.Loadable i) {j : Fin n}
    (alive : (k.setState i state).Alive j) : k.Resumable j := by
  rcases alive with owner | ⟨spawned, lives⟩
  · exact Or.inl (Or.inl owner)
  by_cases owner : j = k.thread.owner
  · exact Or.inl (Or.inl owner)
  have used := used_of_setState loadable owner spawned
  by_cases exited : (k.procs j).state = .zombie
  · rw [state_setState] at lives
    split at lives
    · rename_i same
      subst same
      exact Or.inr ⟨owner, used, (loadable owner).2 exited⟩
    · exact absurd exited lives
  · exact Or.inl (Or.inr ⟨used, exited⟩)

theorem Inv.setState {k : Machine n} (h : Inv k)
    (going : Going k.thread.owner k.current k.thread.stack) {i : Fin n} {state : ProcState}
    (used : state ≠ .unused) (loadable : i ≠ k.thread.owner → k.Loadable i)
    (exits : state = .zombie → i = k.thread.owner ∧ k.thread.stack.traps = []) :
    Inv (k.setState i state) := by
  refine ⟨h.found, h.vector, ?_, ?_, h.shape, Or.inl going, ?_, ?_, ?_⟩
  · change ((k.setState i state).procs k.thread.owner).state ≠ .unused
    rw [state_setState]
    split
    · exact used
    · exact h.used
  · intro j other spawned
    rw [ctx_setState]
    exact h.waiting j other (used_of_setState loadable other spawned)
  · refine ⟨h.midway.inside, fun stores => ?_⟩
    rw [ctx_setState]
    exact h.midway.saved stores
  · exact h.unreturned.of_resumable rfl
      (fun j => congrArg traps (stackOf_setState k i state j))
      fun _ alive => resumable_setState loadable alive
  · intro j alive
    rw [stackOf_setState]
    exact (h.targets_of_resumable (resumable_setState loadable alive)).mono
      fun pt aims m here ne => loadable_setState used exits (aims m here ne)

theorem state_saveContext (k : Machine n) (old j : Fin n) :
    ((k.saveContext old).procs j).state = (k.procs j).state := by
  unfold saveContext
  by_cases here : j = old
  · simp [here]
  · simp [here]

theorem ctx_saveContext (k : Machine n) (old j : Fin n) :
    ((k.saveContext old).procs j).ctx =
      if j = old then { k.thread with stack := k.thread.stack.setCall (some .ret) }
      else (k.procs j).ctx := by
  unfold saveContext
  by_cases here : j = old
  · simp [here]
  · simp [here]

theorem state_contextSwitch (k : Machine n) (old next j : Fin n) :
    ((k.contextSwitch old next).procs j).state = (k.procs j).state := state_saveContext k old j

theorem procs_contextSwitch (k : Machine n) (next j : Fin n) :
    (k.contextSwitch k.thread.owner next).procs j =
      if j = k.thread.owner then
        { k.procs j with ctx := { k.thread with stack := k.thread.stack.setCall (some .ret) } }
      else k.procs j := rfl

theorem thread_contextSwitch (k : Machine n) (old next : Fin n) :
    (k.contextSwitch old next).thread = ((k.contextSwitch old next).procs next).ctx := rfl

theorem Inv.owner_contextSwitch {k : Machine n} (h : Inv k) {next : Fin n}
    (loadable : next ≠ k.thread.owner → k.Loadable next) :
    (k.contextSwitch k.thread.owner next).thread.owner = next := by
  rw [thread_contextSwitch, procs_contextSwitch]
  split
  · rename_i same
    exact same.symm
  · rename_i other
    exact (h.waiting next other (loadable other).1).1

theorem Inv.stackOf_contextSwitch {k : Machine n} (h : Inv k) {next : Fin n}
    (loadable : next ≠ k.thread.owner → k.Loadable next) (j : Fin n) :
    (k.contextSwitch k.thread.owner next).stackOf j =
      if j = k.thread.owner then k.thread.stack.setCall (some .ret) else k.stackOf j := by
  have here : (k.contextSwitch k.thread.owner next).stackOf j =
      ((k.contextSwitch k.thread.owner next).procs j).ctx.stack := by
    unfold Machine.stackOf
    rw [h.owner_contextSwitch loadable]
    split
    · rename_i same
      rw [same, thread_contextSwitch]
    · rfl
  rw [here, procs_contextSwitch]
  split
  · rfl
  · rename_i other
    exact (stackOf_other other).symm

theorem Inv.waits_saved {k : Machine n} (h : Inv k)
    (going : Going k.thread.owner k.current k.thread.stack) :
    Waits k.thread.owner (k.thread.stack.setCall (some .ret)) := by
  refine ⟨?_, ?_, ?_, ?_, ?_⟩
  · intro pt here
    rw [call_setCall] at here
    exact (Option.some.inj here).symm
  · exact all_setCall (by simp [Point.OldIs]) ((all_iff _ _).mp going.old).2
  · exact all_setCall (by simp [Point.IsSwitch]) going.rest
  · exact whole_of_traps (traps_setCall _ _) going.whole
  · exact shaped_setCall h.shape (by simp [Point.InExit])

theorem Inv.traps_contextSwitch {k : Machine n} (h : Inv k) {next : Fin n}
    (loadable : next ≠ k.thread.owner → k.Loadable next) (j : Fin n) :
    ((k.contextSwitch k.thread.owner next).stackOf j).traps = (k.stackOf j).traps := by
  rw [h.stackOf_contextSwitch loadable]
  split
  · rename_i same
    rw [same, stackOf_owner]
    exact traps_setCall _ _
  · rfl

theorem Inv.loadable_contextSwitch {k : Machine n} (h : Inv k) {next : Fin n}
    (loadable : next ≠ k.thread.owner → k.Loadable next) {j : Fin n} (before : k.Loadable j) :
    (k.contextSwitch k.thread.owner next).Loadable j := by
  unfold Loadable
  rw [state_contextSwitch, h.traps_contextSwitch loadable]
  exact before

theorem Inv.resumable_contextSwitch {k : Machine n} (h : Inv k) {next : Fin n}
    (loadable : next ≠ k.thread.owner → k.Loadable next) {j : Fin n}
    (alive : (k.contextSwitch k.thread.owner next).Alive j) : k.Resumable j := by
  unfold Alive at alive
  rw [h.owner_contextSwitch loadable, state_contextSwitch] at alive
  by_cases running : j = k.thread.owner
  · exact Or.inl (Or.inl running)
  rcases alive with same | lives
  · subst same
    obtain ⟨used, outside⟩ := loadable running
    by_cases exited : (k.procs j).state = .zombie
    · exact Or.inr ⟨running, used, outside exited⟩
    · exact Or.inl (Or.inr ⟨used, exited⟩)
  · exact Or.inl (Or.inr lives)

theorem Inv.waits_loaded {k : Machine n} (h : Inv k)
    (going : Going k.thread.owner k.current k.thread.stack) {next : Fin n}
    (loadable : next ≠ k.thread.owner → k.Loadable next) :
    Waits next (k.contextSwitch k.thread.owner next).thread.stack := by
  rw [thread_contextSwitch, procs_contextSwitch]
  split
  · rename_i same
    rw [same]
    exact h.waits_saved going
  · rename_i other
    exact (h.waiting next other (loadable other).1).2

/-- context_switch by the process that it saves keeps the invariant. -/
theorem Inv.contextSwitch {k : Machine n} (h : Inv k)
    (going : Going k.thread.owner k.current k.thread.stack) {next : Fin n}
    (call : k.thread.stack.call = some (.switch k.thread.owner next))
    (loadable : next ≠ k.thread.owner → k.Loadable next) :
    Inv (k.contextSwitch k.thread.owner next) := by
  have owner := h.owner_contextSwitch loadable
  have loaded := h.waits_loaded going loadable
  refine ⟨?_, h.vector, ?_, ?_, loaded.shape, Or.inl ?_, midway_outside _ _ _,
    h.unreturned.of_resumable rfl (h.traps_contextSwitch loadable)
      fun _ => h.resumable_contextSwitch loadable, ?_⟩
  · simp [Machine.contextSwitch]
  · rw [owner, state_contextSwitch]
    by_cases same : next = k.thread.owner
    · rw [same]
      exact h.used
    · exact (loadable same).1
  · intro j other used
    rw [owner] at other
    rw [state_contextSwitch] at used
    rw [procs_contextSwitch]
    split
    · rename_i same
      rw [same]
      exact ⟨rfl, h.waits_saved going⟩
    · rename_i waiting
      exact h.waiting j waiting used
  · rw [owner]
    change Going next k.current _
    rw [going.ahead _ _ call]
    exact loaded.going
  · intro j alive
    have before := h.targets_of_resumable (h.resumable_contextSwitch loadable alive)
    rw [h.stackOf_contextSwitch loadable]
    split
    · rename_i same
      subst same
      rw [stackOf_owner] at before
      apply all_setCall
      · intro pt here
        rw [← Option.some.inj here]
        simp [Point.target]
      · exact Rest.mono
          (fun pt aims m here ne => h.loadable_contextSwitch loadable (aims m here ne))
          ((all_iff _ _).mp before).2
    · exact before.mono fun pt aims m here ne => h.loadable_contextSwitch loadable (aims m here ne)

theorem loadable_of_ready {k : Machine n} {i : Fin n} (ready : (k.procs i).state = .ready) :
    k.Loadable i := by
  refine ⟨?_, ?_⟩
  · rw [ready]
    simp
  · rw [ready]
    simp

theorem Inv.at_point {k : Machine n} (h : Inv k) {pt : Point n}
    (call : k.thread.stack.call = some pt) :
    Going k.thread.owner k.current k.thread.stack ∧ pt.OldIs k.thread.owner ∧
        (∀ j, pt.target = some j → j ≠ k.thread.owner → k.Loadable j) ∧
        (¬pt.IsSwitch → k.current = k.thread.owner) ∨
      k.Idles ∧ pt.Searching := by
  rcases h.control with going | idles
  · have aims := h.targets k.thread.owner (Or.inl rfl)
    rw [stackOf_owner] at aims
    refine Or.inl ⟨going, ((all_iff _ _).mp going.old).1 pt call,
      ((all_iff _ _).mp aims).1 pt call, fun plain => going.here fun pt' here => ?_⟩
    rw [call] at here
    rw [← Option.some.inj here]
    exact plain
  · refine Or.inr ⟨idles, ?_⟩
    obtain ⟨trap, c, below, stack, searching, _⟩ := idles
    rw [stack] at call
    exact searching pt call

theorem Inv.outside_at {k : Machine n} (h : Inv k) {pt : Point n}
    (call : k.thread.stack.call = some pt) (notSwitch : ¬pt.IsSwitch) : k.words = 0 := by
  refine h.outside fun pt' here => ?_
  rw [call] at here
  rw [← Option.some.inj here]
  exact notSwitch

theorem Inv.goto_point {k : Machine n} (h : Inv k) {pt pt' : Point n}
    (call : k.thread.stack.call = some pt) (notSwitch : ¬pt.IsSwitch) (plain : ¬pt'.IsSwitch)
    (searching : (∀ i, (k.procs i).state ≠ .ready) → pt.Searching → pt'.Searching)
    (old : k.current = k.thread.owner → pt.OldIs k.thread.owner → pt'.OldIs k.thread.owner)
    (exits : pt'.InExit → pt.InExit)
    (target : ∀ j, pt'.target = some j → pt.target = some j ∨ (k.procs j).state = .ready) :
    Inv (k.goto (some pt')) := by
  rcases h.at_point call with ⟨going, oldIs, loads, current⟩ | ⟨idles, search⟩
  · have here := current notSwitch
    apply h.goto_going (h.outside_at call notSwitch) going here
    · intro q same
      rw [← Option.some.inj same]
      exact plain
    · intro q same
      rw [← Option.some.inj same]
      exact old here oldIs
    · intro q same inExit
      rw [← Option.some.inj same] at inExit
      exact h.shape.exit call (exits inExit)
    · intro q same j aims other
      rw [← Option.some.inj same] at aims
      rcases target j aims with before | ready
      · exact loads j before other
      · exact loadable_of_ready ready
  · apply h.goto_idles idles
    intro q same
    rw [← Option.some.inj same]
    obtain ⟨_, _, _, _, _, _, noReady, _⟩ := idles
    exact searching noReady search

theorem Inv.going_of_call {k : Machine n} (h : Inv k) {pt : Point n}
    (call : k.thread.stack.call = some pt) (busy : ¬pt.Searching) :
    Going k.thread.owner k.current k.thread.stack ∧ pt.OldIs k.thread.owner ∧
      (∀ j, pt.target = some j → j ≠ k.thread.owner → k.Loadable j) ∧
      (¬pt.IsSwitch → k.current = k.thread.owner) := by
  rcases h.at_point call with going | ⟨_, search⟩
  · exact going
  · exact absurd search busy

/-- current = next; from here to context_switch the stream runs for a process that is not
    current. -/
theorem Inv.publish {k : Machine n} (h : Inv k) {old next : Fin n}
    (call : k.thread.stack.call = some (.publish old next)) :
    Inv ({ k with current := next }.goto (some (.switch old next))) := by
  obtain ⟨going, owner, loads, _⟩ := h.going_of_call call id
  have same : old = k.thread.owner := owner
  subst same
  refine h.jump (h.outside_at call id) (Or.inl ⟨?_, ?_, ?_, (rest_setCall _ _ _).mpr going.rest,
    whole_of_traps (traps_setCall _ _) going.whole⟩) ?_ ?_
  · intro old' next' here
    rw [call_setCall] at here
    simp only [Option.some.injEq, Point.switch.injEq] at here
    exact here.2
  · intro plain
    exact absurd trivial (plain _ (call_setCall _ _))
  · exact all_setCall (by simp [Point.OldIs]) ((all_iff _ _).mp going.old).2
  · intro pt here inExit
    rw [← Option.some.inj here] at inExit
    exact absurd inExit id
  · intro pt here j aims other
    rw [← Option.some.inj here] at aims
    exact loads j aims other

theorem Inv.setWords {k : Machine n} (h : Inv k)
    (going : Going k.thread.owner k.current k.thread.stack) {words : Nat}
    (midway : Midway k.thread.owner (k.procs k.thread.owner).ctx k.thread.stack words) :
    Inv { k with words := words } :=
  ⟨h.found, h.vector, h.used, h.waiting, h.shape, Or.inl going, midway,
    h.unreturned.of_within (fun _ => rfl) fun _ alive _ => ⟨alive, rfl⟩, h.targets⟩

theorem stackOf_saveContext (k : Machine n) (i : Fin n) :
    (k.saveContext k.thread.owner).stackOf i = k.stackOf i := by
  by_cases running : i = k.thread.owner
  · rw [running, stackOf_owner]
    exact stackOf_owner (k.saveContext k.thread.owner)
  · have own := stackOf_other (k := k.saveContext k.thread.owner) running
    rw [own, ctx_saveContext, if_neg running, stackOf_other running]

theorem Inv.saveContext {k : Machine n} (h : Inv k)
    (going : Going k.thread.owner k.current k.thread.stack)
    (inside : ∃ old next, k.thread.stack.call = some (.switch old next)) :
    Inv (k.saveContext k.thread.owner) := by
  have alive (i : Fin n) (lives : (k.saveContext k.thread.owner).Alive i) : k.Alive i := by
    unfold Alive at lives
    rw [state_saveContext] at lives
    exact lives
  have loads (j : Fin n) (before : k.Loadable j) : (k.saveContext k.thread.owner).Loadable j := by
    unfold Loadable
    rw [state_saveContext, stackOf_saveContext]
    exact before
  refine ⟨h.found, h.vector, ?_, ?_, h.shape, Or.inl going, ⟨fun _ => inside, fun _ => ?_⟩,
    h.unreturned.of_within (fun _ => rfl) fun i lives _ =>
      ⟨alive i lives, congrArg traps (stackOf_saveContext k i)⟩, fun i lives => ?_⟩
  · change ((k.saveContext k.thread.owner).procs k.thread.owner).state ≠ .unused
    rw [state_saveContext]
    exact h.used
  · intro i other used
    have other : i ≠ k.thread.owner := other
    rw [state_saveContext] at used
    rw [ctx_saveContext, if_neg other]
    exact h.waiting i other used
  · exact (ctx_saveContext k _ _).trans (if_pos rfl)
  · rw [stackOf_saveContext]
    exact (h.targets i (alive i lives)).mono fun pt aims j here other => loads j (aims j here other)

/-- Once the context is saved, the last load ends the whole context_switch. -/
theorem contextSwitch_of_saved {k : Machine n} (found : k.lost = false) (next : Fin n)
    (saved : (k.procs k.thread.owner).ctx =
      { k.thread with stack := k.thread.stack.setCall (some .ret) }) :
    k.contextSwitch k.thread.owner next = k.loadContext next := by
  have procs : (k.saveContext k.thread.owner).procs = k.procs := by
    funext j
    unfold Machine.saveContext
    simp only
    split
    · rename_i running
      rw [running, ← saved]
    · rfl
  unfold Machine.contextSwitch Machine.loadContext
  rw [procs, found]
  simp only [Machine.saveContext, ne_eq, not_true_eq_false, decide_false]

theorem Inv.switchWord_cases {k : Machine n} (h : Inv k) {old next : Fin n}
    (call : k.thread.stack.call = some (.switch old next)) :
    k.words + 1 ≠ CONTEXT_WORDS ∧ k.switchWord old next = { k with words := k.words + 1 } ∨
      k.words + 1 = CONTEXT_WORDS ∧
        k.switchWord old next = { k with words := k.words + 1 }.saveContext old ∨
      k.words + 1 = 2 * CONTEXT_WORDS ∧ k.switchWord old next = k.contextSwitch old next := by
  obtain ⟨going, owner, _, _⟩ := h.going_of_call call id
  have same : old = k.thread.owner := owner
  subst same
  have found : (decide (k.thread.owner ≠ k.thread.owner) || k.thread.stack.torn) = k.lost := by
    rw [not_torn going.whole, h.found]
    simp
  unfold Machine.switchWord
  simp only [found]
  by_cases stores : k.words + 1 = CONTEXT_WORDS
  · rw [if_pos stores]
    exact Or.inr (Or.inl ⟨stores, rfl⟩)
  rw [if_neg stores]
  by_cases loads : k.words + 1 = 2 * CONTEXT_WORDS
  · rw [if_pos loads]
    have saved : CONTEXT_WORDS ≤ k.words := by
      unfold CONTEXT_WORDS at loads ⊢
      omega
    exact Or.inr (Or.inr ⟨loads, (contextSwitch_of_saved h.found next (h.midway.saved saved)).symm⟩)
  · rw [if_neg loads]
    exact Or.inl ⟨stores, rfl⟩

theorem Inv.switchWord {k : Machine n} (h : Inv k) {old next : Fin n}
    (call : k.thread.stack.call = some (.switch old next)) : Inv (k.switchWord old next) := by
  obtain ⟨going, owner, loads, _⟩ := h.going_of_call call id
  have same : old = k.thread.owner := owner
  subst same
  rcases h.switchWord_cases call with ⟨other, value⟩ | ⟨_, value⟩ | ⟨_, value⟩
  · rw [value]
    refine h.setWords going ⟨fun _ => ⟨_, _, call⟩, fun stores => h.midway.saved ?_⟩
    exact Nat.le_of_lt_succ (Nat.lt_of_le_of_ne stores other.symm)
  · rw [value]
    have stored := h.saveContext going ⟨_, _, call⟩
    exact stored.setWords going
      ⟨fun _ => ⟨_, _, call⟩, fun _ => (ctx_saveContext k _ _).trans (if_pos rfl)⟩
  · rw [value]
    exact h.contextSwitch going call (loads next rfl)

theorem Inv.statement [NeZero n] {k : Machine n} (h : Inv k) {pt : Point n}
    (call : k.thread.stack.call = some pt) : Inv (k.statement pt) := by
  unfold Machine.statement
  cases pt with
  | start =>
    exact h.goto_point call id id (fun _ _ => trivial) (fun here _ => here) id
      (by simp [Point.target])
  | check old =>
    simp only [checkCanary]
    split
    · exact h.goto_point call id id (fun _ _ => trivial) (fun _ same => same) id
        (by simp [Point.target])
    · exact h.halt
  | scan old i =>
    simp only
    split
    · split
      · rename_i ready
        refine h.goto_point call id id (fun noReady _ => absurd ready (noReady _))
          (fun _ same => same) id ?_
        intro j aims
        rw [← Option.some.inj aims]
        exact Or.inr ready
      · exact h.goto_point call id id (fun _ _ => trivial) (fun _ same => same) id
          (by simp [Point.target])
    · exact h.goto_point call id id (fun _ _ => trivial) (fun _ _ => trivial) id
        (by simp [Point.target])
  | test old next =>
    simp only
    split
    · exact h.goto_point call id id (fun _ search => absurd search id) (fun _ same => same) id
        fun _ => Or.inl
    · exact h.goto_point call id id (fun _ search => absurd search id) (fun _ same => same) id
        fun _ => Or.inl
  | demote old next =>
    obtain ⟨going, owner, _, _⟩ := h.going_of_call call id
    have set : Inv (k.setState old .ready) :=
      h.setState going (by simp) (fun other => absurd owner other) (by simp)
    exact set.goto_point call id id (fun _ search => absurd search id) (fun _ same => same) id
      fun _ => Or.inl
  | exitCheck =>
    simp only [checkCanary]
    split
    · exact h.goto_point call id id (fun _ search => absurd search id) (fun _ _ => trivial)
        (fun _ => trivial) (by simp [Point.target])
    · exact h.halt
  | exitMark =>
    obtain ⟨going, _, _, here⟩ := h.going_of_call call id
    have set : Inv (k.setState k.current .zombie) :=
      h.setState going (by simp) (fun other => absurd (here id) other)
        fun _ => ⟨here id, h.shape.exit call trivial⟩
    exact set.goto_point call id id (fun _ search => absurd search id) (fun _ _ => trivial)
      (fun _ => trivial) (by simp [Point.target])
  | exitScan i =>
    simp only
    split
    · exact h.goto_point call id id (fun _ search => absurd search id) (fun _ _ => trivial)
        (fun _ => trivial) (by simp [Point.target])
    · exact h.halt
  | exitTest i next =>
    simp only
    split
    · rename_i ready
      refine h.goto_point call id id (fun _ search => absurd search id) (fun _ _ => trivial)
        (fun _ => trivial) ?_
      intro j aims
      rw [← Option.some.inj aims]
      exact Or.inr ready
    · exact h.goto_point call id id (fun _ search => absurd search id) (fun _ _ => trivial)
        (fun _ => trivial) (by simp [Point.target])
  | exitOld next =>
    exact h.goto_point call id id (fun _ search => absurd search id) (fun here _ => here)
      (fun inExit => absurd inExit id) fun _ => Or.inl
  | promote old next =>
    obtain ⟨going, _, loads, _⟩ := h.going_of_call call id
    have set : Inv (k.setState next .running) :=
      h.setState going (by simp) (loads next rfl) (by simp)
    exact set.goto_point call id id (fun _ search => absurd search id) (fun _ same => same) id
      fun _ => Or.inl
  | publish old next => exact h.publish call
  | switch old next => exact h.switchWord call
  | ret =>
    rcases h.at_point call with ⟨going, _, _, here⟩ | ⟨idles, _⟩
    · exact h.goto_going (h.outside_at call id) going (here id) (by simp) (by simp) (by simp)
        (by simp)
    · exact h.goto_idles idles (by simp)

end Machine

end XorOS.Kernel
