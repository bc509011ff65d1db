import XorOS.Kernel.Preemption

/- mstatus.MIE along whole runs. It is no part of a context_t: a process that sched_yield resumes
   goes on with the value that the stream before it left. -/
namespace XorOS.Kernel
open ISA Runs
variable {n : Nat}

def mie (cpu : RVModel 32) : Bool := (cpu.csr.regs CSR.MSTATUS).getLsbD 3
def mpie (cpu : RVModel 32) : Bool := (cpu.csr.regs CSR.MSTATUS).getLsbD 7
def mtie (cpu : RVModel 32) : Bool := (cpu.csr.regs CSR.MIE).getLsbD 7

theorem enables_fireTrap {s : RVModel 32} (vector : s.csr.getMTVEC ≠ 0#32)
    (cause tval : BitVec 32) : mie (s.fireTrap cause tval) = false ∧
      mpie (s.fireTrap cause tval) = mie s ∧ mtie (s.fireTrap cause tval) = mtie s := by
  have csr : (s.fireTrap cause tval).csr = _ := RVModel.csr_of_trap vector rfl
  unfold mie mpie mtie
  rw [csr, RVModel.regs_trapCsr, RVModel.regs_trapCsr, if_pos rfl]
  refine ⟨RVModel.mie_trapMstatus (by decide) _ _, ?_, rfl⟩
  rw [RVModel.getLsbD_trapMstatus _ _ (by decide)]
  rfl

theorem enables_executeMRET (s : RVModel 32) :
    mie s.executeMRET = mpie s ∧ mpie s.executeMRET = true ∧ mtie s.executeMRET = mtie s := by
  unfold mie mpie mtie
  rw [RVModel.regs_executeMRET, RVModel.regs_executeMRET, if_pos rfl]
  refine ⟨?_, ?_, rfl⟩
  · rw [RVModel.getLsbD_mretMstatus _ (by decide)]
    rfl
  · rw [RVModel.getLsbD_mretMstatus _ (by decide)]
    rfl

theorem enables_trapReturn (s : RVModel 32) (f : TrapFrame) :
    mie (trapReturn s f) = mpie s ∧ mpie (trapReturn s f) = true ∧
      mtie (trapReturn s f) = mtie s := by
  have mepc (v : BitVec 32) (a : BitVec 12) (other : a ≠ CSR.MEPC) :
      (s.csr.write CSR.MEPC v).regs a = s.csr.regs a := by
    rw [CsrFile.regs_write, if_neg fun same => other same.1]
  unfold trapReturn
  obtain ⟨on, prev, timer⟩ := enables_executeMRET
    { s with
      csr := if isEcall (s.csr.read CSR.MCAUSE) then
          s.csr.write CSR.MEPC (s.csr.read CSR.MEPC + 4#32) else s.csr
      regs := restoreFrame f }
  refine ⟨on.trans ?_, prev, timer.trans ?_⟩
  · unfold mpie
    dsimp only
    split
    · rw [mepc _ _ (by decide)]
    · rfl
  · unfold mtie
    dsimp only
    split
    · rw [mepc _ _ (by decide)]
    · rfl

theorem triggerInterrupt_on {s : RVModel 32} (running : s.halted = false) (on : mie s = true)
    (timer : mtie s = true) : (s.triggerInterrupt Machine.intTimer).1 = true := by
  have global : s.csr.read CSR.MSTATUS &&& uword CSR.MSTATUS_MIE ≠ 0#32 := by
    intro off
    have clear : mie s = false := (Bits.and_bit_eq_zero_iff (s.csr.read CSR.MSTATUS) 3).mp off
    rw [clear] at on
    cases on
  have source : s.csr.read CSR.MIE &&&
      (1#32 <<< (Machine.intTimer &&& ~~~(uword CSR.MCAUSE_INTERRUPT))) ≠ 0#32 := by
    intro off
    have clear : mtie s = false := (Bits.and_bit_eq_zero_iff (s.csr.read CSR.MIE) 7).mp off
    rw [clear] at timer
    cases timer
  unfold RVModel.triggerInterrupt
  simp only [running, global, source, if_false, Bool.false_eq_true]

namespace Point

/-- The process that the statement has made RUNNING already. -/
def promoted : Point n → Option (Fin n)
  | publish _ next => some next
  | switch _ next => some next
  | _ => none

end Point

def Stack.bottom : Stack n → Option (Point n)
  | .process c => c
  | .handler _ _ below => below.bottom

namespace Machine
open Stack

/-- The condition on each step: a timer interrupt finds nobody but current READY, or it finds
    current's canary gone. -/
def NobodyElse (k : Machine n) : Event n → Prop
  | .timer => (∀ i, i ≠ k.current → (k.procs i).state ≠ .ready) ∨
      (k.procs k.current).canary ≠ STACK_CANARY
  | _ => True

/-- The statements of a sched_yield that finds no process, or only the calling one. -/
def Selfish (k : Machine n) : Point n → Prop
  | .test old next => old = next ∧ (k.procs next).state = .ready
  | .demote _ _ => False
  | .promote old next => old = next
  | .publish old next => old = next
  | .switch old next => old = next
  | _ => True

/-- Process code runs with interrupts on, or a handler that leaves no other way than back. -/
inductive Phase (k : Machine n) : Prop
  | process {c : Option (Point n)} (stack : k.thread.stack = .process c) (on : mie k.cpu = true)
  | handler {trap : Interrupted} {c c₀ : Option (Point n)}
      (stack : k.thread.stack = .handler trap c (.process c₀)) (prev : mpie k.cpu = true)
      (nobody : ∀ i, i ≠ k.current → (k.procs i).state ≠ .ready)
      (selfish : ∀ pt, c = some pt → k.Selfish pt)

structure Calm (k : Machine n) : Prop where
  inv : Inv k
  timer : mtie k.cpu = true
  suspended : ∀ i, i ≠ k.thread.owner → (k.procs i).state ≠ .unused →
    (k.procs i).ctx.stack.traps = []
  phase : Phase k
  promoted : ∀ pt, k.thread.stack.bottom = some pt → ∀ j, pt.promoted = some j →
    (k.procs j).state = .running

def Doomed (k : Machine n) : Prop :=
  mie k.cpu = false ∧ ∃ trap c below, k.thread.stack = .handler trap (some c) below ∧
    (c = .start ∧ (k.procs k.current).canary ≠ STACK_CANARY ∨
      ∃ old, c = .check old ∧ (k.procs old).canary ≠ STACK_CANARY)

def Kept (k : Machine n) : Prop :=
  k.lost = false ∧ (k.cpu.halted = true ∨ k.Calm ∨ k.Doomed)

theorem Calm.kept {k : Machine n} (h : k.Calm) : k.Kept := ⟨h.inv.found, Or.inr (Or.inl h)⟩

theorem Calm.halt {k : Machine n} (h : k.Calm) : k.halt.Kept := ⟨h.inv.found, Or.inl rfl⟩

theorem bottom_setCall (c : Option (Point n)) (s : Stack n) :
    (s.setCall c).bottom = if s.traps = [] then c else s.bottom := by
  cases s with
  | process => rfl
  | handler => rfl

theorem Phase.masked {k : Machine n} (h : Phase k) (inside : k.thread.stack.traps ≠ []) :
    ∀ i, i ≠ k.current → (k.procs i).state ≠ .ready := by
  cases h with
  | process stack => simp [stack, traps] at inside
  | handler _ _ nobody => exact nobody

structure Moves (k k' : Machine n) (c : Option (Point n)) : Prop where
  thread : k'.thread = { k.thread with stack := k.thread.stack.setCall c }
  cpu : k'.cpu = k.cpu
  ctx : ∀ i, i ≠ k.thread.owner → (k'.procs i).ctx = (k.procs i).ctx
  used : ∀ i, i ≠ k.thread.owner → (k'.procs i).state ≠ .unused → (k.procs i).state ≠ .unused

theorem moves_goto (k : Machine n) (c : Option (Point n)) : Moves k (k.goto c) c :=
  ⟨rfl, rfl, fun _ _ => rfl, fun _ _ used => used⟩

theorem moves_setState {k : Machine n} {i : Fin n} {state : ProcState}
    (used : i ≠ k.thread.owner → (k.procs i).state ≠ .unused) (c : Option (Point n)) :
    Moves k ((k.setState i state).goto c) c := by
  refine ⟨rfl, rfl, fun j _ => ctx_setState k i state j, fun j other after => ?_⟩
  change ((k.setState i state).procs j).state ≠ .unused at after
  rw [state_setState] at after
  split at after
  · rename_i same
    rw [same] at other ⊢
    exact used other
  · exact after

theorem Moves.suspended {k k' : Machine n} {c : Option (Point n)} (moves : Moves k k' c)
    (h : k.Calm) : ∀ i, i ≠ k'.thread.owner → (k'.procs i).state ≠ .unused →
      (k'.procs i).ctx.stack.traps = [] := by
  intro i other after
  rw [moves.thread] at other
  rw [moves.ctx i other]
  exact h.suspended i other (moves.used i other after)

theorem Calm.move_process {k k' : Machine n} (h : k.Calm) {c : Option (Point n)}
    (moves : Moves k k' c) (inv : Inv k') (outside : k.thread.stack.traps = [])
    (promoted : ∀ pt, c = some pt → ∀ j, pt.promoted = some j → (k'.procs j).state = .running) :
    k'.Calm := by
  have thread := moves.thread
  have cpu := moves.cpu
  refine ⟨inv, by rw [cpu]; exact h.timer, ?_, ?_, ?_⟩
  · exact moves.suspended h
  · cases h.phase with
    | process stack on =>
      refine .process (c := c) ?_ (by rw [cpu]; exact on)
      rw [thread, stack]
      rfl
    | handler stack => simp [stack, traps] at outside
  · intro pt here
    rw [thread, bottom_setCall, if_pos outside] at here
    exact promoted pt here

theorem Calm.move_handler {k k' : Machine n} (h : k.Calm) {c : Option (Point n)}
    (moves : Moves k k' c) (inv : Inv k') (inside : k.thread.stack.traps ≠ [])
    (current : k'.current = k.current)
    (states : ∀ i, (k'.procs i).state = (k.procs i).state ∨ (k'.procs i).state = .running)
    (selfish : ∀ pt, c = some pt → k'.Selfish pt) : k'.Calm := by
  have thread := moves.thread
  have cpu := moves.cpu
  refine ⟨inv, by rw [cpu]; exact h.timer, ?_, ?_, ?_⟩
  · exact moves.suspended h
  · cases h.phase with
    | process stack => simp [stack, traps] at inside
    | @handler trap _ c₀ stack prev nobody =>
      refine @Phase.handler _ _ trap c c₀ ?_ (by rw [cpu]; exact prev) ?_ selfish
      · rw [thread, stack]
        rfl
      · intro i other ready
        rw [current] at other
        rcases states i with same | running
        · exact nobody i other (same ▸ ready)
        · rw [running] at ready
          cases ready
  · intro pt here j moved
    rw [thread, bottom_setCall, if_neg inside] at here
    have before := h.promoted pt here j moved
    rcases states j with same | running
    · rw [same, before]
    · exact running

theorem Calm.goto {k : Machine n} (h : k.Calm) {c : Option (Point n)} (inv : Inv (k.goto c))
    (plain : ∀ pt, c = some pt → pt.promoted = none)
    (selfish : ∀ pt, c = some pt → k.thread.stack.traps ≠ [] → k.Selfish pt) :
    (k.goto c).Calm := by
  by_cases outside : k.thread.stack.traps = []
  · refine h.move_process (moves_goto k c) inv outside fun pt here j moved => ?_
    rw [plain pt here] at moved
    cases moved
  · exact h.move_handler (moves_goto k c) inv outside rfl (fun _ => Or.inl rfl)
      fun pt here => selfish pt here outside

theorem Calm.selfish {k : Machine n} (h : k.Calm) {pt : Point n}
    (call : k.thread.stack.call = some pt) (inside : k.thread.stack.traps ≠ []) :
    k.Selfish pt := by
  cases h.phase with
  | process stack => simp [stack, traps] at inside
  | handler stack _ _ selfish =>
    rw [stack] at call
    exact selfish pt call

theorem bottom_of_traps {s : Stack n} (outside : s.traps = []) : s.bottom = s.call := by
  cases s with
  | process => rfl
  | handler => simp [traps] at outside

theorem Calm.outside {k : Machine n} (h : k.Calm) (outside : k.thread.stack.traps = [])
    {i : Fin n} (used : i = k.thread.owner ∨ (k.procs i).state ≠ .unused) :
    (k.stackOf i).traps = [] := by
  by_cases owner : i = k.thread.owner
  · rw [owner, stackOf_owner]
    exact outside
  · rw [stackOf_other owner]
    exact h.suspended i owner (used.resolve_left owner)

theorem Calm.found_self {k : Machine n} (h : k.Calm) {old next : Fin n} {i : Nat}
    (call : k.thread.stack.call = some (.scan old i)) (ready : (k.procs next).state = .ready)
    (inside : k.thread.stack.traps ≠ []) : old = next := by
  have self : next = k.current := by
    by_contra other
    exact h.phase.masked inside next other ready
  rcases h.inv.at_point call with ⟨_, owner, _, here⟩ | ⟨idles, _⟩
  · have own : old = k.thread.owner := owner
    rw [self, here id, own]
  · obtain ⟨_, _, _, _, _, _, noReady, _⟩ := idles
    exact absurd ready (noReady next)

theorem Calm.switch_process {k : Machine n} (h : k.Calm) {next : Fin n}
    (inv : Inv (k.contextSwitch k.thread.owner next))
    (call : k.thread.stack.call = some (.switch k.thread.owner next))
    (outside : k.thread.stack.traps = []) : (k.contextSwitch k.thread.owner next).Calm := by
  obtain ⟨going, _, loads, _⟩ := h.inv.going_of_call call id
  have loadable := loads next rfl
  have owner := h.inv.owner_contextSwitch loadable
  have waits := h.inv.waits_loaded going loadable
  have traps (i : Fin n) (used : i = k.thread.owner ∨ (k.procs i).state ≠ .unused) :
      ((k.contextSwitch k.thread.owner next).stackOf i).traps = [] := by
    rw [h.inv.traps_contextSwitch loadable]
    exact h.outside outside used
  have loaded : (k.contextSwitch k.thread.owner next).thread.stack.traps = [] := by
    rw [← stackOf_owner, owner]
    refine traps next ?_
    by_cases same : next = k.thread.owner
    · exact Or.inl same
    · exact Or.inr (loadable same).1
  refine ⟨inv, h.timer, ?_, ?_, ?_⟩
  · intro i other used
    rw [← stackOf_other other]
    rw [state_contextSwitch] at used
    exact traps i (Or.inr used)
  · have on : mie k.cpu = true := by
      cases h.phase with
      | process _ on => exact on
      | handler stack => simp [stack, Stack.traps] at outside
    revert loaded
    generalize stack : (k.contextSwitch k.thread.owner next).thread.stack = s
    intro loaded
    cases s with
    | process c => exact .process stack on
    | handler => simp [Stack.traps] at loaded
  · intro pt here j moved
    rw [bottom_of_traps loaded] at here
    rw [waits.call pt here] at moved
    cases moved

theorem moves_switch_self (k : Machine n) :
    Moves k (k.contextSwitch k.thread.owner k.thread.owner) (some .ret) := by
  refine ⟨?_, rfl, fun i other => ?_, fun i _ used => ?_⟩
  · rw [thread_contextSwitch, procs_contextSwitch, if_pos rfl]
  · rw [procs_contextSwitch, if_neg other]
  · rwa [state_contextSwitch] at used

theorem Calm.promote {k : Machine n} (h : k.Calm) {old next : Fin n}
    (call : k.thread.stack.call = some (.promote old next))
    (inv : Inv ((k.setState next .running).goto (some (.publish old next)))) :
    ((k.setState next .running).goto (some (.publish old next))).Kept := by
  obtain ⟨_, _, loads, _⟩ := h.inv.going_of_call call id
  have moves : Moves k ((k.setState next .running).goto (some (.publish old next)))
      (some (.publish old next)) := moves_setState (fun other => (loads next rfl other).1) _
  by_cases process : k.thread.stack.traps = []
  · refine (h.move_process moves inv process fun q same j moved => ?_).kept
    rw [← Option.some.inj same] at moved
    change ((k.setState next .running).procs j).state = .running
    rw [state_setState, if_pos (Option.some.inj moved).symm]
  · refine (h.move_handler moves inv process rfl (fun i => ?_) fun q same => ?_).kept
    · change ((k.setState next .running).procs i).state = _ ∨
        ((k.setState next .running).procs i).state = _
      rw [state_setState]
      split
      · exact Or.inr rfl
      · exact Or.inl rfl
    · rw [← Option.some.inj same]
      exact h.selfish call process

theorem Calm.publish {k : Machine n} (h : k.Calm) {old next : Fin n}
    (call : k.thread.stack.call = some (.publish old next))
    (inv : Inv ({ k with current := next }.goto (some (.switch old next)))) :
    ({ k with current := next }.goto (some (.switch old next))).Kept := by
  obtain ⟨_, owner, _, here⟩ := h.inv.going_of_call call id
  have moves : Moves k ({ k with current := next }.goto (some (.switch old next)))
      (some (.switch old next)) := ⟨rfl, rfl, fun _ _ => rfl, fun _ _ used => used⟩
  by_cases process : k.thread.stack.traps = []
  · have bottom : k.thread.stack.bottom = some (.publish old next) := by
      rw [bottom_of_traps process, call]
    refine (h.move_process moves inv process fun q same j moved => ?_).kept
    rw [← Option.some.inj same] at moved
    exact h.promoted _ bottom j moved
  · have self : old = next := h.selfish call process
    have own : old = k.thread.owner := owner
    refine (h.move_handler moves inv process ?_ (fun _ => Or.inl rfl) fun q same => ?_).kept
    · change next = k.current
      rw [here id, ← self, own]
    · rw [← Option.some.inj same]
      exact self

theorem Calm.word {k k' : Machine n} (h : k.Calm) {old next : Fin n}
    (call : k.thread.stack.call = some (.switch old next)) (inv : Inv k')
    (moves : Moves k k' (some (.switch old next))) (current : k'.current = k.current)
    (states : ∀ i, (k'.procs i).state = (k.procs i).state) : k'.Kept := by
  by_cases process : k.thread.stack.traps = []
  · have bottom : k.thread.stack.bottom = some (.switch old next) := by
      rw [bottom_of_traps process, call]
    refine (h.move_process moves inv process fun q same j moved => ?_).kept
    rw [← Option.some.inj same] at moved
    rw [states]
    exact h.promoted _ bottom j moved
  · refine (h.move_handler moves inv process current (fun i => Or.inl (states i))
      fun q same => ?_).kept
    have self : old = next := h.selfish call process
    rw [← Option.some.inj same]
    exact self

theorem Calm.switch {k : Machine n} (h : k.Calm) {old next : Fin n}
    (call : k.thread.stack.call = some (.switch old next))
    (inv : Inv (k.switchWord old next)) : (k.switchWord old next).Kept := by
  obtain ⟨_, owner, _, _⟩ := h.inv.going_of_call call id
  have own : old = k.thread.owner := owner
  subst own
  have stays : k.thread =
      { k.thread with stack := k.thread.stack.setCall (some (.switch k.thread.owner next)) } := by
    rw [← call, setCall_call]
  rcases h.inv.switchWord_cases call with ⟨_, value⟩ | ⟨_, value⟩ | ⟨_, value⟩
  · rw [value] at inv ⊢
    exact h.word call inv ⟨stays, rfl, fun _ _ => rfl, fun _ _ used => used⟩ rfl fun _ => rfl
  · rw [value] at inv ⊢
    have states (i : Fin n) := state_saveContext { k with words := k.words + 1 } k.thread.owner i
    refine h.word call inv ⟨stays, rfl, fun i other => ?_, fun i _ used => ?_⟩ rfl states
    · exact (ctx_saveContext _ _ i).trans (if_neg other)
    · rwa [states] at used
  rw [value] at inv ⊢
  by_cases process : k.thread.stack.traps = []
  · exact (h.switch_process inv call process).kept
  · have self : k.thread.owner = next := h.selfish call process
    subst self
    refine (h.move_handler (moves_switch_self k) inv process rfl (fun i => ?_)
      fun q same => ?_).kept
    · exact Or.inl (state_contextSwitch k _ _ i)
    · rw [← Option.some.inj same]
      trivial

theorem Calm.statement [NeZero n] {k : Machine n} (h : k.Calm) {pt : Point n}
    (call : k.thread.stack.call = some pt) : (k.statement pt).Kept := by
  have inv := h.inv.statement call
  have outside (inExit : pt.InExit) : k.thread.stack.traps = [] := h.inv.shape.exit call inExit
  have go {pt' : Point n} (inv : Inv (k.goto (some pt'))) (plain : pt'.promoted = none)
      (selfish : k.thread.stack.traps ≠ [] → k.Selfish pt') : (k.goto (some pt')).Kept := by
    refine (h.goto inv (fun q same => ?_) fun q same => ?_).kept
    · rw [← Option.some.inj same]
      exact plain
    · rw [← Option.some.inj same]
      exact selfish
  unfold Machine.statement at inv ⊢
  cases pt with
  | start => exact go inv rfl fun _ => trivial
  | check old =>
    simp only [checkCanary] at inv ⊢
    split
    · rename_i intact
      rw [if_pos intact] at inv
      exact go inv rfl fun _ => trivial
    · exact h.halt
  | scan old i =>
    simp only at inv ⊢
    split
    · rename_i bound
      rw [if_pos bound] at inv
      split
      · rename_i ready
        rw [if_pos ready] at inv
        exact go inv rfl fun inside => ⟨h.found_self call ready inside, ready⟩
      · rename_i notReady
        rw [if_neg notReady] at inv
        exact go inv rfl fun _ => trivial
    · rename_i bound
      rw [if_neg bound] at inv
      exact go inv rfl fun _ => trivial
  | test old next =>
    simp only at inv ⊢
    split
    · rename_i running
      rw [if_pos running] at inv
      refine go inv rfl fun inside => ?_
      obtain ⟨same, ready⟩ := h.selfish call inside
      rw [← same, running] at ready
      cases ready
    · rename_i notRunning
      rw [if_neg notRunning] at inv
      exact go inv rfl fun inside => (h.selfish call inside).1
  | demote old next =>
    obtain ⟨_, owner, _, _⟩ := h.inv.going_of_call call id
    have process : k.thread.stack.traps = [] := by
      by_contra inside
      exact h.selfish call inside
    refine (h.move_process (moves_setState (fun other => absurd owner other) _) inv process
      fun q same j moved => ?_).kept
    rw [← Option.some.inj same] at moved
    cases moved
  | exitCheck =>
    simp only [checkCanary] at inv ⊢
    split
    · rename_i intact
      rw [if_pos intact] at inv
      exact go inv rfl fun _ => trivial
    · exact h.halt
  | exitMark =>
    obtain ⟨_, _, _, here⟩ := h.inv.going_of_call call id
    refine (h.move_process (moves_setState (fun other => absurd (here id) other) _) inv
      (outside trivial) fun q same j moved => ?_).kept
    rw [← Option.some.inj same] at moved
    cases moved
  | exitScan i =>
    simp only at inv ⊢
    split
    · rename_i bound
      rw [if_pos bound] at inv
      exact go inv rfl fun _ => trivial
    · exact h.halt
  | exitTest i next =>
    simp only at inv ⊢
    split
    · rename_i ready
      rw [if_pos ready] at inv
      exact go inv rfl fun _ => trivial
    · rename_i notReady
      rw [if_neg notReady] at inv
      exact go inv rfl fun _ => trivial
  | exitOld next => exact go inv rfl fun inside => absurd (outside trivial) inside
  | promote old next => exact h.promote call inv
  | publish old next => exact h.publish call inv
  | switch old next => exact h.switch call inv
  | ret => exact (h.goto inv (by simp) (by simp)).kept

theorem Calm.setCpu {k : Machine n} (h : k.Calm) {cpu : RVModel 32}
    (inv : Inv { k with cpu := cpu }) (on : mie cpu = mie k.cpu) (prev : mpie cpu = mpie k.cpu)
    (timer : mtie cpu = mtie k.cpu) : { k with cpu := cpu : Machine n }.Calm := by
  refine ⟨inv, timer.trans h.timer, h.suspended, ?_, h.promoted⟩
  cases h.phase with
  | process stack enabled => exact .process stack (on.trans enabled)
  | handler stack saved nobody selfish => exact .handler stack (prev.trans saved) nobody selfish

theorem Calm.moved {k : Machine n} (h : k.Calm) (pc : BitVec 32) (regs : RegisterFile 32) :
    (k.moved pc regs).Calm :=
  h.setCpu (h.inv.moved pc regs) rfl rfl rfl

theorem Kept.moved {k : Machine n} (h : k.Kept) (pc : BitVec 32) (regs : RegisterFile 32) :
    (k.moved pc regs).Kept := by
  refine ⟨h.1, ?_⟩
  rcases h.2 with halted | calm | doomed
  · exact Or.inl halted
  · exact Or.inr (Or.inl (calm.moved pc regs))
  · exact Or.inr (Or.inr doomed)

theorem Doomed.statement [NeZero n] {k : Machine n} (found : k.lost = false) (h : k.Doomed)
    {pt : Point n} (call : k.thread.stack.call = some pt) : (k.statement pt).Kept := by
  obtain ⟨off, trap, c, below, stack, gone⟩ := h
  have here : c = pt := by
    rw [stack] at call
    exact Option.some.inj call
  subst here
  rcases gone with ⟨rfl, gone⟩ | ⟨old, rfl, gone⟩
  · refine ⟨found, Or.inr (Or.inr ⟨off, trap, .check k.current, below, ?_, Or.inr ⟨_, rfl, gone⟩⟩)⟩
    change k.thread.stack.setCall _ = _
    rw [stack]
    rfl
  · simp only [Machine.statement, checkCanary, if_neg gone]
    exact ⟨found, Or.inl rfl⟩

theorem Calm.inTrap {k : Machine n} (h : k.Calm) (outside : k.thread.stack.traps = []) :
    ¬k.InTrap := by
  rintro ⟨i, alive, inside⟩
  refine inside (h.outside outside ?_)
  rcases alive with owner | ⟨used, _⟩
  · exact Or.inl owner
  · exact Or.inr used

theorem enables_ecall {k : Machine n} (running : k.cpu.halted = false)
    (vector : k.cpu.csr.getMTVEC ≠ 0#32) :
    let k' := k.enter (k.cpu.fireTrap (RVModel.ecallCause k.cpu.privMode) 0#32)
    k'.cpu.halted = true ∨ mie k'.cpu = mie k.cpu ∧ mtie k'.cpu = mtie k.cpu := by
  intro k'
  have fired := fireTrap_entered vector (RVModel.ecallCause k.cpu.privMode) 0#32
  obtain ⟨_, prev, timer⟩ := enables_fireTrap vector (RVModel.ecallCause k.cpu.privMode) 0#32
  obtain ⟨on, _, timer'⟩ := enables_trapReturn
    (k.cpu.fireTrap (RVModel.ecallCause k.cpu.privMode) 0#32) (saveFrame k.cpu.regs)
  have read : (k.cpu.fireTrap (RVModel.ecallCause k.cpu.privMode) 0#32).csr.read CSR.MCAUSE =
      RVModel.ecallCause k.cpu.privMode := fired.mcause
  have handler : trapHandler (RVModel.ecallCause k.cpu.privMode) = .ecallHandler := by
    unfold RVModel.ecallCause
    split
    · rfl
    split
    · rfl
    · rfl
  have value : k' = if ecallHalts (saveFrame k.cpu.regs) then
      { k with cpu := (k.cpu.fireTrap (RVModel.ecallCause k.cpu.privMode) 0#32).halt }
      else { k with
        cpu := trapReturn (k.cpu.fireTrap (RVModel.ecallCause k.cpu.privMode) 0#32)
          (saveFrame k.cpu.regs) } := by
    simp only [k', enter, fired.halted, running, read, handler, Bool.false_eq_true, if_false]
  rw [value]
  split
  · exact Or.inl rfl
  · exact Or.inr ⟨on.trans prev, timer'.trans timer⟩

theorem Calm.ecall {k : Machine n} (h : k.Calm) (running : k.cpu.halted = false)
    (stack : k.thread.stack = .process none) :
    (k.enter (k.cpu.fireTrap (RVModel.ecallCause k.cpu.privMode) 0#32)).Kept := by
  have outside : k.thread.stack.traps = [] := by
    rw [stack]
    rfl
  have inv := h.inv.ecall running (h.inTrap outside)
  have enables := enables_ecall running h.inv.vector
  obtain ⟨cpu, value, _⟩ := enter_ecall running h.inv.vector
  simp only [value] at inv enables ⊢
  refine ⟨h.inv.found, ?_⟩
  rcases enables with halted | ⟨same, timer⟩
  · exact Or.inl halted
  refine Or.inr (Or.inl ⟨inv, timer.trans h.timer, h.suspended, ?_, h.promoted⟩)
  cases h.phase with
  | process stack on => exact .process stack (same.trans on)
  | handler stack => simp [stack, traps] at outside

theorem Calm.interrupted {k : Machine n} (h : k.Calm) {cpu : RVModel 32}
    (taken : k.cpu.triggerInterrupt intTimer = (true, cpu)) : k.thread.stack.traps = [] := by
  by_contra inside
  exact h.inv.clear_of_taken taken ⟨k.thread.owner, Or.inl rfl, by rwa [stackOf_owner]⟩

theorem Calm.timer_taken {k : Machine n} (h : k.Calm) (running : k.cpu.halted = false)
    (condition : k.NobodyElse .timer) {cpu : RVModel 32}
    (taken : k.cpu.triggerInterrupt intTimer = (true, cpu)) : (k.enter cpu).Kept := by
  obtain ⟨same, on⟩ := triggerInterrupt_taken taken
  obtain ⟨_, trap, _, _, _, value⟩ := enter_timer running h.inv.vector taken
  obtain ⟨off, prev, timer⟩ := enables_fireTrap h.inv.vector intTimer 0#32
  rw [← same] at off prev timer
  have outside := h.interrupted taken
  rcases condition with nobody | gone
  · have noWindow : ¬k.InWindow := by
      rintro ⟨⟨old, next, call⟩, i, ready⟩
      obtain ⟨going, _⟩ := h.inv.going_of_call call id
      have running := h.promoted _ ((bottom_of_traps outside).trans call) next rfl
      have here := going.ahead old next call
      refine nobody i (fun same => ?_) ready
      rw [same, here, running] at ready
      cases ready
    refine Calm.kept ⟨h.inv.timer running noWindow taken, ?_, ?_, ?_, ?_⟩
    · rw [value]
      exact timer.trans h.timer
    · rw [value]
      exact h.suspended
    · rw [value]
      cases h.phase with
      | @process c₀ stack =>
        refine @Phase.handler _ _ trap (some .start) c₀ ?_ (prev.trans on) nobody ?_
        · change Stack.handler trap (some .start) k.thread.stack = _
          rw [stack]
        · intro pt here
          rw [← Option.some.inj here]
          trivial
      | handler stack => simp [stack, traps] at outside
    · rw [value]
      exact h.promoted
  · rw [value]
    exact ⟨h.inv.found, Or.inr (Or.inr ⟨off, trap, .start, _, rfl, Or.inl ⟨rfl, gone⟩⟩)⟩

theorem Calm.mret {k : Machine n} (h : k.Calm) {trap : Interrupted} {below : Stack n}
    (stack : k.thread.stack = .handler trap none below) :
    (k.pop (trapReturn k.cpu trap.frame) trap below).Calm := by
  obtain ⟨on, _, timer⟩ := enables_trapReturn k.cpu trap.frame
  refine ⟨(h.inv.mret stack).2, timer.trans h.timer, h.suspended, ?_, ?_⟩
  · cases h.phase with
    | process same => simp [stack] at same
    | handler same prev =>
      rw [stack] at same
      injection same with _ _ bottom
      exact .process bottom (on.trans prev)
  · have promoted := h.promoted
    rw [stack] at promoted
    exact promoted

theorem Calm.call {k : Machine n} (h : k.Calm) (stack : k.thread.stack = .process none)
    {pt : Point n} (plain : ¬pt.IsSwitch) (old : pt.OldIs k.thread.owner)
    (target : pt.target = none) (promoted : pt.promoted = none) :
    (k.goto (some pt)).Calm := by
  refine h.goto (h.inv.call stack pt plain old target) (fun q same => ?_) fun q _ inside => ?_
  · rw [← Option.some.inj same]
    exact promoted
  · simp [stack, traps] at inside

theorem step_ecall [NeZero n] {k k' : Machine n} (found : k.lost = false)
    (next : k.step .ecall = some k') : k.thread.stack = .process none := by
  unfold Machine.step at next
  simp only [found, Bool.false_eq_true, if_false] at next
  split at next
  · cases next
  · cases stack : k.thread.stack with
    | process c =>
      cases c with
      | none => rfl
      | some pt => simp [stack] at next
    | handler trap c below => simp [stack] at next

theorem Kept.step [NeZero n] {k k' : Machine n} (h : k.Kept) {e : Event n}
    (condition : k.NobodyElse e) (next : k.step e = some k') : k'.Kept := by
  obtain ⟨running, takes⟩ := takes_of_step h.1 next
  obtain ⟨found, halted | calm | doomed⟩ := h
  · rw [running] at halted
    cases halted
  · cases takes with
    | code pc regs => exact (calm.moved pc regs).kept
    | statement call pc regs => exact (calm.statement call).moved pc regs
    | callYield stack pc regs =>
      have called : (k.goto (some .start)).Calm := calm.call stack id trivial rfl rfl
      exact (called.moved pc regs).kept
    | callExit stack pc regs =>
      have called : (k.goto (some .exitCheck)).Calm := calm.call stack id trivial rfl rfl
      exact (called.moved pc regs).kept
    | ecall => exact calm.ecall running (step_ecall found next)
    | timer taken => exact calm.timer_taken running condition taken
    | mret stack => exact (calm.mret stack).kept
  · have panics := doomed
    obtain ⟨off, trap, c, below, stack, _⟩ := panics
    cases takes with
    | code pc regs => exact Kept.moved ⟨found, Or.inr (Or.inr doomed)⟩ pc regs
    | statement call pc regs => exact (doomed.statement found call).moved pc regs
    | callYield process => simp [stack] at process
    | callExit process => simp [stack] at process
    | ecall =>
      have process := step_ecall found next
      simp [stack] at process
    | timer taken =>
      have on : mie k.cpu = true := (triggerInterrupt_taken taken).2
      rw [off] at on
      cases on
    | mret back => simp [stack] at back

/-- After clint_init, sched_init and some calls of sched_spawn: interrupts are on. -/
structure Armed (k : Machine n) : Prop where
  start : Start k
  on : mie k.cpu = true
  timer : mtie k.cpu = true

theorem Armed.kept {k : Machine n} (h : k.Armed) : k.Kept := by
  have inv := h.start.inv
  have stack : k.thread.stack = .process none := by
    rw [h.start.stack]
    rfl
  have owner : k.thread.owner = k.current := by
    rw [h.start.stack]
    rfl
  refine Calm.kept ⟨inv, h.timer, ?_, .process stack h.on, ?_⟩
  · intro i other used
    rw [owner] at other
    rcases h.start.others i other with unused | ⟨_, fresh⟩
    · exact absurd unused used
    · rw [fresh]
      rfl
  · intro pt here
    rw [stack] at here
    cases here

end Machine

def armedRuns (n : Nat) [NeZero n] : System (Machine n) (Event n) :=
  .ofStep Machine.Armed Machine.step

namespace Machine
open Stack

def Strips [NeZero n] (k : Machine n) : Prop :=
  ∃ events k', (∀ e ∈ events, ∃ pc regs, e = Event.run pc regs) ∧
    System.follow Machine.step events k = some k' ∧ k'.lost = false ∧ k'.cpu.halted = false ∧
    (∃ c, k'.thread.stack = .process c) ∧ mie k'.cpu = false

theorem Kept.not_strips [NeZero n] {k : Machine n} (h : k.Kept) : ¬k.Strips := by
  rintro ⟨events, k', runs, done, found, running, ⟨c, stack⟩, off⟩
  have free : ∀ e ∈ events, ∀ k : Machine n, k.NobodyElse e := by
    intro e member k
    obtain ⟨pc, regs, rfl⟩ := runs e member
    trivial
  have path : ((System.ofStep Armed _).restrict _).Path k events k' :=
    System.Path.of_follow free done
  have kept : k'.Kept := by
    refine path.preserves Kept ?_ h
    intro k e k' h next
    exact h.step next.2 next.1
  obtain ⟨_, halted | calm | ⟨_, trap, c', below, handler, _⟩⟩ := kept
  · rw [running] at halted
    cases halted
  · cases calm.phase with
    | process _ on =>
      rw [off] at on
      cases on
    | handler handler => simp [stack] at handler
  · simp [stack] at handler

/-- A handler at a statement of its sched_yield, or at a word of the context_switch there, with
    process code in all other contexts. -/
structure Inside (k : Machine n) (pt : Point n) (words : Nat) : Prop where
  found : k.lost = false
  running : k.cpu.halted = false
  off : mie k.cpu = false
  stack : ∃ trap below, k.thread.stack = .handler trap (some pt) below
  whole : ∀ trap ∈ k.thread.stack.traps, trap.words = 0
  words : k.words = words
  ctx : ∀ j, j ≠ k.thread.owner → (k.procs j).state ≠ .unused →
    ∃ c, (k.procs j).ctx.stack = .process c

theorem Inside.goto {k : Machine n} {pt : Point n} {words : Nat} (h : k.Inside pt words)
    (pt' : Point n) : (k.goto (some pt')).Inside pt' words := by
  refine ⟨h.found, h.running, h.off, ?_, whole_of_traps (traps_setCall _ _) h.whole, h.words, h.ctx⟩
  obtain ⟨trap, below, stack⟩ := h.stack
  refine ⟨trap, below, ?_⟩
  change k.thread.stack.setCall _ = _
  rw [stack]
  rfl

theorem Inside.setState {k : Machine n} {pt : Point n} {words : Nat} (h : k.Inside pt words)
    {i : Fin n} (used : i ≠ k.thread.owner → (k.procs i).state ≠ .unused) (state : ProcState) :
    (k.setState i state).Inside pt words := by
  refine ⟨h.found, h.running, h.off, h.stack, h.whole, h.words, fun j other after => ?_⟩
  rw [ctx_setState]
  refine h.ctx j other ?_
  rw [state_setState] at after
  split at after
  · rename_i same
    rw [same] at other ⊢
    exact used other
  · exact after

theorem Inside.strips [NeZero n] {k : Machine n} {pt : Point n} {words : Nat}
    (h : k.Inside pt words)
    (later : ((k.statement pt).moved 0#32 .new).Strips) : k.Strips := by
  obtain ⟨events, k', runs, done, rest⟩ := later
  obtain ⟨trap, below, stack⟩ := h.stack
  have first : k.step (.run 0#32 .new) = some ((k.statement pt).moved 0#32 .new) := by
    unfold Machine.step
    simp only [h.found, h.running, stack, Bool.false_eq_true, if_false]
  refine ⟨.run 0#32 .new :: events, k', ?_, ?_, rest⟩
  · intro e member
    rcases List.mem_cons.mp member with rfl | later
    · exact ⟨_, _, rfl⟩
    · exact runs e later
  · simp only [System.follow, first, Option.bind_some]
    exact done

theorem Inside.moved {k : Machine n} {pt : Point n} {words : Nat} (h : k.Inside pt words) :
    (k.moved 0#32 .new).Inside pt words :=
  ⟨h.found, h.running, h.off, h.stack, h.whole, h.words, h.ctx⟩

theorem Inside.word {k : Machine n} {next : Fin n} {words : Nat}
    (h : k.Inside (.switch k.thread.owner next) words) (more : words + 1 ≠ 2 * CONTEXT_WORDS) :
    let k' := k.switchWord k.thread.owner next
    k'.thread = k.thread ∧ k'.Inside (.switch k.thread.owner next) (words + 1) ∧
      ∀ i, (k'.procs i).state = (k.procs i).state := by
  intro k'
  have found : (decide (k.thread.owner ≠ k.thread.owner) || k.thread.stack.torn) = false := by
    rw [not_torn h.whole]
    simp
  by_cases stores : words + 1 = CONTEXT_WORDS
  · have value : k' = { k with words := words + 1, lost := false }.saveContext k.thread.owner := by
      simp only [k', Machine.switchWord, found, h.words, if_pos stores]
    rw [value]
    refine ⟨rfl, ⟨rfl, h.running, h.off, h.stack, h.whole, rfl, fun j other used => ?_⟩,
      state_saveContext _ _⟩
    have other : j ≠ k.thread.owner := other
    rw [state_saveContext] at used
    rw [ctx_saveContext, if_neg other]
    exact h.ctx j other used
  · have value : k' = { k with words := words + 1, lost := false } := by
      simp only [k', Machine.switchWord, found, h.words, if_neg stores, if_neg more]
    rw [value]
    exact ⟨rfl, ⟨rfl, h.running, h.off, h.stack, h.whole, rfl, h.ctx⟩, fun _ => rfl⟩

theorem Inside.load {k : Machine n} {next : Fin n} {words : Nat}
    (h : k.Inside (.switch k.thread.owner next) words) (last : words + 1 = 2 * CONTEXT_WORDS) :
    k.switchWord k.thread.owner next = k.loadContext next := by
  have found : (decide (k.thread.owner ≠ k.thread.owner) || k.thread.stack.torn) = k.lost := by
    rw [not_torn h.whole, h.found]
    simp
  unfold Machine.switchWord
  simp only [found, h.words, last, if_true]
  rfl

/-- context_switch, word by word: the induction is on the words that are left. -/
theorem Inside.switch [NeZero n] :
    ∀ (left : Nat) {k : Machine n} {next : Fin n} {words : Nat},
      words + left + 1 = 2 * CONTEXT_WORDS → k.Inside (.switch k.thread.owner next) words →
      next ≠ k.thread.owner → (k.procs next).state ≠ .unused → k.Strips := by
  intro left
  induction left with
  | zero =>
    intro k next words last h other used
    obtain ⟨c, ctx⟩ := h.ctx next other used
    refine h.strips ?_
    simp only [Machine.statement]
    rw [h.load last]
    exact ⟨[], _, by simp, rfl, h.found, h.running, ⟨c, ctx⟩, h.off⟩
  | succ left ih =>
    intro k next words more h other used
    have word := h.word (by omega)
    refine h.strips ?_
    change ((k.switchWord k.thread.owner next).moved 0#32 .new).Strips
    generalize k.switchWord k.thread.owner next = k' at word
    obtain ⟨thread, inside, states⟩ := word
    rw [← thread] at inside other
    rw [← states] at used
    exact ih (by omega) inside.moved other used

theorem Inside.publish [NeZero n] {k : Machine n} {next : Fin n}
    (h : k.Inside (.publish k.thread.owner next) 0) (other : next ≠ k.thread.owner)
    (used : (k.procs next).state ≠ .unused) : k.Strips := by
  have published : { k with current := next : Machine n }.Inside (.publish k.thread.owner next) 0 :=
    ⟨h.found, h.running, h.off, h.stack, h.whole, h.words, h.ctx⟩
  have switch := (published.goto (.switch k.thread.owner next)).moved
  exact h.strips (Inside.switch 27 rfl switch other used)

theorem Inside.promote [NeZero n] {k : Machine n} {next : Fin n}
    (h : k.Inside (.promote k.thread.owner next) 0) (other : next ≠ k.thread.owner)
    (used : (k.procs next).state ≠ .unused) : k.Strips := by
  have set := (h.setState (fun _ => used) .running).goto (.publish k.thread.owner next)
  refine h.strips (set.moved.publish other ?_)
  change ((k.setState next .running).procs next).state ≠ .unused
  rw [state_setState, if_pos rfl]
  simp

theorem Inside.test [NeZero n] {k : Machine n} {next : Fin n}
    (h : k.Inside (.test k.thread.owner next) 0) (other : next ≠ k.thread.owner)
    (used : (k.procs next).state ≠ .unused) : k.Strips := by
  refine h.strips ?_
  simp only [Machine.statement]
  split
  · have demote := (h.goto (.demote k.thread.owner next)).moved
    refine demote.strips ?_
    have set := (demote.setState (fun same => absurd rfl same) .ready).goto
      (.promote k.thread.owner next)
    refine set.moved.promote other ?_
    change ((k.setState k.thread.owner .ready).procs next).state ≠ .unused
    rw [state_setState, if_neg other]
    exact used
  · exact (h.goto (.promote k.thread.owner next)).moved.promote other used

theorem Inside.scan [NeZero n] {d : Nat} (bound : d < n) :
    ∀ (left : Nat) {k : Machine n} {i : Nat}, left = d - i → 1 ≤ i → i ≤ d →
      k.Inside (.scan k.thread.owner i) 0 →
      (k.procs (slot k.thread.owner d)).state = .ready → k.Strips := by
  intro left
  induction left with
  | zero =>
    intro k i reached first last h ready
    obtain rfl : i = d := by omega
    refine h.strips ?_
    simp only [Machine.statement, if_pos (Nat.le_of_lt bound), ready, if_true]
    have used : (k.procs (slot k.thread.owner i)).state ≠ .unused := by
      rw [ready]
      simp
    exact (h.goto _).moved.test (slot_ne first bound) used
  | succ left ih =>
    intro k i reached first last h ready
    refine h.strips ?_
    simp only [Machine.statement, if_pos (show i ≤ n by omega)]
    split
    · rename_i found
      have used : (k.procs (slot k.thread.owner i)).state ≠ .unused := by
        rw [found]
        simp
      exact (h.goto _).moved.test (slot_ne first (by omega)) used
    · exact ih (by omega) (by omega) (by omega) (h.goto _).moved ready

theorem Inside.start [NeZero n] {k : Machine n} (h : k.Inside .start 0)
    (here : k.current = k.thread.owner) (intact : (k.procs k.current).canary = STACK_CANARY)
    {i : Fin n} (other : i ≠ k.current) (ready : (k.procs i).state = .ready) : k.Strips := by
  obtain ⟨d, first, bound, found⟩ := exists_slot other
  rw [here] at intact found
  refine h.strips ((h.goto (.check k.current)).moved.strips ?_)
  have checked := ((h.goto (.check k.current)).moved.goto (.scan k.thread.owner 1)).moved
  have value : ((k.goto (some (.check k.current))).moved 0#32 .new).statement (.check k.current) =
      ((k.goto (some (.check k.current))).moved 0#32 .new).goto
        (some (.scan k.thread.owner 1)) := by
    rw [here]
    exact if_pos intact
  rw [value]
  exact checked.scan bound (d - 1) rfl (Nat.le_refl 1) first (found ▸ ready)

/-- Outside the window before context_switch, a timer interrupt leaves no process running with
    interrupts off exactly if it finds nobody else. -/
theorem Calm.nobodyElse_iff [NeZero n] {k k₁ : Machine n} (h : k.Calm)
    (next : k.step .timer = some k₁)
    (plain : ∀ pt, k.thread.stack.call = some pt → ¬pt.IsSwitch) :
    k.NobodyElse .timer ↔ ¬k₁.Strips := by
  constructor
  · intro condition
    exact (h.kept.step condition next).not_strips
  · intro harmless
    by_contra violated
    simp only [NobodyElse, not_or, not_forall, not_not] at violated
    obtain ⟨⟨i, other, ready⟩, intact⟩ := violated
    obtain ⟨running, takes⟩ := takes_of_step h.inv.found next
    cases takes with
    | @timer cpu taken =>
      obtain ⟨same, _⟩ := triggerInterrupt_taken taken
      obtain ⟨fired, trap, _, _, words, value⟩ := enter_timer running h.inv.vector taken
      have outside := h.interrupted taken
      have here : k.current = k.thread.owner := by
        rcases h.inv.control with going | ⟨_, _, _, stack, _⟩
        · exact going.here plain
        · rw [stack] at outside
          simp [traps] at outside
      have off : mie cpu = false := by
        rw [same]
        exact (enables_fireTrap h.inv.vector intTimer 0#32).1
      rw [value] at harmless
      have entered : (k.push cpu trap).Inside .start 0 := by
        refine ⟨h.inv.found, fired.halted.trans running, off, ⟨trap, _, rfl⟩, fun t member => ?_,
          rfl, fun j apart used => ?_⟩
        · have traps : (k.push cpu trap).thread.stack.traps = [trap] :=
            congrArg (trap :: ·) outside
          rw [traps, List.mem_singleton] at member
          rw [member, words]
          exact h.inv.outside plain
        have none := h.suspended j apart used
        revert none
        change (k.procs j).ctx.stack.traps = [] → ∃ c, (k.procs j).ctx.stack = .process c
        intro none
        cases ctx : (k.procs j).ctx.stack with
        | process c => exact ⟨c, rfl⟩
        | handler => simp [ctx, traps] at none
      exact harmless (entered.start here intact other ready)

end Machine

theorem kept_of_clean [NeZero n] {k : Machine n}
    (reached : ((armedRuns n).restrict Machine.NobodyElse).Reachable k) : k.Kept := by
  refine reached.invariant Machine.Kept ?_ ?_
  · intro k start
    exact Machine.Armed.kept start
  · intro k e k' h next
    exact h.step next.2 next.1

/-- As long as the timer finds nobody else READY, process code runs with mstatus.MIE set, and the
    timer interrupts it. The first interrupt, outside the window, that finds somebody else leaves
    process code running with mstatus.MIE clear. -/
theorem process_code_interruptible [NeZero n] {k : Machine n}
    (reached : ((armedRuns n).restrict Machine.NobodyElse).Reachable k) :
    k.lost = false ∧
      (∀ c, k.thread.stack = .process c → k.cpu.halted = false →
        mie k.cpu = true ∧ (k.step .timer).isSome) ∧
      ∀ k₁, k.step .timer = some k₁ → (∀ pt, k.thread.stack.call = some pt → ¬pt.IsSwitch) →
        (k.NobodyElse .timer ↔ ¬k₁.Strips) := by
  obtain ⟨found, halted | calm | ⟨off, trap, c', below, handler, _⟩⟩ := kept_of_clean reached
  · refine ⟨found, fun c _ running => ?_, fun k₁ next => ?_⟩
    · rw [running] at halted
      cases halted
    · rw [(Machine.takes_of_step found next).1] at halted
      cases halted
  · refine ⟨found, fun c stack running => ?_, fun k₁ next plain => calm.nobodyElse_iff next plain⟩
    have on : mie k.cpu = true := by
      cases calm.phase with
      | process _ on => exact on
      | handler handler => simp [stack] at handler
    have taken := triggerInterrupt_on running on calm.timer
    refine ⟨on, ?_⟩
    unfold Machine.step
    simp only [found, running, Bool.false_eq_true, if_false]
    split
    · rfl
    · rename_i refused
      rw [refused] at taken
      cases taken
  · refine ⟨found, fun c stack _ => ?_, fun k₁ next => ?_⟩
    · simp [stack] at handler
    · obtain ⟨_, takes⟩ := Machine.takes_of_step found next
      cases takes with
      | timer taken =>
        have on : mie k.cpu = true := (Machine.triggerInterrupt_taken taken).2
        rw [off] at on
        cases on

theorem twoProcs_armed : twoProcs.Armed := ⟨twoProcs_start, by decide, by decide⟩

/-- Process 0 yields to process 1. -/
theorem process_code_interruptible_two :
    (afterEvents (yielding ++ statements 28)).thread.owner = 1 ∧
      mie (afterEvents (yielding ++ statements 28)).cpu = true := by
  have free : ∀ e ∈ yielding ++ statements 28, ∀ k : Machine 2, k.NobodyElse e := by
    intro e member k
    simp only [yielding, statements, List.cons_append, List.mem_cons, List.mem_append,
      List.mem_replicate] at member
    rcases member with rfl | ⟨_, rfl⟩ | ⟨_, rfl⟩
    · trivial
    · trivial
    · trivial
  have run : System.follow Machine.step (yielding ++ statements 28) twoProcs =
      some (afterEvents (yielding ++ statements 28)) := System.follow_after (by decide)
  have reached : ((armedRuns 2).restrict Machine.NobodyElse).Reachable
      (afterEvents (yielding ++ statements 28)) :=
    ⟨twoProcs, yielding ++ statements 28, twoProcs_armed, System.Path.of_follow free run⟩
  have process : (afterEvents (yielding ++ statements 28)).thread.stack = .process none := rfl
  exact ⟨by decide, ((process_code_interruptible reached).2.1 none process (by decide)).1⟩

/-- The timer preempts process 0: process 1 starts in proc_trampoline with interrupts off. -/
theorem preempted_switch_disables_interrupts :
    let k := afterEvents (.timer :: statements 35)
    (armedRuns 2).Reachable k ∧ k.lost = false ∧ k.cpu.halted = false ∧ k.thread.owner = 1 ∧
      k.thread.stack = .process none ∧ mie k.cpu = false ∧ (k.step .timer).isNone := by
  intro k
  have run : System.follow Machine.step (.timer :: statements 35) twoProcs = some k :=
    System.follow_after (by decide)
  exact ⟨(System.Reachable.of_init twoProcs_armed).follow run, by decide, by decide, by decide,
    rfl, by decide, by decide⟩

end XorOS.Kernel
