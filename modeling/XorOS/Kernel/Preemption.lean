import XorOS.Kernel.Switching

/- Preemption and context switching over whole runs: where a preempted process resumes, and
   whose context each context_switch saves. -/
namespace XorOS.Kernel
open ISA Runs
variable {n : Nat}

namespace Machine
open Stack

theorem triggerInterrupt_taken {s s' : RVModel 32} {cause : BitVec 32}
    (taken : s.triggerInterrupt cause = (true, s')) :
    s' = s.fireTrap cause 0#32 ∧ (s.csr.regs CSR.MSTATUS).getLsbD 3 = true := by
  unfold RVModel.triggerInterrupt at taken
  simp only at taken
  split at taken
  · simp at taken
  split at taken
  · simp at taken
  rename_i enabled
  split at taken
  · simp at taken
  refine ⟨(Prod.mk.inj taken).2.symm, ?_⟩
  by_contra off
  exact enabled ((Bits.and_bit_eq_zero_iff _ 3).mpr (Bool.eq_false_of_not_eq_true off))

theorem enter_timer {k : Machine n} (running : k.cpu.halted = false)
    (vector : k.cpu.csr.getMTVEC ≠ 0#32) {cpu : RVModel 32}
    (taken : k.cpu.triggerInterrupt intTimer = (true, cpu)) :
    Entered k.cpu intTimer cpu ∧ ∃ trap : Interrupted, trap.pc = k.cpu.pc ∧
      trap.regs = k.cpu.regs ∧ trap.words = k.words ∧ k.enter cpu = k.push cpu trap := by
  have fired := fireTrap_entered vector intTimer 0#32
  rw [← (triggerInterrupt_taken taken).1] at fired
  refine ⟨fired, ⟨k.cpu.pc, k.cpu.regs, k.words, saveFrame k.cpu.regs, rfl⟩, rfl, rfl, rfl, ?_⟩
  have read : cpu.csr.read CSR.MCAUSE = intTimer := fired.mcause
  unfold enter
  simp only [fired.halted, running, read, Bool.false_eq_true, if_false]
  rfl

theorem stackOf_push_owner (k : Machine n) (cpu : RVModel 32) (trap : Interrupted) :
    (k.push cpu trap).stackOf k.thread.owner =
      .handler trap (some .start) k.thread.stack := if_pos rfl

theorem stackOf_push_other {k : Machine n} {i : Fin n} (cpu : RVModel 32) (trap : Interrupted)
    (other : i ≠ k.thread.owner) : (k.push cpu trap).stackOf i = k.stackOf i := by
  rw [stackOf_other other]
  exact if_neg other

theorem stackOf_pop_owner (k : Machine n) (cpu : RVModel 32) (trap : Interrupted)
    (below : Stack n) : (k.pop cpu trap below).stackOf k.thread.owner = below := if_pos rfl

theorem stackOf_pop_other {k : Machine n} {i : Fin n} (cpu : RVModel 32) (trap : Interrupted)
    (below : Stack n) (other : i ≠ k.thread.owner) :
    (k.pop cpu trap below).stackOf i = k.stackOf i := by
  rw [stackOf_other other]
  exact if_neg other

theorem Inv.clear_of_taken {k : Machine n} (h : Inv k) {cpu : RVModel 32}
    (taken : k.cpu.triggerInterrupt intTimer = (true, cpu)) : ¬k.InTrap := by
  intro inTrap
  have off := h.unreturned.masked inTrap
  rw [(triggerInterrupt_taken taken).2] at off
  exact absurd off (by decide)

theorem unreturned_push {k : Machine n} (outside : ∀ i, k.Alive i → (k.stackOf i).traps = [])
    {cpu : RVModel 32} (fired : Entered k.cpu intTimer cpu) {trap : Interrupted}
    (pc : trap.pc = k.cpu.pc) : (k.push cpu trap).Unreturned := by
  have interrupted (i : Fin n) (alive : k.Alive i) :
      ((k.push cpu trap).stackOf i).traps = if i = k.thread.owner then [trap] else [] := by
    by_cases same : i = k.thread.owner
    · have none := outside k.thread.owner (Or.inl rfl)
      rw [stackOf_owner] at none
      rw [if_pos same, same, stackOf_push_owner, traps, none]
    · rw [if_neg same, stackOf_push_other cpu trap same, outside i alive]
  refine ⟨?_, ?_, ?_, fun _ => fired.masked⟩
  · intro i alive t mem
    rw [interrupted i alive] at mem
    split at mem
    · rw [List.mem_singleton.mp mem]
      have noEcall : isEcall (cpu.csr.regs CSR.MCAUSE) = false := by
        rw [fired.mcause]
        decide
      exact ⟨pc.trans fired.mepc.symm, noEcall⟩
    · simp at mem
  · intro i alive
    rw [interrupted i alive]
    split
    · simp
    · simp
  · intro i j alive alive' inside inside'
    rw [interrupted i alive] at inside
    rw [interrupted j alive'] at inside'
    split at inside
    · rename_i here
      split at inside'
      · rename_i here'
        rw [here, here']
      · exact absurd rfl inside'
    · exact absurd rfl inside

theorem Inv.targets_push {k : Machine n} (h : Inv k)
    (outside : ∀ i, k.Alive i → (k.stackOf i).traps = []) (cpu : RVModel 32) (trap : Interrupted)
    {i : Fin n} (alive : k.Alive i) :
    ((k.push cpu trap).stackOf i).All fun pt =>
      ∀ j, pt.target = some j → j ≠ i → (k.push cpu trap).Loadable j := by
  by_cases same : i = k.thread.owner
  · subst same
    have before := h.targets k.thread.owner alive
    rw [stackOf_owner] at before
    rw [stackOf_push_owner]
    refine ⟨?_, before.mono fun pt aims j here other => ?_⟩
    · intro pt here j aims
      rw [← Option.some.inj here] at aims
      simp [Point.target] at aims
    · refine ⟨(aims j here other).1, fun exited => ?_⟩
      rw [stackOf_push_other cpu trap other]
      exact (aims j here other).2 exited
  · have used : (k.procs i).state ≠ .unused := by
      rcases alive with owner | ⟨used, _⟩
      · exact absurd owner same
      · exact used
    have none := outside i alive
    rw [stackOf_push_other cpu trap same]
    rw [stackOf_other same] at none ⊢
    exact ((h.waiting i same used).2.no_target none _).mono fun pt aims j here _ => aims j here

theorem Inv.control_push {k : Machine n} (h : Inv k)
    (going : Going k.thread.owner k.current k.thread.stack) (noWindow : ¬k.InWindow)
    (cpu : RVModel 32) {trap : Interrupted} (words : trap.words = k.words) :
    Going k.thread.owner k.current (.handler trap (some .start) k.thread.stack) ∨
      (k.push cpu trap).Idles := by
  have start (p : Point n → Prop) (holds : p .start) :
      ∀ pt, some Point.start = some pt → p pt := by
    intro pt here
    rw [← Option.some.inj here]
    exact holds
  by_cases window : ∃ old next, k.thread.stack.call = some (.switch old next)
  · refine Or.inr ⟨trap, some .start, k.thread.stack, rfl, start _ trivial, window, ?_, going, ?_⟩
    · intro i ready
      exact noWindow ⟨window, i, ready⟩
    · rw [words]
      exact h.midway
  · have plain (pt : Point n) (here : k.thread.stack.call = some pt) : ¬pt.IsSwitch := by
      cases pt with
      | switch old next => exact absurd ⟨old, next, here⟩ window
      | _ => exact id
    refine Or.inl ⟨?_, fun _ => going.here plain, ⟨start _ trivial, going.old⟩, ?_, ?_⟩
    · intro old next here
      exact absurd (Option.some.inj here) (by simp)
    · exact (all_iff _ _).mpr ⟨plain, going.rest⟩
    · intro t member
      rcases List.mem_cons.mp member with rfl | deeper
      · exact words.trans (h.outside plain)
      · exact going.whole t deeper

theorem Inv.timer {k : Machine n} (h : Inv k) (running : k.cpu.halted = false)
    (noWindow : ¬k.InWindow) {cpu : RVModel 32}
    (taken : k.cpu.triggerInterrupt intTimer = (true, cpu)) : Inv (k.enter cpu) := by
  obtain ⟨fired, trap, pc, _, words, value⟩ := enter_timer running h.vector taken
  have outside (i : Fin n) (alive : k.Alive i) : (k.stackOf i).traps = [] := by
    by_contra inside
    exact h.clear_of_taken taken ⟨i, alive, inside⟩
  have going : Going k.thread.owner k.current k.thread.stack := by
    rcases h.control with going | ⟨trap, c, below, stack, _⟩
    · exact going
    · have none := outside k.thread.owner (Or.inl rfl)
      rw [stackOf_owner, stack] at none
      simp [traps] at none
  rw [value]
  refine ⟨h.found, ?_, h.used, h.waiting, ⟨?_, h.shape⟩, h.control_push going noWindow cpu words,
    midway_outside _ _ _, unreturned_push outside fired pc,
    fun i alive => h.targets_push outside cpu trap alive⟩
  · change cpu.csr.regs CSR.MTVEC ≠ 0#32
    rw [fired.mtvec]
    exact h.vector
  · intro pt here inExit
    rw [← Option.some.inj here] at inExit
    exact inExit

theorem isEcall_ecallCause (priv : PrivMode) : isEcall (RVModel.ecallCause priv : BitVec 32) := by
  unfold RVModel.ecallCause
  split
  · decide
  split
  · decide
  · decide

theorem enter_ecall {k : Machine n} (running : k.cpu.halted = false)
    (vector : k.cpu.csr.getMTVEC ≠ 0#32) :
    ∃ cpu, k.enter (k.cpu.fireTrap (RVModel.ecallCause k.cpu.privMode) 0#32) =
        { k with cpu := cpu } ∧
      cpu.csr.regs CSR.MTVEC = k.cpu.csr.regs CSR.MTVEC := by
  have ecall := isEcall_ecallCause k.cpu.privMode
  have fired := fireTrap_entered vector (RVModel.ecallCause k.cpu.privMode) 0#32
  obtain ⟨_, _, returned, _⟩ := trapReturn_ecall vector ecall 0#32
  have handler : trapHandler (RVModel.ecallCause k.cpu.privMode) = .ecallHandler := by
    unfold RVModel.ecallCause
    split
    · rfl
    split
    · rfl
    · rfl
  have read : (k.cpu.fireTrap (RVModel.ecallCause k.cpu.privMode) 0#32).csr.read CSR.MCAUSE =
      RVModel.ecallCause k.cpu.privMode := fired.mcause
  unfold enter
  simp only [fired.halted, running, read, handler, Bool.false_eq_true, if_false]
  split
  · exact ⟨_, rfl, fired.mtvec⟩
  · exact ⟨_, rfl, returned⟩

theorem Inv.ecall {k : Machine n} (h : Inv k) (running : k.cpu.halted = false)
    (clear : ¬k.InTrap) :
    Inv (k.enter (k.cpu.fireTrap (RVModel.ecallCause k.cpu.privMode) 0#32)) := by
  obtain ⟨cpu, value, vector⟩ := enter_ecall running h.vector
  rw [value]
  exact h.setCpu vector fun inTrap => absurd inTrap clear

theorem Inv.going_below {k : Machine n} (h : Inv k) {trap : Interrupted} {below : Stack n}
    (stack : k.thread.stack = .handler trap none below) :
    Going k.thread.owner k.current below ∧
      Midway k.thread.owner (k.procs k.thread.owner).ctx below trap.words := by
  rcases h.control with going | ⟨trap', c, below', same, _, _, _, below_going⟩
  · have rest := going.rest
    have old := going.old
    have whole := going.whole
    rw [stack] at rest old whole
    obtain ⟨top, deeper⟩ := (all_iff _ _).mp rest
    have here : k.current = k.thread.owner := going.here fun pt call => by
      rw [stack] at call
      simp [Stack.call] at call
    refine ⟨⟨fun old next call => absurd trivial (top _ call), fun _ => here, old.2, deeper,
      fun t member => whole t (List.mem_cons_of_mem _ member)⟩, ?_⟩
    rw [whole trap List.mem_cons_self]
    exact midway_outside _ _ _
  · rw [stack] at same
    simp only [Stack.handler.injEq] at same
    rw [same.1, same.2.2]
    exact below_going

theorem Inv.unreturned_pop {k : Machine n} (h : Inv k) {trap : Interrupted} {below : Stack n}
    (stack : k.thread.stack = .handler trap none below) (cpu : RVModel 32) :
    (k.pop cpu trap below).Unreturned := by
  have inside : (k.stackOf k.thread.owner).traps = trap :: below.traps := by
    rw [stackOf_owner, stack]
    rfl
  refine .of_none fun i alive => ?_
  by_cases same : i = k.thread.owner
  · have once := h.unreturned.single k.thread.owner (Or.inl rfl)
    rw [inside] at once
    rw [same, stackOf_pop_owner]
    exact List.eq_nil_of_length_eq_zero (Nat.le_zero.mp (Nat.le_of_succ_le_succ once))
  · rw [stackOf_pop_other cpu trap below same]
    by_contra inTrap
    exact same (h.unreturned.alone i k.thread.owner alive (Or.inl rfl) inTrap (by simp [inside]))

theorem Inv.targets_pop {k : Machine n} (h : Inv k) {trap : Interrupted} {below : Stack n}
    (stack : k.thread.stack = .handler trap none below) (cpu : RVModel 32) {i : Fin n}
    (alive : k.Alive i) :
    ((k.pop cpu trap below).stackOf i).All fun pt =>
      ∀ j, pt.target = some j → j ≠ i → (k.pop cpu trap below).Loadable j := by
  have loads (j : Fin n) (before : k.Loadable j) : (k.pop cpu trap below).Loadable j := by
    refine ⟨before.1, fun exited => ?_⟩
    have outside := before.2 exited
    by_cases same : j = k.thread.owner
    · rw [same, stackOf_owner, stack] at outside
      simp [traps] at outside
    · rw [stackOf_pop_other cpu trap below same]
      exact outside
  have before := (h.targets i alive).mono fun pt aims j here other => loads j (aims j here other)
  by_cases same : i = k.thread.owner
  · subst same
    rw [stackOf_owner, stack] at before
    rw [stackOf_pop_owner]
    exact before.2
  · rw [stackOf_pop_other cpu trap below same]
    exact before

theorem Inv.mret {k : Machine n} (h : Inv k) {trap : Interrupted} {below : Stack n}
    (stack : k.thread.stack = .handler trap none below) :
    (trapReturn k.cpu trap.frame).pc = trap.pc ∧
      Inv (k.pop (trapReturn k.cpu trap.frame) trap below) := by
  have member : trap ∈ (k.stackOf k.thread.owner).traps := by
    rw [stackOf_owner, stack]
    exact List.mem_cons_self
  obtain ⟨pc, noEcall⟩ := h.unreturned.resume k.thread.owner (Or.inl rfl) trap member
  have returned := trapReturn_returned noEcall trap.frame
  have back : (trapReturn k.cpu trap.frame).pc = trap.pc := returned.pc.trans pc.symm
  obtain ⟨going, midway⟩ := h.going_below stack
  refine ⟨back, decide_eq_false (not_not.mpr back), ?_, h.used, h.waiting, ?_, Or.inl going,
    midway, h.unreturned_pop stack _, fun i => h.targets_pop stack _⟩
  · change (trapReturn k.cpu trap.frame).csr.regs CSR.MTVEC ≠ 0#32
    rw [returned.mtvec]
    exact h.vector
  · have shape := h.shape
    rw [stack] at shape
    exact shape.2

theorem Inv.call {k : Machine n} (h : Inv k) (stack : k.thread.stack = .process none)
    (pt : Point n) (plain : ¬pt.IsSwitch) (old : pt.OldIs k.thread.owner)
    (target : pt.target = none) : Inv (k.goto (some pt)) := by
  have going : Going k.thread.owner k.current k.thread.stack := by
    rcases h.control with going | ⟨trap, c, below, same, _⟩
    · exact going
    · rw [stack] at same
      simp at same
  have idle (pt : Point n) (call : k.thread.stack.call = some pt) : ¬pt.IsSwitch := by
    rw [stack] at call
    simp [Stack.call] at call
  apply h.goto_going (h.outside idle) going (going.here idle)
  · intro q same
    rw [← Option.some.inj same]
    exact plain
  · intro q same
    rw [← Option.some.inj same]
    exact old
  · intro _ _ _
    rw [stack]
    rfl
  · intro q same j aims
    rw [← Option.some.inj same, target] at aims
    simp at aims

theorem Inv.step [NeZero n] {k k' : Machine n} (h : Inv k) {e : Event n} (clean : k.Clean e)
    (next : k.step e = some k') : Inv k' := by
  obtain ⟨running, takes⟩ := takes_of_step h.found next
  cases takes with
  | code pc regs => exact h.moved pc regs
  | statement call pc regs => exact (h.statement call).moved pc regs
  | callYield stack pc regs => exact (h.call stack .start id trivial rfl).moved pc regs
  | callExit stack pc regs => exact (h.call stack .exitCheck id trivial rfl).moved pc regs
  | ecall => exact h.ecall running clean
  | timer taken => exact h.timer running clean taken
  | mret stack => exact (h.mret stack).2

theorem clean_invariant [NeZero n] {k : Machine n}
    (reached : ((schedRuns n).restrict Machine.Clean).Reachable k) : Inv k := by
  refine reached.invariant Inv ?_ ?_
  · intro k start
    exact Start.inv start
  · intro k e k' h next
    exact h.step next.2 next.1

theorem stackOf_goto (k : Machine n) (c : Option (Point n)) (i : Fin n) :
    ∃ c', (k.goto c).stackOf i = (k.stackOf i).setCall c' := by
  by_cases same : i = k.thread.owner
  · subst same
    rw [stackOf_owner]
    exact ⟨c, if_pos rfl⟩
  · refine ⟨(k.stackOf i).call, ?_⟩
    rw [setCall_call, stackOf_other same]
    exact if_neg same

theorem Inv.stackOf_statement [NeZero n] {k : Machine n} (h : Inv k) {pt : Point n}
    (call : k.thread.stack.call = some pt) (i : Fin n) :
    ∃ c, (k.statement pt).stackOf i = (k.stackOf i).setCall c := by
  have still : ∃ c, k.stackOf i = (k.stackOf i).setCall c := ⟨_, (setCall_call _).symm⟩
  have set (j : Fin n) (state : ProcState) (c : Option (Point n)) :
      ∃ c', ((k.setState j state).goto c).stackOf i = (k.stackOf i).setCall c' := by
    rw [← stackOf_setState k j state i]
    exact stackOf_goto _ c i
  unfold Machine.statement
  cases pt with
  | check old =>
    simp only [checkCanary]
    split
    · exact stackOf_goto k _ i
    · exact still
  | scan old j =>
    simp only
    split
    · split
      · exact stackOf_goto k _ i
      · exact stackOf_goto k _ i
    · exact stackOf_goto k _ i
  | test old next =>
    simp only
    split
    · exact stackOf_goto k _ i
    · exact stackOf_goto k _ i
  | demote old next => exact set _ _ _
  | exitCheck =>
    simp only [checkCanary]
    split
    · exact stackOf_goto k _ i
    · exact still
  | exitMark => exact set _ _ _
  | exitScan j =>
    simp only
    split
    · exact stackOf_goto k _ i
    · exact still
  | exitTest j next =>
    simp only
    split
    · exact stackOf_goto k _ i
    · exact stackOf_goto k _ i
  | promote old next => exact set _ _ _
  | switch old next =>
    obtain ⟨_, owner, loads, _⟩ := h.going_of_call call id
    have same : old = k.thread.owner := owner
    subst same
    simp only
    rcases h.switchWord_cases call with ⟨_, value⟩ | ⟨_, value⟩ | ⟨_, value⟩
    · rw [value]
      exact still
    · rw [value, stackOf_saveContext { k with words := k.words + 1 }]
      exact still
    · rw [value, h.stackOf_contextSwitch (loads next rfl)]
      split
      · rename_i running
        rw [running, stackOf_owner]
        exact ⟨_, rfl⟩
      · exact still
  | start => exact stackOf_goto k _ i
  | exitOld next => exact stackOf_goto k _ i
  | publish old next => exact stackOf_goto { k with current := next } _ i
  | ret => exact stackOf_goto k _ i

/-- A trap in progress stays on its process's stack until that process returns from it. -/
theorem Inv.keeps_trap [NeZero n] {k k' : Machine n} (h : Inv k) {e : Event n}
    (next : k.step e = some k') {i : Fin n} {trap : Interrupted}
    {c : Option (Point n)} {below : Stack n} (held : k.stackOf i = .handler trap c below)
    (stays : ¬(e = .mret ∧ k.thread.owner = i)) :
    ∃ c', k'.stackOf i = .handler trap c' below := by
  obtain ⟨running, takes⟩ := takes_of_step h.found next
  cases takes with
  | code pc regs => exact ⟨c, held⟩
  | statement call pc regs =>
    obtain ⟨c', value⟩ := h.stackOf_statement call i
    rw [held] at value
    exact ⟨c', value⟩
  | callYield stack pc regs =>
    obtain ⟨c', value⟩ := stackOf_goto k (some .start) i
    rw [held] at value
    exact ⟨c', value⟩
  | callExit stack pc regs =>
    obtain ⟨c', value⟩ := stackOf_goto k (some .exitCheck) i
    rw [held] at value
    exact ⟨c', value⟩
  | ecall =>
    obtain ⟨cpu, value, _⟩ := enter_ecall running h.vector
    rw [value]
    exact ⟨c, held⟩
  | @timer cpu taken =>
    obtain ⟨_, trap', _, _, _, value⟩ := enter_timer running h.vector taken
    have other : i ≠ k.thread.owner := fun same =>
      h.clear_of_taken taken ⟨i, Or.inl same, by simp [held, traps]⟩
    rw [value, stackOf_push_other cpu trap' other]
    exact ⟨c, held⟩
  | @mret trap' below' stack =>
    have other : i ≠ k.thread.owner := fun same => stays ⟨rfl, same.symm⟩
    rw [stackOf_pop_other _ trap' below' other]
    exact ⟨c, held⟩

theorem step_timer [NeZero n] {k k' : Machine n} (h : Inv k) (next : k.step .timer = some k') :
    ∃ (cpu : RVModel 32) (trap : Interrupted), trap.pc = k.cpu.pc ∧ trap.regs = k.cpu.regs ∧
      trap.words = k.words ∧ k' = k.push cpu trap := by
  obtain ⟨running, takes⟩ := takes_of_step h.found next
  cases takes with
  | timer taken =>
    obtain ⟨_, trap, pc, regs, words, value⟩ := enter_timer running h.vector taken
    exact ⟨_, trap, pc, regs, words, value⟩

theorem step_mret [NeZero n] {k k' : Machine n} (h : Inv k) (next : k.step .mret = some k') :
    ∃ trap below, k.thread.stack = .handler trap none below ∧
      k' = k.pop (trapReturn k.cpu trap.frame) trap below := by
  obtain ⟨_, takes⟩ := takes_of_step h.found next
  cases takes with
  | mret stack => exact ⟨_, _, stack, rfl⟩

end Machine

/-- The timer interrupts a process in k, and k' is what the next mret on its stream leaves; all
    steps up to it are allowed. -/
def Preempts [NeZero n] (allowed : Machine n → Event n → Prop) (k k' : Machine n) : Prop :=
  ((schedRuns n).restrict allowed).Reachable k ∧
    ∃ k₁ labels k₂, ((schedRuns n).restrict allowed).step k .timer k₁ ∧
      ((schedRuns n).restrict fun t e =>
        allowed t e ∧ ¬(e = .mret ∧ t.thread.owner = k.thread.owner)).Path k₁ labels k₂ ∧
      k₂.thread.owner = k.thread.owner ∧
      ((schedRuns n).restrict allowed).step k₂ .mret k'

/-- In runs whose every step is clean, a preempted process comes back to the pc, the registers,
    the statement and the word of context_switch where the timer found it. -/
theorem preempted_process_resumes [NeZero n] {k k' : Machine n}
    (preempts : Preempts Machine.Clean k k') :
    k'.cpu.pc = k.cpu.pc ∧ (∀ i, k'.cpu.regs.get i = k.cpu.regs.get i) ∧
      k'.thread = k.thread ∧ k'.words = k.words := by
  obtain ⟨reached, k₁, labels, k₂, ⟨fired, clean⟩, path, owner, ⟨returns, _⟩⟩ := preempts
  have start := Machine.clean_invariant reached
  obtain ⟨cpu, trap, pc, regs, words, pushed⟩ := Machine.step_timer start fired
  have held : k₁.stackOf k.thread.owner = .handler trap (some .start) k.thread.stack := by
    rw [pushed]
    exact Machine.stackOf_push_owner k cpu trap
  have kept := path.preserves
    (fun t => t.Inv ∧ ∃ c, t.stackOf k.thread.owner = .handler trap c k.thread.stack) ?_
    ⟨start.step clean fired, _, held⟩
  · obtain ⟨inv, c, here⟩ := kept
    obtain ⟨trap', below, stack, popped⟩ := Machine.step_mret inv returns
    rw [← owner, Machine.stackOf_owner, stack] at here
    simp only [Stack.handler.injEq] at here
    obtain ⟨same, _, bottom⟩ := here
    subst same
    have back := (inv.mret stack).1
    have restored : (trapReturn k₂.cpu trap'.frame).regs = restoreFrame (saveFrame trap'.regs) := by
      rw [← trap'.saved]
      rfl
    rw [popped]
    refine ⟨back.trans pc, fun i => ?_, ?_, words⟩
    · change (trapReturn k₂.cpu trap'.frame).regs.get i = _
      rw [restored, restoreFrame_saveFrame, regs]
    · change (⟨k₂.thread.owner, below⟩ : Thread n) = k.thread
      rw [owner, bottom]
  · rintro t e t' ⟨inv, c, here⟩ ⟨next, clean, stays⟩
    exact ⟨inv.step clean next, inv.keeps_trap next here stays⟩

/-- In runs whose every step is clean, the stream that executes context_switch is the one of the
    process it saves, and no other context changes: not by the whole call, nor by any word. -/
theorem context_switch_saves_own_context [NeZero n] {k : Machine n}
    (reached : ((schedRuns n).restrict Machine.Clean).Reachable k) {old next : Fin n}
    (call : k.thread.stack.call = some (.switch old next)) :
    old = k.thread.owner ∧ ((k.contextSwitch old next).procs old).ctx.owner = old ∧
      (∀ i, i ≠ old → ((k.contextSwitch old next).procs i).ctx = (k.procs i).ctx) ∧
      ∀ i, ((k.switchWord old next).procs i).ctx = (k.procs i).ctx ∨
        i = old ∧ ((k.switchWord old next).procs i).ctx.owner = old := by
  have inv := Machine.clean_invariant reached
  obtain ⟨_, owner, _⟩ := inv.going_of_call call id
  have same : old = k.thread.owner := owner
  subst same
  have whole (i : Fin n) (other : i ≠ k.thread.owner) :
      ((k.contextSwitch k.thread.owner next).procs i).ctx = (k.procs i).ctx := by
    rw [Machine.procs_contextSwitch, if_neg other]
  have own : ((k.contextSwitch k.thread.owner next).procs k.thread.owner).ctx.owner =
      k.thread.owner := by
    rw [Machine.procs_contextSwitch, if_pos rfl]
  refine ⟨rfl, own, whole, fun i => ?_⟩
  rcases inv.switchWord_cases call with ⟨_, value⟩ | ⟨_, value⟩ | ⟨_, value⟩
  · rw [value]
    exact Or.inl rfl
  · rw [value, Machine.ctx_saveContext]
    split
    · rename_i running
      exact Or.inr ⟨running, rfl⟩
    · exact Or.inl rfl
  · rw [value]
    by_cases running : i = k.thread.owner
    · subst running
      exact Or.inr ⟨rfl, own⟩
    · exact Or.inl (whole i running)

/-- Process 0 runs at 0x1000 with interrupts on; process 1 has been spawned. -/
def twoProcs : Machine 2 where
  cpu :=
    { RVModel.new ⟨0#32⟩ with
      pc := 0x1000#32
      csr := ((CsrFile.new.put CSR.MTVEC 0x100#32).put CSR.MSTATUS 0x8#32).put CSR.MIE 0x80#32 }
  procs := fun i => ⟨if i = 0 then .running else .ready, STACK_CANARY, .fresh i⟩
  current := 0
  thread := .fresh 0
  words := 0
  lost := false

theorem twoProcs_start : twoProcs.Start := by
  refine ⟨rfl, rfl, ?_, by decide, rfl, rfl⟩
  intro i other
  have ready : (twoProcs.procs i).state = .ready := if_neg other
  exact Or.inr ⟨ready, rfl⟩

def afterEvents (events : List (Event 2)) : Machine 2 :=
  System.after Machine.step events twoProcs

def statements (count : Nat) : List (Event 2) := .replicate count (.run 0#32 .new)

theorem preempts_of_events {allowed : Machine 2 → Event 2 → Prop} {k : Machine 2}
    (reached : ((schedRuns 2).restrict allowed).Reachable k) {events : List (Event 2)}
    (timer : allowed k .timer) (mret : ∀ t, allowed t .mret)
    (free : ∀ e ∈ events, e ≠ .mret ∧ ∀ t, allowed t e)
    (accepted : (System.follow Machine.step (.timer :: (events ++ [.mret])) k).isSome)
    (owner : (System.after Machine.step (.timer :: events) k).thread.owner = k.thread.owner) :
    Preempts allowed k (System.after Machine.step (.timer :: (events ++ [.mret])) k) := by
  have run := System.follow_after accepted
  obtain ⟨k₁, fired, run⟩ := Option.bind_eq_some_iff.mp run
  rw [System.follow_append] at run
  obtain ⟨k₂, between, run⟩ := Option.bind_eq_some_iff.mp run
  obtain ⟨k₃, returns, run⟩ := Option.bind_eq_some_iff.mp run
  have last : System.after Machine.step (.timer :: (events ++ [.mret])) k = k₃ :=
    (Option.some.inj run).symm
  have middle : System.after Machine.step (.timer :: events) k = k₂ := by
    have whole : System.follow Machine.step (.timer :: events) k = some k₂ :=
      Option.bind_eq_some_iff.mpr ⟨k₁, fired, between⟩
    unfold System.after
    rw [whole]
    rfl
  rw [last]
  rw [middle] at owner
  refine ⟨reached, k₁, events, k₂, ⟨fired, timer⟩, ?_, owner, ⟨returns, mret k₂⟩⟩
  exact System.Path.of_follow (fun e member t =>
    ⟨(free e member).2 t, fun back => (free e member).1 back.1⟩) between

/-- Process 1 is switched to, runs at 0x2000 and yields back to process 0. -/
def visit (atIt : List (Event 2)) : List (Event 2) :=
  statements 35 ++ [.run 0x2000#32 .new] ++ atIt ++ [.callYield 0#32 .new] ++ statements 36

theorem twoProcs_clean : twoProcs.Clean .timer := by
  rintro ⟨⟨_, _, call⟩, _⟩
  cases call

def leaving : List (Event 2) := .callExit 0#32 .new :: statements 12

/-- The timer interrupts process 0 at 0x1000, and again after five words of context_switch, when
    nobody is READY. -/
theorem preempted_process_resumes_two :
    (afterEvents (.timer :: (visit [] ++ [.mret]))).cpu.pc = 0x1000#32 ∧
      (afterEvents leaving).words = 5 ∧
      (System.after Machine.step (.timer :: (statements 6 ++ [.mret]))
        (afterEvents leaving)).words = 5 := by
  have free : ∀ e ∈ visit [], e ≠ .mret ∧ ∀ k : Machine 2, k.Clean e := by
    intro e member
    simp only [visit, statements, List.append_nil, List.mem_append, List.mem_replicate,
      List.mem_singleton] at member
    rcases member with ((⟨_, rfl⟩ | rfl) | rfl) | ⟨_, rfl⟩
    · exact ⟨by simp, fun _ => trivial⟩
    · exact ⟨by simp, fun _ => trivial⟩
    · exact ⟨by simp, fun _ => trivial⟩
    · exact ⟨by simp, fun _ => trivial⟩
  have preempts := preempts_of_events (System.Reachable.of_init twoProcs_start) twoProcs_clean
    (fun _ => trivial) free (by decide) (by decide)
  have free : ∀ e ∈ statements 6, e ≠ .mret ∧ ∀ k : Machine 2, k.Clean e := by
    intro e member
    rw [(List.mem_replicate.mp member).2]
    exact ⟨by simp, fun _ => trivial⟩
  have reached : ((schedRuns 2).restrict Machine.Clean).Reachable (afterEvents leaving) := by
    refine ⟨twoProcs, leaving, twoProcs_start, System.Path.of_follow (fun e member k => ?_)
      (System.follow_after (by decide))⟩
    simp only [leaving, statements, List.mem_cons, List.mem_replicate] at member
    rcases member with rfl | ⟨_, rfl⟩
    · trivial
    · trivial
  have clean : (afterEvents leaving).Clean .timer := by
    rintro ⟨_, i, ready⟩
    revert i
    decide
  have words : (afterEvents leaving).words = 5 := by decide
  have inside := preempts_of_events reached clean (fun _ => trivial) free (by decide) (by decide)
  exact ⟨(preempted_process_resumes preempts).1, words,
    (preempted_process_resumes inside).2.2.2.trans words⟩

def yielding : List (Event 2) := .callYield 0#32 .new :: statements 7

theorem context_switch_saves_own_context_two :
    (afterEvents yielding).thread.stack.call = some (.switch 0 1) ∧
      (((afterEvents yielding).contextSwitch 0 1).procs 0).ctx.owner = 0 := by
  have free : ∀ e ∈ yielding, ∀ k : Machine 2, k.Clean e := by
    intro e member k
    simp only [yielding, statements, List.mem_cons, List.mem_replicate] at member
    rcases member with rfl | ⟨_, rfl⟩
    · trivial
    · trivial
  have run : System.follow Machine.step yielding twoProcs = some (afterEvents yielding) :=
    System.follow_after (by decide)
  have reached : ((schedRuns 2).restrict Machine.Clean).Reachable (afterEvents yielding) :=
    ⟨twoProcs, yielding, twoProcs_start, System.Path.of_follow free run⟩
  have call : (afterEvents yielding).thread.stack.call = some (.switch 0 1) := by decide
  exact ⟨call, (context_switch_saves_own_context reached call).2.1⟩

/-- The timer interrupts process 0 between current = next and context_switch: the nested
    sched_yield saves the stream of process 0 into the context of process 1. -/
theorem window_saves_foreign_context :
    let k := afterEvents (yielding ++ [.timer] ++ statements 7)
    (schedRuns 2).Reachable k ∧ k.thread.stack.call = some (.switch 1 0) ∧ k.thread.owner = 0 ∧
      ((k.contextSwitch 1 0).procs 1).ctx.owner = 0 := by
  intro k
  have run : System.follow Machine.step (yielding ++ [.timer] ++ statements 7) twoProcs = some k :=
    System.follow_after (by decide)
  exact ⟨(System.Reachable.of_init twoProcs_start).follow run, by decide, by decide, by decide⟩

/-- Process 1 executes one ecall on its visit: process 0 comes back to the code of process 1. -/
theorem ecall_misleads_preempted_process :
    ∃ k', Preempts (fun _ _ => True) twoProcs k' ∧ twoProcs.cpu.pc = 0x1000#32 ∧
      k'.cpu.pc = 0x2008#32 := by
  have free : ∀ e ∈ visit [.ecall], e ≠ .mret ∧ ∀ _ : Machine 2, True := by
    intro e member
    refine ⟨?_, fun _ => trivial⟩
    rintro rfl
    simp [visit, statements] at member
  refine ⟨_, preempts_of_events (System.Reachable.of_init twoProcs_start) trivial
    (fun _ => trivial) free (by decide) (by decide), rfl, ?_⟩
  decide

end XorOS.Kernel
