import XorOS.Kernel.Trap
import XorOS.Library.Runs

/- scheduler.c, statement by statement, and sched_switch.S, word by word, on the simulated
   processor. Every process is an instruction stream with a stack of its own; the timer may
   interrupt it between any two statements, and between any two words. n is MAX_PROCS. -/
namespace XorOS.Kernel
open ISA Runs

inductive ProcState where
  | unused
  | ready
  | running
  | zombie
  deriving DecidableEq, Repr

/-- The statement that a stream in sched_yield or sched_exit executes next, with its locals.
    promote, publish and switch end both functions. -/
inductive Point (n : Nat) where
  | start                          -- int old = current;
  | check (old : Fin n)            -- check_canary(old);
  | scan (old : Fin n) (i : Nat)   -- int next = ..; if (procs[next].state == PROC_READY)
  | test (old next : Fin n)        -- if (procs[old].state == PROC_RUNNING)
  | demote (old next : Fin n)      -- procs[old].state = PROC_READY;
  | exitCheck                      -- check_canary(current);
  | exitMark                       -- procs[current].state = PROC_ZOMBIE;
  | exitScan (i : Nat)             -- int next = (current + i) % MAX_PROCS;
  | exitTest (i : Nat) (next : Fin n)   -- if (procs[next].state == PROC_READY)
  | exitOld (next : Fin n)         -- int old = current;
  | promote (old next : Fin n)     -- procs[next].state = PROC_RUNNING;
  | publish (old next : Fin n)     -- current = next;
  | switch (old next : Fin n)      -- context_switch(&procs[old].ctx, &procs[next].ctx);
  | ret                            -- return;
  deriving DecidableEq, Repr

/-- context_switch stores and then loads ra, sp and s0..s11. -/
def CONTEXT_WORDS : Nat := 14

/-- A timer interrupt in progress. pc, regs and words are history: what the interrupt found. -/
structure Interrupted where
  pc : BitVec 32
  regs : RegisterFile 32
  words : Nat
  frame : TrapFrame
  saved : frame = saveFrame regs

/-- What lies on a process's stack: its own code, maybe inside a scheduler call, and on top of
    it the interrupts in progress, each inside timer_handler's sched_yield or back from it. -/
inductive Stack (n : Nat) where
  | process (call : Option (Point n))
  | handler (trap : Interrupted) (call : Option (Point n)) (below : Stack n)

namespace Stack
variable {n : Nat}

def call : Stack n → Option (Point n)
  | process c => c
  | handler _ c _ => c

def setCall (c : Option (Point n)) : Stack n → Stack n
  | process _ => process c
  | handler trap _ below => handler trap c below

def traps : Stack n → List Interrupted
  | process _ => []
  | handler trap _ below => trap :: below.traps

def torn (s : Stack n) : Bool := s.traps.any fun trap => trap.words ≠ 0

@[simp] theorem call_setCall (c : Option (Point n)) (s : Stack n) : (s.setCall c).call = c := by
  cases s with
  | process => rfl
  | handler => rfl

@[simp] theorem setCall_call (s : Stack n) : s.setCall s.call = s := by
  cases s with
  | process => rfl
  | handler => rfl

@[simp] theorem traps_setCall (c : Option (Point n)) (s : Stack n) :
    (s.setCall c).traps = s.traps := by
  cases s with
  | process => rfl
  | handler => rfl

end Stack

/-- An instruction stream: whose stack it runs on, and what lies there. A context_t holds one:
    ra and sp lead to the innermost call, s0..s11 carry its locals. -/
structure Thread (n : Nat) where
  owner : Fin n
  stack : Stack n

def Thread.fresh {n : Nat} (i : Fin n) : Thread n := ⟨i, .process none⟩

structure Proc (n : Nat) where
  state : ProcState
  canary : BitVec 32
  ctx : Thread n

def STACK_CANARY : BitVec 32 := 0xDEADBEEF#32

/-- words counts the stores and loads of context_switch behind the running stream, and is 0
    outside. lost is set where control leaves this model: a context saved into another process's
    slot or by a handler that interrupted a context_switch between two words, or an mret to an
    address that was not interrupted. -/
structure Machine (n : Nat) where
  cpu : RVModel 32
  procs : Fin n → Proc n
  current : Fin n
  thread : Thread n
  words : Nat
  lost : Bool

namespace Machine
variable {n : Nat}

def goto (k : Machine n) (c : Option (Point n)) : Machine n :=
  { k with thread := { k.thread with stack := k.thread.stack.setCall c } }

def halt (k : Machine n) : Machine n := { k with cpu := k.cpu.halt }

def setState (k : Machine n) (i : Fin n) (state : ProcState) : Machine n :=
  { k with procs := fun j => if j = i then { k.procs j with state := state } else k.procs j }

def checkCanary (k : Machine n) (i : Fin n) (next : Point n) : Machine n :=
  if (k.procs i).canary = STACK_CANARY then k.goto (some next) else k.halt

def saveContext (k : Machine n) (old : Fin n) : Machine n :=
  let saved : Thread n := { k.thread with stack := k.thread.stack.setCall (some .ret) }
  { k with procs := fun j => if j = old then { k.procs j with ctx := saved } else k.procs j }

def loadContext (k : Machine n) (next : Fin n) : Machine n :=
  { k with thread := (k.procs next).ctx, words := 0 }

def contextSwitch (k : Machine n) (old next : Fin n) : Machine n :=
  { (k.saveContext old).loadContext next with lost := decide (old ≠ k.thread.owner) }

/-- One store or load of context_switch. A context counts as saved with its last store and as
    loaded with its last load: who could read it in between is a handler that switches too, and
    there control is lost with the first store. -/
def switchWord (k : Machine n) (old next : Fin n) : Machine n :=
  let k' := { k with
    words := k.words + 1
    lost := decide (old ≠ k.thread.owner) || k.thread.stack.torn }
  if k'.words = CONTEXT_WORDS then k'.saveContext old
  else if k'.words = 2 * CONTEXT_WORDS then k'.loadContext next
  else k'

def slot [NeZero n] (old : Fin n) (i : Nat) : Fin n := Fin.ofNat n (old.val + i)

theorem slot_ne [NeZero n] {old : Fin n} {i : Nat} (first : 1 ≤ i) (inside : i < n) :
    slot old i ≠ old := by
  intro same
  have value : (old.val + i) % n = old.val := congrArg Fin.val same
  have small := old.isLt
  by_cases wraps : old.val + i < n
  · rw [Nat.mod_eq_of_lt wraps] at value
    omega
  · rw [Nat.mod_eq_sub_mod (by omega), Nat.mod_eq_of_lt (by omega)] at value
    omega

theorem exists_slot [NeZero n] {old i : Fin n} (other : i ≠ old) :
    ∃ d, 1 ≤ d ∧ d < n ∧ slot old d = i := by
  have small := i.isLt
  have small' := old.isLt
  have apart : i.val ≠ old.val := fun same => other (Fin.ext same)
  by_cases behind : old.val < i.val
  · refine ⟨i.val - old.val, by omega, by omega, Fin.ext ?_⟩
    change (old.val + (i.val - old.val)) % n = i.val
    rw [Nat.add_sub_of_le (by omega), Nat.mod_eq_of_lt small]
  · refine ⟨i.val + n - old.val, by omega, by omega, Fin.ext ?_⟩
    change (old.val + (i.val + n - old.val)) % n = i.val
    rw [Nat.add_sub_of_le (by omega), Nat.add_mod_right, Nat.mod_eq_of_lt small]

def statement [NeZero n] (k : Machine n) : Point n → Machine n
  | .start => k.goto (some (.check k.current))
  | .check old => k.checkCanary old (.scan old 1)
  | .scan old i =>
      if i ≤ n then
        if (k.procs (slot old i)).state = .ready then k.goto (some (.test old (slot old i)))
        else k.goto (some (.scan old (i + 1)))
      else k.goto (some .ret)
  | .test old next =>
      if (k.procs old).state = .running then k.goto (some (.demote old next))
      else k.goto (some (.promote old next))
  | .demote old next => (k.setState old .ready).goto (some (.promote old next))
  | .exitCheck => k.checkCanary k.current .exitMark
  | .exitMark => (k.setState k.current .zombie).goto (some (.exitScan 1))
  | .exitScan i =>
      if i ≤ n then k.goto (some (.exitTest i (slot k.current i)))
      else k.halt
  | .exitTest i next =>
      if (k.procs next).state = .ready then k.goto (some (.exitOld next))
      else k.goto (some (.exitScan (i + 1)))
  | .exitOld next => k.goto (some (.promote k.current next))
  | .promote old next => (k.setState next .running).goto (some (.publish old next))
  | .publish old next => { k with current := next }.goto (some (.switch old next))
  | .switch old next => k.switchWord old next
  | .ret => k.goto none

def moved (k : Machine n) (pc : BitVec 32) (regs : RegisterFile 32) : Machine n :=
  { k with cpu := { k.cpu with pc := pc, regs := regs } }

def push (k : Machine n) (cpu : RVModel 32) (trap : Interrupted) : Machine n :=
  { k with
    cpu := cpu
    thread := { k.thread with stack := .handler trap (some .start) k.thread.stack }
    words := 0 }

def pop (k : Machine n) (cpu : RVModel 32) (trap : Interrupted) (below : Stack n) : Machine n :=
  { k with
    cpu := cpu
    thread := { k.thread with stack := below }
    words := trap.words
    lost := decide (cpu.pc ≠ trap.pc) }

def enter (k : Machine n) (cpu : RVModel 32) : Machine n :=
  let frame := saveFrame k.cpu.regs
  if cpu.halted then { k with cpu := cpu }
  else
    match trapHandler (cpu.csr.read CSR.MCAUSE) with
    | .ecallHandler =>
        if ecallHalts frame then { k with cpu := cpu.halt }
        else { k with cpu := trapReturn cpu frame }
    | .timerHandler => k.push cpu ⟨k.cpu.pc, k.cpu.regs, k.words, frame, rfl⟩
    | .panicHandler => { k with cpu := cpu.halt }

end Machine

/-- run executes the next statement, one word of context_switch, or any instructions of a process
    outside the scheduler. stray is what may follow once control is lost: anything. -/
inductive Event (n : Nat) where
  | run (pc : BitVec 32) (regs : RegisterFile 32)
  | callYield (pc : BitVec 32) (regs : RegisterFile 32)
  | callExit (pc : BitVec 32) (regs : RegisterFile 32)
  | ecall
  | timer
  | mret
  | stray (k : Machine n)

namespace Machine
variable {n : Nat}

def intTimer : BitVec 32 := uword CSR.INT_TIMER_M

def step [NeZero n] (k : Machine n) (e : Event n) : Option (Machine n) :=
  if k.lost then
    match e with
    | .stray k' => some k'
    | _ => none
  else if k.cpu.halted then none
  else
    match e, k.thread.stack with
    | .run pc regs, .process none => some (k.moved pc regs)
    | .run pc regs, .process (some p) => some ((k.statement p).moved pc regs)
    | .run pc regs, .handler _ (some p) _ => some ((k.statement p).moved pc regs)
    | .callYield pc regs, .process none => some ((k.goto (some .start)).moved pc regs)
    | .callExit pc regs, .process none => some ((k.goto (some .exitCheck)).moved pc regs)
    | .ecall, .process none =>
        some (k.enter (k.cpu.fireTrap (RVModel.ecallCause k.cpu.privMode) 0#32))
    | .timer, _ =>
        match k.cpu.triggerInterrupt intTimer with
        | (true, cpu) => some (k.enter cpu)
        | (false, _) => none
    | .mret, .handler trap none below =>
        some (k.pop (trapReturn k.cpu trap.frame) trap below)
    | _, _ => none

inductive Takes [NeZero n] (k : Machine n) : Event n → Machine n → Prop
  | code (pc : BitVec 32) (regs : RegisterFile 32) : Takes k (.run pc regs) (k.moved pc regs)
  | statement {pt : Point n} (call : k.thread.stack.call = some pt) (pc : BitVec 32)
      (regs : RegisterFile 32) : Takes k (.run pc regs) ((k.statement pt).moved pc regs)
  | callYield (stack : k.thread.stack = .process none) (pc : BitVec 32) (regs : RegisterFile 32) :
      Takes k (.callYield pc regs) ((k.goto (some .start)).moved pc regs)
  | callExit (stack : k.thread.stack = .process none) (pc : BitVec 32) (regs : RegisterFile 32) :
      Takes k (.callExit pc regs) ((k.goto (some .exitCheck)).moved pc regs)
  | ecall : Takes k .ecall (k.enter (k.cpu.fireTrap (RVModel.ecallCause k.cpu.privMode) 0#32))
  | timer {cpu : RVModel 32} (taken : k.cpu.triggerInterrupt intTimer = (true, cpu)) :
      Takes k .timer (k.enter cpu)
  | mret {trap : Interrupted} {below : Stack n}
      (stack : k.thread.stack = .handler trap none below) :
      Takes k .mret (k.pop (trapReturn k.cpu trap.frame) trap below)

theorem takes_of_step [NeZero n] {k k' : Machine n} {e : Event n} (found : k.lost = false)
    (next : k.step e = some k') : k.cpu.halted = false ∧ k.Takes e k' := by
  unfold step at next
  rw [found] at next
  simp only [Bool.false_eq_true, if_false] at next
  split at next
  · simp at next
  rename_i notHalted
  refine ⟨Bool.eq_false_of_not_eq_true notHalted, ?_⟩
  split at next
  · rw [← Option.some.inj next]
    exact .code _ _
  · rename_i stack
    rw [← Option.some.inj next]
    exact .statement (by rw [stack]; rfl) _ _
  · rename_i stack
    rw [← Option.some.inj next]
    exact .statement (by rw [stack]; rfl) _ _
  · rename_i stack
    rw [← Option.some.inj next]
    exact .callYield stack _ _
  · rename_i stack
    rw [← Option.some.inj next]
    exact .callExit stack _ _
  · rw [← Option.some.inj next]
    exact .ecall
  · split at next
    · rename_i taken
      rw [← Option.some.inj next]
      exact .timer taken
    · simp at next
  · rename_i stack
    rw [← Option.some.inj next]
    exact .mret stack
  · simp at next

/-- After sched_init and some calls of sched_spawn, in process code, with trap_entry in mtvec. -/
structure Start (k : Machine n) : Prop where
  stack : k.thread = .fresh k.current
  current : (k.procs k.current).state = .running
  others : ∀ i, i ≠ k.current →
    (k.procs i).state = .unused ∨ (k.procs i).state = .ready ∧ (k.procs i).ctx = .fresh i
  vector : k.cpu.csr.getMTVEC ≠ 0#32
  outside : k.words = 0
  found : k.lost = false

end Machine

/-- All interleavings of process code, scheduler statements, ecalls and timer interrupts. -/
def schedRuns (n : Nat) [NeZero n] : System (Machine n) (Event n) :=
  .ofStep Machine.Start Machine.step

end XorOS.Kernel
