import Mathlib.Logic.Relation
import XorOS.Kernel.ProcessTable

/- kernel_main from the end of clint_init on, statement by statement, with the timer interrupt
   between any two of them. Interrupts are off in its handler: sched_yield runs there as a whole.
   pipe_t is left out, no scheduler statement reads it. -/
namespace XorOS.Kernel
open Runs

abbrev MAX_PROCS : Nat := 4

instance : NeZero MAX_PROCS := ⟨Nat.succ_ne_zero 3⟩

/-- What has been stored into a slot so far, by sched_init and sched_spawn and by the store half of
    context_switch. -/
structure Setup where
  entry : Bool
  canary : Bool
  ra : Bool
  sp : Bool
  saved : Bool
  deriving DecidableEq, Repr

namespace Setup

def blank : Setup := ⟨false, false, false, false, false⟩

def Spawned (s : Setup) : Prop :=
  s.entry = true ∧ s.canary = true ∧ s.ra = true ∧ s.sp = true

def Loadable (s : Setup) : Prop := s.Spawned ∨ s.saved = true

instance (s : Setup) : Decidable s.Spawned := by
  unfold Spawned
  infer_instance

instance (s : Setup) : Decidable s.Loadable := by
  unfold Loadable
  infer_instance

end Setup

inductive Call where
  | first
  | second
  deriving DecidableEq, Repr

/-- The statement that kernel_main executes next, inside the functions that it calls. -/
inductive Main where
  | pipeRead                                        -- p->read_pos = 0;
  | pipeWrite                                       -- p->write_pos = 0;
  | pipeCount                                       -- p->count = 0;
  | initLoop (i : Nat)                              -- procs[i].state = PROC_UNUSED;
  | initState                                       -- procs[0].state = PROC_RUNNING;
  | initPid                                         -- procs[0].pid = 0;
  | initCanary                                      -- procs[0].stack.canary = STACK_CANARY;
  | spawnLoop (task : Call) (i : Nat)               -- if (procs[i].state != PROC_UNUSED)
  | spawnState (task : Call) (i : Fin MAX_PROCS)    -- procs[i].state = PROC_READY;
  | spawnPid (task : Call) (i : Fin MAX_PROCS)      -- procs[i].pid = next_pid++;
  | spawnEntry (task : Call) (i : Fin MAX_PROCS)    -- procs[i].entry = entry;
  | spawnCanary (task : Call) (i : Fin MAX_PROCS)   -- procs[i].stack.canary = STACK_CANARY;
  | spawnRa (task : Call) (i : Fin MAX_PROCS)       -- procs[i].ctx.ra = (uint32_t) proc_trampoline;
  | spawnSp (task : Call) (i : Fin MAX_PROCS)       -- procs[i].ctx.sp = ..;
  | spawnRet (task : Call) (i : Fin MAX_PROCS)      -- return (int) procs[i].pid;
  | yield (call : Call) (pt : Point MAX_PROCS)      -- inside sched_yield
  | puts                                            -- uart_puts("kernel: all done\n");
  | exit                                            -- sys_exit();

namespace Main

def Initialised : Main → Prop
  | pipeRead => False
  | pipeWrite => False
  | pipeCount => False
  | initLoop _ => False
  | initState => False
  | initPid => False
  | initCanary => False
  | _ => True

def spawning : Main → Option (Fin MAX_PROCS)
  | spawnPid _ i => some i
  | spawnEntry _ i => some i
  | spawnCanary _ i => some i
  | spawnRa _ i => some i
  | spawnSp _ i => some i
  | _ => none

def afterSpawn : Call → Main
  | .first => spawnLoop .second 0
  | .second => yield .first .start

def afterYield : Call → Main
  | .first => yield .second .start
  | .second => puts

end Main

/-- kernel_main is the stream of slot 0. away: another stream runs, and main is where kernel_main
    goes on. lost: a context went into a foreign slot, or one was loaded that nothing had set. -/
structure Boot where
  table : Table MAX_PROCS
  setup : Fin MAX_PROCS → Setup
  main : Main
  away : Bool
  halted : Bool
  lost : Bool

/-- Events of kernel_main's stream; while it is away, the statements of all other streams in any
    order, with any locals, up to the mret that leads back. regs is what context_switch finds in
    the registers. -/
inductive BootEvent where
  | statement (regs : Context)
  | timer (regs : Context)
  | setState (i : Fin MAX_PROCS) (state : ProcState)
  | setCurrent (i : Fin MAX_PROCS)
  | saveCtx (i : Fin MAX_PROCS) (regs : Context)
  | resume

namespace Boot

def goto (k : Boot) (main : Main) : Boot := { k with main := main }

def store (k : Boot) (i : Fin MAX_PROCS) (f : Pcb → Pcb) (mark : Setup → Setup) (main : Main) :
    Boot :=
  { k with
    table := k.table.update i f
    setup := fun j => if j = i then mark (k.setup j) else k.setup j
    main := main }

def setState (k : Boot) (i : Fin MAX_PROCS) (state : ProcState) (main : Main) : Boot :=
  k.store i (fun p => { p with state := state }) id main

def switch (k : Boot) (old next : Fin MAX_PROCS) (t : Table MAX_PROCS) : Boot :=
  let setup := fun j => if j = old then { k.setup j with saved := true } else k.setup j
  { k with
    table := t
    setup := setup
    away := true
    lost := decide (old ≠ 0 ∨ ¬(setup next).Loadable) }

def yieldStatement (k : Boot) (regs : Context) (call : Call) : Point MAX_PROCS → Boot
  | .start => k.goto (.yield call (.check k.table.current))
  | .check old =>
      if (k.table.procs old).canary = STACK_CANARY then k.goto (.yield call (.scan old 1))
      else { k with halted := true }
  | .scan old i =>
      if i ≤ MAX_PROCS then
        if (k.table.procs (Machine.slot old i)).state = .ready then
          k.goto (.yield call (.test old (Machine.slot old i)))
        else k.goto (.yield call (.scan old (i + 1)))
      else k.goto (.yield call .ret)
  | .test old next =>
      if (k.table.procs old).state = .running then k.goto (.yield call (.demote old next))
      else k.goto (.yield call (.promote old next))
  | .demote old next => k.setState old .ready (.yield call (.promote old next))
  | .promote old next => k.setState next .running (.yield call (.publish old next))
  | .publish old next =>
      { k with table := { k.table with current := next } }.goto (.yield call (.switch old next))
  | .switch old next => (k.goto (.yield call .ret)).switch old next (k.table.saveCtx old regs)
  | .ret => k.goto (Main.afterYield call)
  | _ => k  -- sched_exit, which kernel_main does not call

variable (L : Layout MAX_PROCS) (entry : Call → BitVec 32)

def statement (k : Boot) (regs : Context) : Boot :=
  match k.main with
  | .pipeRead => k.goto .pipeWrite
  | .pipeWrite => k.goto .pipeCount
  | .pipeCount => k.goto (.initLoop 0)
  | .initLoop i =>
      if h : i < MAX_PROCS then k.setState ⟨i, h⟩ .unused (.initLoop (i + 1))
      else k.goto .initState
  | .initState => k.setState 0 .running .initPid
  | .initPid => k.store 0 (fun p => { p with pid := 0#32 }) id .initCanary
  | .initCanary =>
      k.store 0 (fun p => { p with canary := STACK_CANARY }) (fun s => { s with canary := true })
        (.spawnLoop .first 0)
  | .spawnLoop task i =>
      if h : i < MAX_PROCS then
        if (k.table.procs ⟨i, h⟩).state ≠ .unused then k.goto (.spawnLoop task (i + 1))
        else k.goto (.spawnState task ⟨i, h⟩)
      else k.goto (Main.afterSpawn task)
  | .spawnState task i => k.setState i .ready (.spawnPid task i)
  | .spawnPid task i =>
      let k := k.store i (fun p => { p with pid := k.table.nextPid }) id (.spawnEntry task i)
      { k with table := { k.table with nextPid := k.table.nextPid + 1#32 } }
  | .spawnEntry task i =>
      k.store i (fun p => { p with entry := entry task }) (fun s => { s with entry := true })
        (.spawnCanary task i)
  | .spawnCanary task i =>
      k.store i (fun p => { p with canary := STACK_CANARY }) (fun s => { s with canary := true })
        (.spawnRa task i)
  | .spawnRa task i =>
      k.store i (fun p => { p with ctx := { p.ctx with ra := L.procTrampoline } })
        (fun s => { s with ra := true }) (.spawnSp task i)
  | .spawnSp task i =>
      k.store i (fun p => { p with ctx := { p.ctx with sp := L.stackEnd i } })
        (fun s => { s with sp := true }) (.spawnRet task i)
  | .spawnRet task _ => k.goto (Main.afterSpawn task)
  | .yield call pt => k.yieldStatement regs call pt
  | .puts => k.goto .exit
  | .exit => { k with halted := true }

def timer (k : Boot) (regs : Context) : Boot :=
  match k.table.schedYield regs with
  | .returned t => { k with table := t }
  | .switched old next t => k.switch old next t
  | .halted t => { k with table := t, halted := true }

def step (k : Boot) (e : BootEvent) : Option Boot :=
  if k.halted ∨ k.lost then none
  else
    match e, k.away with
    | .statement regs, false => some (k.statement L entry regs)
    | .timer regs, false => some (k.timer regs)
    | .setState i state, true =>
        if (k.table.procs i).state ≠ .unused ∧ state ≠ .unused then
          some (k.setState i state k.main)
        else none
    | .setCurrent i, true => some { k with table := { k.table with current := i } }
    | .saveCtx i regs, true =>
        -- a stream runs only if its context could be loaded
        if (k.setup i).Loadable then
          some { k with
            table := k.table.saveCtx i regs
            setup := fun j => if j = i then { k.setup j with saved := true } else k.setup j }
        else none
    | .resume, true => if k.table.current = 0 then some { k with away := false } else none
    | _, _ => none

def start : Boot where
  table := .boot
  setup := fun _ => .blank
  main := .pipeRead
  away := false
  halted := false
  lost := false

/-- timer_handler's sched_yield neither panics nor switches to a slot that nothing has set up. -/
def TimerSafe (k : Boot) (regs : Context) : Prop :=
  match k.table.schedYield regs with
  | .returned _ => True
  | .switched old next _ => next = old ∨ (k.setup next).Loadable
  | .halted _ => False

theorem setup_setState (k : Boot) (i : Fin MAX_PROCS) (state : ProcState) (main : Main) :
    (k.setState i state main).setup = k.setup := by
  funext j
  change (if j = i then k.setup j else k.setup j) = k.setup j
  split
  · rfl
  · rfl

theorem procs_setState (k : Boot) (i j : Fin MAX_PROCS) (state : ProcState) (main : Main) :
    ((k.setState i state main).table.procs j).state =
        (if j = i then state else (k.table.procs j).state) ∧
      ((k.setState i state main).table.procs j).canary = (k.table.procs j).canary :=
  ⟨Table.state_setState k.table i j state, Table.canary_setState k.table i j state⟩

def Proceeds (L : Layout MAX_PROCS) (entry : Call → BitVec 32) (regs : Context) :
    Boot → Boot → Prop :=
  Relation.ReflTransGen fun k k' => k' = k.statement L entry regs

theorem proceeds_iterate (regs : Context) (k : Boot) (count : Nat) :
    Proceeds L entry regs k ((fun k => k.statement L entry regs)^[count] k) := by
  induction count with
  | zero => exact .refl
  | succ count ih =>
    rw [Function.iterate_succ_apply']
    exact ih.tail rfl

theorem spawn_slot {k : Boot} {task : Call} {i : Fin MAX_PROCS}
    (main : k.main = .spawnState task i) (regs : Context) :
    ∃ k', Proceeds L entry regs k k' ∧ k'.main = Main.afterSpawn task ∧
      k'.table = k.table.spawnInto L (entry task) i ∧ (k'.setup i).Spawned ∧
      ∀ j, j ≠ i → k'.setup j = k.setup j := by
  refine ⟨_, proceeds_iterate L entry regs k 7, ?_⟩
  obtain ⟨table, setup, main', away, halted, lost⟩ := k
  dsimp only at main
  subst main
  refine ⟨rfl, ?_, ?_, ?_⟩
  · simp only [Function.iterate_succ, Function.comp_apply, Function.iterate_zero, id, statement,
      setState, store, goto, Table.spawnInto, Table.setState, Table.update, Table.mk.injEq,
      and_true]
    funext j
    by_cases same : j = i
    · simp [same]
    · simp [same]
  · simp [Function.iterate_succ, statement, setState, store, Setup.Spawned, goto]
  · intro j other
    simp [Function.iterate_succ, statement, setState, store, other, goto]

theorem spawn_loop {task : Call} (regs : Context) : ∀ (left : Nat) {k : Boot} {i : Nat},
    left = MAX_PROCS - i → i ≤ MAX_PROCS → k.main = .spawnLoop task i →
    (∀ j : Fin MAX_PROCS, j.val < i → (k.table.procs j).state ≠ .unused) →
    Proceeds L entry regs k (k.goto (match k.table.freeSlot with
      | none => Main.afterSpawn task
      | some j => .spawnState task j)) := by
  intro left
  induction left with
  | zero =>
    intro k i rest bound main used
    obtain rfl : i = MAX_PROCS := by omega
    have none : k.table.freeSlot = none :=
      (Table.freeSlot_eq_none_iff _).mpr fun j => used j j.isLt
    rw [none]
    refine .tail .refl ?_
    simp only [statement, main, Nat.lt_irrefl, dif_neg, not_false_eq_true]
  | succ left ih =>
    intro k i rest bound main used
    have inside : i < MAX_PROCS := by omega
    by_cases taken : (k.table.procs ⟨i, inside⟩).state = .unused
    · have first : k.table.freeSlot = some ⟨i, inside⟩ := by
        unfold Table.freeSlot
        rw [List.find?_eq_some_iff_getElem]
        refine ⟨by simpa using taken, i, by simpa using inside, by simp, fun j before => ?_⟩
        simpa using used ⟨j, Nat.lt_trans before inside⟩ before
      rw [first]
      refine .tail .refl ?_
      simp only [statement, main, dif_pos inside, taken, ne_eq, not_true_eq_false, if_false]
    · have next := ih (k := k.goto (.spawnLoop task (i + 1))) (i := i + 1) (by omega) inside rfl ?_
      · refine .head ?_ next
        simp only [statement, main, dif_pos inside, ne_eq, taken, not_false_eq_true, if_true]
      · intro j below
        rcases Nat.lt_succ_iff_lt_or_eq.mp below with before | here
        · exact used j before
        · rw [show j = ⟨i, inside⟩ from Fin.ext here]
          exact taken

/-- The statements of sched_spawn are the function of the process table. -/
theorem spawn_statements {k : Boot} {task : Call} (main : k.main = .spawnLoop task 0)
    (regs : Context) :
    ∃ k', Proceeds L entry regs k k' ∧ k'.main = Main.afterSpawn task ∧
      k'.table = (k.table.schedSpawn L (entry task)).2 := by
  have found := spawn_loop L entry regs _ rfl (Nat.zero_le _) main (by simp)
  unfold Table.schedSpawn
  cases slot : k.table.freeSlot with
  | none =>
    rw [slot] at found
    exact ⟨_, found, rfl, rfl⟩
  | some i =>
    rw [slot] at found
    obtain ⟨k', run, after, table, _⟩ := spawn_slot L entry
      (k := k.goto (.spawnState task i)) rfl regs
    exact ⟨k', found.trans run, after, table⟩

theorem init_loop (regs : Context) : ∀ (left : Nat) {k : Boot} {i : Nat},
    left = MAX_PROCS - i → i ≤ MAX_PROCS → k.main = .initLoop i →
    ∃ k', Proceeds L entry regs k k' ∧ k'.main = .initState ∧ k'.table = { k.table with
      procs := fun j => if i ≤ j.val then { k.table.procs j with state := .unused }
        else k.table.procs j } := by
  intro left
  induction left with
  | zero =>
    intro k i rest bound main
    obtain rfl : i = MAX_PROCS := by omega
    refine ⟨k.goto .initState, .tail .refl ?_, rfl, ?_⟩
    · simp only [statement, main, Nat.lt_irrefl, dif_neg, not_false_eq_true]
    · simp only [goto, Nat.not_le.mpr (Fin.isLt _), if_false]
  | succ left ih =>
    intro k i rest bound main
    have inside : i < MAX_PROCS := by omega
    obtain ⟨k', run, after, table⟩ := ih (k := k.setState ⟨i, inside⟩ .unused (.initLoop (i + 1)))
      (i := i + 1) (by omega) inside rfl
    refine ⟨k', .head ?_ run, after, ?_⟩
    · simp only [statement, main, dif_pos inside]
    · rw [table]
      simp only [setState, store, Table.update, Table.mk.injEq, and_true]
      funext j
      by_cases here : j = ⟨i, inside⟩
      · simp [here]
      · have apart : j.val ≠ i := fun same => here (Fin.ext same)
        by_cases above : i ≤ j.val
        · simp [here, above, show i + 1 ≤ j.val by omega]
        · simp [here, above, show ¬i + 1 ≤ j.val by omega]

/-- The statements of sched_init are the function of the process table. -/
theorem init_statements {k : Boot} (main : k.main = .initLoop 0) (regs : Context) :
    ∃ k', Proceeds L entry regs k k' ∧ k'.main = .spawnLoop .first 0 ∧
      k'.table = k.table.schedInit := by
  obtain ⟨k₀, run, after, table⟩ := init_loop L entry regs _ rfl (Nat.zero_le _)
    main
  refine ⟨_, run.trans (proceeds_iterate L entry regs k₀ 3), ?_⟩
  obtain ⟨table₀, setup, main', away, halted, lost⟩ := k₀
  dsimp only at after table
  subst after table
  refine ⟨rfl, ?_⟩
  simp only [Function.iterate_succ, Function.comp_apply, Function.iterate_zero, id, statement,
    setState, store, Table.schedInit, Table.update, Table.mk.injEq, and_true]
  funext j
  by_cases zero : j = 0
  · simp [zero]
  · simp [zero]

theorem step_setState {k : Boot} (away : k.away = true) (running : k.halted = false)
    (found : k.lost = false) {i : Fin MAX_PROCS} (state : ProcState)
    (used : (k.table.procs i).state ≠ .unused) (used' : state ≠ .unused) :
    k.step L entry (.setState i state) = some (k.setState i state k.main) := by
  simp [step, away, running, found, used, used']

theorem step_setCurrent {k : Boot} (away : k.away = true) (running : k.halted = false)
    (found : k.lost = false) (i : Fin MAX_PROCS) :
    k.step L entry (.setCurrent i) = some { k with table := { k.table with current := i } } := by
  simp [step, away, running, found]

theorem step_saveCtx {k : Boot} (away : k.away = true) (running : k.halted = false)
    (found : k.lost = false) {i : Fin MAX_PROCS} (loadable : (k.setup i).Loadable)
    (regs : Context) :
    k.step L entry (.saveCtx i regs) = some { k with
      table := k.table.saveCtx i regs
      setup := fun j => if j = i then { k.setup j with saved := true } else k.setup j } := by
  simp [step, away, running, found, loadable]

theorem switchTo_events {k : Boot} (away : k.away = true) (running : k.halted = false)
    (found : k.lost = false) {old : Fin MAX_PROCS} (next : Fin MAX_PROCS)
    (loadable : (k.setup old).Loadable) (used : (k.table.procs next).state ≠ .unused)
    (regs : Context) :
    ∃ k', System.follow (step L entry)
        [.setState next .running, .setCurrent next, .saveCtx old regs] k = some k' ∧
      k.table.switchTo regs old next = .switched old next k'.table ∧ k'.main = k.main ∧
      k'.away = true := by
  have loadable' : ((k.setState next .running k.main).setup old).Loadable := by
    rw [setup_setState]
    exact loadable
  have current := step_setCurrent L entry
    (k := k.setState next .running k.main) away running found next
  refine ⟨{ k.setState next .running k.main with
    table := ({ (k.setState next .running k.main).table with current := next }).saveCtx old regs
    setup := fun j =>
      if j = old then { (k.setState next .running k.main).setup j with saved := true }
      else (k.setState next .running k.main).setup j }, ?_, rfl, rfl, away⟩
  simp only [System.follow]
  rw [step_setState L entry away running found .running used (by simp), Option.bind_some, current,
    Option.bind_some, step_saveCtx L entry (k := { k.setState next .running k.main with
      table := { (k.setState next .running k.main).table with current := next } })
      away running found loadable', Option.bind_some]

/-- A sched_yield of another process that switches is a sequence of the events for its
    statements. -/
theorem schedYield_events {k : Boot} (away : k.away = true) (running : k.halted = false)
    (found : k.lost = false) {regs : Context} {old next : Fin MAX_PROCS} {t : Table MAX_PROCS}
    (loadable : (k.setup k.table.current).Loadable)
    (yields : k.table.schedYield regs = .switched old next t) :
    ∃ events k', System.follow (step L entry) events k = some k' ∧ k'.table = t ∧
      k'.main = k.main ∧ k'.away = true := by
  unfold Table.schedYield at yields
  simp only at yields
  split at yields
  · cases yields
  split at yields
  · cases yields
  rename_i target hit
  have ready := Table.readySlot_ready hit
  split at yields
  · -- procs[old].state = PROC_READY
    rename_i run
    have demote := step_setState L entry away running found .ready
      (i := k.table.current) (by rw [run]; simp) (by simp)
    have loadable' : ((k.setState k.table.current .ready k.main).setup
        k.table.current).Loadable := by
      rw [setup_setState]
      exact loadable
    have used :
        ((k.setState k.table.current .ready k.main).table.procs target).state ≠ .unused := by
      rw [(procs_setState k _ _ _ _).1]
      split
      · simp
      · rw [ready]
        simp
    obtain ⟨k', run, result, main, away'⟩ := switchTo_events L entry
      (k := k.setState k.table.current .ready k.main) away running found target loadable' used regs
    have same := result.symm.trans yields
    simp only [SchedResult.switched.injEq] at same
    refine ⟨[.setState k.table.current .ready, .setState target .running, .setCurrent target,
      .saveCtx k.table.current regs], k', ?_, same.2.2, main, away'⟩
    rw [System.follow, demote, Option.bind_some]
    exact run
  · obtain ⟨k', run, result, main, away'⟩ := switchTo_events L entry away running
      found target loadable (by rw [ready]; simp) regs
    have same := result.symm.trans yields
    simp only [SchedResult.switched.injEq] at same
    exact ⟨_, k', run, same.2.2, main, away'⟩

end Boot

def bootRuns (L : Layout MAX_PROCS) (entry : Call → BitVec 32) : System Boot BootEvent :=
  .ofStep (· = Boot.start) (Boot.step L entry)

end XorOS.Kernel
