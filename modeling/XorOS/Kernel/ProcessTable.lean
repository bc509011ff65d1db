import Mathlib.Data.Fintype.Card
import XorOS.Kernel.Scheduler

/- scheduler.c on the table of process control blocks, each function run as a whole. n is
   MAX_PROCS. -/
namespace XorOS.Kernel
open Runs

structure Context where
  ra : BitVec 32
  sp : BitVec 32
  s : Fin 12 → BitVec 32

/-- proc_t; of the stack the scheduler uses the canary and the address of its end. -/
structure Pcb where
  state : ProcState
  pid : BitVec 32
  ctx : Context
  entry : BitVec 32
  canary : BitVec 32

structure Table (n : Nat) where
  procs : Fin n → Pcb
  nextPid : BitVec 32
  current : Fin n

/-- The addresses that the linker fixes: proc_trampoline and the end of each stack. -/
structure Layout (n : Nat) where
  procTrampoline : BitVec 32
  stackEnd : Fin n → BitVec 32

/-- How sched_yield and sched_exit end: they return, switch to another context, or reach
    sys_exit, check_canary's panic included. -/
inductive SchedResult (n : Nat) where
  | returned (t : Table n)
  | switched (old next : Fin n) (t : Table n)
  | halted (t : Table n)

namespace Table
variable {n : Nat}

def update (t : Table n) (i : Fin n) (f : Pcb → Pcb) : Table n :=
  { t with procs := fun j => if j = i then f (t.procs j) else t.procs j }

def setState (t : Table n) (i : Fin n) (state : ProcState) : Table n :=
  t.update i fun p => { p with state := state }

def saveCtx (t : Table n) (i : Fin n) (regs : Context) : Table n :=
  t.update i fun p => { p with ctx := regs }

/-- The static data at boot: zeros, but for next_pid = 1. -/
def boot [NeZero n] : Table n where
  procs _ := ⟨.unused, 0#32, ⟨0#32, 0#32, fun _ => 0#32⟩, 0#32, 0#32⟩
  nextPid := 1#32
  current := 0

def schedInit [NeZero n] (t : Table n) : Table n :=
  let t := { t with procs := fun i => { t.procs i with state := .unused } }
  t.update 0 fun p => { p with state := .running, pid := 0#32, canary := STACK_CANARY }

def freeSlot (t : Table n) : Option (Fin n) :=
  (List.finRange n).find? fun i => (t.procs i).state = .unused

def spawnInto (L : Layout n) (entry : BitVec 32) (t : Table n) (i : Fin n) : Table n :=
  let t := (t.setState i .ready).update i fun p => { p with pid := t.nextPid }
  let t := { t with nextPid := t.nextPid + 1#32 }
  let t := t.update i fun p => { p with entry := entry, canary := STACK_CANARY }
  t.update i fun p => { p with ctx := { p.ctx with ra := L.procTrampoline, sp := L.stackEnd i } }

def schedSpawn (L : Layout n) (entry : BitVec 32) (t : Table n) : Int × Table n :=
  match t.freeSlot with
  | none => (-1, t)
  | some i => (((t.spawnInto L entry i).procs i).pid.toInt, t.spawnInto L entry i)

/-- The first READY slot in the order old + 1, .., old + MAX_PROCS, modulo MAX_PROCS. -/
def readySlot [NeZero n] (t : Table n) (old : Fin n) : Option (Fin n) :=
  ((List.range' 1 n).map (Machine.slot old)).find? fun i => (t.procs i).state = .ready

def switchTo (t : Table n) (regs : Context) (old next : Fin n) : SchedResult n :=
  let t := { t.setState next .running with current := next }
  .switched old next (t.saveCtx old regs)

def schedYield [NeZero n] (regs : Context) (t : Table n) : SchedResult n :=
  let old := t.current
  if (t.procs old).canary ≠ STACK_CANARY then .halted t
  else
    match t.readySlot old with
    | none => .returned t
    | some next =>
        (if (t.procs old).state = .running then t.setState old .ready else t).switchTo regs old next

def schedExit [NeZero n] (regs : Context) (t : Table n) : SchedResult n :=
  if (t.procs t.current).canary ≠ STACK_CANARY then .halted t
  else
    let t := t.setState t.current .zombie
    match t.readySlot t.current with
    | none => .halted t
    | some next => t.switchTo regs t.current next

@[simp] theorem procs_update (t : Table n) (i j : Fin n) (f : Pcb → Pcb) :
    (t.update i f).procs j = if j = i then f (t.procs j) else t.procs j := rfl

theorem state_setState (t : Table n) (i j : Fin n) (state : ProcState) :
    ((t.setState i state).procs j).state = if j = i then state else (t.procs j).state := by
  unfold setState
  rw [procs_update]
  split
  · rfl
  · rfl

@[simp] theorem pid_setState (t : Table n) (i j : Fin n) (state : ProcState) :
    ((t.setState i state).procs j).pid = (t.procs j).pid := by
  unfold setState
  rw [procs_update]
  split
  · rfl
  · rfl

@[simp] theorem canary_setState (t : Table n) (i j : Fin n) (state : ProcState) :
    ((t.setState i state).procs j).canary = (t.procs j).canary := by
  unfold setState
  rw [procs_update]
  split
  · rfl
  · rfl

theorem saveCtx_rest (t : Table n) (i j : Fin n) (regs : Context) :
    ((t.saveCtx i regs).procs j).state = (t.procs j).state ∧
      ((t.saveCtx i regs).procs j).pid = (t.procs j).pid ∧
      ((t.saveCtx i regs).procs j).canary = (t.procs j).canary := by
  unfold saveCtx
  rw [procs_update]
  split
  · exact ⟨rfl, rfl, rfl⟩
  · exact ⟨rfl, rfl, rfl⟩

theorem readySlot_ready [NeZero n] {t : Table n} {old next : Fin n}
    (found : t.readySlot old = some next) : (t.procs next).state = .ready := by
  have hit := List.find?_some found
  simpa using hit

theorem freeSlot_unused {t : Table n} {i : Fin n} (found : t.freeSlot = some i) :
    (t.procs i).state = .unused := by
  have hit := List.find?_some found
  simpa using hit

theorem freeSlot_eq_none_iff (t : Table n) :
    t.freeSlot = none ↔ ∀ i, (t.procs i).state ≠ .unused := by
  unfold freeSlot
  simp [List.find?_eq_none]

theorem procs_spawnInto (L : Layout n) (entry : BitVec 32) (t : Table n) (i j : Fin n) :
    (t.spawnInto L entry i).procs j =
      if j = i then
        ⟨.ready, t.nextPid, { (t.procs j).ctx with ra := L.procTrampoline, sp := L.stackEnd i },
          entry, STACK_CANARY⟩
      else t.procs j := by
  by_cases same : j = i
  · simp [spawnInto, setState, update, same]
  · simp [spawnInto, setState, update, same]

structure SwitchedTo (t : Table n) (left : ProcState) (old next : Fin n) (t' : Table n) : Prop where
  ready : (t.procs next).state = .ready
  current : t'.current = next
  nextPid : t'.nextPid = t.nextPid
  states : ∀ i, (t'.procs i).state =
    if i = next then .running else if i = old then left else (t.procs i).state
  pids : ∀ i, (t'.procs i).pid = (t.procs i).pid
  canaries : ∀ i, (t'.procs i).canary = (t.procs i).canary

theorem switchTo_spec {t : Table n} {next : Fin n} (regs : Context) (left : ProcState) (old : Fin n)
    (ready : (t.procs next).state = .ready) :
    ∃ t', (t.setState old left).switchTo regs old next = .switched old next t' ∧
      SwitchedTo t left old next t' := by
  refine ⟨_, rfl, ready, rfl, rfl, ?_, ?_, ?_⟩
  · intro i
    rw [(saveCtx_rest _ _ _ _).1]
    change (((t.setState old left).setState next .running).procs i).state = _
    rw [state_setState, state_setState]
  · intro i
    rw [(saveCtx_rest _ _ _ _).2.1]
    change (((t.setState old left).setState next .running).procs i).pid = _
    rw [pid_setState, pid_setState]
  · intro i
    rw [(saveCtx_rest _ _ _ _).2.2]
    change (((t.setState old left).setState next .running).procs i).canary = _
    rw [canary_setState, canary_setState]

theorem setState_self (t : Table n) (i : Fin n) : t.setState i (t.procs i).state = t := by
  obtain ⟨procs, nextPid, current⟩ := t
  simp only [setState, update, mk.injEq, and_true]
  funext j
  by_cases same : j = i
  · rw [if_pos same, same]
  · rw [if_neg same]

/-- Whatever the state of the running process, sched_yield panics, returns or switches. -/
theorem schedYield_cases [NeZero n] (t : Table n) (regs : Context) :
    ((t.procs t.current).canary ≠ STACK_CANARY ∧ t.schedYield regs = .halted t) ∨
      (t.procs t.current).canary = STACK_CANARY ∧
        (t.readySlot t.current = none ∧ t.schedYield regs = .returned t ∨
          ∃ next t', t.readySlot t.current = some next ∧
            t.schedYield regs = .switched t.current next t' ∧
            SwitchedTo t (if (t.procs t.current).state = .running then .ready
              else (t.procs t.current).state) t.current next t') := by
  have left : (if (t.procs t.current).state = .running then t.setState t.current .ready else t) =
      t.setState t.current (if (t.procs t.current).state = .running then .ready
        else (t.procs t.current).state) := by
    split
    · rfl
    · exact (setState_self t t.current).symm
  unfold schedYield
  by_cases intact : (t.procs t.current).canary = STACK_CANARY
  · refine Or.inr ⟨intact, ?_⟩
    simp only [intact, ne_eq, not_true_eq_false, if_false]
    cases found : t.readySlot t.current with
    | none => exact Or.inl ⟨rfl, rfl⟩
    | some next =>
      obtain ⟨t', switched, spec⟩ := switchTo_spec regs
        (if (t.procs t.current).state = .running then .ready else (t.procs t.current).state)
        t.current (readySlot_ready found)
      refine Or.inr ⟨next, t', rfl, ?_, spec⟩
      simp only [left]
      exact switched
  · refine Or.inl ⟨intact, ?_⟩
    simp only [ne_eq, intact, not_false_eq_true, if_true]

theorem schedYield_spec [NeZero n] {t : Table n}
    (running : (t.procs t.current).state = .running)
    (intact : (t.procs t.current).canary = STACK_CANARY) (regs : Context) :
    t.schedYield regs = .returned t ∨
      ∃ next t', t.schedYield regs = .switched t.current next t' ∧
        SwitchedTo t .ready t.current next t' := by
  rcases t.schedYield_cases regs with ⟨broken, _⟩ | ⟨_, ⟨_, back⟩ | ⟨next, t', _, switched, spec⟩⟩
  · exact absurd intact broken
  · exact Or.inl back
  · rw [if_pos running] at spec
    exact Or.inr ⟨next, t', switched, spec⟩

theorem schedExit_cases [NeZero n] {t : Table n}
    (intact : (t.procs t.current).canary = STACK_CANARY) (regs : Context) :
    (t.setState t.current .zombie).readySlot t.current = none ∧
        t.schedExit regs = .halted (t.setState t.current .zombie) ∨
      ∃ next t', (t.setState t.current .zombie).readySlot t.current = some next ∧
        t.schedExit regs = .switched t.current next t' ∧
        SwitchedTo t .zombie t.current next t' := by
  unfold schedExit
  simp only [intact, ne_eq, not_true_eq_false, if_false]
  have same : (t.setState t.current .zombie).current = t.current := rfl
  cases found : (t.setState t.current .zombie).readySlot (t.setState t.current .zombie).current with
  | none => exact Or.inl ⟨found, rfl⟩
  | some next =>
    have ready := readySlot_ready found
    rw [state_setState] at ready
    split at ready
    · cases ready
    obtain ⟨t', switched, spec⟩ := switchTo_spec regs .zombie t.current ready
    exact Or.inr ⟨next, t', found, switched, spec⟩

theorem schedExit_spec [NeZero n] {t : Table n}
    (intact : (t.procs t.current).canary = STACK_CANARY) (regs : Context) :
    t.schedExit regs = .halted (t.setState t.current .zombie) ∨
      ∃ next t', t.schedExit regs = .switched t.current next t' ∧
        SwitchedTo t .zombie t.current next t' := by
  rcases schedExit_cases intact regs with ⟨_, last⟩ | ⟨next, t', _, switched, spec⟩
  · exact Or.inl last
  · exact Or.inr ⟨next, t', switched, spec⟩

end Table

structure Os (n : Nat) where
  table : Table n
  halted : Bool

/-- The running process's calls; regs is what context_switch finds in the registers. -/
inductive SchedCall where
  | spawn (entry : BitVec 32)
  | yield (regs : Context)
  | exit (regs : Context)

def SchedResult.os {n : Nat} : SchedResult n → Os n
  | .returned t => ⟨t, false⟩
  | .switched _ _ t => ⟨t, false⟩
  | .halted t => ⟨t, true⟩

namespace Os
variable {n : Nat}

def used (t : Table n) : Finset (Fin n) :=
  Finset.univ.filter fun i => (t.procs i).state ≠ .unused

theorem mem_used (t : Table n) (i : Fin n) : i ∈ used t ↔ (t.procs i).state ≠ .unused := by
  simp [used]

structure Inv (o : Os n) : Prop where
  running : o.halted = false →
    ∀ i, (o.table.procs i).state = .running ↔ i = o.table.current
  intact : ∀ i, (o.table.procs i).state ≠ .unused → (o.table.procs i).canary = STACK_CANARY
  count : o.table.nextPid.toNat = (used o.table).card
  below : ∀ i, (o.table.procs i).state ≠ .unused →
    (o.table.procs i).pid.toNat < o.table.nextPid.toNat
  distinct : ∀ i j, (o.table.procs i).state ≠ .unused → (o.table.procs j).state ≠ .unused →
    (o.table.procs i).pid = (o.table.procs j).pid → i = j

theorem card_used_le (t : Table n) : (used t).card ≤ n := by
  have le := Finset.card_le_univ (used t)
  rwa [Fintype.card_fin] at le

theorem used_congr {t t' : Table n}
    (same : ∀ i, (t'.procs i).state = .unused ↔ (t.procs i).state = .unused) :
    used t' = used t := by
  ext i
  rw [mem_used, mem_used, Ne, Ne, same]

theorem inv_of_states {o : Os n} (inv : Inv o) {o' : Os n}
    (nextPid : o'.table.nextPid = o.table.nextPid)
    (pids : ∀ i, (o'.table.procs i).pid = (o.table.procs i).pid)
    (canaries : ∀ i, (o'.table.procs i).canary = (o.table.procs i).canary)
    (same : ∀ i, (o'.table.procs i).state = .unused ↔ (o.table.procs i).state = .unused)
    (running : o'.halted = false →
      ∀ i, (o'.table.procs i).state = .running ↔ i = o'.table.current) :
    Inv o' := by
  refine ⟨running, fun i taken => ?_, ?_, fun i taken => ?_, fun i j hi hj eq => ?_⟩
  · rw [canaries]
    exact inv.intact i (mt (same i).mpr taken)
  · rw [nextPid, used_congr same]
    exact inv.count
  · rw [pids, nextPid]
    exact inv.below i (mt (same i).mpr taken)
  · rw [pids, pids] at eq
    exact inv.distinct i j (mt (same i).mpr hi) (mt (same j).mpr hj) eq

theorem inv_switched {o : Os n} (inv : Inv o) (alive : o.halted = false) {left : ProcState}
    (stopped : left = .ready ∨ left = .zombie) {next : Fin n} {t' : Table n}
    (spec : Table.SwitchedTo o.table left o.table.current next t') : Inv ⟨t', false⟩ := by
  have current := (inv.running alive o.table.current).mpr rfl
  refine inv_of_states inv spec.nextPid spec.pids spec.canaries (fun i => ?_) fun _ i => ?_
  · rw [spec.states]
    split
    · rename_i here
      rw [here, spec.ready]
      simp
    split
    · rename_i here
      rw [here, current]
      rcases stopped with rfl | rfl
      · simp
      · simp
    · exact Iff.rfl
  · change (t'.procs i).state = .running ↔ i = t'.current
    rw [spec.states, spec.current]
    split
    · rename_i here
      simp [here]
    rename_i other
    split
    · rcases stopped with rfl | rfl
      · simp [other]
      · simp [other]
    · rename_i notOld
      simp only [other, iff_false]
      exact fun run => notOld ((inv.running alive i).mp run)

theorem inv_last_exit {o : Os n} (inv : Inv o) (alive : o.halted = false) :
    Inv ⟨o.table.setState o.table.current .zombie, true⟩ := by
  have current := (inv.running alive o.table.current).mpr rfl
  refine inv_of_states inv rfl (fun i => Table.pid_setState _ _ _ _)
    (fun i => Table.canary_setState _ _ _ _) (fun i => ?_) fun halted => by cases halted
  change ((o.table.setState o.table.current .zombie).procs i).state = .unused ↔ _
  rw [Table.state_setState]
  split
  · rename_i here
    rw [here, current]
    simp
  · exact Iff.rfl

theorem inv_spawnInto (L : Layout n) (entry : BitVec 32) {o : Os n} (inv : Inv o)
    (alive : o.halted = false) {i : Fin n} (unused : (o.table.procs i).state = .unused)
    (room : o.table.nextPid.toNat + 1 < 2 ^ 32) : Inv ⟨o.table.spawnInto L entry i, false⟩ := by
  have slots (j : Fin n) := Table.procs_spawnInto L entry o.table i j
  have nextPid : (o.table.spawnInto L entry i).nextPid.toNat = o.table.nextPid.toNat + 1 := by
    change (o.table.nextPid + 1#32).toNat = _
    rw [BitVec.toNat_add]
    exact Nat.mod_eq_of_lt room
  have old (j : Fin n) (other : j ≠ i)
      (taken : ((o.table.spawnInto L entry i).procs j).state ≠ .unused) :
      (o.table.procs j).state ≠ .unused := by
    rw [slots, if_neg other] at taken
    exact taken
  have fresh (j : Fin n) (taken : (o.table.procs j).state ≠ .unused) :
      (o.table.procs j).pid ≠ o.table.nextPid := by
    intro same
    have below := inv.below j taken
    rw [same] at below
    omega
  refine ⟨fun _ j => ?_, fun j taken => ?_, ?_, fun j taken => ?_, fun j k hj hk eq => ?_⟩
  · change ((o.table.spawnInto L entry i).procs j).state = .running ↔ j = o.table.current
    rw [← inv.running alive j, slots]
    split
    · rename_i here
      rw [here, unused]
      simp
    · exact Iff.rfl
  · change ((o.table.spawnInto L entry i).procs j).canary = STACK_CANARY
    by_cases here : j = i
    · rw [slots, if_pos here]
    · rw [slots, if_neg here]
      exact inv.intact j (old j here taken)
  · have grown : used (o.table.spawnInto L entry i) = insert i (used o.table) := by
      ext j
      rw [Finset.mem_insert, mem_used, mem_used, slots]
      by_cases here : j = i
      · simp [here]
      · simp [here]
    have absent : i ∉ used o.table := by
      rw [mem_used, unused]
      simp
    change (o.table.spawnInto L entry i).nextPid.toNat = _
    rw [nextPid, inv.count]
    exact (congrArg Finset.card grown).trans (Finset.card_insert_of_notMem absent) |>.symm
  · change ((o.table.spawnInto L entry i).procs j).pid.toNat <
      (o.table.spawnInto L entry i).nextPid.toNat
    rw [nextPid]
    by_cases here : j = i
    · rw [slots, if_pos here]
      exact Nat.lt_succ_self _
    · rw [slots, if_neg here]
      have below := inv.below j (old j here taken)
      omega
  · change ((o.table.spawnInto L entry i).procs j).pid =
      ((o.table.spawnInto L entry i).procs k).pid at eq
    by_cases hereJ : j = i
    · by_cases hereK : k = i
      · rw [hereJ, hereK]
      · rw [slots, slots, if_pos hereJ, if_neg hereK] at eq
        exact absurd eq.symm (fresh k (old k hereK hk))
    · by_cases hereK : k = i
      · rw [slots, slots, if_neg hereJ, if_pos hereK] at eq
        exact absurd eq (fresh j (old j hereJ hj))
      · rw [slots, slots, if_neg hereJ, if_neg hereK] at eq
        exact inv.distinct j k (old j hereJ hj) (old k hereK hk) eq

def DeadAs (i : Fin n) (pid : BitVec 32) (o : Os n) : Prop :=
  (o.table.procs i).state = .zombie ∧ (o.table.procs i).pid = pid

theorem dead_switched {o : Os n} {i : Fin n} {pid : BitVec 32} (dead : DeadAs i pid o)
    {left : ProcState} {next : Fin n} {t' : Table n} (stays : i = o.table.current → left = .zombie)
    (spec : Table.SwitchedTo o.table left o.table.current next t') : DeadAs i pid ⟨t', false⟩ := by
  refine ⟨?_, (spec.pids i).trans dead.2⟩
  have notNext : i ≠ next := by
    rintro rfl
    have ready := spec.ready
    rw [dead.1] at ready
    cases ready
  change (t'.procs i).state = .zombie
  rw [spec.states, if_neg notNext]
  split
  · rename_i here
    exact stays here
  · exact dead.1

theorem spawn_full_iff (L : Layout n) (intSize : n < 2 ^ 31) {o : Os n} (inv : Inv o)
    (entry : BitVec 32) :
    (o.table.schedSpawn L entry).1 = -1 ↔ ∀ i, (o.table.procs i).state ≠ .unused := by
  rw [← Table.freeSlot_eq_none_iff]
  unfold Table.schedSpawn
  cases found : o.table.freeSlot with
  | none => simp
  | some i =>
    have room := card_used_le o.table
    rw [← inv.count] at room
    simp only [Table.procs_spawnInto, if_true, reduceCtorEq, iff_false]
    rw [BitVec.toInt_eq_toNat_of_lt (by omega)]
    omega

variable [NeZero n]

def perform (L : Layout n) (t : Table n) : SchedCall → SchedResult n
  | .spawn entry => .returned (t.schedSpawn L entry).2
  | .yield regs => t.schedYield regs
  | .exit regs => t.schedExit regs

def step (L : Layout n) (o : Os n) (c : SchedCall) : Option (Os n) :=
  if o.halted then none else some (perform L o.table c).os

def calls (L : Layout n) : System (Os n) SchedCall :=
  .ofStep (fun o => o = ⟨Table.boot.schedInit, false⟩) (step L)

theorem inv_init : Inv (n := n) ⟨Table.boot.schedInit, false⟩ := by
  have slots (i : Fin n) : (Table.boot.schedInit.procs i : Pcb) =
      if i = 0 then ⟨.running, 0#32, ⟨0#32, 0#32, fun _ => 0#32⟩, 0#32, STACK_CANARY⟩
      else ⟨.unused, 0#32, ⟨0#32, 0#32, fun _ => 0#32⟩, 0#32, 0#32⟩ := rfl
  have first (i : Fin n) (taken : (Table.boot.schedInit.procs i).state ≠ .unused) : i = 0 := by
    by_contra other
    rw [slots, if_neg other] at taken
    exact taken rfl
  refine ⟨fun _ i => ?_, fun i taken => ?_, ?_, fun i taken => ?_, fun i j hi hj _ => ?_⟩
  · constructor
    · intro run
      exact first i (by rw [run]; decide)
    · rintro rfl
      rw [slots]
      rfl
  · rw [first i taken, slots]
    rfl
  · have single : used (Table.boot.schedInit : Table n) = {0} := by
      ext i
      rw [mem_used, Finset.mem_singleton]
      refine ⟨first i, ?_⟩
      rintro rfl
      rw [slots]
      simp
    rw [single]
    rfl
  · rw [first i taken, slots, if_pos rfl]
    exact Nat.one_pos
  · rw [first i hi, first j hj]

theorem Inv.step_cases {L : Layout n} {o o' : Os n} {c : SchedCall} (inv : Inv o)
    (next : step L o c = some o') :
    o.halted = false ∧ (o.table.procs o.table.current).state = .running ∧
      (o.table.procs o.table.current).canary = STACK_CANARY ∧ o' = (perform L o.table c).os := by
  unfold step at next
  split at next
  · simp at next
  rename_i running
  have alive : o.halted = false := Bool.eq_false_of_not_eq_true running
  have current := (inv.running alive o.table.current).mpr rfl
  exact ⟨alive, current, inv.intact _ (by rw [current]; decide), (Option.some.inj next).symm⟩

theorem inv_step (L : Layout n) (intSize : n < 2 ^ 31) {o o' : Os n} {c : SchedCall} (inv : Inv o)
    (next : step L o c = some o') : Inv o' := by
  obtain ⟨alive, current, intact, rfl⟩ := inv.step_cases next
  cases c with
  | spawn entry =>
    unfold perform Table.schedSpawn
    simp only
    cases found : o.table.freeSlot with
    | none => exact ⟨fun _ => inv.running alive, inv.intact, inv.count, inv.below, inv.distinct⟩
    | some i =>
      have room := card_used_le o.table
      rw [← inv.count] at room
      exact inv_spawnInto L entry inv alive (Table.freeSlot_unused found) (by omega)
  | yield regs =>
    unfold perform
    rcases Table.schedYield_spec current intact regs with back | ⟨next, t', switched, spec⟩
    · simp only [back]
      exact ⟨fun _ => inv.running alive, inv.intact, inv.count, inv.below, inv.distinct⟩
    · simp only [switched]
      exact inv_switched inv alive (Or.inl rfl) spec
  | exit regs =>
    unfold perform
    rcases Table.schedExit_spec intact regs with last | ⟨next, t', switched, spec⟩
    · simp only [last]
      exact inv_last_exit inv alive
    · simp only [switched]
      exact inv_switched inv alive (Or.inr rfl) spec

theorem calls_invariant (L : Layout n) (intSize : n < 2 ^ 31) {o : Os n}
    (reached : (calls L).Reachable o) : Inv o := by
  refine reached.invariant Inv ?_ ?_
  · rintro _ rfl
    exact inv_init
  · intro o c o' inv next
    exact inv_step L intSize inv next

theorem dead_step (L : Layout n) {o o' : Os n} {c : SchedCall} (inv : Inv o) {i : Fin n}
    {pid : BitVec 32} (dead : DeadAs i pid o) (next : step L o c = some o') : DeadAs i pid o' := by
  obtain ⟨alive, current, intact, rfl⟩ := inv.step_cases next
  have other : i ≠ o.table.current := by
    rintro rfl
    rw [dead.1] at current
    cases current
  cases c with
  | spawn entry =>
    unfold perform Table.schedSpawn
    simp only
    cases found : o.table.freeSlot with
    | none => exact dead
    | some j =>
      have apart : i ≠ j := by
        rintro rfl
        have unused := Table.freeSlot_unused found
        rw [dead.1] at unused
        cases unused
      have kept := Table.procs_spawnInto L entry o.table j i
      rw [if_neg apart] at kept
      unfold DeadAs
      change ((o.table.spawnInto L entry j).procs i).state = _ ∧
        ((o.table.spawnInto L entry j).procs i).pid = _
      rw [kept]
      exact dead
  | yield regs =>
    unfold perform
    rcases Table.schedYield_spec current intact regs with back | ⟨next, t', switched, spec⟩
    · simp only [back]
      exact dead
    · simp only [switched]
      exact dead_switched dead (fun here => absurd here other) spec
  | exit regs =>
    unfold perform
    rcases Table.schedExit_spec intact regs with last | ⟨next, t', switched, spec⟩
    · simp only [last]
      refine ⟨?_, (Table.pid_setState _ _ _ _).trans dead.2⟩
      change ((o.table.setState o.table.current .zombie).procs i).state = .zombie
      rw [Table.state_setState, if_neg other]
      exact dead.1
    · simp only [switched]
      exact dead_switched dead (fun here => absurd here other) spec

/-- What holds of the table between any two calls, and of the next call. -/
structure Sound (L : Layout n) (o : Os n) : Prop where
  running : o.halted = false → ∀ i, (o.table.procs i).state = .running ↔ i = o.table.current
  zombies : ∀ cs o', (calls L).Path o cs o' → ∀ i, (o.table.procs i).state = .zombie →
    (o'.table.procs i).state = .zombie ∧ (o'.table.procs i).pid = (o.table.procs i).pid
  distinct : ∀ i j, (o.table.procs i).state ≠ .unused → (o.table.procs j).state ≠ .unused →
    (o.table.procs i).pid = (o.table.procs j).pid → i = j
  full : ∀ entry, (o.table.schedSpawn L entry).1 = -1 ↔ ∀ i, (o.table.procs i).state ≠ .unused
  switches : o.halted = false → ∀ c old next t', perform L o.table c = .switched old next t' →
    old = o.table.current ∧ (o.table.procs next).state = .ready

theorem switch_ready (L : Layout n) {o : Os n} (inv : Inv o) (alive : o.halted = false)
    {c : SchedCall} {old next : Fin n} {t' : Table n}
    (done : perform L o.table c = .switched old next t') :
    old = o.table.current ∧ (o.table.procs next).state = .ready := by
  have current := (inv.running alive o.table.current).mpr rfl
  have intact := inv.intact o.table.current (by rw [current]; decide)
  cases c with
  | spawn entry => simp [perform] at done
  | yield regs =>
    unfold perform at done
    rcases Table.schedYield_spec current intact regs with back | ⟨next', t'', switched, spec⟩
    · simp [back] at done
    · simp only [switched, SchedResult.switched.injEq] at done
      obtain ⟨rfl, rfl, rfl⟩ := done
      exact ⟨rfl, spec.ready⟩
  | exit regs =>
    unfold perform at done
    rcases Table.schedExit_spec intact regs with last | ⟨next', t'', switched, spec⟩
    · simp [last] at done
    · simp only [switched, SchedResult.switched.injEq] at done
      obtain ⟨rfl, rfl, rfl⟩ := done
      exact ⟨rfl, spec.ready⟩

/-- In every run of sched_spawn, sched_yield and sched_exit after boot the table is sound.
    MAX_PROCS is an int, so that pids never wrap. -/
theorem scheduler_sound (L : Layout n) (intSize : n < 2 ^ 31) {o : Os n}
    (reached : (calls L).Reachable o) : Sound L o := by
  have inv := calls_invariant L intSize reached
  refine ⟨inv.running, ?_, inv.distinct, spawn_full_iff L intSize inv, ?_⟩
  · intro cs o' path i dead
    obtain ⟨_, kept⟩ := path.preserves
      (fun o' => Inv o' ∧ DeadAs i (o.table.procs i).pid o')
      (fun u c v h next => ⟨inv_step L intSize h.1 next, dead_step L h.1 h.2 next⟩)
      ⟨inv, dead, rfl⟩
    exact kept
  · intro alive c old next t' done
    exact switch_ready L inv alive done

def twoSlots : Layout 2 := ⟨0x100#32, fun i => BitVec.ofNat 32 (0x1000 + 0x200 * i.val)⟩

def zeroRegs : Context := ⟨0#32, 0#32, fun _ => 0#32⟩

def spawnAndYield : List SchedCall := [.spawn 0x40#32, .yield zeroRegs, .exit zeroRegs]

theorem scheduler_sound_two :
    let o := System.after (step twoSlots) spawnAndYield ⟨Table.boot.schedInit, false⟩
    Sound twoSlots o ∧ o.table.current = 0 ∧ (o.table.procs 1).state = .zombie := by
  intro o
  have accepted : (System.follow (step twoSlots) spawnAndYield
      ⟨Table.boot.schedInit, false⟩).isSome := by decide
  have reached : (calls twoSlots).Reachable o :=
    System.Reachable.follow (.of_init rfl) (System.follow_after accepted)
  exact ⟨scheduler_sound twoSlots (by decide) reached, by decide, by decide⟩

end Os

end XorOS.Kernel
