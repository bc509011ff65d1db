import XorOS.Kernel.Boot
import XorOS.Kernel.Switching

/- Where the timer may interrupt kernel_main: the invariant of its runs, and the statements at which
   timer_handler's sched_yield does no harm. -/
namespace XorOS.Kernel
open Runs

namespace Main

def sofar : Main → Setup
  | spawnCanary _ _ => ⟨true, false, false, false, false⟩
  | spawnRa _ _ => ⟨true, true, false, false, false⟩
  | spawnSp _ _ => ⟨true, true, true, false, false⟩
  | _ => .blank

theorem sofar_not_loadable (main : Main) : ¬main.sofar.Loadable := by
  have pending : main.sofar.sp = false ∧ main.sofar.saved = false := by
    cases main with
    | _ => exact ⟨rfl, rfl⟩
  simp [Setup.Loadable, Setup.Spawned, pending.1, pending.2]

end Main

namespace Table
variable {n : Nat}

theorem SwitchedTo.unused_iff {t t' : Table n} {old next : Fin n}
    (spec : SwitchedTo t (if (t.procs old).state = .running then .ready
      else (t.procs old).state) old next t') (i : Fin n) :
    (t'.procs i).state = .unused ↔ (t.procs i).state = .unused := by
  rw [spec.states]
  by_cases here : i = next
  · rw [if_pos here, here, spec.ready]
    simp
  rw [if_neg here]
  by_cases left : i = old
  · rw [if_pos left, left]
    split
    · rename_i running
      simp [running]
    · rfl
  · rw [if_neg left]

end Table

namespace Boot

structure Slot (main : Main) (i : Fin MAX_PROCS) (p : Pcb) (s : Setup) : Prop where
  canary : s.canary = true ∨ i = 0 → p.canary = STACK_CANARY
  fresh : p.state = .unused → i ≠ 0 ∧ s = .blank
  done : p.state ≠ .unused → i ≠ 0 → main.spawning ≠ some i → s.Spawned
  begun : main.spawning = some i → i ≠ 0 ∧ p.state ≠ .unused ∧ s = main.sofar

/-- Every slot but the one in sched_spawn's hands is unused or can be switched to. -/
structure Settled (k : Boot) : Prop where
  initialised : k.main.Initialised
  slots : ∀ i, Slot k.main i (k.table.procs i) (k.setup i)
  free : ∀ task i, k.main = .spawnState task i → (k.table.procs i).state = .unused
  here : k.away = false → (∀ call old next, k.main ≠ .yield call (.switch old next)) →
    k.table.current = 0
  locals : ∀ call pt, k.main = .yield call pt →
    pt.OldIs 0 ∧ ∀ j, pt.target = some j → (k.table.procs j).state ≠ .unused
  window : ∀ call old next, k.main = .yield call (.switch old next) →
    (k.away = false → k.table.current = next) ∧ (k.away = true → next = 0)

/-- kernel_main up to the canary of slot 0: a timer interrupt would panic. -/
structure Booting (k : Boot) : Prop where
  early : ¬k.main.Initialised
  here : k.away = false
  current : k.table.current = 0
  canary : (k.table.procs 0).canary ≠ STACK_CANARY
  unused : ∀ i, i ≠ 0 → (k.table.procs i).state = .unused
  blank : ∀ i, k.setup i = .blank
  running : k.main = .initPid ∨ k.main = .initCanary → (k.table.procs 0).state = .running

theorem Slot.keep {main main' : Main} {i : Fin MAX_PROCS} {p : Pcb} {s : Setup}
    (h : Slot main i p s) (quiet : main.spawning ≠ some i) (quiet' : main'.spawning ≠ some i) :
    Slot main' i p s where
  canary := h.canary
  fresh := h.fresh
  done used other _ := h.done used other quiet
  begun now := absurd now quiet'

theorem Slot.congr {main : Main} {i : Fin MAX_PROCS} {p p' : Pcb} {s : Setup}
    (h : Slot main i p s) (state : p'.state = p.state) (canary : p'.canary = p.canary) :
    Slot main i p' s where
  canary known := canary.trans (h.canary known)
  fresh unused := h.fresh (state ▸ unused)
  done used := h.done (state ▸ used)
  begun now := by
    obtain ⟨other, used, same⟩ := h.begun now
    exact ⟨other, by rwa [state], same⟩

theorem Slot.setState {main : Main} {i : Fin MAX_PROCS} {p p' : Pcb} {s : Setup}
    (h : Slot main i p s) (freed : p'.state = .unused ↔ p.state = .unused)
    (canary : p'.canary = p.canary) : Slot main i p' s where
  canary known := canary.trans (h.canary known)
  fresh unused := h.fresh (freed.mp unused)
  done used := h.done fun unused => used (freed.mpr unused)
  begun now := by
    obtain ⟨other, used, same⟩ := h.begun now
    exact ⟨other, fun unused => used (freed.mp unused), same⟩

theorem Slot.save {main : Main} {i : Fin MAX_PROCS} {p p' : Pcb} {s : Setup}
    (h : Slot main i p s) (freed : p'.state = .unused ↔ p.state = .unused)
    (canary : p'.canary = p.canary) (loadable : i = 0 ∨ s.Loadable) :
    Slot main i p' { s with saved := true } := by
  have set := h.setState freed canary
  refine ⟨set.canary, fun unused => ?_, fun used other quiet => set.done used other quiet,
    fun now => ?_⟩
  · obtain ⟨other, blank⟩ := set.fresh unused
    rw [blank] at loadable
    rcases loadable with same | loadable
    · exact absurd same other
    · exact absurd loadable (by decide)
  · obtain ⟨other, _, same⟩ := set.begun now
    rw [same] at loadable
    rcases loadable with zero | loadable
    · exact absurd zero other
    · exact absurd loadable main.sofar_not_loadable

theorem settled_plain {k : Boot} (initialised : k.main.Initialised)
    (slots : ∀ i, Slot k.main i (k.table.procs i) (k.setup i)) (current : k.table.current = 0)
    (free : ∀ task i, k.main ≠ .spawnState task i) (outside : ∀ call pt, k.main ≠ .yield call pt) :
    Settled k where
  initialised := initialised
  slots := slots
  free task i here := absurd here (free task i)
  here _ _ := current
  locals call pt here := absurd here (outside call pt)
  window call old next here := absurd here (outside call (.switch old next))

theorem settled_yield {k : Boot} (call : Call) (pt : Point MAX_PROCS)
    (main : k.main = .yield call pt)
    (slots : ∀ i, Slot k.main i (k.table.procs i) (k.setup i)) (plain : ¬pt.IsSwitch)
    (current : k.away = false → k.table.current = 0) (old : pt.OldIs 0)
    (target : ∀ j, pt.target = some j → (k.table.procs j).state ≠ .unused) : Settled k where
  initialised := by
    rw [main]
    trivial
  slots := slots
  free task i here := by
    rw [main] at here
    cases here
  here away _ := current away
  locals call' pt' here := by
    rw [main] at here
    injection here with _ same
    rw [← same]
    exact ⟨old, target⟩
  window call' old' next here := by
    rw [main] at here
    injection here with _ same
    rw [same] at plain
    exact absurd trivial plain

theorem Settled.slots_setState {k : Boot} (h : Settled k) {i : Fin MAX_PROCS} {state : ProcState}
    (used : (k.table.procs i).state ≠ .unused) (used' : state ≠ .unused) (main : Main)
    (j : Fin MAX_PROCS) :
    Slot k.main j ((k.setState i state main).table.procs j)
      ((k.setState i state main).setup j) := by
  obtain ⟨states, canary⟩ := procs_setState k i j state main
  rw [setup_setState]
  refine (h.slots j).setState ?_ canary
  rw [states]
  split
  · rename_i same
    rw [same]
    exact ⟨fun unused => absurd unused used', fun unused => absurd unused used⟩
  · rfl

theorem Settled.slots_goto {k : Boot} (h : Settled k) (quiet : k.main.spawning = none) {main : Main}
    (quiet' : main.spawning = none) (j : Fin MAX_PROCS) :
    Slot main j (k.table.procs j) (k.setup j) :=
  (h.slots j).keep (by simp [quiet]) (by simp [quiet'])

theorem Settled.yieldStatement {k : Boot} (h : Settled k) (here : k.away = false) {call : Call}
    {pt : Point MAX_PROCS} (main : k.main = .yield call pt) (regs : Context) :
    (k.yieldStatement regs call pt).halted = true ∨ (k.yieldStatement regs call pt).lost = true ∨
      Settled (k.yieldStatement regs call pt) := by
  obtain ⟨old, target⟩ := h.locals call pt main
  have quiet : k.main.spawning = none := by
    rw [main]
    rfl
  have slots (pt' : Point MAX_PROCS) (j : Fin MAX_PROCS) :
      Slot (.yield call pt') j (k.table.procs j) (k.setup j) := h.slots_goto quiet rfl j
  have current (plain : ¬pt.IsSwitch) : k.table.current = 0 := by
    refine h.here here fun call' old' next same => ?_
    rw [main] at same
    injection same with _ same
    rw [same] at plain
    exact plain trivial
  have go {pt' : Point MAX_PROCS} (plain : ¬pt.IsSwitch) (plain' : ¬pt'.IsSwitch)
      (old' : pt'.OldIs 0) (target' : ∀ j, pt'.target = some j →
        pt.target = some j ∨ (k.table.procs j).state = .ready) :
      Settled (k.goto (.yield call pt')) := by
    refine settled_yield _ _ rfl (slots pt') plain' (fun _ => current plain) old' fun j aims => ?_
    rcases target' j aims with before | ready
    · exact target j before
    · change (k.table.procs j).state ≠ .unused
      rw [ready]
      simp
  have set {i : Fin MAX_PROCS} {state : ProcState} {pt' : Point MAX_PROCS}
      (used : (k.table.procs i).state ≠ .unused) (used' : state ≠ .unused) (plain : ¬pt.IsSwitch)
      (plain' : ¬pt'.IsSwitch) (old' : pt'.OldIs 0)
      (target' : ∀ j, pt'.target = some j → pt.target = some j) :
      Settled (k.setState i state (.yield call pt')) := by
    refine settled_yield _ _ rfl (fun j => ?_) plain' (fun _ => current plain) old' fun j aims => ?_
    · refine (h.slots_setState used used' (.yield call pt') j).keep ?_ ?_
      · rw [quiet]
        simp
      · simp [setState, store, Main.spawning]
    · rw [(procs_setState k i j state _).1]
      split
      · exact used'
      · exact target j (target' j aims)
  have zero : (k.table.procs 0).state ≠ .unused := fun unused => ((h.slots 0).fresh unused).1 rfl
  unfold Boot.yieldStatement
  cases pt with
  | start =>
    refine Or.inr (Or.inr (go id id ?_ (by simp [Point.target])))
    exact current id
  | check old' =>
    simp only
    split
    · exact Or.inr (Or.inr (go id id old (by simp [Point.target])))
    · exact Or.inl rfl
  | scan old' i =>
    simp only
    split
    · split
      · rename_i ready
        refine Or.inr (Or.inr (go id id old fun j aims => Or.inr ?_))
        rw [← Option.some.inj aims]
        exact ready
      · exact Or.inr (Or.inr (go id id old (by simp [Point.target])))
    · exact Or.inr (Or.inr (go id id trivial (by simp [Point.target])))
  | test old' next =>
    simp only
    split
    · exact Or.inr (Or.inr (go id id old fun _ => Or.inl))
    · exact Or.inr (Or.inr (go id id old fun _ => Or.inl))
  | demote old' next =>
    have own : old' = 0 := old
    refine Or.inr (Or.inr (set ?_ (by simp) id id old fun _ => id))
    rw [own]
    exact zero
  | promote old' next =>
    exact Or.inr (Or.inr (set (target next rfl) (by simp) id id old fun _ => id))
  | publish old' next =>
    refine Or.inr (Or.inr ⟨trivial, slots _, ?_, ?_, ?_, ?_⟩)
    · intro task i same
      cases same
    · intro _ plain
      exact absurd rfl (plain call old' next)
    · intro call' pt' same
      injection same with _ same
      rw [← same]
      exact ⟨old, target⟩
    · intro call' old'' next' same
      injection same with _ same
      injection same with _ same
      refine ⟨fun _ => same, fun away => ?_⟩
      have none : k.away = true := away
      rw [here] at none
      cases none
  | switch old' next =>
    have own : old' = 0 := old
    subst own
    by_cases loads :
        (if next = 0 then { k.setup next with saved := true } else k.setup next).Loadable
    · refine Or.inr (Or.inr (settled_yield call .ret rfl (fun j => ?_) id ?_ trivial
        (by simp [Point.target])))
      · obtain ⟨states, _, canary⟩ := Table.saveCtx_rest k.table 0 j regs
        change Slot (.yield call .ret) j ((k.table.saveCtx 0 regs).procs j)
          (if j = 0 then { k.setup j with saved := true } else k.setup j)
        split
        · rename_i same
          exact (slots .ret j).save (by rw [states]) canary (Or.inl same)
        · exact (slots .ret j).congr states canary
      · intro away
        cases away
    · refine Or.inr (Or.inl ?_)
      exact decide_eq_true (Or.inr loads)
  | ret =>
    refine Or.inr (Or.inr ?_)
    cases call with
    | first =>
      exact settled_yield .second .start rfl (h.slots_goto quiet rfl) id
        (fun _ => current id) trivial (by simp [Point.target])
    | second =>
      exact settled_plain trivial (h.slots_goto quiet rfl) (current id)
        (by simp [goto, Main.afterYield])
        (by simp [goto, Main.afterYield])
  | exitCheck => exact Or.inr (Or.inr h)
  | exitMark => exact Or.inr (Or.inr h)
  | exitScan i => exact Or.inr (Or.inr h)
  | exitTest i next => exact Or.inr (Or.inr h)
  | exitOld next => exact Or.inr (Or.inr h)

theorem Settled.slots_store {k : Boot} (h : Settled k) {i : Fin MAX_PROCS} (f : Pcb → Pcb)
    (mark : Setup → Setup) {main : Main}
    (before : ∀ j, j ≠ i → k.main.spawning ≠ some j) (after : ∀ j, j ≠ i → main.spawning ≠ some j)
    (slot : Slot main i (f (k.table.procs i)) (mark (k.setup i))) (j : Fin MAX_PROCS) :
    Slot main j ((k.store i f mark main).table.procs j) ((k.store i f mark main).setup j) := by
  change Slot main j (if j = i then f (k.table.procs j) else k.table.procs j)
    (if j = i then mark (k.setup j) else k.setup j)
  by_cases same : j = i
  · rw [if_pos same, if_pos same, same]
    exact slot
  · rw [if_neg same, if_neg same]
    exact (h.slots j).keep (before j same) (after j same)

theorem Settled.slots_spawn {k : Boot} (h : Settled k) {i : Fin MAX_PROCS} (main : Main)
    (f : Pcb → Pcb) (mark : Setup → Setup) (now : k.main.spawning = some i)
    (next : main.spawning = some i) (state : (f (k.table.procs i)).state = (k.table.procs i).state)
    (canary : (mark (k.setup i)).canary = true ∨ i = 0 →
      (f (k.table.procs i)).canary = STACK_CANARY)
    (sofar : mark k.main.sofar = main.sofar) (j : Fin MAX_PROCS) :
    Slot main j ((k.store i f mark main).table.procs j) ((k.store i f mark main).setup j) := by
  obtain ⟨other, used, same⟩ := (h.slots i).begun now
  refine h.slots_store f mark ?_ ?_ ⟨canary, ?_, fun _ _ quiet => absurd next quiet, ?_⟩ j
  · intro j apart here
    rw [now] at here
    exact apart (Option.some.inj here).symm
  · intro j apart here
    rw [next] at here
    exact apart (Option.some.inj here).symm
  · rw [state]
    exact fun unused => absurd unused used
  · intro _
    rw [state, same, sofar]
    exact ⟨other, used, rfl⟩

variable {L : Layout MAX_PROCS} {entry : Call → BitVec 32}

theorem Settled.spawn {k : Boot} (h : Settled k) {i : Fin MAX_PROCS} (main : Main)
    (f : Pcb → Pcb) (mark : Setup → Setup) (now : k.main.spawning = some i)
    (next : main.spawning = some i) (state : (f (k.table.procs i)).state = (k.table.procs i).state)
    (canary : (mark (k.setup i)).canary = true ∨ i = 0 →
      (f (k.table.procs i)).canary = STACK_CANARY)
    (sofar : mark k.main.sofar = main.sofar) (current : k.table.current = 0) :
    Settled (k.store i f mark main) := by
  have slots := h.slots_spawn main f mark now next state canary sofar
  cases main with
  | spawnPid | spawnEntry | spawnCanary | spawnRa | spawnSp =>
    exact settled_plain trivial slots current (by simp [store]) (by simp [store])
  | _ => cases next

theorem settled_afterSpawn {k : Boot} (h : Settled k) (quiet : k.main.spawning = none)
    (current : k.table.current = 0) (task : Call) : Settled (k.goto (Main.afterSpawn task)) := by
  cases task with
  | first =>
    exact settled_plain trivial (h.slots_goto quiet rfl) current (by simp [goto, Main.afterSpawn])
      (by simp [goto, Main.afterSpawn])
  | second =>
    exact settled_yield .first .start rfl (h.slots_goto quiet rfl) id
      (fun _ => current) trivial (by simp [Point.target])

variable (L entry) in
theorem Settled.statement {k : Boot} (h : Settled k) (here : k.away = false) (regs : Context) :
    (k.statement L entry regs).halted = true ∨ (k.statement L entry regs).lost = true ∨
      Settled (k.statement L entry regs) := by
  have current (outside : ∀ call pt, k.main ≠ .yield call pt) : k.table.current = 0 :=
    h.here here fun call old next => outside call _
  unfold Boot.statement
  cases main : k.main with
  | yield call pt => exact h.yieldStatement here main regs
  | pipeRead => exact absurd h.initialised (by rw [main]; exact id)
  | pipeWrite => exact absurd h.initialised (by rw [main]; exact id)
  | pipeCount => exact absurd h.initialised (by rw [main]; exact id)
  | initLoop i => exact absurd h.initialised (by rw [main]; exact id)
  | initState => exact absurd h.initialised (by rw [main]; exact id)
  | initPid => exact absurd h.initialised (by rw [main]; exact id)
  | initCanary => exact absurd h.initialised (by rw [main]; exact id)
  | spawnLoop task i =>
    have current := current (by simp [main])
    have quiet : k.main.spawning = none := by
      rw [main]
      rfl
    refine Or.inr (Or.inr ?_)
    simp only
    split
    · split
      · exact settled_plain trivial (h.slots_goto quiet rfl) current
          (by simp [goto]) (by simp [goto])
      · rename_i bound free
        refine ⟨trivial, h.slots_goto quiet rfl, ?_, fun _ _ => current, ?_, ?_⟩
        · intro task' j same
          injection same with _ same
          rw [← same]
          exact not_not.mp free
        · intro call pt same
          cases same
        · intro call old next same
          cases same
    · exact settled_afterSpawn h quiet current task
  | spawnState task i =>
    have unused := h.free task i main
    obtain ⟨other, blank⟩ := (h.slots i).fresh unused
    refine Or.inr (Or.inr (settled_plain trivial (h.slots_store _ _ ?_ ?_ ?_)
      (current (by simp [main])) (by simp [setState, store]) (by simp [setState, store])))
    · simp [main, Main.spawning]
    · intro j apart same
      exact apart (Option.some.inj same).symm
    · refine ⟨?_, by simp, ?_, ?_⟩
      · rintro (known | zero)
        · simp [blank, Setup.blank] at known
        · exact absurd zero other
      · intro _ _ quiet
        exact absurd rfl quiet
      · intro _
        exact ⟨other, by simp, blank⟩
  | spawnPid task i =>
    have stored := h.spawn (i := i) (.spawnEntry task i)
      (fun p => { p with pid := k.table.nextPid }) id (by rw [main]; rfl) rfl rfl
      (h.slots i).canary (by rw [main]; rfl) (current (by simp [main]))
    exact Or.inr (Or.inr ⟨stored.initialised, stored.slots, stored.free, stored.here,
      stored.locals, stored.window⟩)
  | spawnEntry task i =>
    exact Or.inr (Or.inr (h.spawn (.spawnCanary task i) (fun p => { p with entry := entry task })
      (fun s => { s with entry := true }) (by rw [main]; rfl) rfl rfl (h.slots i).canary
      (by rw [main]; rfl) (current (by simp [main]))))
  | spawnCanary task i =>
    exact Or.inr (Or.inr (h.spawn (.spawnRa task i) (fun p => { p with canary := STACK_CANARY })
      (fun s => { s with canary := true }) (by rw [main]; rfl) rfl rfl (fun _ => rfl)
      (by rw [main]; rfl) (current (by simp [main]))))
  | spawnRa task i =>
    exact Or.inr (Or.inr (h.spawn (.spawnSp task i)
      (fun p => { p with ctx := { p.ctx with ra := L.procTrampoline } })
      (fun s => { s with ra := true }) (by rw [main]; rfl) rfl rfl (h.slots i).canary
      (by rw [main]; rfl) (current (by simp [main]))))
  | spawnSp task i =>
    obtain ⟨other, used, same⟩ := (h.slots i).begun (by rw [main]; rfl)
    rw [main] at same
    have slot : Slot (.spawnRet task i) i (k.table.procs i) { k.setup i with sp := true } := by
      refine ⟨(h.slots i).canary, fun unused => absurd unused used, fun _ _ _ => ?_, fun now => ?_⟩
      swap
      · cases now
      rw [same]
      exact ⟨rfl, rfl, rfl, rfl⟩
    refine Or.inr (Or.inr (settled_plain trivial (h.slots_store _ _ ?_ ?_ (slot.congr rfl rfl))
      (current (by simp [main])) (by simp [store]) (by simp [store])))
    · intro j apart now
      rw [main] at now
      exact apart (Option.some.inj now).symm
    · intro j _ now
      cases now
  | spawnRet task i =>
    exact Or.inr (Or.inr (settled_afterSpawn h (by rw [main]; rfl) (current (by simp [main])) task))
  | puts =>
    exact Or.inr (Or.inr (settled_plain trivial (h.slots_goto (by rw [main]; rfl) rfl)
      (current (by simp [main])) (by simp [goto]) (by simp [goto])))
  | exit => exact Or.inl rfl

theorem Settled.canary_current {k : Boot} (h : Settled k) (here : k.away = false) :
    (k.table.procs k.table.current).canary = STACK_CANARY := by
  by_cases window : ∃ call old next, k.main = .yield call (.switch old next)
  · obtain ⟨call, old, next, main⟩ := window
    rw [((h.window call old next main).1 here)]
    have used := (h.locals call _ main).2 next rfl
    by_cases zero : next = 0
    · exact (h.slots next).canary (Or.inr zero)
    · refine (h.slots next).canary (Or.inl ((h.slots next).done used zero ?_).2.1)
      rw [main]
      simp [Main.spawning]
  · have current : k.table.current = 0 := by
      refine h.here here fun call old next main => window ⟨call, old, next, main⟩
    rw [current]
    exact (h.slots 0).canary (Or.inr rfl)

theorem Settled.timer {k : Boot} (h : Settled k) (here : k.away = false) (regs : Context) :
    (k.timer regs).halted = true ∨ (k.timer regs).lost = true ∨ Settled (k.timer regs) := by
  unfold Boot.timer
  rcases k.table.schedYield_cases regs with ⟨_, value⟩ | ⟨_, ⟨_, value⟩ | ⟨next, t, _, value, spec⟩⟩
  · rw [value]
    exact Or.inl rfl
  · rw [value]
    exact Or.inr (Or.inr h)
  rw [value]
  simp only [switch]
  by_cases found : k.table.current ≠ 0 ∨ ¬(if next = k.table.current then
      { k.setup next with saved := true } else k.setup next).Loadable
  · exact Or.inr (Or.inl (decide_eq_true found))
  simp only [not_or, not_not] at found
  have freed := spec.unused_iff
  refine Or.inr (Or.inr ⟨h.initialised, fun j => ?_, fun task i main => ?_, by simp,
    fun call pt main => ?_, fun call old next' main => ⟨by simp, fun _ => ?_⟩⟩)
  · change Slot k.main j (t.procs j)
      (if j = k.table.current then { k.setup j with saved := true } else k.setup j)
    split
    · rename_i same
      exact (h.slots j).save (freed j) (spec.canaries j) (Or.inl (same.trans found.1))
    · exact (h.slots j).setState (freed j) (spec.canaries j)
  · exact (freed i).mpr (h.free task i main)
  · obtain ⟨old, target⟩ := h.locals call pt main
    exact ⟨old, fun j aims unused => target j aims ((freed j).mp unused)⟩
  · rw [← (h.window call old next' main).1 here]
    exact found.1

theorem Settled.others {k k' : Boot} (h : Settled k) (away : k.away = true) {e : BootEvent}
    (next : k.step L entry e = some k') : Settled k' := by
  unfold Boot.step at next
  split at next
  · cases next
  rw [away] at next
  cases e with
  | statement regs => cases next
  | timer regs => cases next
  | setState i state =>
    simp only at next
    split at next
    · rename_i used
      rw [← Option.some.inj next]
      have states (j : Fin MAX_PROCS) :
          ((k.setState i state k.main).table.procs j).state = .unused →
          (k.table.procs j).state = .unused := by
        rw [(procs_setState k i j state _).1]
        split
        · exact fun unused => absurd unused used.2
        · exact id
      refine ⟨h.initialised, h.slots_setState used.1 used.2 k.main, fun task j main => ?_, ?_,
        fun call pt main => ?_, ?_⟩
      · have unused := h.free task j main
        rw [(procs_setState k i j state _).1]
        split
        · rename_i same
          rw [same] at unused
          exact absurd unused used.1
        · exact unused
      · intro here
        have none : k.away = false := here
        rw [away] at none
        cases none
      · obtain ⟨old, target⟩ := h.locals call pt main
        exact ⟨old, fun j aims unused => target j aims (states j unused)⟩
      · exact h.window
    · cases next
  | setCurrent i =>
    rw [← Option.some.inj next]
    exact ⟨h.initialised, h.slots, h.free, by simp, h.locals, fun call old next main =>
      ⟨by simp, fun _ => (h.window call old next main).2 away⟩⟩
  | saveCtx i regs =>
    simp only at next
    split at next
    · rename_i loadable
      rw [← Option.some.inj next]
      have same (j : Fin MAX_PROCS) := Table.saveCtx_rest k.table i j regs
      have freed (j : Fin MAX_PROCS) : ((k.table.saveCtx i regs).procs j).state = .unused ↔
          (k.table.procs j).state = .unused := by rw [(same j).1]
      refine ⟨h.initialised, fun j => ?_, fun task j main => (freed j).mpr (h.free task j main),
        by simp, fun call pt main => ?_, fun call old next main =>
          ⟨by simp, fun _ => (h.window call old next main).2 away⟩⟩
      · change Slot k.main j ((k.table.saveCtx i regs).procs j)
          (if j = i then { k.setup j with saved := true } else k.setup j)
        split
        · rename_i here
          exact (h.slots j).save (freed j) (same j).2.2 (Or.inr (here ▸ loadable))
        · exact (h.slots j).setState (freed j) (same j).2.2
      · obtain ⟨old, target⟩ := h.locals call pt main
        exact ⟨old, fun j aims unused => target j aims ((freed j).mp unused)⟩
    · cases next
  | resume =>
    simp only at next
    split at next
    · rename_i current
      rw [← Option.some.inj next]
      refine ⟨h.initialised, h.slots, h.free, fun _ _ => current, h.locals,
        fun call old next main => ⟨fun _ => ?_, by simp⟩⟩
      rw [(h.window call old next main).2 away]
      exact current
    · cases next

end Boot

def Call.slot : Call → Nat
  | .first => 1
  | .second => 2

namespace Main

def states : Main → ProcState × ProcState
  | spawnLoop .first _ => (.unused, .unused)
  | spawnState .first _ => (.unused, .unused)
  | spawnLoop .second _ => (.ready, .unused)
  | spawnState .second _ => (.ready, .unused)
  | spawnPid .first _ => (.ready, .unused)
  | spawnEntry .first _ => (.ready, .unused)
  | spawnCanary .first _ => (.ready, .unused)
  | spawnRa .first _ => (.ready, .unused)
  | spawnSp .first _ => (.ready, .unused)
  | spawnRet .first _ => (.ready, .unused)
  | yield _ (.publish _ _) => (.running, .ready)
  | yield _ (.switch _ _) => (.running, .ready)
  | _ => (.ready, .ready)

def Straight : Main → Prop
  | spawnLoop task i => i ≤ task.slot
  | spawnState task i => i.val = task.slot
  | spawnPid task i => i.val = task.slot
  | spawnEntry task i => i.val = task.slot
  | spawnCanary task i => i.val = task.slot
  | spawnRa task i => i.val = task.slot
  | spawnSp task i => i.val = task.slot
  | spawnRet task i => i.val = task.slot
  | yield .first .start => True
  | yield .first (.check _) => True
  | yield .first (.scan _ i) => i = 1
  | yield .first (.test _ next) => next = 1
  | yield .first (.demote _ next) => next = 1
  | yield .first (.promote _ next) => next = 1
  | yield .first (.publish _ next) => next = 1
  | yield .first (.switch _ next) => next = 1
  | _ => False

end Main

namespace Boot
variable {L : Layout MAX_PROCS} {entry : Call → BitVec 32}

structure Alone (k : Boot) : Prop where
  here : k.away = false
  straight : k.main.Straight
  states : ((k.table.procs 1).state, (k.table.procs 2).state) = k.main.states

theorem Alone.yieldStatement {k : Boot} (h : Alone k) (settled : Settled k) {call : Call}
    {pt : Point MAX_PROCS} (main : k.main = .yield call pt) (regs : Context) :
    (k.yieldStatement regs call pt).halted = true ∨
      ((k.yieldStatement regs call pt).setup 0).saved = true ∨
      Alone (k.yieldStatement regs call pt) := by
  obtain ⟨old, _⟩ := settled.locals call pt main
  have straight := h.straight
  have states := h.states
  rw [main] at straight states
  cases call with
  | second => cases pt with
    | _ => exact absurd straight id
  | first =>
    have go {pt' : Point MAX_PROCS} (straight' : (Main.yield .first pt').Straight)
        (same : (Main.yield .first pt').states = (Main.yield .first pt).states) :
        Alone (k.goto (.yield .first pt')) := ⟨h.here, straight', states.trans same.symm⟩
    unfold Boot.yieldStatement
    cases pt with
    | start => exact Or.inr (Or.inr (go trivial rfl))
    | check old' =>
      simp only
      split
      · exact Or.inr (Or.inr (go rfl rfl))
      · exact Or.inl rfl
    | scan old' i =>
      have own : old' = 0 := old
      have one : i = 1 := straight
      subst own one
      have ready : (k.table.procs (Machine.slot (0 : Fin MAX_PROCS) 1)).state = .ready :=
        congrArg Prod.fst states
      simp only [show (1 : Nat) ≤ MAX_PROCS by decide, if_true, ready]
      exact Or.inr (Or.inr (go rfl rfl))
    | test old' next =>
      simp only
      split
      · exact Or.inr (Or.inr (go straight rfl))
      · exact Or.inr (Or.inr (go straight rfl))
    | demote old' next =>
      have own : old' = 0 := old
      subst own
      refine Or.inr (Or.inr ⟨h.here, straight, ?_⟩)
      rw [(procs_setState k _ _ _ _).1, (procs_setState k _ _ _ _).1]
      exact states
    | promote old' next =>
      have one : next = 1 := straight
      subst one
      refine Or.inr (Or.inr ⟨h.here, rfl, ?_⟩)
      rw [(procs_setState k _ _ _ _).1, (procs_setState k _ _ _ _).1]
      have second : (k.table.procs 2).state = .ready := congrArg Prod.snd states
      rw [if_pos rfl, if_neg (by decide), second]
      rfl
    | publish old' next => exact Or.inr (Or.inr ⟨h.here, straight, states⟩)
    | switch old' next =>
      have own : old' = 0 := old
      subst own
      exact Or.inr (Or.inl rfl)
    | _ => exact absurd straight id

theorem state_store (k : Boot) (i j : Fin MAX_PROCS) {f : Pcb → Pcb}
    (keeps : ∀ p, (f p).state = p.state) (mark : Setup → Setup) (main : Main) :
    ((k.store i f mark main).table.procs j).state = (k.table.procs j).state := by
  change (if j = i then f (k.table.procs j) else k.table.procs j).state = _
  split
  · exact keeps _
  · rfl

theorem Alone.store {k : Boot} (h : Alone k) (i : Fin MAX_PROCS) {f : Pcb → Pcb}
    (keeps : ∀ p, (f p).state = p.state) (mark : Setup → Setup) {main : Main}
    (straight : main.Straight) (states : main.states = k.main.states) :
    Alone (k.store i f mark main) where
  here := h.here
  straight := straight
  states := by
    rw [state_store k i 1 keeps, state_store k i 2 keeps, h.states]
    exact states.symm

theorem Alone.spawnLoop {k : Boot} (h : Alone k) (settled : Settled k) {task : Call} {i : Nat}
    (main : k.main = .spawnLoop task i) (regs : Context) :
    Alone (k.statement L entry regs) := by
  have straight := h.straight
  have states := h.states
  have zero : (k.table.procs 0).state ≠ .unused :=
    fun unused => ((settled.slots 0).fresh unused).1 rfl
  rw [main] at straight states
  have skip {j : Nat} (bound : j < MAX_PROCS) (at_j : k.main = .spawnLoop task j)
      (used : (k.table.procs ⟨j, bound⟩).state ≠ .unused) (next : j + 1 ≤ task.slot) :
      Alone (k.statement L entry regs) := by
    unfold Boot.statement
    rw [at_j]
    simp only [dif_pos bound, if_pos used]
    refine ⟨h.here, next, states.trans ?_⟩
    cases task with
    | _ => rfl
  have take {j : Nat} (bound : j < MAX_PROCS) (at_j : k.main = .spawnLoop task j)
      (unused : (k.table.procs ⟨j, bound⟩).state = .unused) (here : j = task.slot) :
      Alone (k.statement L entry regs) := by
    unfold Boot.statement
    rw [at_j]
    simp only [dif_pos bound, unused, ne_eq, not_true_eq_false, if_false]
    refine ⟨h.here, here, states.trans ?_⟩
    cases task with
    | _ => rfl
  cases task with
  | first =>
    have bound : i ≤ 1 := straight
    obtain rfl | rfl : i = 0 ∨ i = 1 := by omega
    · exact skip (by decide) main zero (by decide)
    · exact take (by decide) main (congrArg Prod.fst states) rfl
  | second =>
    have bound : i ≤ 2 := straight
    obtain rfl | rfl | rfl : i = 0 ∨ i = 1 ∨ i = 2 := by omega
    · exact skip (by decide) main zero (by decide)
    · have ready : (k.table.procs 1).state = .ready := congrArg Prod.fst states
      refine skip (by decide) main ?_ (by decide)
      change (k.table.procs 1).state ≠ .unused
      rw [ready]
      simp
    · exact take (by decide) main (congrArg Prod.snd states) rfl

theorem Alone.spawnState {k : Boot} (h : Alone k) {task : Call} {i : Fin MAX_PROCS}
    (main : k.main = .spawnState task i) : Alone (k.setState i .ready (.spawnPid task i)) := by
  have straight := h.straight
  have states := h.states
  rw [main] at straight states
  refine ⟨h.here, straight, ?_⟩
  rw [(procs_setState k _ _ _ _).1, (procs_setState k _ _ _ _).1]
  cases task with
  | first =>
    obtain rfl : i = 1 := Fin.ext straight
    rw [if_pos rfl, if_neg (by decide)]
    have other : (k.table.procs 2).state = .unused := congrArg Prod.snd states
    rw [other]
    rfl
  | second =>
    obtain rfl : i = 2 := Fin.ext straight
    rw [if_pos rfl, if_neg (by decide)]
    have other : (k.table.procs 1).state = .ready := congrArg Prod.fst states
    rw [other]
    rfl

variable (L entry) in
theorem Alone.statement {k : Boot} (h : Alone k) (settled : Settled k) (regs : Context) :
    (k.statement L entry regs).halted = true ∨
      ((k.statement L entry regs).setup 0).saved = true ∨ Alone (k.statement L entry regs) := by
  have straight := h.straight
  have states := h.states
  cases main : k.main with
  | spawnLoop task i => exact Or.inr (Or.inr (h.spawnLoop settled main regs))
  | yield call pt =>
    unfold Boot.statement
    rw [main]
    exact h.yieldStatement settled main regs
  | spawnState task i =>
    unfold Boot.statement
    rw [main]
    exact Or.inr (Or.inr (h.spawnState main))
  | spawnPid task i =>
    rw [main] at straight
    have stored : Alone (k.store i (fun p => { p with pid := k.table.nextPid }) id
        (.spawnEntry task i)) := by
      refine h.store i ?_ id ?_ ?_
      · intro p
        rfl
      · exact straight
      · rw [main]
        cases task with
        | _ => rfl
    simp only [Boot.statement, main]
    exact Or.inr (Or.inr ⟨stored.here, stored.straight, stored.states⟩)
  | spawnEntry task i | spawnCanary task i | spawnRa task i | spawnSp task i =>
    rw [main] at straight
    simp only [Boot.statement, main]
    refine Or.inr (Or.inr (h.store i ?_ _ ?_ ?_))
    · intro p
      rfl
    · exact straight
    · rw [main]
      cases task with
      | _ => rfl
  | spawnRet task i =>
    rw [main] at states
    unfold Boot.statement
    rw [main]
    cases task with
    | first => exact Or.inr (Or.inr ⟨h.here, Nat.zero_le _, states⟩)
    | second => exact Or.inr (Or.inr ⟨h.here, trivial, states⟩)
  | _ => exact absurd straight (by rw [main]; exact id)

theorem Booting.statement {k : Boot} (h : Booting k) (regs : Context) :
    Booting (k.statement L entry regs) ∨
      Settled (k.statement L entry regs) ∧ Alone (k.statement L entry regs) := by
  have go {main : Main} (early : ¬main.Initialised)
      (running : main = .initPid ∨ main = .initCanary → (k.table.procs 0).state = .running) :
      Booting (k.goto main) :=
    ⟨early, h.here, h.current, h.canary, h.unused, h.blank, running⟩
  unfold Boot.statement
  cases main : k.main with
  | pipeRead => exact Or.inl (go id (by simp))
  | pipeWrite => exact Or.inl (go id (by simp))
  | pipeCount => exact Or.inl (go id (by simp))
  | initLoop i =>
    simp only
    split
    · rename_i bound
      refine Or.inl ⟨id, h.here, h.current, ?_, fun j other => ?_, ?_, by simp [setState, store]⟩
      · rw [(procs_setState k _ _ _ _).2]
        exact h.canary
      · rw [(procs_setState k _ _ _ _).1]
        split
        · rfl
        · exact h.unused j other
      · rw [setup_setState]
        exact h.blank
    · exact Or.inl (go id (by simp))
  | initState =>
    refine Or.inl ⟨id, h.here, h.current, ?_, fun j other => ?_, ?_, fun _ => ?_⟩
    · rw [(procs_setState k _ _ _ _).2]
      exact h.canary
    · rw [(procs_setState k _ _ _ _).1, if_neg other]
      exact h.unused j other
    · rw [setup_setState]
      exact h.blank
    · rw [(procs_setState k _ _ _ _).1, if_pos rfl]
  | initPid =>
    refine Or.inl ⟨id, h.here, h.current, h.canary, fun j other => ?_, fun j => ?_, fun _ => ?_⟩
    · change (if j = 0 then _ else k.table.procs j).state = _
      rw [if_neg other]
      exact h.unused j other
    · change (if j = 0 then id (k.setup j) else k.setup j) = _
      rw [id, ite_self]
      exact h.blank j
    · exact h.running (Or.inl main)
  | initCanary =>
    have running := h.running (Or.inr main)
    have states : ((k.table.procs 1).state, (k.table.procs 2).state) = (.unused, .unused) := by
      rw [h.unused 1 (by decide), h.unused 2 (by decide)]
    refine Or.inr ⟨settled_plain trivial (fun j => ?_) h.current (by simp [store])
      (by simp [store]), h.here, Nat.zero_le _, states⟩
    change Slot (.spawnLoop .first 0) j
      (if j = 0 then { k.table.procs j with canary := STACK_CANARY } else k.table.procs j)
      (if j = 0 then { k.setup j with canary := true } else k.setup j)
    by_cases zero : j = 0
    · rw [if_pos zero, if_pos zero, zero]
      refine ⟨fun _ => rfl, ?_, fun _ other => absurd rfl other, fun now => ?_⟩
      · simp [running]
      · cases now
    · rw [if_neg zero, if_neg zero, h.blank j]
      refine ⟨?_, fun _ => ⟨zero, rfl⟩, fun used => absurd (h.unused j zero) used, fun now => ?_⟩
      · rintro (known | same)
        · cases known
        · exact absurd same zero
      · cases now
  | _ => exact absurd (by rw [main]; trivial) h.early

def Kept (k : Boot) : Prop :=
  k.halted = true ∨ k.lost = true ∨ Booting k ∨
    Settled k ∧ ((k.setup 0).saved = true ∨ Alone k)

theorem kept_start : Kept start := by
  refine Or.inr (Or.inr (Or.inl ⟨id, rfl, rfl, ?_, fun _ _ => rfl, fun _ => rfl, by simp [start]⟩))
  decide

theorem saved_store {k : Boot} (saved : (k.setup 0).saved = true) (i : Fin MAX_PROCS)
    (f : Pcb → Pcb) {mark : Setup → Setup} (keeps : ∀ s, (mark s).saved = s.saved) (main : Main) :
    ((k.store i f mark main).setup 0).saved = true := by
  change (if 0 = i then mark (k.setup 0) else k.setup 0).saved = true
  split
  · rw [keeps, saved]
  · exact saved

theorem saved_yieldStatement {k : Boot} (saved : (k.setup 0).saved = true) (regs : Context)
    (call : Call) (pt : Point MAX_PROCS) :
    ((k.yieldStatement regs call pt).setup 0).saved = true := by
  unfold Boot.yieldStatement
  cases pt with
  | check old =>
    simp only
    split
    · exact saved
    · exact saved
  | scan old i =>
    simp only
    split
    · split
      · exact saved
      · exact saved
    · exact saved
  | test old next =>
    simp only
    split
    · exact saved
    · exact saved
  | demote old next => exact saved_store saved _ _ (fun _ => rfl) _
  | promote old next => exact saved_store saved _ _ (fun _ => rfl) _
  | switch old next =>
    change (if 0 = old then { k.setup 0 with saved := true } else k.setup 0).saved = true
    split
    · rfl
    · exact saved
  | _ => exact saved

theorem saved_statement {k : Boot} (saved : (k.setup 0).saved = true) (regs : Context) :
    ((k.statement L entry regs).setup 0).saved = true := by
  unfold Boot.statement
  cases main : k.main with
  | initLoop i =>
    simp only
    split
    · exact saved_store saved _ _ (fun _ => rfl) _
    · exact saved
  | spawnLoop task i =>
    simp only
    split
    · split
      · exact saved
      · exact saved
    · exact saved
  | initState | initPid | initCanary | spawnState | spawnEntry | spawnCanary | spawnRa | spawnSp =>
    refine saved_store saved _ _ ?_ _
    exact fun _ => rfl
  | spawnPid task i =>
    exact saved_store saved i (fun p => { p with pid := k.table.nextPid }) (fun _ => rfl)
      (.spawnEntry task i)
  | yield call pt => exact saved_yieldStatement saved regs call pt
  | _ => exact saved

theorem Settled.timer_marks {k : Boot} (h : (k.setup 0).saved = true ∨ Alone k) (regs : Context) :
    (k.timer regs).halted = true ∨ (k.timer regs).lost = true ∨
      ((k.timer regs).setup 0).saved = true ∨ Alone (k.timer regs) := by
  unfold Boot.timer
  rcases k.table.schedYield_cases regs with ⟨_, value⟩ | ⟨_, ⟨_, value⟩ | ⟨next, t, _, value, _⟩⟩
  · rw [value]
    exact Or.inl rfl
  · rw [value]
    exact Or.inr (Or.inr h)
  rw [value]
  simp only [switch]
  by_cases foreign : k.table.current = 0
  · refine Or.inr (Or.inr (Or.inl ?_))
    rw [if_pos foreign.symm]
  · exact Or.inr (Or.inl (decide_eq_true (Or.inl foreign)))

theorem saved_others {k k' : Boot} (saved : (k.setup 0).saved = true) (away : k.away = true)
    {e : BootEvent} (next : k.step L entry e = some k') : (k'.setup 0).saved = true := by
  unfold Boot.step at next
  split at next
  · cases next
  rw [away] at next
  cases e with
  | statement regs => cases next
  | timer regs => cases next
  | setState i state =>
    simp only at next
    split at next
    · rw [← Option.some.inj next, setup_setState]
      exact saved
    · cases next
  | setCurrent i =>
    rw [← Option.some.inj next]
    exact saved
  | saveCtx i regs =>
    simp only at next
    split at next
    · rw [← Option.some.inj next]
      change (if 0 = i then { k.setup 0 with saved := true } else k.setup 0).saved = true
      split
      · rfl
      · exact saved
    · cases next
  | resume =>
    simp only at next
    split at next
    · rw [← Option.some.inj next]
      exact saved
    · cases next

theorem step_here {k k' : Boot} (here : k.away = false) {e : BootEvent}
    (next : k.step L entry e = some k') :
    ∃ regs, k' = k.statement L entry regs ∨ k' = k.timer regs := by
  unfold Boot.step at next
  split at next
  · cases next
  rw [here] at next
  cases e with
  | statement regs => exact ⟨regs, Or.inl (Option.some.inj next).symm⟩
  | timer regs => exact ⟨regs, Or.inr (Option.some.inj next).symm⟩
  | _ => cases next

theorem Kept.step {k k' : Boot} (h : Kept k) {e : BootEvent}
    (next : k.step L entry e = some k') : Kept k' := by
  have alive : ¬(k.halted = true ∨ k.lost = true) := by
    intro stopped
    unfold Boot.step at next
    rw [if_pos stopped] at next
    cases next
  rcases h with halted | lost | booting | ⟨settled, marks⟩
  · exact absurd (Or.inl halted) alive
  · exact absurd (Or.inr lost) alive
  · obtain ⟨regs, rfl | rfl⟩ := step_here booting.here next
    · exact Or.inr (Or.inr ((booting.statement regs).imp_right fun both => ⟨both.1, Or.inr both.2⟩))
    · refine Or.inl ?_
      unfold Boot.timer
      rcases k.table.schedYield_cases regs with ⟨_, value⟩ | ⟨intact, _⟩
      · rw [value]
      · rw [booting.current] at intact
        exact absurd intact booting.canary
  · cases away : k.away with
    | true =>
      have saved : (k.setup 0).saved = true := by
        rcases marks with saved | alone
        · exact saved
        · rw [alone.here] at away
          cases away
      exact Or.inr (Or.inr (Or.inr
        ⟨settled.others away next, Or.inl (saved_others saved away next)⟩))
    | false =>
      obtain ⟨regs, rfl | rfl⟩ := step_here away next
      · rcases settled.statement L entry away regs with halted | lost | settled'
        · exact Or.inl halted
        · exact Or.inr (Or.inl lost)
        rcases marks with saved | alone
        · exact Or.inr (Or.inr (Or.inr ⟨settled', Or.inl (saved_statement saved regs)⟩))
        · rcases alone.statement L entry settled regs with halted | marks'
          · exact Or.inl halted
          · exact Or.inr (Or.inr (Or.inr ⟨settled', marks'⟩))
      · rcases settled.timer away regs with halted | lost | settled'
        · exact Or.inl halted
        · exact Or.inr (Or.inl lost)
        rcases Settled.timer_marks marks regs with halted | lost | marks'
        · exact Or.inl halted
        · exact Or.inr (Or.inl lost)
        · exact Or.inr (Or.inr (Or.inr ⟨settled', marks'⟩))

theorem kept_of_reachable {k : Boot} (reached : (bootRuns L entry).Reachable k) : Kept k := by
  refine reached.invariant Kept ?_ ?_
  · rintro k rfl
    exact kept_start
  · intro k e k' h next
    exact h.step next

theorem readySlot_zero {t : Table MAX_PROCS} {i : Fin MAX_PROCS} (other : i ≠ 0) :
    t.readySlot 0 = some i ↔ (t.procs i).state = .ready ∧
      ¬∃ j : Fin MAX_PROCS, 0 < j ∧ j < i ∧ (t.procs j).state = .ready := by
  have order : (List.range' 1 MAX_PROCS).map (Machine.slot (0 : Fin MAX_PROCS)) = [1, 2, 3, 0] := by
    decide
  have which : ∀ j : Fin MAX_PROCS, j = 0 ∨ j = 1 ∨ j = 2 ∨ j = 3 := by decide
  have between (P : Fin MAX_PROCS → Prop) : (∃ j, 0 < j ∧ j < i ∧ P j) ↔
      1 < i ∧ P 1 ∨ 2 < i ∧ P 2 := by
    constructor
    · rintro ⟨j, above, below, holds⟩
      rcases which j with rfl | rfl | rfl | rfl
      · cases above
      · exact Or.inl ⟨below, holds⟩
      · exact Or.inr ⟨below, holds⟩
      · exact absurd (Fin.lt_def.mp below) (Nat.not_lt.mpr (Nat.le_of_lt_succ i.isLt))
    · rintro (⟨below, holds⟩ | ⟨below, holds⟩)
      · exact ⟨1, by decide, below, holds⟩
      · exact ⟨2, by decide, below, holds⟩
  have scan : t.readySlot 0 = if (t.procs 1).state = .ready then some 1
      else if (t.procs 2).state = .ready then some 2
      else if (t.procs 3).state = .ready then some 3
      else if (t.procs 0).state = .ready then some 0 else none := by
    have cons (p : Fin MAX_PROCS → Bool) (j : Fin MAX_PROCS) (rest : List (Fin MAX_PROCS)) :
        (j :: rest).find? p = if p j = true then some j else rest.find? p := by
      rw [List.find?_cons]
      cases p j with
      | _ => rfl
    unfold Table.readySlot
    simp only [order, cons, List.find?_nil, decide_eq_true_eq]
  rw [scan, between]
  by_cases one : (t.procs 1).state = .ready
  · rw [if_pos one]
    rcases which i with rfl | rfl | rfl | rfl
    · exact absurd rfl other
    · simp [one]
    · simp [one]
    · simp [one]
  rw [if_neg one]
  by_cases two : (t.procs 2).state = .ready
  · rw [if_pos two]
    rcases which i with rfl | rfl | rfl | rfl
    · exact absurd rfl other
    · simp [one]
    · simp [one, two]
    · simp [two]
  rw [if_neg two]
  rcases which i with rfl | rfl | rfl | rfl
  · exact absurd rfl other
  · split
    · simp [one]
    · split
      · simp [one]
      · simp [one]
  · split
    · simp [two]
    · split
      · simp [two]
      · simp [two]
  · split
    · rename_i three
      simp [one, two, three]
    · rename_i three
      split
      · simp [three]
      · simp [three]

/-- The handler's sched_yield inside the window of kernel_main's own one, where current is next. -/
theorem Settled.target_window {k : Boot} (h : Settled k) (here : k.away = false)
    (marks : (k.setup 0).saved = true ∨ Alone k) {call : Call} {old next : Fin MAX_PROCS}
    (main : k.main = .yield call (.switch old next)) {m : Fin MAX_PROCS}
    (found : k.table.readySlot k.table.current = some m) :
    m = k.table.current ∨ (k.setup m).Loadable := by
  have current := (h.window call old next main).1 here
  have ready := Table.readySlot_ready found
  by_cases zero : m = 0
  · subst zero
    rcases marks with saved | alone
    · exact Or.inr (Or.inr saved)
    · -- the first switch is to slot 1, and slot 2 comes before slot 0
      have straight := alone.straight
      have states := alone.states
      rw [main] at straight states
      cases call with
      | second => exact absurd straight id
      | first =>
        have one : next = 1 := straight
        have two : (k.table.procs 2).state = .ready := congrArg Prod.snd states
        have order : (List.range' 1 MAX_PROCS).map (Machine.slot (1 : Fin MAX_PROCS)) =
            [2, 3, 0, 1] := by decide
        rw [current, one] at found
        unfold Table.readySlot at found
        rw [order] at found
        simp [two] at found
  · refine Or.inr (Or.inl ((h.slots m).done (by simp [ready]) zero ?_))
    rw [main]
    simp [Main.spawning]

/-- A statement of kernel_main may be interrupted exactly if sched_init has set the canary of slot
    0 and sched_spawn is not at work on a slot that is READY already, unless another READY slot
    comes before it. -/
theorem boot_interrupt_safe_iff {k : Boot} (reached : (bootRuns L entry).Reachable k)
    (here : k.away = false) (running : k.halted = false) (found : k.lost = false)
    (regs : Context) :
    k.TimerSafe regs ↔ k.main.Initialised ∧
      ∀ i, k.main.spawning = some i → (k.table.procs i).state = .ready →
        ∃ j : Fin MAX_PROCS, 0 < j ∧ j < i ∧ (k.table.procs j).state = .ready := by
  unfold TimerSafe
  rcases kept_of_reachable reached with halted | lost | booting | ⟨settled, marks⟩
  · rw [running] at halted
    cases halted
  · rw [found] at lost
    cases lost
  · have gone : (k.table.procs k.table.current).canary ≠ STACK_CANARY := by
      rw [booting.current]
      exact booting.canary
    rcases k.table.schedYield_cases regs with ⟨_, value⟩ | ⟨intact, _⟩
    · rw [value]
      exact ⟨False.elim, fun safe => booting.early safe.1⟩
    · exact absurd intact gone
  have intact := settled.canary_current here
  have target : k.TimerSafe regs ↔ ∀ m, k.table.readySlot k.table.current = some m →
      m = k.table.current ∨ (k.setup m).Loadable := by
    unfold TimerSafe
    rcases k.table.schedYield_cases regs with
      ⟨gone, _⟩ | ⟨_, ⟨none, value⟩ | ⟨m, t, some, value, _⟩⟩
    · exact absurd intact gone
    · rw [value, none]
      simp
    · rw [value, some]
      simp
  change k.TimerSafe regs ↔ _
  rw [target]
  by_cases window : ∃ call old next, k.main = .yield call (.switch old next)
  · obtain ⟨call, old, next, main⟩ := window
    refine ⟨fun _ => ⟨settled.initialised, fun i now => ?_⟩,
      fun _ m hit => settled.target_window here marks main hit⟩
    rw [main] at now
    cases now
  · have current : k.table.current = 0 :=
      settled.here here fun call old next main => window ⟨call, old, next, main⟩
    rw [current]
    constructor
    · intro safe
      refine ⟨settled.initialised, fun i now ready => ?_⟩
      obtain ⟨other, _, same⟩ := (settled.slots i).begun now
      by_contra first
      rcases safe i ((readySlot_zero other).mpr ⟨ready, first⟩) with zero | loadable
      · exact other zero
      · rw [same] at loadable
        exact k.main.sofar_not_loadable loadable
    · rintro ⟨_, preceded⟩ m hit
      by_cases zero : m = 0
      · exact Or.inl zero
      obtain ⟨ready, first⟩ := (readySlot_zero zero).mp hit
      refine Or.inr (Or.inl ((settled.slots m).done (by simp [ready]) zero fun now => ?_))
      exact first (preceded m now ready)

def linked : Layout MAX_PROCS := ⟨0x100#32, fun i => BitVec.ofNat 32 (0x4000 + 0x200 * i.val)⟩

def taskEntry : Call → BitVec 32
  | .first => 0x200#32
  | .second => 0x300#32

def noRegs : Context := ⟨0#32, 0#32, fun _ => 0#32⟩

def afterStatements (count : Nat) : Boot :=
  System.after (Boot.step linked taskEntry) (.replicate count (.statement noRegs)) start

theorem reachable_afterStatements {count : Nat}
    (accepted : (System.follow (Boot.step linked taskEntry)
      (.replicate count (.statement noRegs)) start).isSome) :
    (bootRuns linked taskEntry).Reachable (afterStatements count) :=
  (System.Reachable.of_init rfl : (bootRuns linked taskEntry).Reachable start).follow
    (System.follow_after accepted)

/-- Between the two calls of sched_spawn. -/
theorem boot_interrupt_safe_iff_between : (afterStatements 20).TimerSafe noRegs := by
  refine (boot_interrupt_safe_iff (reachable_afterStatements (by decide)) (by decide) (by decide)
    (by decide) noRegs).mpr ⟨trivial, fun i now => ?_⟩
  cases now

/-- The first interrupt panics in check_canary(0), as the canary of slot 0 is still 0; one behind
    procs[1].state = PROC_READY switches to a context that nothing has set. -/
theorem boot_interrupt_unsafe :
    (bootRuns linked taskEntry).Reachable start ∧ start.away = false ∧ start.halted = false ∧
      start.lost = false ∧ ¬start.TimerSafe noRegs ∧
    (bootRuns linked taskEntry).Reachable (afterStatements 14) ∧
      (afterStatements 14).away = false ∧ (afterStatements 14).halted = false ∧
      (afterStatements 14).lost = false ∧ ¬(afterStatements 14).TimerSafe noRegs := by
  refine ⟨System.Reachable.of_init rfl, rfl, rfl, rfl, ?_, reachable_afterStatements (by decide),
    by decide, by decide, by decide, ?_⟩
  · exact id
  · change ¬((1 : Fin MAX_PROCS) = 0 ∨ Setup.blank.Loadable)
    decide

end Boot

end XorOS.Kernel
