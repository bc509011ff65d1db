import XorOS.Kernel.ProcessTable

/- How long a READY process waits for its turn, counted in sched_yield and sched_exit calls. -/
namespace XorOS.Kernel
open Runs Machine

namespace Table
variable {n : Nat} [NeZero n]

theorem readySlot_first {t : Table n} {old : Fin n} {d : Nat} (first : 1 ≤ d) (last : d ≤ n)
    (ready : (t.procs (slot old d)).state = .ready) :
    ∃ e, 1 ≤ e ∧ e ≤ d ∧ t.readySlot old = some (slot old e) := by
  have candidate : d ∈ List.range' 1 n := List.mem_range'_1.mpr ⟨first, by omega⟩
  unfold readySlot
  rw [List.find?_map]
  cases found : (List.range' 1 n).find? ((fun i => (t.procs i).state = .ready) ∘ slot old) with
  | none =>
    have absent := List.find?_eq_none.mp found d candidate
    simp [ready] at absent
  | some e =>
    obtain ⟨_, inRange, earlier⟩ := List.find?_range'_eq_some.mp found
    obtain ⟨least, _⟩ := List.mem_range'_1.mp inRange
    refine ⟨e, least, ?_, rfl⟩
    by_contra later
    have skipped := earlier d first (by omega)
    simp [ready] at skipped

theorem readySlot_eq_none {t : Table n} {old : Fin n} (none : t.readySlot old = none) (i : Fin n) :
    (t.procs i).state ≠ .ready := by
  intro ready
  by_cases here : i = old
  · have around : slot old n = i := by
      rw [here]
      apply Fin.ext
      change (old.val + n) % n = old.val
      rw [Nat.add_mod_right, Nat.mod_eq_of_lt old.isLt]
    obtain ⟨_, _, _, found⟩ :=
      readySlot_first (Nat.pos_of_neZero n) (Nat.le_refl n) (around ▸ ready)
    rw [none] at found
    cases found
  · obtain ⟨d, first, last, reaches⟩ := exists_slot here
    obtain ⟨_, _, _, found⟩ := readySlot_first first (Nat.le_of_lt last) (reaches ▸ ready)
    rw [none] at found
    cases found

end Table

namespace Os
variable {n : Nat} [NeZero n]

inductive ApiCall where
  | init
  | sched (c : SchedCall)

def apiStep (L : Layout n) (o : Os n) : ApiCall → Option (Os n)
  | .init => if o.halted then none else some ⟨o.table.schedInit, false⟩
  | .sched c => step L o c

def api (L : Layout n) : System (Os n) ApiCall :=
  .ofStep (fun o => o = ⟨Table.boot, false⟩) (apiStep L)

/-- sched_init comes first, and again only from slot 0. -/
def initialised (L : Layout n) : System (Os n) ApiCall :=
  (System.ofStep (fun o => o = ⟨Table.boot.schedInit, false⟩) (apiStep L)).restrict
    fun o c => c = .init → o.table.current = 0

def isSwitch : SchedCall → Bool
  | .spawn _ => false
  | .yield _ => true
  | .exit _ => true

def switches (cs : List SchedCall) : Nat := cs.countP isSwitch

def Served (L : Layout n) (o : Os n) (p : Fin n) (bound : Nat) (cs : List SchedCall) : Prop :=
  ∃ first rest middle, cs = first ++ rest ∧ (calls L).Path o first middle ∧
    (middle.table.procs p).state = .running ∧ switches first ≤ bound

/-- However the calls go on, p is served within bound switches, and until then it stays READY
    and the machine goes on. -/
def NeverStarves (L : Layout n) (o : Os n) (p : Fin n) (bound : Nat) : Prop :=
  ∀ cs o', (calls L).Path o cs o' → Served L o p bound cs ∨
    switches cs < bound ∧ (o'.table.procs p).state = .ready ∧ o'.halted = false

structure Guarded (o : Os n) : Prop where
  intact : ∀ i, (o.table.procs i).state ≠ .unused → (o.table.procs i).canary = STACK_CANARY
  current : (o.table.procs o.table.current).canary = STACK_CANARY ∨ o.table = Table.boot
  stopped : o.halted = true → ∀ i, (o.table.procs i).state ≠ .ready

/-- p is READY, and current reaches it after at most d slots. -/
structure Waits (o : Os n) (p : Fin n) (d : Nat) : Prop where
  ready : (o.table.procs p).state = .ready
  near : ∃ k, 1 ≤ k ∧ k ≤ d ∧ slot o.table.current k = p

theorem Guarded.alive {o : Os n} (guarded : Guarded o) {p : Fin n} {d : Nat} (waits : Waits o p d) :
    o.halted = false := by
  by_contra stopped
  exact guarded.stopped (Bool.eq_true_of_not_eq_false stopped) p waits.ready

theorem Guarded.current_intact {o : Os n} (guarded : Guarded o) {p : Fin n}
    (ready : (o.table.procs p).state = .ready) :
    (o.table.procs o.table.current).canary = STACK_CANARY := by
  rcases guarded.current with intact | boot
  · exact intact
  · rw [boot] at ready
    cases ready

theorem guarded_switched {o : Os n} (guarded : Guarded o) {left : ProcState} {next : Fin n}
    {t' : Table n} (intact : (o.table.procs o.table.current).canary = STACK_CANARY)
    (spec : Table.SwitchedTo o.table left o.table.current next t') : Guarded ⟨t', false⟩ := by
  have canary := guarded.intact next (by rw [spec.ready]; simp)
  refine ⟨?_, Or.inl ?_, fun halted => by cases halted⟩
  · intro i taken
    change (t'.procs i).state ≠ .unused at taken
    change (t'.procs i).canary = STACK_CANARY
    rw [spec.states] at taken
    rw [spec.canaries]
    split at taken
    · rename_i here
      rw [here]
      exact canary
    split at taken
    · rename_i here
      rw [here]
      exact intact
    · exact guarded.intact i taken
  · change (t'.procs t'.current).canary = STACK_CANARY
    rw [spec.canaries, spec.current]
    exact canary

theorem freeSlot_boot {i : Fin n} (found : (Table.boot : Table n).freeSlot = some i) : i = 0 := by
  obtain ⟨_, k, inside, here, earlier⟩ := List.find?_eq_some_iff_getElem.mp found
  have first : k = 0 := by
    by_contra later
    have skipped := earlier 0 (Nat.pos_of_ne_zero later)
    simp [Table.boot] at skipped
  subst first
  apply Fin.ext
  rw [← here]
  simp

omit [NeZero n] in
theorem schedSpawn_cases (L : Layout n) (entry : BitVec 32) (t : Table n) :
    (t.schedSpawn L entry).2 = t ∨
      ∃ i, t.freeSlot = some i ∧ (t.schedSpawn L entry).2 = t.spawnInto L entry i := by
  unfold Table.schedSpawn
  cases found : t.freeSlot with
  | none => exact Or.inl rfl
  | some i => exact Or.inr ⟨i, rfl, rfl⟩

theorem guarded_spawn (L : Layout n) {o : Os n} (guarded : Guarded o)
    (entry : BitVec 32) : Guarded ⟨(o.table.schedSpawn L entry).2, false⟩ := by
  rcases schedSpawn_cases L entry o.table with same | ⟨i, found, spawned⟩
  · rw [same]
    exact ⟨guarded.intact, guarded.current, fun halted => by cases halted⟩
  rw [spawned]
  refine ⟨?_, Or.inl ?_, fun halted => by cases halted⟩
  · intro j taken
    change ((o.table.spawnInto L entry i).procs j).canary = STACK_CANARY
    change ((o.table.spawnInto L entry i).procs j).state ≠ .unused at taken
    rw [Table.procs_spawnInto] at taken ⊢
    by_cases here : j = i
    · rw [if_pos here]
    · rw [if_neg here] at taken ⊢
      exact guarded.intact j taken
  · change ((o.table.spawnInto L entry i).procs o.table.current).canary = STACK_CANARY
    rw [Table.procs_spawnInto]
    split
    · rfl
    rename_i other
    rcases guarded.current with intact | boot
    · exact intact
    · rw [boot] at found other
      exact absurd (freeSlot_boot found).symm other

theorem guarded_init {o : Os n} (guarded : Guarded o) : Guarded ⟨o.table.schedInit, false⟩ := by
  have slots (i : Fin n) : (o.table.schedInit.procs i) =
      if i = 0 then { o.table.procs i with state := .running, pid := 0#32, canary := STACK_CANARY }
      else { o.table.procs i with state := .unused } := rfl
  refine ⟨?_, Or.inl ?_, fun halted => by cases halted⟩
  · intro i taken
    change (o.table.schedInit.procs i).canary = STACK_CANARY
    change (o.table.schedInit.procs i).state ≠ .unused at taken
    rw [slots] at taken ⊢
    by_cases here : i = 0
    · rw [if_pos here]
    · rw [if_neg here] at taken
      exact absurd rfl taken
  · change (o.table.schedInit.procs o.table.current).canary = STACK_CANARY
    rw [slots]
    split
    · rfl
    rename_i other
    rcases guarded.current with intact | boot
    · exact intact
    · rw [boot] at other
      exact absurd rfl other

theorem guarded_sched (L : Layout n) {o o' : Os n} {c : SchedCall} (guarded : Guarded o)
    (next : step L o c = some o') : Guarded o' := by
  unfold step at next
  split at next
  · cases next
  rw [← Option.some.inj next]
  by_cases intact : (o.table.procs o.table.current).canary = STACK_CANARY
  · cases c with
    | spawn entry => exact guarded_spawn L guarded entry
    | yield regs =>
      unfold perform
      rcases Table.schedYield_cases o.table regs with
        ⟨broken, _⟩ | ⟨_, ⟨_, back⟩ | ⟨q, t', _, switched, spec⟩⟩
      · exact absurd intact broken
      · simp only [back]
        exact ⟨guarded.intact, guarded.current, fun halted => by cases halted⟩
      · simp only [switched]
        exact guarded_switched guarded intact spec
    | exit regs =>
      unfold perform
      rcases Table.schedExit_cases intact regs with ⟨none, last⟩ | ⟨q, t', _, switched, spec⟩
      · simp only [last]
        refine ⟨?_, Or.inl ?_, fun _ => Table.readySlot_eq_none none⟩
        · intro i taken
          change ((o.table.setState o.table.current .zombie).procs i).canary = STACK_CANARY
          change ((o.table.setState o.table.current .zombie).procs i).state ≠ .unused at taken
          rw [Table.canary_setState]
          rw [Table.state_setState] at taken
          split at taken
          · rename_i here
            rw [here]
            exact intact
          · exact guarded.intact i taken
        · exact (Table.canary_setState o.table o.table.current o.table.current .zombie).trans intact
      · simp only [switched]
        exact guarded_switched guarded intact spec
  · -- only the table that no call has touched has no canary
    have boot := guarded.current.resolve_left intact
    have stopped : Guarded ⟨o.table, true⟩ := by
      refine ⟨guarded.intact, guarded.current, fun _ i ready => ?_⟩
      change (o.table.procs i).state = .ready at ready
      rw [boot] at ready
      cases ready
    cases c with
    | spawn entry => exact guarded_spawn L guarded entry
    | yield regs =>
      unfold perform Table.schedYield
      simp only [ne_eq, intact, not_false_eq_true, if_true]
      exact stopped
    | exit regs =>
      unfold perform Table.schedExit
      simp only [ne_eq, intact, not_false_eq_true, if_true]
      exact stopped

theorem guarded_of_reachable (L : Layout n) {o : Os n} (reached : (api L).Reachable o) :
    Guarded o := by
  refine reached.invariant Guarded ?_ ?_
  · rintro _ rfl
    exact ⟨fun i taken => absurd rfl taken, Or.inr rfl, fun halted => by cases halted⟩
  · intro o c o' guarded next
    cases c with
    | init =>
      have next : (if o.halted then none else some ⟨o.table.schedInit, false⟩) = some o' := next
      split at next
      · cases next
      · rw [← Option.some.inj next]
        exact guarded_init guarded
    | sched c => exact guarded_sched L guarded next

theorem slot_add (old : Fin n) (e k : Nat) : slot (slot old e) k = slot old (e + k) := by
  apply Fin.ext
  change ((old.val + e) % n + k) % n = (old.val + (e + k)) % n
  rw [Nat.mod_add_mod, Nat.add_assoc]

theorem waits_switched {o : Os n} {p : Fin n} {d k e : Nat}
    (ready : (o.table.procs p).state = .ready) (reaches : slot o.table.current k = p)
    (last : k ≤ d + 1) (small : k < n) (first : 1 ≤ e) (before : e ≤ k) {left : ProcState}
    {t' : Table n}
    (spec : Table.SwitchedTo o.table left o.table.current (slot o.table.current e) t') :
    (t'.procs p).state = .running ∨ Waits ⟨t', false⟩ p d := by
  rcases Nat.lt_or_eq_of_le before with earlier | here
  · right
    have ahead : slot (slot o.table.current e) (k - e) = p := by
      rw [slot_add, Nat.add_sub_of_le before, reaches]
    have notNext : p ≠ slot o.table.current e := by
      rw [← ahead]
      exact slot_ne (by omega) (by omega)
    have notOld : p ≠ o.table.current := by
      rw [← reaches]
      exact slot_ne (by omega) small
    refine ⟨?_, k - e, by omega, by omega, ?_⟩
    · change (t'.procs p).state = .ready
      rw [spec.states, if_neg notNext, if_neg notOld]
      exact ready
    · change slot t'.current (k - e) = p
      rw [spec.current]
      exact ahead
  · left
    rw [spec.states, here, reaches, if_pos rfl]

theorem waits_spawn (L : Layout n) {o : Os n} {p : Fin n} {d : Nat} (waits : Waits o p d)
    (entry : BitVec 32) : Waits ⟨(o.table.schedSpawn L entry).2, false⟩ p d := by
  rcases schedSpawn_cases L entry o.table with same | ⟨i, found, spawned⟩
  · rw [same]
    exact ⟨waits.ready, waits.near⟩
  rw [spawned]
  refine ⟨?_, waits.near⟩
  change ((o.table.spawnInto L entry i).procs p).state = .ready
  rw [Table.procs_spawnInto]
  split
  · rfl
  · exact waits.ready

theorem waits_step (L : Layout n) {o o' : Os n} {p : Fin n} {d : Nat} {c : SchedCall}
    (guarded : Guarded o) (small : d + 1 < n) (waits : Waits o p (d + 1))
    (next : step L o c = some o') :
    (o'.table.procs p).state = .running ∨ Waits o' p (if isSwitch c then d else d + 1) := by
  have intact := guarded.current_intact waits.ready
  have ready := waits.ready
  obtain ⟨k, first, last, reaches⟩ := waits.near
  unfold step at next
  rw [if_neg (by simp [guarded.alive waits]), Option.some.injEq] at next
  rw [← next]
  cases c with
  | spawn entry => exact Or.inr (waits_spawn L waits entry)
  | yield regs =>
    have candidate : (o.table.procs (slot o.table.current k)).state = .ready := by
      rw [reaches]
      exact ready
    obtain ⟨e, least, before, found⟩ := Table.readySlot_first first (by omega) candidate
    unfold perform
    rcases Table.schedYield_cases o.table regs with
      ⟨broken, _⟩ | ⟨_, ⟨none, _⟩ | ⟨q, t', hit, switched, spec⟩⟩
    · exact absurd intact broken
    · rw [none] at found
      cases found
    · rw [hit, Option.some.injEq] at found
      rw [found] at spec
      simp only [switched]
      exact waits_switched ready reaches last (by omega) least before spec
  | exit regs =>
    have stays : ((o.table.setState o.table.current .zombie).procs
        (slot o.table.current k)).state = .ready := by
      rw [Table.state_setState, if_neg (slot_ne first (by omega)), reaches]
      exact ready
    obtain ⟨e, least, before, found⟩ := Table.readySlot_first first (by omega) stays
    unfold perform
    rcases Table.schedExit_cases intact regs with ⟨none, _⟩ | ⟨q, t', hit, switched, spec⟩
    · rw [none] at found
      cases found
    · rw [hit, Option.some.injEq] at found
      rw [found] at spec
      simp only [switched]
      exact waits_switched ready reaches last (by omega) least before spec

theorem served_or_waits (L : Layout n) {o o' : Os n} {p : Fin n} {bound : Nat} (small : bound < n)
    {cs : List SchedCall} (path : (calls L).Path o cs o') (guarded : Guarded o)
    (waits : Waits o p bound) :
    Guarded o' ∧ (Served L o p bound cs ∨ Waits o' p (bound - switches cs)) := by
  induction path with
  | nil => exact ⟨guarded, Or.inr waits⟩
  | @snoc middle o' cs c path last ih =>
    obtain ⟨guarded', before⟩ := ih
    refine ⟨guarded_sched L guarded' last, ?_⟩
    have split : switches (cs ++ [c]) = switches cs + if isSwitch c then 1 else 0 := by
      unfold switches
      rw [List.countP_append, List.countP_singleton]
    rcases before with ⟨first, rest, served, rfl, reached, running, few⟩ | waits'
    · exact Or.inl ⟨first, rest ++ [c], served, List.append_assoc _ _ _, reached, running, few⟩
    · obtain ⟨k, least, most, _⟩ := waits'.near
      obtain ⟨d, distance⟩ : ∃ d, bound - switches cs = d + 1 := ⟨bound - switches cs - 1, by omega⟩
      rw [distance] at waits'
      rcases waits_step L guarded' (by omega) waits' last with running | nearer
      · refine Or.inl ⟨cs ++ [c], [], o', (List.append_nil _).symm, path.snoc last, running, ?_⟩
        rw [split]
        split <;> omega
      · right
        have rest : bound - switches (cs ++ [c]) = if isSwitch c then d else d + 1 := by
          rw [split]
          split <;> omega
        rw [rest]
        exact nearer

theorem neverStarves_of_waiting (L : Layout n) {o : Os n} (guarded : Guarded o) {p : Fin n}
    (ready : (o.table.procs p).state = .ready) (other : p ≠ o.table.current) :
    NeverStarves L o p (n - 1) := by
  obtain ⟨d, first, last, reaches⟩ := exists_slot other
  have waits : Waits o p (n - 1) := ⟨ready, d, first, by omega, reaches⟩
  intro cs o' path
  obtain ⟨guarded', served | waits'⟩ := served_or_waits L (by omega) path guarded waits
  · exact Or.inl served
  · obtain ⟨k, least, most, _⟩ := waits'.near
    exact Or.inr ⟨by omega, waits'.ready, guarded'.alive waits'⟩

theorem current_runs_sched (L : Layout n) {o : Os n}
    (current : (o.table.procs o.table.current).state = .running) (c : SchedCall) :
    (perform L o.table c).os.halted = false →
      ((perform L o.table c).os.table.procs (perform L o.table c).os.table.current).state =
        .running := by
  intro alive
  cases c with
  | spawn entry =>
    change ((o.table.schedSpawn L entry).2.procs (o.table.schedSpawn L entry).2.current).state = _
    rcases schedSpawn_cases L entry o.table with same | ⟨i, found, spawned⟩
    · rw [same]
      exact current
    · rw [spawned]
      change ((o.table.spawnInto L entry i).procs o.table.current).state = .running
      rw [Table.procs_spawnInto, if_neg]
      · exact current
      · intro here
        have unused := Table.freeSlot_unused found
        rw [← here, current] at unused
        cases unused
  | yield regs =>
    unfold perform at alive ⊢
    by_cases intact : (o.table.procs o.table.current).canary = STACK_CANARY
    · rcases Table.schedYield_spec current intact regs with back | ⟨next, t', switched, spec⟩
      · simp only [back]
        exact current
      · simp only [switched]
        change (t'.procs t'.current).state = .running
        rw [spec.states, spec.current, if_pos rfl]
    · unfold Table.schedYield at alive
      simp [intact, SchedResult.os] at alive
  | exit regs =>
    unfold perform at alive ⊢
    by_cases intact : (o.table.procs o.table.current).canary = STACK_CANARY
    · rcases Table.schedExit_spec intact regs with last | ⟨next, t', switched, spec⟩
      · simp [last, SchedResult.os] at alive
      · simp only [switched]
        change (t'.procs t'.current).state = .running
        rw [spec.states, spec.current, if_pos rfl]
    · unfold Table.schedExit at alive
      simp [intact, SchedResult.os] at alive

theorem reachable_of_initialised (L : Layout n) {o : Os n} (reached : (initialised L).Reachable o) :
    (api L).Reachable o := by
  refine reached.invariant (api L).Reachable ?_ ?_
  · rintro _ rfl
    have booted : (api L).Reachable ⟨Table.boot, false⟩ := .of_init rfl
    have first : (api L).step ⟨Table.boot, false⟩ .init ⟨Table.boot.schedInit, false⟩ := rfl
    exact booted.next first
  · rintro o c o' reachable ⟨next, _⟩
    exact reachable.next next

/-- The current process runs, as long as sched_init is called from slot 0 only. -/
theorem current_runs (L : Layout n) {o : Os n} (reached : (initialised L).Reachable o) :
    o.halted = false → (o.table.procs o.table.current).state = .running := by
  refine reached.invariant
    (fun o => o.halted = false → (o.table.procs o.table.current).state = .running) ?_ ?_
  · rintro _ rfl _
    rfl
  · rintro o c o' runs ⟨next, atZero⟩
    cases c with
    | init =>
      have next : (if o.halted then none else some ⟨o.table.schedInit, false⟩) = some o' := next
      split at next
      · cases next
      rw [← Option.some.inj next]
      intro _
      have zero := atZero rfl
      change (o.table.schedInit.procs o.table.current).state = .running
      rw [zero]
      rfl
    | sched c =>
      have next : step L o c = some o' := next
      unfold step at next
      split at next
      · cases next
      rename_i running
      have current := runs (Bool.eq_false_of_not_eq_true running)
      rw [← Option.some.inj next]
      exact current_runs_sched L current c

/-- A READY process is served within n - 1 switches, unless it is in the slot that the kernel
    takes for the current process; after one sched_init no READY process is. -/
theorem round_robin_never_starves (L : Layout n) :
    (∀ o, (api L).Reachable o → ∀ p, (o.table.procs p).state = .ready → p ≠ o.table.current →
      NeverStarves L o p (n - 1)) ∧
    ∀ o, (initialised L).Reachable o → ∀ p, (o.table.procs p).state = .ready →
      (api L).Reachable o ∧ p ≠ o.table.current := by
  constructor
  · intro o reached p ready other
    exact neverStarves_of_waiting L (guarded_of_reachable L reached) ready other
  · intro o reached p ready
    have reachable := reachable_of_initialised L reached
    have guarded := guarded_of_reachable L reachable
    have alive : o.halted = false := by
      by_contra stopped
      exact guarded.stopped (Bool.eq_true_of_not_eq_false stopped) p ready
    refine ⟨reachable, ?_⟩
    rintro rfl
    have running := current_runs L reached alive
    rw [ready] at running
    cases running

def threeSlots : Layout 3 := ⟨0x100#32, fun i => BitVec.ofNat 32 (0x1000 + 0x200 * i.val)⟩

/-- Of two spawned processes the second still waits after one switch, and runs within two. -/
theorem round_robin_never_starves_three :
    let o := System.after (apiStep threeSlots)
      [.init, .sched (.spawn 0x40#32), .sched (.spawn 0x44#32)] ⟨Table.boot, false⟩
    ((System.after (step threeSlots) [.yield zeroRegs] o).table.procs 2).state = .ready ∧
      NeverStarves threeSlots o 2 2 := by
  intro o
  have accepted : (System.follow (apiStep threeSlots)
      [.init, .sched (.spawn 0x40#32), .sched (.spawn 0x44#32)] ⟨Table.boot, false⟩).isSome := by
    decide
  have reached : (api threeSlots).Reachable o :=
    System.Reachable.follow (.of_init rfl) (System.follow_after accepted)
  have ready : (o.table.procs 2).state = .ready := by decide
  exact ⟨by decide, (round_robin_never_starves threeSlots).1 o reached 2 ready (by decide)⟩

def spawnOverCurrent : List ApiCall :=
  [.init, .sched (.spawn 0x40#32), .sched (.yield zeroRegs), .init, .sched (.spawn 0x44#32)]

/-- The sched_exit of that process then kills the new one before it ever runs. -/
theorem process_in_current_slot_starves :
    let o := System.after (apiStep twoSlots) spawnOverCurrent ⟨Table.boot, false⟩
    (api twoSlots).Reachable o ∧ (o.table.procs 1).state = .ready ∧
      ¬NeverStarves twoSlots o 1 (2 - 1) := by
  intro o
  have accepted : (System.follow (apiStep twoSlots) spawnOverCurrent
      ⟨Table.boot, false⟩).isSome := by decide
  have reached : (api twoSlots).Reachable o :=
    System.Reachable.follow (.of_init rfl) (System.follow_after accepted)
  refine ⟨reached, by decide, ?_⟩
  intro served
  have exits : System.follow (step twoSlots) [.exit zeroRegs] o =
      some (perform twoSlots o.table (.exit zeroRegs)).os := rfl
  rcases served _ _ (.snoc (.nil o) exits) with
    ⟨first, rest, middle, all, path, running, _⟩ | ⟨few, _⟩
  · have arrives := path.follow
    cases first with
    | nil =>
      rw [← Option.some.inj arrives] at running
      revert running
      decide
    | cons c first =>
      obtain ⟨rfl, nothing⟩ := List.cons.inj all
      obtain ⟨rfl, _⟩ := List.append_eq_nil_iff.mp nothing.symm
      rw [exits, Option.some.injEq] at arrives
      rw [← arrives] at running
      revert running
      decide
  · revert few
    decide

end Os
end XorOS.Kernel
