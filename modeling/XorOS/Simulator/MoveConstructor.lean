import XorOS.Simulator.MemorySimulation
import XorOS.Simulator.Observers
import XorOS.Simulator.Privilege

/- RVModel(RVModel&&): what of a processor a move carries over. -/
namespace XorOS.RVModel
open ISA Runs
variable {xlen : Nat} {M : Type} [MemT xlen M]

/-- The new processor and what other is left as. priv_mode_ has no initializer, so that the new
    one holds an indeterminate value, and both hooks are default-constructed, hence empty. -/
def moveFrom (other : RVModel xlen) (indeterminate : PrivMode) : RVModel xlen × RVModel xlen :=
  ({ other with privMode := indeterminate, stepHook := false, trapHook := false }, other.halt)

/-- The same processor state, hook calls and memory, whichever hooks are installed. -/
structure Matches (p q : RVModel xlen × M) : Prop where
  state : SameCpu p.1 q.1
  calls : q.1.hookCalls = p.1.hookCalls
  mem : q.2 = p.2

theorem hookCalls_run (s : RVModel xlen) (m : M) (n : Nat)
    (silent : ∀ k < n,
      ¬CallsHook (stateAfter machine k (s, m)).1 (stateAfter machine k (s, m)).2) :
    (stateAfter machine n (s, m)).1.hookCalls = s.hookCalls := by
  induction n with
  | zero => rfl
  | succ n ih =>
    rw [stateAfter_succ]
    have last := (step_log (stateAfter machine n (s, m)).1 (stateAfter machine n (s, m)).2).quiet
    exact (last.mpr (silent n (by omega))).trans (ih fun k small => silent k (by omega))

theorem hooks_run (s : RVModel xlen) (m : M) (n : Nat) :
    (stateAfter machine n (s, m)).1.stepHook = s.stepHook ∧
      (stateAfter machine n (s, m)).1.trapHook = s.trapHook := by
  induction n with
  | zero => exact ⟨rfl, rfl⟩
  | succ n ih =>
    rw [stateAfter_succ]
    have log := step_log (stateAfter machine n (s, m)).1 (stateAfter machine n (s, m)).2
    exact ⟨log.stepHook.trans ih.1, log.trapHook.trans ih.2⟩

theorem hookCalls_moveFrom (s : RVModel xlen) (g : PrivMode) (m : M) (n : Nat) :
    (stateAfter machine n ((s.moveFrom g).1, m)).1.hookCalls = s.hookCalls := by
  apply hookCalls_run (s.moveFrom g).1 m n
  intro k _
  obtain ⟨step, trap⟩ := hooks_run (s.moveFrom g).1 m k
  exact not_callsHook step trap _

theorem run_sameCpu {s t : RVModel xlen} (same : SameCpu s t) (m : M) (n : Nat) :
    (runFor machine n (s, m)).1 = (runFor machine n (t, m)).1 ∧
      SameCpu (stateAfter machine n (s, m)).1 (stateAfter machine n (t, m)).1 ∧
      (stateAfter machine n (t, m)).2 = (stateAfter machine n (s, m)).2 := by
  have step : ∀ p q : RVModel xlen × M, (SameCpu p.1 q.1 ∧ q.2 = p.2) → True →
      (machine p).1 = (machine q).1 ∧ SameCpu (machine p).2.1 (machine q).2.1 ∧
        (machine q).2.2 = (machine p).2.2 := by
    rintro ⟨p, _⟩ ⟨q, memory⟩ ⟨same, rfl⟩ _
    obtain ⟨outcome, same, mem⟩ := step_sameCpu same memory
    exact ⟨outcome, same, mem.symm⟩
  exact runFor_simulation (fun p q => SameCpu p.1 q.1 ∧ q.2 = p.2) (fun _ => True) step n (s, m)
    (t, m) ⟨same, rfl⟩ fun _ _ => trivial

/-- A moved-to processor goes through the states of the original one and makes its hook calls,
    for n steps, exactly where the indeterminate mode is the original's and none of these
    steps calls a hook. -/
theorem moved_run_matches_iff (s : RVModel xlen) (m : M) (g : PrivMode) (n : Nat) :
    (runFor machine n (s, m)).1 = (runFor machine n ((s.moveFrom g).1, m)).1 ∧
      (∀ k ≤ n, Matches (stateAfter machine k (s, m))
        (stateAfter machine k ((s.moveFrom g).1, m))) ↔
    g = s.privMode ∧ ∀ k < n,
      ¬CallsHook (stateAfter machine k (s, m)).1 (stateAfter machine k (s, m)).2 := by
  constructor
  · rintro ⟨_, matched⟩
    have kept (k : Nat) (le : k ≤ n) :
        (stateAfter machine k (s, m)).1.hookCalls = s.hookCalls :=
      (matched k le).calls.symm.trans (hookCalls_moveFrom s g m k)
    constructor
    · exact congrArg RVModel.privMode (matched 0 (by omega)).state
    · intro k small
      have log := step_log (stateAfter machine k (s, m)).1 (stateAfter machine k (s, m)).2
      have next := kept (k + 1) small
      rw [stateAfter_succ] at next
      exact log.quiet.mp (next.trans (kept k (by omega)).symm)
  · rintro ⟨rfl, silent⟩
    have same : SameCpu s (s.moveFrom s.privMode).1 := rfl
    refine ⟨(run_sameCpu same m n).1, fun k le => ?_⟩
    obtain ⟨_, state, mem⟩ := run_sameCpu same m k
    have calls := hookCalls_run s m k fun j small => silent j (by omega)
    exact ⟨state, (hookCalls_moveFrom s _ m k).trans calls.symm, mem⟩

def userState : Watched 32 (MemoryModel 32 Unit) :=
  (((reset ecallImage).after .step).after .step).after .step

def hookedCpu : RVModel 32 := { RVModel.new ⟨0#32⟩ with stepHook := true }.init 0#32 0#32

/-- A move out of U-mode to an object that happens to hold M changes the cause of the ecall, and
    a move of a processor with a step hook loses its next call whatever the object holds. -/
theorem moved_run_differs :
    (calls 32 _).Reachable userState ∧ userState.cpu.privMode = .U ∧
    ¬Matches (stateAfter machine 1 (userState.cpu, userState.mem))
      (stateAfter machine 1 ((userState.cpu.moveFrom .M).1, userState.mem)) ∧
    (calls 32 _).Reachable ⟨hookedCpu, ecallImage, 0#32⟩ ∧
    ∀ g, ¬Matches (stateAfter machine 1 (hookedCpu, ecallImage))
      (stateAfter machine 1 ((hookedCpu.moveFrom g).1, ecallImage)) := by
  refine ⟨reachable_after (reachable_after (reachable_after (reset_reachable _) _) _) _,
    by decide, ?_, System.Reachable.of_init ⟨_, _, _, _, rfl⟩, ?_⟩
  · intro matched
    have cause := congrArg (fun s => s.csr.read CSR.MCAUSE) matched.state
    revert cause
    decide
  · intro g matched
    have calls := congrArg List.length matched.calls
    rw [hookCalls_moveFrom] at calls
    revert calls
    decide

end XorOS.RVModel
