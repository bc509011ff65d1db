import XorOS.Simulator.MemorySimulation
import XorOS.Simulator.StepEffects

/- RVModel::run(maxSteps): step() until the processor halts, an exception escapes or maxSteps
   steps are done, without a limit where maxSteps is 0. -/
namespace XorOS.RVModel
open ISA Runs
variable {xlen : Nat} {M : Type} [MemT xlen M]

@[simp] theorem instrCount_callTrapHook (s : RVModel xlen) (cause tval : BitVec xlen) :
    (s.callTrapHook cause tval).instrCount = s.instrCount := by
  unfold callTrapHook
  split
  · rfl
  · rfl

@[simp] theorem instrCount_fireTrap (s : RVModel xlen) (cause tval : BitVec xlen) :
    (s.fireTrap cause tval).instrCount = s.instrCount := by
  have hook := instrCount_callTrapHook s cause tval
  unfold fireTrap
  simp only
  split
  · exact hook
  · exact hook

@[simp] theorem instrCount_callStepHook (s : RVModel xlen) (dis : String) :
    (s.callStepHook dis).instrCount = s.instrCount := by
  unfold callStepHook
  split
  · rfl
  · rfl

theorem Plain.instrCount {s : RVModel xlen} {r : Bool × RVModel xlen} (h : Plain s r) :
    r.2.instrCount = s.instrCount := by
  cases h with
  | trap cause tval => exact instrCount_fireTrap s cause tval
  | write regs => rfl

omit [MemT xlen M] in
theorem PlainOrThrows.instrCount {ε : Type} {s : RVModel xlen}
    {r : Except ε Bool × RVModel xlen × M} (h : PlainOrThrows s r) :
    r.2.1.instrCount = s.instrCount := by
  rcases r with ⟨_ | modified, s', m'⟩
  · exact congrArg RVModel.instrCount h
  · exact Plain.instrCount h

theorem executeSystem_instrCount (s : RVModel xlen) (d : DecodedInstr xlen) :
    (s.executeSystem d).2.instrCount = s.instrCount := by
  unfold executeSystem executeCSR
  split
  · split
    · exact instrCount_fireTrap s _ _
    split
    · rfl
    split
    · rfl
    · rfl
  · simp only
    split
    · exact instrCount_fireTrap s _ _
    split
    · exact instrCount_fireTrap s _ _
    · rfl

theorem executeInstr_instrCount (s : RVModel xlen) (d : DecodedInstr xlen) (m : M) :
    (s.executeInstr d m).2.1.instrCount = s.instrCount := by
  have jumps (target : BitVec xlen) : (s.jumpTo target).2.instrCount = s.instrCount := by
    unfold jumpTo
    split
    · exact instrCount_fireTrap s _ _
    · rfl
  unfold executeInstr
  cases Opcode.ofBits? d.opcode with
  | none => exact (executeIllegal_plain s d m).instrCount
  | some opcode =>
    cases opcode with
    | lui => rfl
    | auipc => rfl
    | jal =>
      simp only [executeJAL]
      split
      · exact instrCount_fireTrap s _ _
      · rfl
    | jalr =>
      simp only [executeJALR]
      split
      · exact instrCount_fireTrap s _ _
      · rfl
    | branch =>
      simp only [executeBranch]
      split
      · exact instrCount_fireTrap s _ _
      split
      · exact jumps _
      · rfl
    | load => exact (executeLoad_plain s d m).instrCount
    | store => exact (executeStore_plain s d m).instrCount
    | opImm => rfl
    | op => exact (executeOp_plain s d).instrCount
    | amo => exact ((executeAMO_plain s d m).mapError Exn.outOfRange).instrCount
    | miscMem => rfl
    | system => exact executeSystem_instrCount s d

theorem step_instrCount {s : RVModel xlen} {m : M} (running : s.halted = false)
    (done : (s.step m).1 = .ok ()) : (s.step m).2.1.instrCount = s.instrCount + 1#64 ∨
      (s.step m).2.1.instrCount = s.instrCount ∧ (s.step m).2.1.halted = true := by
  have fetch := fetch_cases s m
  generalize s.fetched m = fetchedWord at fetch
  generalize s.step m = r at done fetch ⊢
  cases fetch with
  | halted stopped =>
    rw [running] at stopped
    cases stopped
  | pageFault => exact Or.inl (congrArg (· + 1#64) (instrCount_fireTrap s _ _))
  | accessFault => exact Or.inl (congrArg (· + 1#64) (instrCount_fireTrap s _ _))
  | zero => exact Or.inr ⟨rfl, rfl⟩
  | word running translated read nonzero =>
    rename_i pa m' m'' raw
    have count := executeInstr_instrCount
      (s.callStepHook (Disasm.disassemble (Decoder.decode xlen raw))) (Decoder.decode xlen raw) m''
    rw [instrCount_callStepHook] at count
    unfold executeWord at done ⊢
    simp only at done ⊢
    split at done
    · simp at done
    · rename_i modified s' m3 eq
      rw [eq] at count
      left
      cases modified with
      | true => exact congrArg (· + 1#64) count
      | false => exact congrArg (· + 1#64) count

/-- The body of the loop with the local steps; none where the fuel does not reach its end. -/
def runLoop (maxSteps : BitVec 64) :
    Nat → BitVec 64 → RVModel xlen × M → Option (Except Exn Unit × RVModel xlen × M)
  | fuel, steps, p =>
      if p.1.halted then some (.ok (), p)
      else
        match fuel with
        | 0 => none
        | fuel + 1 =>
            match machine p with
            | (.error e, p) => some (.error e, p)
            | (.ok (), p) =>
                if maxSteps > 0#64 then
                  if steps + 1#64 ≥ maxSteps then some (.ok (), p)
                  else runLoop maxSteps fuel (steps + 1#64) p
                else runLoop maxSteps fuel steps p

def run (p : RVModel xlen × M) (maxSteps : BitVec 64) (fuel : Nat) :
    Option (Except Exn Unit × RVModel xlen × M) :=
  runLoop maxSteps fuel 0#64 p

def upTo : Nat → RVModel xlen × M → Except Exn Unit × RVModel xlen × M
  | 0, p => (.ok (), p)
  | n + 1, p =>
      if p.1.halted then (.ok (), p)
      else
        match machine p with
        | (.error e, p) => (.error e, p)
        | (.ok (), p) => upTo n p

/-- Nothing is left to do: an exception escaped or the processor halted. -/
def Final (r : Except Exn Unit × RVModel xlen × M) : Prop :=
  r.1 ≠ .ok () ∨ r.2.1.halted = true

theorem upTo_halted {p : RVModel xlen × M} (stopped : p.1.halted = true) (n : Nat) :
    upTo n p = (.ok (), p) := by
  cases n with
  | zero => rfl
  | succ n => exact if_pos stopped

theorem upTo_throw {p q : RVModel xlen × M} (running : p.1.halted = false) {e : Exn}
    (stepped : machine p = (.error e, q)) (n : Nat) : upTo (n + 1) p = (.error e, q) := by
  unfold upTo
  rw [running, stepped]
  rfl

theorem upTo_step {p q : RVModel xlen × M} (running : p.1.halted = false)
    (stepped : machine p = (.ok (), q)) (n : Nat) : upTo (n + 1) p = upTo n q := by
  conv_lhs => unfold upTo
  rw [running, stepped]
  rfl

theorem upTo_add (a b : Nat) : ∀ p : RVModel xlen × M,
    upTo (a + b) p = match upTo a p with
      | (.error e, q) => (.error e, q)
      | (.ok (), q) => upTo b q := by
  induction a with
  | zero =>
    intro p
    rw [Nat.zero_add]
    rfl
  | succ a ih =>
    intro p
    rw [Nat.add_right_comm]
    by_cases stopped : p.1.halted = true
    · rw [upTo_halted stopped, upTo_halted stopped]
      exact (upTo_halted stopped b).symm
    have running : p.1.halted = false := Bool.eq_false_of_not_eq_true stopped
    rcases stepped : machine p with ⟨_ | _, q⟩
    · rw [upTo_throw running stepped, upTo_throw running stepped]
    · rw [upTo_step running stepped, upTo_step running stepped]
      exact ih q

theorem upTo_of_final {p : RVModel xlen × M} {n : Nat} (final : Final (upTo n p)) (more : Nat) :
    upTo (n + more) p = upTo n p := by
  rw [upTo_add]
  rcases stopped : upTo n p with ⟨_ | _, q⟩
  · rfl
  · rw [stopped] at final
    have halted : q.1.halted = true := final.resolve_left fun threw => threw rfl
    exact upTo_halted halted more

theorem runLoop_limited (maxSteps : BitVec 64) : ∀ (fuel : Nat) (steps : BitVec 64)
    (p : RVModel xlen × M), steps < maxSteps → maxSteps.toNat - steps.toNat ≤ fuel →
      runLoop maxSteps fuel steps p = some (upTo (maxSteps.toNat - steps.toNat) p) := by
  intro fuel
  induction fuel with
  | zero =>
    intro steps p below enough
    have less := BitVec.lt_def.mp below
    omega
  | succ fuel ih =>
    intro steps p below enough
    have less := BitVec.lt_def.mp below
    have limited : maxSteps > 0#64 := BitVec.lt_def.mpr (by rw [BitVec.toNat_zero]; omega)
    have bound := maxSteps.isLt
    have next : (steps + 1#64).toNat = steps.toNat + 1 := by
      rw [BitVec.toNat_add, BitVec.toNat_ofNat]
      omega
    obtain ⟨left, here⟩ : ∃ left, maxSteps.toNat - steps.toNat = left + 1 :=
      ⟨maxSteps.toNat - steps.toNat - 1, by omega⟩
    rw [here]
    unfold runLoop upTo
    by_cases stopped : p.1.halted = true
    · rw [if_pos stopped, if_pos stopped]
    rw [if_neg stopped, if_neg stopped]
    rcases machine p with ⟨_ | _, q⟩
    · rfl
    simp only
    rw [if_pos limited]
    by_cases last : steps + 1#64 ≥ maxSteps
    · rw [if_pos last]
      have reached := BitVec.le_def.mp last
      have none : left = 0 := by omega
      rw [none]
      rfl
    · rw [if_neg last]
      have remains := BitVec.lt_def.mp (BitVec.not_le.mp last)
      have rest : maxSteps.toNat - (steps + 1#64).toNat = left := by omega
      rw [ih (steps + 1#64) q (BitVec.not_le.mp last) (by omega), rest]

theorem runLoop_unlimited : ∀ (fuel : Nat) (steps : BitVec 64) (p : RVModel xlen × M)
    (r : Except Exn Unit × RVModel xlen × M),
      runLoop 0#64 fuel steps p = some r ↔ upTo fuel p = r ∧ Final r := by
  intro fuel
  induction fuel with
  | zero =>
    intro steps p r
    unfold runLoop upTo
    by_cases stopped : p.1.halted = true
    · rw [if_pos stopped, Option.some.injEq]
      constructor
      · rintro rfl
        exact ⟨rfl, Or.inr stopped⟩
      · exact And.left
    · rw [if_neg stopped]
      constructor
      · simp
      · rintro ⟨rfl, final⟩
        exact absurd (final.resolve_left fun threw => threw rfl) stopped
  | succ fuel ih =>
    intro steps p r
    unfold runLoop upTo
    by_cases stopped : p.1.halted = true
    · rw [if_pos stopped, if_pos stopped, Option.some.injEq]
      constructor
      · rintro rfl
        exact ⟨rfl, Or.inr stopped⟩
      · exact And.left
    rw [if_neg stopped, if_neg stopped]
    rcases machine p with ⟨_ | _, q⟩
    · simp only [Option.some.injEq]
      constructor
      · rintro rfl
        exact ⟨rfl, Or.inl (by simp)⟩
      · exact And.left
    · have unlimited : ¬(0#64 > 0#64) := by decide
      simp only [unlimited, if_false]
      exact ih steps q r

theorem upTo_counts : ∀ (n : Nat) (p : RVModel xlen × M), ¬Final (upTo n p) →
    (upTo n p).2 = stateAfter machine n p ∧
      (upTo n p).2.1.instrCount = p.1.instrCount + BitVec.ofNat 64 n := by
  intro n
  induction n with
  | zero =>
    intro p _
    exact ⟨rfl, (BitVec.add_zero _).symm⟩
  | succ n ih =>
    intro p going
    have running : p.1.halted = false := by
      by_contra stopped
      have stopped := Bool.eq_true_of_not_eq_false stopped
      rw [upTo_halted stopped] at going
      exact going (Or.inr stopped)
    have counted := step_instrCount (m := p.2) running
    change (machine p).1 = _ → (machine p).2.1.instrCount = _ ∨ _ ∧ (machine p).2.1.halted = true
      at counted
    have first : stateAfter machine (n + 1) p = stateAfter machine n (machine p).2 := rfl
    rw [first]
    rcases stepped : machine p with ⟨_ | _, q⟩
    · rw [upTo_throw running stepped] at going
      exact absurd (Or.inl (by simp)) going
    · rw [upTo_step running stepped] at going ⊢
      rw [stepped] at counted
      obtain ⟨same, count⟩ := ih q going
      refine ⟨same, count.trans ?_⟩
      rcases counted rfl with one | ⟨-, stopped⟩
      · change q.1.instrCount = _ at one
        rw [one, BitVec.add_assoc, BitVec.add_comm 1#64, ← BitVec.ofNat_add]
      · change q.1.halted = true at stopped
        rw [upTo_halted stopped] at going
        exact absurd (Or.inr stopped) going

/-- More fuel changes no result. -/
theorem runLoop_mono {maxSteps : BitVec 64} : ∀ {fuel : Nat} {steps : BitVec 64}
    {p : RVModel xlen × M} {r : Except Exn Unit × RVModel xlen × M} (more : Nat),
      runLoop maxSteps fuel steps p = some r → runLoop maxSteps (fuel + more) steps p = some r := by
  intro fuel
  induction fuel with
  | zero =>
    intro steps p r more done
    unfold runLoop at done ⊢
    by_cases stopped : p.1.halted = true
    · rw [if_pos stopped] at done ⊢
      exact done
    · rw [if_neg stopped] at done
      simp at done
  | succ fuel ih =>
    intro steps p r more done
    rw [Nat.add_right_comm]
    unfold runLoop at done ⊢
    by_cases stopped : p.1.halted = true
    · rw [if_pos stopped] at done ⊢
      exact done
    rw [if_neg stopped] at done ⊢
    rcases stepped : machine p with ⟨_ | _, q⟩
    · rw [stepped] at done
      exact done
    · rw [stepped] at done
      simp only at done ⊢
      split at done
      · rename_i limited
        rw [if_pos limited]
        split at done
        · rename_i last
          rw [if_pos last]
          exact done
        · rename_i last
          rw [if_neg last]
          exact ih more done
      · rename_i unlimited
        rw [if_neg unlimited]
        exact ih more done

/-- A call of run(maxSteps) from p ends as r says. -/
def Returns (p : RVModel xlen × M) (maxSteps : BitVec 64)
    (r : Except Exn Unit × RVModel xlen × M) : Prop :=
  ∃ fuel, run p maxSteps fuel = some r

theorem returns_limited {p : RVModel xlen × M} {maxSteps : BitVec 64} (limit : maxSteps ≠ 0#64)
    (r : Except Exn Unit × RVModel xlen × M) :
    Returns p maxSteps r ↔ upTo maxSteps.toNat p = r := by
  have below : 0#64 < maxSteps := (BitVec.pos_iff_ne_zero _).mpr limit
  have all (fuel : Nat) (enough : maxSteps.toNat ≤ fuel) :
      run p maxSteps fuel = some (upTo maxSteps.toNat p) :=
    runLoop_limited maxSteps fuel 0#64 p below enough
  constructor
  · rintro ⟨fuel, done⟩
    have same := all (fuel + maxSteps.toNat) (by omega)
    unfold run at done same
    rw [runLoop_mono maxSteps.toNat done] at same
    exact (Option.some.inj same).symm
  · rintro rfl
    exact ⟨maxSteps.toNat, all _ le_rfl⟩

theorem returns_unlimited (p : RVModel xlen × M) (r : Except Exn Unit × RVModel xlen × M) :
    Returns p 0#64 r ↔ ∃ n, upTo n p = r ∧ Final r :=
  exists_congr fun fuel => runLoop_unlimited fuel 0#64 p r

def ThenReturns (r : Except Exn Unit × RVModel xlen × M) (maxSteps : BitVec 64)
    (final : Except Exn Unit × RVModel xlen × M) : Prop :=
  match r with
  | (.error _, _) => final = r
  | (.ok (), q) => Returns q maxSteps final

theorem thenReturns_limited {r : Except Exn Unit × RVModel xlen × M} {b : BitVec 64}
    (limit : b ≠ 0#64) (final : Except Exn Unit × RVModel xlen × M) :
    ThenReturns r b final ↔ (match r with
      | (.error e, q) => (.error e, q)
      | (.ok (), q) => upTo b.toNat q) = final := by
  rcases r with ⟨_ | _, q⟩
  · exact eq_comm
  · exact returns_limited limit final

/-- A run of a steps followed by one of b, or by one without a limit, is one run: it ends where
    the single call does, with the same exception, processor and memory, and does not end where
    that does not. -/
theorem run_composes (p : RVModel xlen × M) {a b : BitVec 64} (first : a ≠ 0#64)
    (fits : a.toNat + b.toNat < 2 ^ 64) (final : Except Exn Unit × RVModel xlen × M) :
    Returns p (if b = 0#64 then 0#64 else a + b) final ↔
      ∃ r, Returns p a r ∧ ThenReturns r b final := by
  have one : (∃ r, Returns p a r ∧ ThenReturns r b final) ↔
      ThenReturns (upTo a.toNat p) b final := by
    constructor
    · rintro ⟨r, returned, next⟩
      rw [(returns_limited first r).mp returned]
      exact next
    · intro next
      exact ⟨_, (returns_limited first _).mpr rfl, next⟩
  rw [one]
  by_cases unlimited : b = 0#64
  · subst unlimited
    rw [if_pos rfl, returns_unlimited]
    constructor
    · rintro ⟨n, rfl, ends⟩
      have later := upTo_of_final ends a.toNat
      rw [Nat.add_comm, upTo_add] at later
      rcases split : upTo a.toNat p with ⟨_ | _, q⟩
      · rw [split] at later
        exact later.symm
      · rw [split] at later
        exact (returns_unlimited q _).mpr ⟨n, later, ends⟩
    · intro next
      rcases split : upTo a.toNat p with ⟨_ | _, q⟩
      · rw [split] at next
        subst next
        exact ⟨a.toNat, split, Or.inl (by simp)⟩
      · rw [split] at next
        obtain ⟨n, done, ends⟩ := (returns_unlimited q final).mp next
        refine ⟨a.toNat + n, ?_, ends⟩
        rw [upTo_add, split]
        exact done
  · have sum : (a + b).toNat = a.toNat + b.toNat := BitVec.toNat_add_of_lt fits
    have positive : 0 < a.toNat := BitVec.toNat_pos_of_ne_zero first
    have limit : a + b ≠ 0#64 := by
      intro zero
      rw [zero, BitVec.toNat_zero] at sum
      omega
    rw [if_neg unlimited, returns_limited limit, thenReturns_limited unlimited, sum, upTo_add]

def addiMachine : RVModel 32 × MemoryModel 32 Unit :=
  ((RVModel.new ⟨0#32⟩).init 0#32 8#32, .ofWords 8 [0x00700093#32] ())

theorem run_composes_addi :
    Returns addiMachine 0#64 (upTo 2 addiMachine) ∧
      (upTo 2 addiMachine).2.1.regs.get 1#5 = 7#32 := by
  refine ⟨?_, by decide⟩
  have first : Returns addiMachine 1#64 (upTo 1 addiMachine) :=
    (returns_limited (by decide) _).mpr rfl
  have rest : ThenReturns (upTo 1 addiMachine) 0#64 (upTo 2 addiMachine) :=
    (returns_unlimited (upTo 1 addiMachine).2 _).mpr ⟨1, rfl, Or.inr rfl⟩
  exact (run_composes addiMachine (b := 0#64) (by decide) (by decide) _).mpr ⟨_, first, rest⟩

/-- A call that ends with the processor running has made exactly maxSteps steps and has counted
    each of them; every other call ends by an exception or by a halt. -/
theorem run_ends {p q : RVModel xlen × M} {maxSteps : BitVec 64} {r : Except Exn Unit}
    (returned : Returns p maxSteps (r, q)) : r ≠ .ok () ∨ q.1.halted = true ∨
      maxSteps ≠ 0#64 ∧ q = stateAfter machine maxSteps.toNat p ∧
        q.1.instrCount = p.1.instrCount + maxSteps := by
  by_cases final : Final (r, q)
  · exact final.elim Or.inl fun stopped => Or.inr (Or.inl stopped)
  right
  right
  by_cases limit : maxSteps = 0#64
  · subst limit
    obtain ⟨n, -, ends⟩ := (returns_unlimited p _).mp returned
    exact absurd ends final
  · have done := (returns_limited limit _).mp returned
    have going : ¬Final (upTo maxSteps.toNat p) := by
      rw [done]
      exact final
    obtain ⟨same, count⟩ := upTo_counts maxSteps.toNat p going
    rw [done] at same count
    refine ⟨limit, same, ?_⟩
    rw [BitVec.ofNat_toNat, BitVec.setWidth_eq] at count
    exact count

theorem run_ends_addi : (upTo 1 addiMachine).2.1.instrCount = 1#64 := by
  have returned : Returns addiMachine 1#64 ((upTo 1 addiMachine).1, (upTo 1 addiMachine).2) :=
    (returns_limited (by decide) _).mpr rfl
  rcases run_ends returned with threw | stopped | ⟨-, -, count⟩
  · exact absurd rfl threw
  · exact absurd stopped (by decide)
  · exact count

end XorOS.RVModel
