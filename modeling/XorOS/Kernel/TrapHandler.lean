import XorOS.Kernel.Trap
import XorOS.Library.Delimited
import XorOS.Simulator.TrapCauses

/- trap.c: the two handler tables, the choice of a handler, and the line that panic_handler prints.
   trap_fn_t is the type of the function pointers; none is a null pointer. -/
namespace XorOS.Kernel
open ISA

def MAX_CAUSES : Nat := 16

structure TrapTables (Fn : Type) where
  exc : Fin MAX_CAUSES → Option Fn
  int : Fin MAX_CAUSES → Option Fn

inductive Registration (Fn : Type) where
  | exc (cause : BitVec 32) (fn : Option Fn)
  | int (cause : BitVec 32) (fn : Option Fn)

inductive Dispatch (Fn : Type) where
  | ecallHandler
  | registered (fn : Fn)
  | panicHandler
  deriving DecidableEq

namespace TrapTables
variable {Fn : Type}

def zeroed : TrapTables Fn := ⟨fun _ => none, fun _ => none⟩

def register (t : TrapTables Fn) : Registration Fn → TrapTables Fn
  | .exc cause fn =>
      if inside : cause.toNat < MAX_CAUSES then
        { t with exc := Function.update t.exc ⟨cause.toNat, inside⟩ fn }
      else t
  | .int cause fn =>
      if inside : cause.toNat < MAX_CAUSES then
        { t with int := Function.update t.int ⟨cause.toNat, inside⟩ fn }
      else t

def fn (t : TrapTables Fn) (mcause : BitVec 32) : Option Fn :=
  let code := mcause &&& ~~~MCAUSE_INT
  if inside : code.toNat < MAX_CAUSES then
    if mcause &&& MCAUSE_INT ≠ 0#32 then t.int ⟨code.toNat, inside⟩
    else t.exc ⟨code.toNat, inside⟩
  else none

def trapHandler (t : TrapTables Fn) (mcause : BitVec 32) : Dispatch Fn :=
  let code := mcause &&& ~~~MCAUSE_INT
  if mcause &&& MCAUSE_INT = 0#32 ∧ isEcall code then .ecallHandler
  else
    match t.fn mcause with
    | some fn => .registered fn
    | none => .panicHandler

end TrapTables

def Registration.mcause {Fn : Type} : Registration Fn → BitVec 32
  | .exc cause _ => cause
  | .int cause _ => MCAUSE_INT ||| cause

def Registration.fn {Fn : Type} : Registration Fn → Option Fn
  | .exc _ fn | .int _ fn => fn

def Registration.cause {Fn : Type} : Registration Fn → BitVec 32
  | .exc cause _ | .int cause _ => cause

/-- The function that the last accepted registration for an mcause has given. -/
def lastRegistered {Fn : Type} (calls : List (Registration Fn)) (mcause : BitVec 32) : Option Fn :=
  (calls.reverse.find? fun call => call.cause.toNat < MAX_CAUSES ∧ call.mcause = mcause).bind
    Registration.fn

section Text

def nibbleChar (n : Nat) : Char :=
  if n < 10 then Char.ofNat ('0'.toNat + n) else Char.ofNat ('a'.toNat + n - 10)

def puthexTrap (v : BitVec 32) : List Char :=
  "0x".toList ++ ([7, 6, 5, 4, 3, 2, 1, 0] : List Nat).map fun i =>
    nibbleChar ((v >>> (i * 4)) &&& 0xF#32).toNat

def causeName (mcause : BitVec 32) : String :=
  if mcause &&& MCAUSE_INT ≠ 0#32 then
    match mcause &&& ~~~MCAUSE_INT with
    | 3#32 => "M-mode software interrupt"
    | 7#32 => "M-mode timer interrupt"
    | 11#32 => "M-mode external interrupt"
    | _ => "unknown interrupt"
  else
    match mcause with
    | 0#32 => "instruction address misaligned"
    | 1#32 => "instruction access fault"
    | 2#32 => "illegal instruction"
    | 3#32 => "breakpoint"
    | 4#32 => "load address misaligned"
    | 5#32 => "load access fault"
    | 6#32 => "store address misaligned"
    | 7#32 => "store access fault"
    | 8#32 => "ecall from U-mode"
    | 9#32 => "ecall from S-mode"
    | 11#32 => "ecall from M-mode"
    | 12#32 => "instruction page fault"
    | 13#32 => "load page fault"
    | 15#32 => "store page fault"
    | _ => "unknown exception"

/-- What panic_handler writes to the UART before it halts. -/
def panicText (mcause mepc mtval : BitVec 32) : List Char :=
  "[trap] ".toList ++ (causeName mcause).toList ++ " at ".toList ++ puthexTrap mepc ++
    (if mtval ≠ 0#32 then " (".toList ++ puthexTrap mtval ++ ")".toList else []) ++ "\n".toList

end Text

section Codes

theorem code_toNat (mcause : BitVec 32) :
    (mcause &&& ~~~MCAUSE_INT).toNat = mcause.toNat % 2 ^ 31 := by
  have mask : (~~~MCAUSE_INT).toNat = 2 ^ 31 - 1 := by decide
  rw [BitVec.toNat_and, mask, Nat.and_two_pow_sub_one_eq_mod]

theorem interrupt_iff (mcause : BitVec 32) :
    mcause &&& MCAUSE_INT ≠ 0#32 ↔ 2 ^ 31 ≤ mcause.toNat := by
  have mask : MCAUSE_INT = BitVec.twoPow 32 31 := by decide
  have high : mcause.getLsbD 31 = decide (2 ^ 31 ≤ mcause.toNat) := by
    have msb := BitVec.msb_eq_decide mcause
    rwa [BitVec.msb_eq_getLsbD_last] at msb
  rw [mask, BitVec.and_twoPow, high]
  by_cases large : 2 ^ 31 ≤ mcause.toNat
  · simp only [large, decide_true, if_true, iff_true]
    decide
  · simp only [large, decide_false, iff_false]
    decide

theorem toNat_int_or {cause : BitVec 32} (small : cause.toNat < MAX_CAUSES) :
    (MCAUSE_INT ||| cause).toNat = 2 ^ 31 + cause.toNat := by
  have bit : MCAUSE_INT.toNat = 2 ^ 31 * 1 := by decide
  have below : cause.toNat < 2 ^ 31 := Nat.lt_trans small (by decide)
  rw [BitVec.toNat_or, bit, ← Nat.two_pow_add_eq_or_of_lt below, Nat.mul_one]

end Codes

namespace TrapTables
variable {Fn : Type} (t : TrapTables Fn) {mcause : BitVec 32}

theorem fn_exception (small : mcause.toNat < MAX_CAUSES) :
    t.fn mcause = t.exc ⟨mcause.toNat, small⟩ := by
  have below : mcause.toNat < 2 ^ 31 := Nat.lt_trans small (by decide)
  have code : (mcause &&& ~~~MCAUSE_INT).toNat = mcause.toNat :=
    (code_toNat mcause).trans (Nat.mod_eq_of_lt below)
  have exception : ¬ mcause &&& MCAUSE_INT ≠ 0#32 := by
    rw [interrupt_iff]
    omega
  unfold fn
  simp only [code]
  rw [dif_pos small, if_neg exception]

theorem fn_interrupt {code : Nat} (small : code < MAX_CAUSES)
    (interrupt : mcause.toNat = 2 ^ 31 + code) : t.fn mcause = t.int ⟨code, small⟩ := by
  have below : code < 2 ^ 31 := Nat.lt_trans small (by decide)
  have value : (mcause &&& ~~~MCAUSE_INT).toNat = code := by
    rw [code_toNat, interrupt, Nat.add_mod_left, Nat.mod_eq_of_lt below]
  have set : mcause &&& MCAUSE_INT ≠ 0#32 := by
    rw [interrupt_iff]
    omega
  unfold fn
  simp only [value]
  rw [dif_pos small, if_pos set]

theorem fn_outside (large : ¬ mcause.toNat % 2 ^ 31 < MAX_CAUSES) : t.fn mcause = none := by
  unfold fn
  simp only [code_toNat]
  rw [dif_neg large]

theorem register_exc {cause : BitVec 32} (inside : cause.toNat < MAX_CAUSES) (fn : Option Fn) :
    t.register (.exc cause fn) =
      { t with exc := Function.update t.exc ⟨cause.toNat, inside⟩ fn } := dif_pos inside

theorem register_int {cause : BitVec 32} (inside : cause.toNat < MAX_CAUSES) (fn : Option Fn) :
    t.register (.int cause fn) =
      { t with int := Function.update t.int ⟨cause.toNat, inside⟩ fn } := dif_pos inside

theorem register_outside {call : Registration Fn} (outside : ¬ call.cause.toNat < MAX_CAUSES) :
    t.register call = t := by
  cases call with
  | exc cause fn => exact dif_neg outside
  | int cause fn => exact dif_neg outside

theorem fn_register (call : Registration Fn) (mcause : BitVec 32) :
    (t.register call).fn mcause =
      if call.cause.toNat < MAX_CAUSES ∧ call.mcause = mcause then call.fn else t.fn mcause := by
  by_cases inside : call.cause.toNat < MAX_CAUSES
  swap
  · rw [if_neg fun both => inside both.1, register_outside t inside]
  have bound := mcause.isLt
  cases call with
  | exc cause fn =>
    replace inside : cause.toNat < MAX_CAUSES := inside
    have below : cause.toNat < 16 := inside
    rw [register_exc t inside]
    by_cases small : mcause.toNat < MAX_CAUSES
    · rw [fn_exception _ small, fn_exception _ small]
      have same : (⟨mcause.toNat, small⟩ : Fin MAX_CAUSES) = ⟨cause.toNat, inside⟩ ↔
          cause.toNat < MAX_CAUSES ∧ cause = mcause := by
        rw [Fin.mk.injEq, ← BitVec.toNat_inj]
        exact ⟨fun eq => ⟨inside, eq.symm⟩, fun both => both.2.symm⟩
      exact (Function.update_apply _ _ _ _).trans (if_congr same rfl rfl)
    · have other : cause ≠ mcause := by
        rintro rfl
        exact small inside
      rw [if_neg fun both => other both.2]
      by_cases listed : mcause.toNat % 2 ^ 31 < MAX_CAUSES
      · -- an interrupt, which is looked up in the other table
        have interrupt : mcause.toNat = 2 ^ 31 + mcause.toNat % 2 ^ 31 := by
          unfold MAX_CAUSES at small listed
          omega
        rw [fn_interrupt _ listed interrupt, fn_interrupt _ listed interrupt]
      · rw [fn_outside _ listed, fn_outside _ listed]
  | int cause fn =>
    replace inside : cause.toNat < MAX_CAUSES := inside
    have below : cause.toNat < 16 := inside
    have value := toNat_int_or inside
    rw [register_int t inside]
    by_cases interrupt : 2 ^ 31 ≤ mcause.toNat ∧ mcause.toNat % 2 ^ 31 < MAX_CAUSES
    · obtain ⟨set, listed⟩ := interrupt
      have split : mcause.toNat = 2 ^ 31 + mcause.toNat % 2 ^ 31 := by omega
      rw [fn_interrupt _ listed split, fn_interrupt _ listed split]
      have same : (⟨mcause.toNat % 2 ^ 31, listed⟩ : Fin MAX_CAUSES) = ⟨cause.toNat, inside⟩ ↔
          cause.toNat < MAX_CAUSES ∧ MCAUSE_INT ||| cause = mcause := by
        rw [Fin.mk.injEq, ← BitVec.toNat_inj, value]
        exact ⟨fun eq => ⟨inside, by omega⟩, fun both => by omega⟩
      exact (Function.update_apply _ _ _ _).trans (if_congr same rfl rfl)
    · have other : MCAUSE_INT ||| cause ≠ mcause := by
        rintro rfl
        apply interrupt
        unfold MAX_CAUSES
        omega
      rw [if_neg fun both => other both.2]
      by_cases small : mcause.toNat < MAX_CAUSES
      · rw [fn_exception _ small, fn_exception _ small]
      · have outside : ¬ mcause.toNat % 2 ^ 31 < MAX_CAUSES := by
          unfold MAX_CAUSES at small interrupt ⊢
          omega
        rw [fn_outside _ outside, fn_outside _ outside]

theorem fn_zeroed (mcause : BitVec 32) : (zeroed : TrapTables Fn).fn mcause = none := by
  unfold fn
  simp only [zeroed, ite_self, dite_eq_ite]

theorem fn_history (calls : List (Registration Fn)) (mcause : BitVec 32) :
    (calls.foldl register zeroed).fn mcause = lastRegistered calls mcause := by
  induction calls using List.reverseRecOn with
  | nil => exact fn_zeroed mcause
  | append_singleton calls call ih =>
    rw [List.foldl_append, List.foldl_cons, List.foldl_nil, fn_register, ih]
    unfold lastRegistered
    rw [List.reverse_append, List.reverse_singleton, List.singleton_append, List.find?_cons]
    by_cases named : call.cause.toNat < MAX_CAUSES ∧ call.mcause = mcause
    · simp only [named, and_self, decide_true, if_true, Option.bind_some]
    · simp only [if_neg named, decide_eq_false named]

omit t in
theorem ecall_code (mcause : BitVec 32) :
    (mcause &&& MCAUSE_INT = 0#32 ∧ isEcall (mcause &&& ~~~MCAUSE_INT)) ↔ isEcall mcause := by
  have interrupt := interrupt_iff mcause
  have code := code_toNat mcause
  by_cases exception : mcause &&& MCAUSE_INT = 0#32
  · have small : mcause.toNat < 2 ^ 31 := by
      by_contra large
      exact interrupt.mpr (Nat.not_lt.mp large) exception
    have same : mcause &&& ~~~MCAUSE_INT = mcause :=
      BitVec.eq_of_toNat_eq (code.trans (Nat.mod_eq_of_lt small))
    rw [same]
    exact and_iff_right exception
  · have large := interrupt.mp exception
    constructor
    · intro both
      exact absurd both.1 exception
    · intro ecall
      unfold isEcall at ecall
      have listed : mcause = 8#32 ∨ mcause = 9#32 ∨ mcause = 11#32 := of_decide_eq_true ecall
      exfalso
      rcases listed with rfl | rfl | rfl <;> exact absurd large (by decide)

theorem trapHandler_eq (mcause : BitVec 32) :
    t.trapHandler mcause =
      if isEcall mcause then .ecallHandler
      else match t.fn mcause with
        | some fn => .registered fn
        | none => .panicHandler :=
  if_congr (ecall_code mcause) rfl rfl

omit t in
/-- What trap_handler calls after any registrations at all: ecall_handler for an ecall, which no
    registration changes, or the function registered last for this mcause, or panic_handler. -/
theorem dispatch_history (calls : List (Registration Fn)) (mcause : BitVec 32) :
    (calls.foldl register zeroed).trapHandler mcause =
      if isEcall mcause then .ecallHandler
      else match lastRegistered calls mcause with
        | some fn => .registered fn
        | none => .panicHandler := by
  rw [trapHandler_eq, fn_history]

omit t in
/-- kernel_main registers timer_handler for interrupt 7 and nothing else. -/
theorem trapHandler_kernel_main (timer : Fn) (mcause : BitVec 32) :
    ((zeroed : TrapTables Fn).register (.int 7#32 (some timer))).trapHandler mcause =
      match Kernel.trapHandler mcause with
      | .ecallHandler => .ecallHandler
      | .timerHandler => .registered timer
      | .panicHandler => .panicHandler := by
  rw [trapHandler_eq, fn_register, fn_zeroed]
  unfold Kernel.trapHandler
  simp only
  by_cases ecall : isEcall mcause
  · rw [if_pos ecall, if_pos ((ecall_code mcause).mpr ecall)]
  rw [if_neg ecall, if_neg fun both => ecall ((ecall_code mcause).mp both)]
  have accepted : (7#32).toNat < MAX_CAUSES := by decide
  have named : ((7#32).toNat < MAX_CAUSES ∧ MCAUSE_INT ||| 7#32 = mcause) ↔
      mcause &&& MCAUSE_INT ≠ 0#32 ∧ mcause &&& ~~~MCAUSE_INT = 7#32 := by
    have bound := mcause.isLt
    have seven : (7#32).toNat = 7 := rfl
    rw [and_iff_right accepted, interrupt_iff, ← BitVec.toNat_inj, ← BitVec.toNat_inj, code_toNat,
      toNat_int_or accepted, seven]
    omega
  change (match if (7#32).toNat < MAX_CAUSES ∧ MCAUSE_INT ||| 7#32 = mcause then some timer
    else none with
      | some fn => Dispatch.registered fn
      | none => .panicHandler) = _
  by_cases own : (7#32).toNat < MAX_CAUSES ∧ MCAUSE_INT ||| 7#32 = mcause
  · rw [if_pos own, if_pos (named.mp own)]
  · rw [if_neg own, if_neg fun both => own (named.mpr both)]

end TrapTables

section Panic

theorem puthexTrap_eq (v : BitVec 32) :
    puthexTrap v = "0x".toList ++ Text.digits 16 8 v.toNat := by
  have digit : ∀ n < 16, nibbleChar n = Nat.digitChar n := by decide
  have nibble (i : Nat) : nibbleChar ((v >>> (i * 4)) &&& 0xF#32).toNat =
      Nat.digitChar (v.toNat / 16 ^ i % 16) := by
    have mask : (0xF#32).toNat = 2 ^ 4 - 1 := by decide
    have power : 2 ^ (i * 4) = 16 ^ i := by
      rw [Nat.mul_comm, Nat.pow_mul]
    rw [BitVec.toNat_and, mask, Nat.and_two_pow_sub_one_eq_mod, BitVec.toNat_ushiftRight,
      Nat.shiftRight_eq_div_pow, power]
    exact digit _ (Nat.mod_lt _ (by decide))
  unfold puthexTrap
  congr 1
  simp only [List.map_cons, List.map_nil, nibble, Text.digits, List.nil_append, List.cons_append,
    Nat.div_div_eq_div_mul]
  norm_num

theorem delimits_puthexTrap : Text.Delimits puthexTrap := by
  intro u v x y same
  rw [puthexTrap_eq, puthexTrap_eq, List.append_assoc, List.append_assoc] at same
  exact Text.delimits_word (by decide) (List.append_cancel_left same)

def causeNames : List String :=
  ["M-mode software interrupt", "M-mode timer interrupt", "M-mode external interrupt",
    "unknown interrupt", "instruction address misaligned", "instruction access fault",
    "illegal instruction", "breakpoint", "load address misaligned", "load access fault",
    "store address misaligned", "store access fault", "ecall from U-mode", "ecall from S-mode",
    "ecall from M-mode", "instruction page fault", "load page fault", "store page fault",
    "unknown exception"]

theorem causeName_listed (mcause : BitVec 32) : causeName mcause ∈ causeNames := by
  unfold causeName
  split
  · split <;> simp only [causeNames, List.mem_cons, true_or, or_true]
  · split <;> simp only [causeNames, List.mem_cons, true_or, or_true]

theorem causeNames_apart : ∀ a ∈ causeNames, ∀ b ∈ causeNames,
    a.toList ++ " at ".toList <+: b.toList ++ " at ".toList → a = b := by decide +kernel

/-- The line shows the name, mepc and mtval, whatever the cause is. -/
theorem panicText_shows {mcause mcause' mepc mepc' mtval mtval' : BitVec 32}
    (same : panicText mcause mepc mtval = panicText mcause' mepc' mtval') :
    causeName mcause = causeName mcause' ∧ mepc = mepc' ∧ mtval = mtval' := by
  unfold panicText at same
  simp only [List.append_assoc] at same
  have texts := List.append_cancel_left same
  simp only [← List.append_assoc (causeName _).toList] at texts
  have name : causeName mcause = causeName mcause' := by
    rcases List.prefix_or_prefix_of_prefix (List.prefix_append _ _)
        (texts ▸ List.prefix_append _ _) with shorter | longer
    · exact (causeNames_apart _ (causeName_listed mcause') _ (causeName_listed mcause) shorter).symm
    · exact causeNames_apart _ (causeName_listed mcause) _ (causeName_listed mcause') longer
  rw [name] at texts
  obtain ⟨rfl, values⟩ := delimits_puthexTrap (List.append_cancel_left texts)
  refine ⟨name, rfl, ?_⟩
  by_cases zero : mtval = 0#32
  · by_cases zero' : mtval' = 0#32
    · rw [zero, zero']
    · simp [zero, zero'] at values
  · by_cases zero' : mtval' = 0#32
    · simp [zero, zero'] at values
    · rw [if_pos zero, if_pos zero', List.append_assoc, List.append_assoc, List.append_assoc,
        List.append_assoc] at values
      exact (delimits_puthexTrap (List.append_cancel_left values)).1

theorem causeName_raised {c c' : BitVec 32} (listed : c ∈ RVModel.raised)
    (listed' : c' ∈ RVModel.raised) (same : causeName c = causeName c') : c = c' := by
  have table : RVModel.raised.all (fun c => RVModel.raised.all fun c' =>
      decide ((causeName c).toList = (causeName c').toList → c = c')) = true := by decide +kernel
  have row := List.all_eq_true.mp (List.all_eq_true.mp table c listed) c' listed'
  exact of_decide_eq_true row (congrArg String.toList same)

variable {M M' : Type} [MemT 32 M] [MemT 32 M']

/-- Two traps of step() with the same panic line have the same cause, the same pc and the same
    mtval, on any two machines. -/
theorem panic_tells_trap (s s' : RVModel 32) (m : M) (m' : M')
    (vector : s.csr.getMTVEC ≠ 0#32) (vector' : s'.csr.getMTVEC ≠ 0#32)
    (trap : (s.step m).2.1.trapCount ≠ s.trapCount)
    (trap' : (s'.step m').2.1.trapCount ≠ s'.trapCount)
    (same :
      let csr := (s.step m).2.1.csr
      let csr' := (s'.step m').2.1.csr
      panicText (csr.read CSR.MCAUSE) (csr.read CSR.MEPC) (csr.read CSR.MTVAL) =
        panicText (csr'.read CSR.MCAUSE) (csr'.read CSR.MEPC) (csr'.read CSR.MTVAL)) :
    (s.step m).2.1.csr.read CSR.MCAUSE = (s'.step m').2.1.csr.read CSR.MCAUSE ∧ s.pc = s'.pc ∧
      (s.step m).2.1.csr.read CSR.MTVAL = (s'.step m').2.1.csr.read CSR.MTVAL := by
  obtain ⟨cause, listed, tval, fired⟩ := (RVModel.step_raises s m).resolve_left trap
  obtain ⟨cause', listed', tval', fired'⟩ := (RVModel.step_raises s' m').resolve_left trap'
  obtain ⟨mcause, mtval⟩ := RVModel.trap_reports vector fired
  obtain ⟨mcause', mtval'⟩ := RVModel.trap_reports vector' fired'
  have mepc : (s.step m).2.1.csr.read CSR.MEPC = s.pc := by
    rw [RVModel.csr_of_trap vector fired]
    exact RVModel.regs_trapCsr _ _ _ _ _ CSR.MEPC
  have mepc' : (s'.step m').2.1.csr.read CSR.MEPC = s'.pc := by
    rw [RVModel.csr_of_trap vector' fired']
    exact RVModel.regs_trapCsr _ _ _ _ _ CSR.MEPC
  simp only [mcause, mcause', mepc, mepc', mtval, mtval'] at same ⊢
  obtain ⟨names, pcs, values⟩ := panicText_shows same
  exact ⟨causeName_raised listed listed' names, pcs, values⟩

def illegalImage (size : Nat) : MemoryModel 32 Unit := .ofWords size [0xFFFFFFFF#32] ()

def vectoredCpu (mtvec : BitVec 32) : RVModel 32 :=
  { RVModel.new ⟨0#32⟩ with csr := CsrFile.new.put CSR.MTVEC mtvec }

theorem panic_tells_trap_illegal :
    ((vectoredCpu 8#32).step (illegalImage 8)).2.1.csr.read CSR.MCAUSE =
        ((vectoredCpu 12#32).step (illegalImage 16)).2.1.csr.read CSR.MCAUSE ∧
      (vectoredCpu 8#32).pc = (vectoredCpu 12#32).pc ∧
      ((vectoredCpu 8#32).step (illegalImage 8)).2.1.csr.read CSR.MTVAL =
        ((vectoredCpu 12#32).step (illegalImage 16)).2.1.csr.read CSR.MTVAL :=
  panic_tells_trap (vectoredCpu 8#32) (vectoredCpu 12#32) (illegalImage 8) (illegalImage 16)
    (by decide) (by decide) (by decide) (by decide) (by decide +kernel)

end Panic

end XorOS.Kernel
