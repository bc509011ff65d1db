import XorOS.Library.Delimited
import XorOS.Simulator.Mnemonics
import XorOS.Simulator.TrapCauses
import XorOS.System.RunOs

/- dumper.hpp, the lines of the trace file, and main.cpp, the hooks of run_os that write them:
   what the file of a run says, and what can be read back from it. -/
namespace XorOS

namespace Dumper

/-- EXC_BREAKPOINT of csr_file.hpp, which the processor never fires. -/
def EXC_BREAKPOINT : Nat := 0b0011

def causeName (cause : BitVec 32) : String :=
  let is_int := cause &&& uword CSR.MCAUSE_INTERRUPT ≠ 0#32
  let code := cause &&& ~~~uword CSR.MCAUSE_INTERRUPT
  if is_int then
    if code = 3#32 then "INT_SW_M"
    else if code = 7#32 then "INT_TIMER_M"
    else if code = 11#32 then "INT_EXT_M"
    else "INT_?"
  else if code = uword CSR.EXC_INSN_MISALIGN then "EXC_INSN_MISALIGN"
  else if code = uword CSR.EXC_INSN_FAULT then "EXC_INSN_FAULT"
  else if code = uword CSR.EXC_ILLEGAL_INSN then "EXC_ILLEGAL_INSN"
  else if code = uword EXC_BREAKPOINT then "EXC_BREAKPOINT"
  else if code = uword CSR.EXC_LOAD_MISALIGN then "EXC_LOAD_MISALIGN"
  else if code = uword CSR.EXC_LOAD_FAULT then "EXC_LOAD_FAULT"
  else if code = uword CSR.EXC_STORE_MISALIGN then "EXC_STORE_MISALIGN"
  else if code = uword CSR.EXC_STORE_FAULT then "EXC_STORE_FAULT"
  else if code = uword CSR.EXC_ECALL_U then "EXC_ECALL_U"
  else if code = uword CSR.EXC_ECALL_S then "EXC_ECALL_S"
  else if code = uword CSR.EXC_ECALL_M then "EXC_ECALL_M"
  else if code = uword CSR.EXC_INSN_PAGE_FAULT then "EXC_INSN_PAGE_FAULT"
  else if code = uword CSR.EXC_LOAD_PAGE_FAULT then "EXC_LOAD_PAGE_FAULT"
  else if code = uword CSR.EXC_STORE_PAGE_FAULT then "EXC_STORE_PAGE_FAULT"
  else "EXC_?"

def setw8 (v : BitVec 32) : List Char := (hexPadded v.toNat).toList

def decimal (v : BitVec 64) : List Char := Nat.toDigits 10 v.toNat

def onStep (pc : BitVec 32) (disasm : String) : List Char :=
  ["[".toList, setw8 pc, "] ".toList, disasm.toList ++ ['\n']].flatten

def onTrapEtl (cause mepc mtval : BitVec 32) (mtime : BitVec 64) : List Char :=
  ["!TRAP".toList, "  cause=0x".toList, setw8 cause, " (".toList, (causeName cause).toList,
    ")".toList, "  mepc=0x".toList, setw8 mepc, "  mtval=0x".toList, setw8 mtval,
    "  mtime=".toList, decimal mtime ++ ['\n']].flatten

/-- What a line of the trace file stands for. -/
inductive Event where
  | step (pc : BitVec 32) (disasm : String) (line : '\n' ∉ disasm.toList)
  | trap (cause mepc mtval : BitVec 32) (mtime : BitVec 64)

def Event.text : Event → List Char
  | .step pc disasm _ => onStep pc disasm
  | .trap cause mepc mtval mtime => onTrapEtl cause mepc mtval mtime

theorem setw8_eq (v : BitVec 32) : setw8 v = Text.digits 16 8 v.toNat := by
  unfold setw8 hexPadded
  simp only [String.toList_ofList]
  exact Text.padded_toDigits (by decide) (by decide) v.isLt

theorem delimits_setw8 : Text.Delimits setw8 := by
  intro u v x y same
  rw [setw8_eq, setw8_eq] at same
  exact Text.delimits_word (by decide) same

theorem delimits_decimal : Text.Delimits fun t => decimal t ++ ['\n'] := by
  apply Text.Delimits.closed
  · intro t newline
    obtain ⟨d, small, same⟩ := Text.mem_toDigits (by decide) _ _ newline
    have digits : ∀ i < 10, '\n' ≠ Nat.digitChar i := by decide
    exact digits d small same
  · intro t u same
    exact BitVec.eq_of_toNat_eq (Text.toDigits_injective (by decide) (by decide) _ same)

theorem delimits_line :
    Text.Delimits fun s : { s : String // '\n' ∉ s.toList } => s.val.toList ++ ['\n'] :=
  Text.Delimits.closed Subtype.prop fun _ _ same => Subtype.ext (String.toList_inj.mp same)

theorem onStep_starts (pc : BitVec 32) (disasm : String) :
    ∃ rest, onStep pc disasm = '[' :: rest := by
  have bracket : "[".toList = ['['] := by decide
  unfold onStep
  rw [bracket]
  exact ⟨_, rfl⟩

theorem onTrapEtl_starts (cause mepc mtval : BitVec 32) (mtime : BitVec 64) :
    ∃ rest, onTrapEtl cause mepc mtval mtime = '!' :: rest := by
  have mark : "!TRAP".toList = '!' :: "TRAP".toList := by decide
  unfold onTrapEtl
  rw [mark]
  exact ⟨_, rfl⟩

theorem step_ne_trap (pc : BitVec 32) (disasm : String) (cause mepc mtval : BitVec 32)
    (mtime : BitVec 64) (x y : List Char) :
    onStep pc disasm ++ x ≠ onTrapEtl cause mepc mtval mtime ++ y := by
  obtain ⟨rest, step⟩ := onStep_starts pc disasm
  obtain ⟨rest', trap⟩ := onTrapEtl_starts cause mepc mtval mtime
  rw [step, trap]
  intro same
  have first : '[' = '!' := (List.cons.inj same).1
  exact absurd first (by decide)

theorem delimits_event : Text.Delimits Event.text := by
  intro e f x y same
  cases e with
  | step pc disasm line =>
    cases f with
    | step pc' disasm' line' =>
      change onStep pc disasm ++ x = onStep pc' disasm' ++ y at same
      obtain ⟨rfl, rest⟩ := delimits_setw8.piece (Text.skip same)
      obtain ⟨lines, tails⟩ :=
        delimits_line.piece (a := ⟨disasm, line⟩) (b := ⟨disasm', line'⟩) (Text.skip rest)
      obtain rfl := congrArg Subtype.val lines
      exact ⟨rfl, tails⟩
    | trap cause mepc mtval mtime =>
      exact absurd same (step_ne_trap pc disasm cause mepc mtval mtime x y)
  | trap cause mepc mtval mtime =>
    cases f with
    | step pc disasm line =>
      exact absurd same.symm (step_ne_trap pc disasm cause mepc mtval mtime y x)
    | trap cause' mepc' mtval' mtime' =>
      change onTrapEtl cause mepc mtval mtime ++ x = onTrapEtl cause' mepc' mtval' mtime' ++ y
        at same
      obtain ⟨rfl, afterCause⟩ := delimits_setw8.piece (Text.skip (Text.skip same))
      -- the name is that of the cause, which has been read
      have address := Text.skip (Text.skip (Text.skip (Text.skip afterCause)))
      obtain ⟨rfl, afterMepc⟩ := delimits_setw8.piece address
      obtain ⟨rfl, afterMtval⟩ := delimits_setw8.piece (Text.skip afterMepc)
      obtain ⟨rfl, tails⟩ := delimits_decimal.piece (Text.skip afterMtval)
      exact ⟨rfl, tails⟩

theorem text_ne_nil (e : Event) : e.text ≠ [] := by
  cases e with
  | step pc disasm line =>
    obtain ⟨rest, starts⟩ := onStep_starts pc disasm
    exact ne_of_eq_of_ne starts (List.cons_ne_nil _ _)
  | trap cause mepc mtval mtime =>
    obtain ⟨rest, starts⟩ := onTrapEtl_starts cause mepc mtval mtime
    exact ne_of_eq_of_ne starts (List.cons_ne_nil _ _)

theorem file_injective : Function.Injective fun events : List Event => events.flatMap Event.text :=
  delimits_event.flatMap text_ne_nil

end Dumper

namespace Disasm
open ISA

def OneLine (s : String) : Prop := '\n' ∉ s.toList

instance (s : String) : Decidable (OneLine s) := inferInstanceAs (Decidable ('\n' ∉ s.toList))

theorem oneLine_append_iff (s t : String) : OneLine (s ++ t) ↔ OneLine s ∧ OneLine t := by
  unfold OneLine
  rw [String.toList_append, List.mem_append, not_or]

theorem oneLine_append {s t : String} (first : OneLine s) (second : OneLine t) :
    OneLine (s ++ t) := (oneLine_append_iff s t).mpr ⟨first, second⟩

theorem oneLine_regName (r : BitVec 5) : OneLine (regName r) := by
  unfold OneLine
  revert r
  decide

theorem oneLine_int (i : Int) : OneLine (toString i) := by
  intro newline
  rcases Text.mem_repr i newline with sign | digit
  · cases sign
  · cases digit

theorem oneLine_nat (n : Nat) : OneLine (toString n) := oneLine_int n

theorem oneLine_digits (n : Nat) : '\n' ∉ Nat.toDigits 16 n := by
  intro newline
  obtain ⟨digit, small, same⟩ := Text.mem_toDigits (by decide) n _ newline
  have digits : ∀ i < 16, '\n' ≠ Nat.digitChar i := by decide
  exact digits digit small same

theorem oneLine_toHex (n : Nat) : OneLine (toHex n) := by
  unfold toHex
  refine oneLine_append (by decide) ?_
  unfold OneLine
  rw [String.toList_ofList]
  exact oneLine_digits n

theorem oneLine_hexPadded (n : Nat) : OneLine (hexPadded n) := by
  unfold hexPadded OneLine
  simp only [String.toList_ofList, List.mem_append, not_or]
  refine ⟨fun newline => ?_, oneLine_digits n⟩
  exact absurd (List.eq_of_mem_replicate newline) (by decide)

theorem oneLine_csrName (a : BitVec 12) : OneLine (csrName a) := by
  rcases csrName_cases a with row | hex
  · have rows : ∀ row ∈ csrNames, '\n' ∉ row.2.toList := by decide
    exact rows _ row
  · rw [hex]
    exact oneLine_toHex _

theorem oneLine_listed {parts : List String} (clean : ∀ x ∈ parts, OneLine x) :
    OneLine (Text.listed parts) := by
  induction parts with
  | nil => exact List.not_mem_nil
  | cons x rest ih =>
    refine oneLine_append (oneLine_append (by decide) (clean x List.mem_cons_self)) ?_
    exact ih fun y member => clean y (List.mem_cons_of_mem x member)

theorem oneLine_line {head : String} {parts : List String} (plain : OneLine head)
    (clean : ∀ x ∈ parts, OneLine x) : OneLine (Text.line head parts) := by
  cases parts with
  | nil => exact plain
  | cons x rest =>
    have first := clean x List.mem_cons_self
    refine oneLine_append (oneLine_append (oneLine_append plain (by decide)) first) ?_
    exact oneLine_listed fun y member => clean y (List.mem_cons_of_mem x member)

theorem oneLine_text (k : Mnemonic) : OneLine k.text := by
  have plain : ∀ k ∈ Mnemonic.all, '\n' ∉ k.text.toList := by decide
  exact plain k (Mnemonic.mem_all k)

variable (d : DecodedInstr 32)

theorem oneLine_csrArg (f : Funct3CSR) : OneLine (csrArg d f) := by
  cases f with
  | csrrw => exact oneLine_regName _
  | csrrs => exact oneLine_regName _
  | csrrc => exact oneLine_regName _
  | csrrwi => exact oneLine_nat _
  | csrrsi => exact oneLine_nat _
  | csrrci => exact oneLine_nat _

theorem oneLine_offsetText : OneLine (offsetText d) :=
  oneLine_append (oneLine_append (oneLine_append (oneLine_int _) (by decide))
    (oneLine_regName _)) (by decide)

theorem oneLine_pointerText : OneLine (pointerText d) :=
  oneLine_append (oneLine_append (by decide) (oneLine_regName _)) (by decide)

theorem oneLine_operands (k : Mnemonic) : ∀ x ∈ operands d k, OneLine x := by
  unfold operands
  split
  all_goals simp only [List.forall_mem_cons, List.not_mem_nil, false_imp_iff, implies_true,
    and_true, oneLine_regName, oneLine_offsetText, oneLine_pointerText, oneLine_nat, oneLine_int,
    oneLine_csrArg, immText, csrText, oneLine_csrName]

theorem oneLine_disassemble : OneLine (disassemble d) := by
  unfold disassemble
  rw [known_eq]
  cases which : mnemonic d with
  | none =>
    have fields : OneLine d.toString := by
      unfold DecodedInstr.toString
      simp only [oneLine_append_iff, oneLine_hexPadded, oneLine_toHex, oneLine_nat, oneLine_int,
        and_true]
      decide
    exact oneLine_append (by decide) fields
  | some k => exact oneLine_line (oneLine_text k) (oneLine_operands d k)

end Disasm

namespace RunOs
open RVModel Dumper Kernel

def hookText (mtime : BitVec 64) : HookCall 32 → List Char
  | .step pc dis => onStep pc dis
  | .trap cause mepc mtval => onTrapEtl cause mepc mtval mtime

/-- What a turn appends to the file: the calls out of step(), and after ++mtime the one out of
    triggerInterrupt(). -/
def turnText (s : OsRun) : List Char :=
  let stepped := (s.cpu.step s.cache).2.1
  let s' := (turn s).2
  (stepped.hookCalls.drop s.cpu.hookCalls.length).flatMap (hookText s.dev.mtime) ++
    (s'.cpu.hookCalls.drop stepped.hookCalls.length).flatMap (hookText s'.dev.mtime)

/-- The trace file after n turns, fewer if the loop has ended. -/
def traceFile : Nat → OsRun → List Char
  | 0, _ => []
  | n + 1, s =>
      if s.cpu.halted then []
      else turnText s ++
        match turn s with
        | (.ok _, s') => traceFile n s'
        | (.error _, _) => []

def instrEvents (s : OsRun) : List Event :=
  match s.cpu.fetched s.cache with
  | some raw =>
      [.step s.cpu.pc (Disasm.disassemble (Decoder.decode 32 raw)) (Disasm.oneLine_disassemble _)]
  | none => []

/-- The trap between two processor states: without a vector it halts, otherwise the CSRs hold
    what its line says. -/
inductive TrapEvents (s s' : RVModel 32) (now : BitVec 64) : List Event → Prop
  | none (same : s'.trapCount = s.trapCount) : TrapEvents s s' now []
  | one {cause mepc mtval : BitVec 32} (count : s'.trapCount = s.trapCount + 1)
      (halts : s'.csr.getMTVEC = 0#32 → s'.halted = true)
      (csrs : s'.csr.getMTVEC ≠ 0#32 → s'.csr.read CSR.MCAUSE = cause ∧
        s'.csr.read CSR.MEPC = mepc ∧ s'.csr.read CSR.MTVAL = mtval) :
      TrapEvents s s' now [.trap cause mepc mtval now]

/-- Events that tell the first n turns of the loop from s on. -/
inductive Tells : Nat → OsRun → List Event → Prop
  | unwatched (s : OsRun) : Tells 0 s []
  | halted {n : Nat} {s : OsRun} (stopped : s.cpu.halted = true) : Tells (n + 1) s []
  | escaped {n : Nat} {s s' : OsRun} {e : Exn} {traps : List Event}
      (running : s.cpu.halted = false) (turned : turn s = (.error e, s'))
      (trap : TrapEvents s.cpu s'.cpu s.dev.mtime traps) : Tells (n + 1) s (instrEvents s ++ traps)
  | turned {n : Nat} {s s' : OsRun} {taken : Bool} {traps rest : List Event}
      (running : s.cpu.halted = false) (turned : turn s = (.ok taken, s'))
      (trap : TrapEvents s.cpu s'.cpu (if taken then s'.dev.mtime else s.dev.mtime) traps)
      (next : Tells n s' rest) : Tells (n + 1) s (instrEvents s ++ traps ++ rest)

structure Traced (cpu : RVModel 32) : Prop where
  stepHook : cpu.stepHook = true
  trapHook : cpu.trapHook = true

theorem traced_step {s : RVModel 32} (traced : Traced s) (c : CacheModel 32 OsDevice) :
    Traced (s.step c).2.1 :=
  ⟨(step_log s c).stepHook.trans traced.stepHook, (step_log s c).trapHook.trans traced.trapHook⟩

theorem traced_fireTrap {s : RVModel 32} (traced : Traced s) (cause tval : BitVec 32) :
    Traced (s.fireTrap cause tval) := by
  have kept := observer_fireTrap s cause tval
  exact ⟨(congrArg Observer.stepHook kept).trans traced.stepHook,
    (congrArg Observer.trapHook kept).trans traced.trapHook⟩

theorem trapEvents_of_trap {s s' : RVModel 32} {cause tval : BitVec 32} (now : BitVec 64)
    (same : arch s' = arch (s.fireTrap cause tval)) :
    TrapEvents s s' now [.trap cause s.pc tval now] := by
  by_cases vector : s.csr.getMTVEC = 0#32
  · have halts := arch_of_trap_unvectored vector same
    refine .one (trapCount_of_arch halts) (fun _ => congrArg RVModel.halted halts) ?_
    intro armed
    rw [csr_of_arch halts] at armed
    exact absurd vector armed
  · have csr := csr_of_trap vector same
    have kept : s'.csr.getMTVEC = s.csr.getMTVEC := by
      rw [csr]
      exact regs_trapCsr _ _ _ _ _ CSR.MTVEC
    refine .one (trap_cases same).1 (fun none => absurd (kept.symm.trans none) vector) fun _ => ?_
    rw [csr]
    exact ⟨regs_trapCsr _ _ _ _ _ CSR.MCAUSE, regs_trapCsr _ _ _ _ _ CSR.MEPC,
      regs_trapCsr _ _ _ _ _ CSR.MTVAL⟩

/-- After a trap of step() no interrupt is taken in the same turn. -/
theorem trap_blocks_interrupt {s cpu cpu' : RVModel 32} {cause tval : BitVec 32}
    (same : arch cpu = arch (s.fireTrap cause tval)) (interrupt : BitVec 32) :
    cpu.triggerInterrupt interrupt ≠ (true, cpu') := by
  intro fired
  by_cases vector : s.csr.getMTVEC = 0#32
  · have halts : cpu.halted = true :=
      congrArg RVModel.halted (arch_of_trap_unvectored vector same)
    unfold triggerInterrupt at fired
    rw [if_pos halts] at fired
    cases fired
  · have enabled : mie cpu = true := (Machine.triggerInterrupt_taken fired).2
    have csr := csr_of_trap vector same
    have entered : (s.fireTrap cause tval).csr = _ := csr_of_trap vector rfl
    rw [mie_congr (csr.trans entered.symm), (enables_fireTrap vector cause tval).1] at enabled
    cases enabled

theorem instrEvents_text {s : OsRun} (traced : Traced s.cpu) (mtime : BitVec 64) :
    (fetchCalls s.cpu s.cache).flatMap (hookText mtime) = (instrEvents s).flatMap Event.text := by
  unfold fetchCalls instrEvents
  cases s.cpu.fetched s.cache with
  | none => rfl
  | some raw =>
    simp only [traced.stepHook, if_true]
    rfl

theorem step_told {s : OsRun} (traced : Traced s.cpu) {cpu : RVModel 32}
    (stepped : (s.cpu.step s.cache).2.1 = cpu) : ∃ traps,
      TrapEvents s.cpu cpu s.dev.mtime traps ∧
      (cpu.hookCalls.drop s.cpu.hookCalls.length).flatMap (hookText s.dev.mtime) =
        (instrEvents s ++ traps).flatMap Event.text ∧
      (cpu.trapCount = s.cpu.trapCount ∧ traps = [] ∨
        ∃ cause tval, arch cpu = arch (s.cpu.fireTrap cause tval)) := by
  obtain ⟨calls, events, hookCalls⟩ := step_events s.cpu s.cache
  rw [stepped] at events hookCalls
  have instr := instrEvents_text traced s.dev.mtime
  rw [hookCalls, List.drop_left, List.flatMap_append, instr]
  cases events with
  | quiet same => exact ⟨[], .none same, by rw [List.append_nil, List.flatMap_nil, List.append_nil],
      Or.inl ⟨same, rfl⟩⟩
  | trap listed tval same =>
    refine ⟨_, trapEvents_of_trap s.dev.mtime same, ?_, Or.inr ⟨_, tval, same⟩⟩
    rw [if_pos traced.trapHook, List.flatMap_append]
    rfl

theorem turn_escaped {s s' : OsRun} {e : Exn} (traced : Traced s.cpu)
    (turned : turn s = (.error e, s')) : ∃ traps, TrapEvents s.cpu s'.cpu s.dev.mtime traps ∧
      turnText s = (instrEvents s ++ traps).flatMap Event.text := by
  have cpu : (s.cpu.step s.cache).2.1 = s'.cpu := by
    unfold turn at turned
    rcases stepped : s.cpu.step s.cache with ⟨_ | _, cpu, cache⟩
    · rw [stepped] at turned
      exact congrArg OsRun.cpu (Prod.mk.inj turned).2
    · rw [stepped] at turned
      simp only at turned
      split at turned
      · cases (Prod.mk.inj turned).1
      · cases (Prod.mk.inj turned).1
  obtain ⟨traps, events, text, -⟩ := step_told traced cpu
  refine ⟨traps, events, ?_⟩
  unfold turnText
  simp only [turned, cpu, List.drop_length, List.flatMap_nil, List.append_nil]
  exact text

theorem turn_turned {s s' : OsRun} {taken : Bool} (traced : Traced s.cpu)
    (turned : turn s = (.ok taken, s')) : Traced s'.cpu ∧ ∃ traps,
      TrapEvents s.cpu s'.cpu (if taken then s'.dev.mtime else s.dev.mtime) traps ∧
        turnText s = (instrEvents s ++ traps).flatMap Event.text := by
  obtain ⟨cpu, cache, stepped, -, cases⟩ := turn_cases turned
  have own : (s.cpu.step s.cache).2.1 = cpu := by rw [stepped]
  have kept : Traced cpu := own ▸ traced_step traced s.cache
  obtain ⟨traps, events, text, kind⟩ := step_told traced own
  have quiet (same : s'.cpu = cpu) : Traced s'.cpu ∧ ∃ traps,
      TrapEvents s.cpu s'.cpu s.dev.mtime traps ∧
        turnText s = (instrEvents s ++ traps).flatMap Event.text := by
    rw [same]
    refine ⟨kept, traps, events, ?_⟩
    unfold turnText
    simp only [turned, own, same, List.drop_length, List.flatMap_nil, List.append_nil]
    exact text
  cases cases with
  | early soon same => exact quiet same
  | masked due same refused => exact quiet same
  | taken due fired =>
    obtain ⟨interrupted, -⟩ := Machine.triggerInterrupt_taken fired
    rcases kind with ⟨same, rfl⟩ | ⟨cause, tval, trap⟩
    · have calls := hookCalls_fireTrap cpu (uword CSR.INT_TIMER_M) 0#32
      rw [if_pos kept.trapHook, ← interrupted] at calls
      refine ⟨interrupted ▸ traced_fireTrap kept _ _,
        [.trap (uword CSR.INT_TIMER_M) cpu.pc 0#32 s'.dev.mtime], ?_, ?_⟩
      · have told : TrapEvents cpu s'.cpu s'.dev.mtime _ :=
          trapEvents_of_trap s'.dev.mtime (congrArg arch interrupted)
        cases told with
        | one count halts csrs => exact .one (same ▸ count) halts csrs
      · unfold turnText
        simp only [turned, own]
        rw [text, calls, List.drop_left, List.append_nil, List.flatMap_append]
        rfl
    · exact absurd fired (trap_blocks_interrupt trap _)

/-- The file of a traced run is the text of events that tell the run. -/
theorem traceFile_told (n : Nat) {s : OsRun} (traced : Traced s.cpu) :
    ∃ events, Tells n s events ∧ traceFile n s = events.flatMap Event.text := by
  induction n generalizing s with
  | zero => exact ⟨[], .unwatched s, rfl⟩
  | succ n ih =>
    unfold traceFile
    cases running : s.cpu.halted with
    | true => exact ⟨[], .halted running, rfl⟩
    | false =>
      rw [if_neg Bool.false_ne_true]
      rcases turned : turn s with ⟨e | taken, s'⟩
      · obtain ⟨traps, trap, text⟩ := turn_escaped traced turned
        exact ⟨_, .escaped running turned trap, by rw [text, List.append_nil]⟩
      · obtain ⟨traced', traps, trap, text⟩ := turn_turned traced turned
        obtain ⟨rest, told, more⟩ := ih traced'
        refine ⟨_, .turned running turned trap told, ?_⟩
        have split : (instrEvents s ++ traps ++ rest).flatMap Event.text =
            (instrEvents s ++ traps).flatMap Event.text ++ rest.flatMap Event.text :=
          List.flatMap_append
        rw [split, text, ← more]

theorem traced_boot {bin : List ByteT} {options : Options} {s : OsRun}
    (booted : boot bin options = some s) (trace : options.trace = true) : Traced s.cpu := by
  unfold boot at booted
  obtain ⟨mem, -, rfl⟩ := Option.map_eq_some_iff.mp booted
  exact ⟨trace, by simp [trace]⟩

def ecallBinary : List ByteT := addiBinary ++ [0x73#8, 0x00#8, 0x00#8, 0x00#8]

def tracedRun (bin : List ByteT) : OsRun where
  cpu :=
    { (RVModel.new ⟨Config.EXT_A⟩).init 0#32 0xFFFC#32 with stepHook := true, trapHook := true }
  cache := .new (runOsMemory { MemoryModel.new MEM_SIZE device with
    data := fun i => bin.getD i 0#8 }) 64

end RunOs

end XorOS
