import XorOS.Library.HartPrograms
import XorOS.Simulator.RunLoop
import XorOS.Simulator.StepSemantics

/- Whole programs: words from InstrBuilder, put into memory by loadProgram with HALT behind them
   and run by run() after init(), against the hart that executes their instructions. -/
namespace XorOS
open ISA IntHart MemoryModel Bits
variable {Dev : Type}

namespace Storage

theorem write_keeps {s t : Storage Dev} {a width v : Nat} (wrote : s.write a width v = some t) :
    t.size = s.size ∧ t.mmio = s.mmio ∧ ∀ i, i < a ∨ a + width ≤ i → t.byte i = s.byte i := by
  unfold write at wrote
  split at wrote
  · obtain rfl := Option.some.inj wrote
    exact ⟨rfl, rfl, fun _ _ => rfl⟩
  · split at wrote
    · obtain rfl := Option.some.inj wrote
      refine ⟨rfl, rfl, fun i off => ?_⟩
      exact if_neg (by omega)
    · cases wrote

end Storage

theorem step_spares {h h' : Hart (Storage Dev)} {i : Insn} {lo hi : Nat}
    (spares : h.Spares lo hi i) (done : h.step i = .done h') :
    h'.mem.size = h.mem.size ∧ h'.mem.mmio = h.mem.mmio ∧
      ∀ a, lo ≤ a → a < hi → h'.mem.byte a = h.mem.byte a := by
  rcases Hart.step_mem done with same | ⟨a, width, v, target, nonneg, wrote⟩
  · rw [same]
    exact ⟨rfl, rfl, fun _ _ _ => rfl⟩
  · obtain ⟨size, mmio, bytes⟩ := Storage.write_keeps wrote
    refine ⟨size, mmio, fun b low high => bytes b ?_⟩
    have off := spares a width target
    omega

namespace RVModel

structure HoldsWords (m : MemoryModel 32 Dev) (words : List WordT) (base : BitVec 32) : Prop where
  aligned : base.toNat % 4 = 0
  low : base.toNat + 4 * words.length ≤ 2 ^ 32
  inside : base.toNat + 4 * words.length ≤ m.size
  ram : ∀ a : BitVec 32, base.toNat ≤ a.toNat → a.toNat < base.toNat + 4 * words.length →
    m.findMmio a = none
  bytes : ∀ (k : Nat) (w : WordT), words[k]? = some w → ∀ j, j < 4 →
    m.data (base.toNat + 4 * k + j) = ((w >>> (8 * j)) &&& 0xFF#32).setWidth 8

variable {m m' : MemoryModel 32 Dev} {words : List WordT} {base : BitVec 32}

theorem HoldsWords.placed (h : HoldsWords m words base) {s : RVModel 32} {k : Nat} {w : WordT}
    (word : words[k]? = some w) (pc : s.pc.toNat = base.toNat + 4 * k) : Placed s m w := by
  have inside : k < words.length := (List.getElem?_eq_some_iff.mp word).1
  have low := h.low
  have room := h.inside
  refine ⟨?_, h.ram s.pc (by omega) (by omega), by omega, ?_⟩
  · have aligned := h.aligned
    refine (and_mask_eq_zero_iff (k := 2) (w := 32) (by omega) s.pc).mpr ?_
    rw [lowClear_iff_mod]
    omega
  · intro j small
    rw [pc]
    exact h.bytes k w word j small

theorem HoldsWords.congr (h : HoldsWords m words base) (size : m'.storage.size = m.storage.size)
    (mmio : m'.storage.mmio = m.storage.mmio)
    (bytes : ∀ a, base.toNat ≤ a → a < base.toNat + 4 * words.length →
      m'.storage.byte a = m.storage.byte a) : HoldsWords m' words base where
  aligned := h.aligned
  low := h.low
  inside := by
    have same : m'.size = m.size := size
    have room := h.inside
    omega
  ram a low high := by
    have same : m'.layout = m.layout := Prod.ext size mmio
    rw [findMmio_of_layout same]
    exact h.ram a low high
  bytes k w word j small := by
    have inside : k < words.length := (List.getElem?_eq_some_iff.mp word).1
    have same : (m'.data (base.toNat + 4 * k + j)).toNat =
        (m.data (base.toNat + 4 * k + j)).toNat := bytes _ (by omega) (by omega)
    rw [BitVec.eq_of_toNat_eq same]
    exact h.bytes k w word j small

theorem getElem?_wordBytes (words : List WordT) : ∀ (k : Nat) (w : WordT), words[k]? = some w →
    ∀ j, j < 4 → (words.flatMap InstrBuilder.wordBytes)[4 * k + j]? =
      some (((w >>> (8 * j)) &&& 0xFF#32).setWidth 8) := by
  induction words with
  | nil =>
    intro k w word
    cases word
  | cons first rest ih =>
    intro k w word j small
    rw [List.flatMap_cons]
    cases k with
    | zero =>
      obtain rfl := Option.some.inj word
      obtain rfl | rfl | rfl | rfl : j = 0 ∨ j = 1 ∨ j = 2 ∨ j = 3 := by omega
      · rfl
      · rfl
      · rfl
      · rfl
    | succ k =>
      have length : (InstrBuilder.wordBytes first).length = 4 := rfl
      rw [List.getElem?_append_right (by omega), length,
        show 4 * (k + 1) + j - 4 = 4 * k + j by omega]
      exact ih k w word j small

theorem length_wordBytes (words : List WordT) :
    (words.flatMap InstrBuilder.wordBytes).length = 4 * words.length := by
  induction words with
  | nil => rfl
  | cons first rest ih =>
    have length : (InstrBuilder.wordBytes first).length = 4 := rfl
    rw [List.flatMap_cons, List.length_append, ih, length, List.length_cons]
    omega

theorem holdsWords_loadProgram (aligned : base.toNat % 4 = 0)
    (low : base.toNat + 4 * words.length ≤ 2 ^ 32)
    (ram : ∀ a : BitVec 32, base.toNat ≤ a.toNat → a.toNat < base.toNat + 4 * words.length →
      m.findMmio a = none)
    (loaded : InstrBuilder.loadProgram m words base = some (.ok (), m')) :
    HoldsWords m' words base := by
  unfold InstrBuilder.loadProgram MemoryModel.loadProgram at loaded
  rw [length_wordBytes] at loaded
  split at loaded
  · cases loaded
  split at loaded
  · simp at loaded
  rename_i fits
  obtain rfl := (Prod.mk.inj (Option.some.inj loaded)).2
  refine ⟨aligned, low, ?_, ram, ?_⟩
  · change _ ≤ m.size
    rw [Nat.mod_eq_of_lt (by omega)] at fits
    omega
  · intro k w word j small
    have inside : k < words.length := (List.getElem?_eq_some_iff.mp word).1
    change (if _ then _ else _) = _
    rw [if_pos (by omega), List.getD_eq_getElem?_getD,
      show base.toNat + 4 * k + j - base.toNat = 4 * k + j by omega,
      getElem?_wordBytes words k w word j small]
    rfl

structure Ran (n : Nat) (s s' : RVModel 32) : Prop where
  halted : s'.halted = s.halted
  csr : s'.csr = s.csr
  privMode : s'.privMode = s.privMode
  config : s'.config = s.config
  trapCount : s'.trapCount = s.trapCount
  instrCount : s'.instrCount = s.instrCount + BitVec.ofNat 64 n

theorem Ran.trans {n k : Nat} {a b c : RVModel 32} (first : Ran n a b) (second : Ran k b c) :
    Ran (n + k) a c where
  halted := second.halted.trans first.halted
  csr := second.csr.trans first.csr
  privMode := second.privMode.trans first.privMode
  config := second.config.trans first.config
  trapCount := second.trapCount.trans first.trapCount
  instrCount := by rw [second.instrCount, first.instrCount, BitVec.add_assoc, BitVec.ofNat_add]

variable {s : RVModel 32} {w : WordT} {i : Instr}

theorem agrees_hooked (built : i.word = some w)
    (ext : i.isMext → s.config.hasExtension Config.EXT_M = true) (bare : ¬s.Paging) (dis : String) :
    Agrees (s.callStepHook dis) m i.isStore
      ((s.callStepHook dis).executeInstr (Decoder.decode 32 w) m)
      ((hart s m).step i.meaning) := by
  rw [callStepHook_eq]
  exact executeInstr_agrees (s := { s with hookCalls := _ }) built ext bare

/-- Where the hart retires the instruction, so does the processor. -/
theorem step_retires (built : i.word = some w)
    (ext : i.isMext → s.config.hasExtension Config.EXT_M = true) (placed : Placed s m w)
    (running : s.halted = false) (bare : ¬s.Paging) {h : Hart (Storage Dev)}
    (done : (hart s m).step i.meaning = .done h) :
    ∃ s' m', s.step m = (.ok (), s', m') ∧ hart s' m' = h ∧ Ran 1 s s' := by
  let dis := Disasm.disassemble (Decoder.decode 32 w)
  have agrees := agrees_hooked (m := m) built ext bare dis
  rw [done] at agrees
  obtain ⟨modified, ok, harts, frame, -, -⟩ := agrees
  have hooked := callStepHook_eq s dis
  rw [step_placed placed (word_ne_zero built) running bare]
  unfold executeWord
  simp only
  rcases eq : (s.callStepHook dis).executeInstr (Decoder.decode 32 w) m with ⟨result, t, m'⟩
  rw [eq] at ok harts frame
  dsimp only at ok harts frame
  subst ok
  refine ⟨_, m', rfl, ?_, ?_⟩
  · rw [← harts]
    cases modified with
    | true => rfl
    | false => rfl
  · rw [frame, hooked]
    cases modified with
    | true => exact ⟨rfl, rfl, rfl, rfl, rfl, rfl⟩
    | false => exact ⟨rfl, rfl, rfl, rfl, rfl, rfl⟩

/-- Where the hart traps, a processor without a vector halts. -/
theorem step_halts_at_trap (built : i.word = some w)
    (ext : i.isMext → s.config.hasExtension Config.EXT_M = true) (placed : Placed s m w)
    (running : s.halted = false) (bare : ¬s.Paging) (vector : s.csr.getMTVEC = 0#32)
    {cause : Cause} {tval : Int} (trap : (hart s m).step i.meaning = .trap cause tval) :
    ∃ s', s.step m = (.ok (), s', m) ∧ hart s' m = hart s m ∧ s'.halted = true ∧
      s'.trapCount = s.trapCount + 1 ∧ s'.instrCount = s.instrCount + 1#64 := by
  let dis := Disasm.disassemble (Decoder.decode 32 w)
  have agrees := agrees_hooked (m := m) built ext bare dis
  rw [trap] at agrees
  have fired : (s.callStepHook dis).executeInstr (Decoder.decode 32 w) m = _ := agrees
  have report : Trapped s m w cause tval ((s.callStepHook dis).fireTrap (uword cause.code)
    (BitVec.ofInt 32 tval)).countInstr m := trapped_fireTrap (Hart.step_tval trap)
  have trapped := report.unvectored vector
  have count := instrCount_fireTrap (s.callStepHook dis) (uword cause.code) (BitVec.ofInt 32 tval)
  rw [instrCount_callStepHook] at count
  rw [step_placed placed (word_ne_zero built) running bare]
  unfold executeWord
  simp only
  rw [fired]
  dsimp only
  rw [if_pos rfl]
  refine ⟨_, rfl, ?_, congrArg RVModel.halted trapped, congrArg RVModel.trapCount trapped,
    congrArg (· + 1#64) count⟩
  have regs := regs_of_arch (t := { s with halted := true, trapCount := s.trapCount + 1 }) trapped
  have pc := pc_of_arch (t := { s with halted := true, trapCount := s.trapCount + 1 }) trapped
  unfold hart
  rw [regs, pc]

def Assembled (program : List Instr) (words : List WordT) : Prop :=
  program.mapM Instr.word = some words

theorem Assembled.cons {program : List Instr} (h : Assembled (i :: program) words) :
    ∃ w rest, i.word = some w ∧ Assembled program rest ∧ words = w :: rest := by
  unfold Assembled at h
  rw [List.mapM_cons] at h
  cases built : i.word with
  | none => simp [built] at h
  | some w =>
    cases tail : program.mapM Instr.word with
    | none => simp [built, tail] at h
    | some rest =>
      simp only [built, tail, Option.bind_eq_bind, Option.bind_some, Option.pure_def,
        Option.some.injEq] at h
      exact ⟨w, rest, rfl, tail, h.symm⟩

theorem Assembled.nil (h : Assembled [] words) : words = [] := (Option.some.inj h).symm

theorem Assembled.length {program : List Instr} : ∀ {words : List WordT},
    Assembled program words → words.length = program.length := by
  induction program with
  | nil =>
    intro words h
    rw [h.nil]
    rfl
  | cons i program ih =>
    intro words h
    obtain ⟨w, rest, -, tail, rfl⟩ := h.cons
    rw [List.length_cons, List.length_cons, ih tail]

theorem Assembled.word {program : List Instr} : ∀ {words : List WordT}, Assembled program words →
    ∀ {k : Nat} {i : Instr}, program[k]? = some i → ∃ w, words[k]? = some w ∧ i.word = some w := by
  induction program with
  | nil =>
    intro words _ k i here
    cases here
  | cons first program ih =>
    intro words h k i here
    obtain ⟨w, rest, built, tail, rfl⟩ := h.cons
    cases k with
    | zero =>
      obtain rfl := Option.some.inj here
      exact ⟨w, rfl, built⟩
    | succ k => exact ih tail here

/-- The processor, as long as the hart retires instructions of the program. -/
theorem upTo_executes {program : List Instr} (assembled : Assembled program words)
    {rest : List WordT}
    {n : Nat} {h h' : Hart (Storage Dev)}
    (executes : Hart.Executes (program.map Instr.meaning) base.toNat
      (base.toNat + 4 * (words ++ rest).length) n h h') :
    ∀ {s : RVModel 32} {m : MemoryModel 32 Dev}, hart s m = h → HoldsWords m (words ++ rest) base →
      s.halted = false → ¬s.Paging →
      (∀ i ∈ program, i.isMext → s.config.hasExtension Config.EXT_M = true) →
      ∃ s' m', upTo n (s, m) = (.ok (), s', m') ∧ hart s' m' = h' ∧
        HoldsWords m' (words ++ rest) base ∧ Ran n s s' := by
  induction executes with
  | refl h =>
    intro s m same held running bare ext
    exact ⟨s, m, rfl, same, held, rfl, rfl, rfl, rfl, rfl, by simp⟩
  | @next n h h₁ h₂ insn fetched spares done executes ih =>
    intro s m same held running bare ext
    obtain ⟨k, here, pc⟩ := Hart.fetch_some fetched
    rw [List.getElem?_map, Option.map_eq_some_iff] at here
    obtain ⟨i, here, rfl⟩ := here
    obtain ⟨w, word, built⟩ := assembled.word here
    have inside : k < words.length := (List.getElem?_eq_some_iff.mp word).1
    have word' : (words ++ rest)[k]? = some w := by
      rw [List.getElem?_append_left inside, word]
    have at_k : s.pc.toNat = base.toNat + 4 * k := by
      have same_pc : (s.pc.toNat : Int) = h.pc := congrArg Hart.pc same
      omega
    have member : i ∈ program := List.mem_of_getElem? here
    subst same
    obtain ⟨s₁, m₁, stepped, same, ran⟩ := step_retires built (ext i member)
      (held.placed word' at_k) running bare done
    obtain ⟨size, mmio, bytes⟩ := step_spares spares done
    have mem : m₁.storage = h₁.mem := congrArg Hart.mem same
    rw [← mem] at size mmio bytes
    have held₁ := held.congr size mmio bytes
    have bare₁ : ¬s₁.Paging := by
      unfold Paging at bare ⊢
      rwa [ran.csr]
    have ext₁ (i : Instr) (member : i ∈ program) (mext : i.isMext) :
        s₁.config.hasExtension Config.EXT_M = true := by
      rw [ran.config]
      exact ext i member mext
    obtain ⟨s', m', finished, same', held', ran'⟩ :=
      ih same held₁ (ran.halted.trans running) bare₁ ext₁
    refine ⟨s', m', ?_, same', held', ?_⟩
    · rw [upTo_step (p := (s, m)) running stepped]
      exact finished
    · rw [Nat.add_comm n 1]
      exact ran.trans ran'

theorem step_zero (placed : Placed s m 0#32) (running : s.halted = false) (bare : ¬s.Paging) :
    s.step m = (.ok (), s.halt, m) := by
  unfold step
  simp only [running, Bool.false_eq_true, if_false, translateAddr_bare bare, memT_readWord,
    readWord_placed placed, if_true]

def resetHart (startPC stackPointer : BitVec 32) (mem : Storage Dev) : Hart (Storage Dev) where
  pc := startPC.toNat
  x := fun r => if r.val = 2 then stackPointer.toNat else 0
  mem := mem

theorem hart_init (cpu : RVModel 32) (startPC stackPointer : BitVec 32)
    (m : MemoryModel 32 Dev) :
    hart (cpu.init startPC stackPointer) m = resetHart startPC stackPointer m.storage := by
  unfold hart resetHart init
  simp only [Hart.mk.injEq, true_and, and_true]
  funext r
  have zero : (RegisterFile.new : RegisterFile 32).get (BitVec.ofFin r) = 0#32 := by
    unfold RegisterFile.get RegisterFile.new
    split
    · rfl
    · rfl
  by_cases set : stackPointer = 0#32
  · rw [if_neg (not_not.mpr set), zero, set]
    split
    · rfl
    · rfl
  · rw [if_pos set, RegisterFile.get_set]
    by_cases sp : r.val = 2
    · obtain rfl : r = 2 := Fin.ext sp
      rfl
    · have other : ¬(BitVec.ofFin r = 2#5 ∧ (2#5 : BitVec 5) ≠ 0#5) := by
        rintro ⟨same, -⟩
        exact sp (congrArg BitVec.toNat same)
      rw [if_neg other, if_neg sp, zero]
      rfl

/-- addi x1, x0, 5; sw x1, 20(x0); add x2, x1, x1. -/
def doubling : List Instr :=
  [.opImm .addi 1#8 0#8 5#16, .store .sw 1#8 0#8 20#16, .op .ADD 2#8 1#8 1#8]

def doublingWords : List WordT := [0x00500093#32, 0x00102A23#32, 0x00108133#32]

def doublingImage : MemoryModel 32 Unit :=
  ((InstrBuilder.loadProgram (MemoryModel.new 32 ()) (doublingWords ++ [0#32]) 0#32).elim
    (MemoryModel.new 32 ()) Prod.snd)

end RVModel

end XorOS
