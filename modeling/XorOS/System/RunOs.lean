import XorOS.Kernel.InterruptEnable
import XorOS.Simulator.MemoryCalls
import XorOS.Simulator.MmioStaleness
import XorOS.Simulator.Observers
import XorOS.Simulator.RunLoop

/- main.cpp, run_os: the processor over its cache, with the UART and the CLINT behind it, turn
   after turn of the loop that ticks mtime and raises the timer interrupt. -/
namespace XorOS.RunOs
open Bits Runs RVModel MemoryModel Kernel

def MEM_SIZE : Nat := 0x10000

def device : OsDevice := ⟨0#64, 0xFFFFFFFFFFFFFFFF#64, []⟩

/-- f.read into data_; a file that is longer than the memory is written past its end. -/
def readBinary (bin : List ByteT) : Option (MemoryModel 32 OsDevice) :=
  if bin.length ≤ MEM_SIZE then
    some { MemoryModel.new MEM_SIZE device with data := fun i => bin.getD i 0#8 }
  else none

structure OsRun where
  cpu : RVModel 32
  cache : CacheModel 32 OsDevice

namespace OsRun

def dev (s : OsRun) : OsDevice := s.cache.backing.dev

end OsRun

structure Options where
  debug : Bool
  trace : Bool
  deriving DecidableEq, Repr

def boot (bin : List ByteT) (options : Options) : Option OsRun :=
  (readBinary bin).map fun mem =>
    { cpu := { (RVModel.new ⟨Config.EXT_A⟩).init 0#32 (BitVec.ofNat 32 MEM_SIZE - 4#32) with
        stepHook := options.trace
        trapHook := options.debug || options.trace }
      cache := .new (runOsMemory mem) 64 }

def tick (c : CacheModel 32 OsDevice) : CacheModel 32 OsDevice :=
  c.withBacking { c.backing with dev := { c.backing.dev with mtime := c.backing.dev.mtime + 1#64 } }

def timerDue (d : OsDevice) : Bool := d.mtime ≥ d.mtimecmp

/-- One turn: what escaped step(), whether the timer interrupt was taken, and the state. -/
def turn (s : OsRun) : Except Exn Bool × OsRun :=
  match s.cpu.step s.cache with
  | (.error e, cpu, cache) => (.error e, ⟨cpu, cache⟩)
  | (.ok (), cpu, cache) =>
      let cache := tick cache
      if timerDue cache.backing.dev then
        let fired := cpu.triggerInterrupt (uword CSR.INT_TIMER_M)
        (.ok fired.1, ⟨fired.2, cache⟩)
      else (.ok false, ⟨cpu, cache⟩)

/-- The loop from a boot; the label of a turn says whether it took the timer interrupt. -/
def loop (bin : List ByteT) (options : Options) : System OsRun Bool where
  init s := boot bin options = some s
  step s taken s' := s.cpu.halted = false ∧ turn s = (.ok taken, s')

/-- A device whose clock the guest has left alone and whose output it has only added to. -/
structure Served (d d' : OsDevice) : Prop where
  mtime : d'.mtime = d.mtime
  stdout : d.stdout <+: d'.stdout

theorem Served.refl (d : OsDevice) : Served d d := ⟨rfl, List.prefix_refl _⟩

theorem Served.trans {a b c : OsDevice} (first : Served a b) (second : Served b c) : Served a c :=
  ⟨second.mtime.trans first.mtime, first.stdout.trans second.stdout⟩

theorem served_region {r : MmioRegion 32 OsDevice} (listed : r ∈ (osMemory 0#64).mmio)
    (a : BitVec 32) (v : WordT) (d : OsDevice) : Served d (r.onWrite a v d) := by
  simp only [osMemory, runOsMemory, mapMmio, MemoryModel.new, List.nil_append, List.cons_append,
    List.mem_cons, List.not_mem_nil, or_false] at listed
  rcases listed with rfl | rfl | rfl
  · exact ⟨rfl, List.prefix_append _ _⟩
  · exact .refl d
  · simp only
    split
    · exact ⟨rfl, List.prefix_refl _⟩
    · exact ⟨rfl, List.prefix_refl _⟩

theorem findMmio_away {m mem : MemoryModel 32 OsDevice} (wired : m.mmio = (runOsMemory mem).mmio)
    (none : mem.mmio = []) {a : BitVec 32} (away : a.toNat < 0xF000 ∨ 0xF014 ≤ a.toNat) :
    m.findMmio a = Option.none := by
  have outside (base stop : BitVec 32) (low : 0xF000 ≤ base.toNat) (high : stop.toNat ≤ 0xF014) :
      ¬(base ≤ a ∧ a < stop) := by
    rw [BitVec.le_def, BitVec.lt_def]
    omega
  rw [findMmio_congr wired]
  simp only [findMmio, runOsMemory, mapMmio, none, List.nil_append, List.cons_append,
    List.find?_cons, List.find?_nil, outside 0xF000#32 (0xF000#32 + 4#32) (by decide) (by decide),
    outside 0xF004#32 (0xF004#32 + 8#32) (by decide) (by decide),
    outside 0xF00C#32 (0xF00C#32 + 8#32) (by decide) (by decide), decide_false]

section Device
variable {Dev : Type}

theorem writeWord_dev (m : MemoryModel 32 Dev) (a : BitVec 32) (v : WordT) :
    (m.writeWord a v).2.dev = m.dev ∨
      ∃ r ∈ m.mmio, ∃ v', (m.writeWord a v).2.dev = r.onWrite a v' m.dev := by
  unfold MemoryModel.writeWord
  cases found : m.findMmio a with
  | none =>
    left
    simp only
    split
    · rfl
    · rfl
  | some r => exact Or.inr ⟨r, List.mem_of_find?_eq_some found, v, rfl⟩

theorem direct_dev (m : MemoryModel 32 Dev) {op : CacheOp Dev} (guest : ∀ d, op ≠ .device d) :
    (CacheModel.direct m op).dev = m.dev ∨
      ∃ r ∈ m.mmio, ∃ a v, (CacheModel.direct m op).dev = r.onWrite a v m.dev := by
  cases op with
  | readByte a => exact Or.inl rfl
  | readHalf a => exact Or.inl rfl
  | readWord a => exact Or.inl rfl
  | writeByte a v =>
    simp only [CacheModel.direct, MemoryModel.writeByte]
    cases found : m.findMmio a with
    | none =>
      left
      simp only
      split
      · rfl
      · rfl
    | some r => exact Or.inr ⟨r, List.mem_of_find?_eq_some found, _, _, rfl⟩
  | writeHalf a v =>
    simp only [CacheModel.direct, MemoryModel.writeHalf]
    cases found : m.findMmio a with
    | none =>
      left
      simp only
      split
      · rfl
      · rfl
    | some r => exact Or.inr ⟨r, List.mem_of_find?_eq_some found, _, _, rfl⟩
  | writeWord a v =>
    rcases writeWord_dev m a v with same | ⟨r, listed, v', wrote⟩
    · exact Or.inl same
    · exact Or.inr ⟨r, listed, a, v', wrote⟩
  | reserveLoad a => exact Or.inl rfl
  | storeConditional a v =>
    simp only [CacheModel.direct, MemoryModel.storeConditional]
    split
    · exact Or.inl rfl
    rcases wrote : MemoryModel.writeWord { m with lrValid := false } a v with ⟨_ | _, m'⟩
    · rcases writeWord_dev { m with lrValid := false } a v with same | ⟨r, listed, v', done⟩
      · rw [wrote] at same
        exact Or.inl same
      · rw [wrote] at done
        exact Or.inr ⟨r, listed, a, v', done⟩
    · rcases writeWord_dev { m with lrValid := false } a v with same | ⟨r, listed, v', done⟩
      · rw [wrote] at same
        exact Or.inl same
      · rw [wrote] at done
        exact Or.inr ⟨r, listed, a, v', done⟩
  | invalidateReservation => exact Or.inl rfl
  | device d => exact absurd rfl (guest d)

def Guest (target : BitVec 32 → Prop) : CacheOp Dev → Prop
  | .writeByte a _ => target a
  | .writeHalf a _ => LowClear 1 a ∧ target a
  | .writeWord a _ | .storeConditional a _ => LowClear 2 a ∧ target a
  | .device _ => False
  | _ => True

theorem not_device {target : BitVec 32 → Prop} {op : CacheOp Dev} (guest : Guest target op)
    (d : Dev) : op ≠ .device d := by
  rintro rfl
  exact guest

/-- A call that the processor makes of its cache is one of the operations on it. -/
theorem memberCall_op {target : BitVec 32 → Prop} {c c' : CacheModel 32 Dev}
    (call : MemberCall target c c') : ∃ op : CacheOp Dev, Guest target op ∧ c' = c.apply op := by
  cases call with
  | readByte a => exact ⟨.readByte a, trivial, rfl⟩
  | readHalf a => exact ⟨.readHalf a, trivial, rfl⟩
  | readWord a => exact ⟨.readWord a, trivial, rfl⟩
  | writeByte a v stores => exact ⟨.writeByte a v, stores, rfl⟩
  | writeHalf a v aligned stores => exact ⟨.writeHalf a v, ⟨aligned, stores⟩, rfl⟩
  | writeWord a v aligned stores => exact ⟨.writeWord a v, ⟨aligned, stores⟩, rfl⟩
  | reserveLoad a => exact ⟨.reserveLoad a, trivial, rfl⟩
  | storeConditional a v aligned stores => exact ⟨.storeConditional a v, ⟨aligned, stores⟩, rfl⟩
  | invalidateReservation => exact ⟨.invalidateReservation, trivial, rfl⟩

end Device

theorem served_apply {target : BitVec 32 → Prop} {c : CacheModel 32 OsDevice}
    (wired : c.backing.layout = (osMemory 0#64).layout) {op : CacheOp OsDevice}
    (guest : Guest target op) : Served c.backing.dev (c.apply op).backing.dev := by
  have mmio : c.backing.mmio = (osMemory 0#64).mmio := congrArg Prod.snd wired
  rw [CacheModel.apply_backing]
  rcases direct_dev c.backing (not_device guest) with same | ⟨r, listed, a, v, wrote⟩
  · rw [same]
    exact .refl _
  · rw [wrote]
    rw [mmio] at listed
    exact served_region listed a v _

structure GuestServed (c c' : CacheModel 32 OsDevice) : Prop where
  layout : c'.backing.layout = c.backing.layout
  dev : c.backing.layout = (osMemory 0#64).layout → Served c.backing.dev c'.backing.dev

theorem step_served (s : RVModel 32) (c : CacheModel 32 OsDevice) :
    GuestServed c (s.step c).2.2 := by
  apply (step_calls s c).relates (R := GuestServed)
  · exact fun c => ⟨rfl, fun _ => .refl _⟩
  · intro a b c first second
    refine ⟨second.layout.trans first.layout, fun wired => ?_⟩
    exact (first.dev wired).trans (second.dev (first.layout.trans wired))
  · intro c c' call
    obtain ⟨op, guest, rfl⟩ := memberCall_op call
    refine ⟨?_, fun wired => served_apply wired guest⟩
    rw [CacheModel.apply_backing, CacheModel.direct_layout]

def Pending (s : OsRun) : Prop :=
  s.cpu.halted = false ∧ mie s.cpu = true ∧ mtie s.cpu = true ∧ timerDue s.dev = true

theorem triggerInterrupt_refused {cpu : RVModel 32} {cause : BitVec 32}
    (refused : (cpu.triggerInterrupt cause).1 = false) : (cpu.triggerInterrupt cause).2 = cpu := by
  unfold triggerInterrupt at refused ⊢
  simp only at refused ⊢
  split
  · rfl
  split
  · rfl
  split
  · rfl
  · simp_all

inductive TurnCases (s s' : OsRun) (cpu : RVModel 32) (cache : CacheModel 32 OsDevice) :
    Bool → Prop
  | early (soon : timerDue (tick cache).backing.dev = false) (same : s'.cpu = cpu) :
      TurnCases s s' cpu cache false
  | masked (due : timerDue (tick cache).backing.dev = true) (same : s'.cpu = cpu)
      (refused : (cpu.triggerInterrupt (uword CSR.INT_TIMER_M)).1 = false) :
      TurnCases s s' cpu cache false
  | taken (due : timerDue (tick cache).backing.dev = true)
      (fired : cpu.triggerInterrupt (uword CSR.INT_TIMER_M) = (true, s'.cpu)) :
      TurnCases s s' cpu cache true

theorem turn_cases {s s' : OsRun} {taken : Bool} (done : turn s = (.ok taken, s')) :
    ∃ cpu cache, s.cpu.step s.cache = (.ok (), cpu, cache) ∧ s'.cache = tick cache ∧
      TurnCases s s' cpu cache taken := by
  unfold turn at done
  rcases stepped : s.cpu.step s.cache with ⟨_ | _, cpu, cache⟩
  · rw [stepped] at done
    simp at done
  rw [stepped] at done
  simp only at done
  refine ⟨cpu, cache, rfl, ?_⟩
  cases due : timerDue (tick cache).backing.dev with
  | false =>
    rw [due] at done
    obtain ⟨taken, rfl⟩ := Prod.mk.inj done
    obtain rfl := Except.ok.inj taken
    exact ⟨rfl, .early due rfl⟩
  | true =>
    rw [due] at done
    obtain ⟨taken, rfl⟩ := Prod.mk.inj done
    obtain rfl := Except.ok.inj taken
    refine ⟨rfl, ?_⟩
    cases fired : (cpu.triggerInterrupt (uword CSR.INT_TIMER_M)).1 with
    | false => exact .masked due (triggerInterrupt_refused fired) fired
    | true => exact .taken due (Prod.ext fired rfl)

theorem masked_of_taken {cpu cpu' : RVModel 32} {cause : BitVec 32}
    (fired : cpu.triggerInterrupt cause = (true, cpu')) :
    cpu'.halted = true ∨ mie cpu' = false := by
  obtain ⟨rfl, -⟩ := Machine.triggerInterrupt_taken fired
  by_cases vector : cpu.csr.getMTVEC = 0#32
  · have halts : arch (cpu.fireTrap cause 0#32) = _ := arch_of_trap_unvectored vector rfl
    exact Or.inl (congrArg RVModel.halted halts)
  · exact Or.inr (enables_fireTrap vector cause 0#32).1

/-- What holds of the loop whenever it tests isHalted(). -/
structure Clocked (s : OsRun) : Prop where
  layout : s.cache.backing.layout = (osMemory 0#64).layout
  counted : s.cpu.halted = false → s.cpu.instrCount = s.dev.mtime
  served : ¬Pending s

theorem clocked_boot {bin : List ByteT} {options : Options} {s : OsRun}
    (booted : boot bin options = some s) : Clocked s := by
  unfold boot readBinary at booted
  split at booted
  · simp only [Option.map_some, Option.some.injEq] at booted
    subst booted
    refine ⟨rfl, fun _ => rfl, ?_⟩
    rintro ⟨-, -, -, due⟩
    have early : timerDue device = false := by decide
    change timerDue device = true at due
    rw [early] at due
    cases due
  · simp at booted

/-- One turn: the clock ticks once whatever the guest stores, and no enabled interrupt is left
    pending. -/
theorem turn_clocked {s s' : OsRun} {taken : Bool} (clocked : Clocked s)
    (running : s.cpu.halted = false) (done : turn s = (.ok taken, s')) :
    Clocked s' ∧ s'.dev.mtime = s.dev.mtime + 1#64 ∧ s.dev.stdout <+: s'.dev.stdout := by
  obtain ⟨cpu, cache, stepped, ticked, cases⟩ := turn_cases done
  have served := step_served s.cpu s.cache
  have counts := step_instrCount (m := s.cache) running
  rw [stepped] at served counts
  obtain ⟨layout, grown⟩ := served
  have device : s'.dev = { cache.backing.dev with mtime := cache.backing.dev.mtime + 1#64 } := by
    unfold OsRun.dev
    rw [ticked]
    rfl
  have clock : s'.dev.mtime = s.dev.mtime + 1#64 := by
    rw [device]
    exact congrArg (· + 1#64) (grown clocked.layout).mtime
  have output : s.dev.stdout <+: s'.dev.stdout := by
    rw [device]
    exact (grown clocked.layout).stdout
  refine ⟨⟨?_, ?_, ?_⟩, clock, output⟩
  · rw [ticked]
    exact layout.trans clocked.layout
  · intro still
    have after : s'.cpu.instrCount = cpu.instrCount ∧
        (s'.cpu.halted = false → cpu.halted = false) := by
      cases cases with
      | early soon same =>
        rw [same]
        exact ⟨rfl, id⟩
      | masked due same refused =>
        rw [same]
        exact ⟨rfl, id⟩
      | taken due fired =>
        have enabled := (Machine.triggerInterrupt_taken fired).1
        rw [enabled]
        refine ⟨instrCount_fireTrap cpu _ _, fun _ => ?_⟩
        by_contra stopped
        have stopped := Bool.eq_true_of_not_eq_false stopped
        unfold triggerInterrupt at fired
        rw [stopped] at fired
        simp at fired
    rw [after.1, clock, ← clocked.counted running]
    rcases counts rfl with one | ⟨-, stopped⟩
    · exact one
    · rw [after.2 still] at stopped
      cases stopped
  · rintro ⟨still, global, source, due⟩
    unfold OsRun.dev at due
    rw [ticked] at due
    cases cases with
    | early soon same =>
      rw [soon] at due
      cases due
    | masked _ same refused =>
      rw [same] at still global source
      have taken := triggerInterrupt_on still global source
      change (cpu.triggerInterrupt (uword CSR.INT_TIMER_M)).1 = true at taken
      rw [refused] at taken
      cases taken
    | taken _ fired =>
      rcases masked_of_taken fired with stopped | off
      · rw [still] at stopped
        cases stopped
      · rw [global] at off
        cases off

theorem clocked_of_reachable {bin : List ByteT} {options : Options} {s : OsRun}
    (reached : (loop bin options).Reachable s) : Clocked s := by
  apply reached.invariant Clocked
  · exact fun s booted => clocked_boot booted
  · exact fun s taken s' clocked step => (turn_clocked clocked step.1 step.2).1

def addiBinary : List ByteT := [0x93#8, 0x00#8, 0x70#8, 0x00#8]

def addiRun : OsRun where
  cpu := (RVModel.new ⟨Config.EXT_A⟩).init 0#32 0xFFFC#32
  cache := .new (runOsMemory { MemoryModel.new MEM_SIZE device with
    data := fun i => addiBinary.getD i 0#8 }) 64

/-- The processor's next instruction turns mstatus.MIE on: MRET, or in M-mode an instruction on
    the CSR mstatus. -/
inductive Reenables (s : RVModel 32) (c : CacheModel 32 OsDevice) : Prop
  | mret (raw : WordT) (word : s.fetched c = some raw) (instr : IsMRET (Decoder.decode 32 raw))
      (off : mie s = false) (prior : mpie s = true)
  | csr (f : ISA.Funct3CSR) (rs1 : BitVec 5) (v : BitVec 32) (machine : s.privMode = .M)
      (written : (s.step c).2.1.csr = (csrOp f s.csr CSR.MSTATUS rs1 v).2) (off : mie s = false)
      (on : mie (s.step c).2.1 = true)

theorem mie_congr {s s' : RVModel 32} (same : s'.csr = s.csr) : mie s' = mie s := by
  unfold mie
  rw [same]

theorem reenables_of_step {s : RVModel 32} {c : CacheModel 32 OsDevice} (off : mie s = false)
    (on : mie (s.step c).2.1 = true) : Reenables s c := by
  cases step_effect s c with
  | trap cause tval same =>
    by_cases vector : s.csr.getMTVEC = 0#32
    · rw [mie_congr (csr_of_arch (arch_of_trap_unvectored vector same))] at on
      exact absurd (off.symm.trans on) (by decide)
    · have entered := csr_of_trap vector same
      have fired : (s.fireTrap cause tval).csr = _ := csr_of_trap vector rfl
      rw [mie_congr (entered.trans fired.symm), (enables_fireTrap vector cause tval).1] at on
      cases on
  | mret raw word instr same =>
    rw [mie_congr (csr_of_arch same), (enables_executeMRET s).1] at on
    exact .mret raw word instr off on
  | csrAccess f addr rs1 v allowed csr priv count =>
    by_cases here : CSR.MSTATUS = addr
    · subst here
      refine .csr f rs1 v ?_ csr off on
      by_contra below
      apply allowed
      revert below
      generalize s.privMode = p
      revert p
      decide
    · have kept : mie (s.step c).2.1 = mie s := by
        unfold mie
        rw [csr, csrOp_regs_ne f s.csr here rs1 v]
      rw [kept, off] at on
      cases on
  | quiet same =>
    rw [mie_congr same.csr, off] at on
    cases on

/-- One turn from interrupts off: they stay off, and none is taken, unless its instruction turns
    them on. -/
theorem turn_masked {s s' : OsRun} {taken : Bool} (off : mie s.cpu = false)
    (done : turn s = (.ok taken, s')) :
    mie s'.cpu = false ∧ taken = false ∨ Reenables s.cpu s.cache := by
  obtain ⟨cpu, cache, stepped, -, cases⟩ := turn_cases done
  cases on : mie cpu with
  | true =>
    right
    apply reenables_of_step off
    rw [stepped]
    exact on
  | false =>
    left
    cases cases with
    | early soon same => exact ⟨same ▸ on, rfl⟩
    | masked due same refused => exact ⟨same ▸ on, rfl⟩
    | taken due fired =>
      have enabled : mie cpu = true := (Machine.triggerInterrupt_taken fired).2
      rw [on] at enabled
      cases enabled

theorem path_masked {bin : List ByteT} {options : Options} {s t : OsRun} {labels : List Bool}
    (path : (loop bin options).Path s labels t) (off : mie s.cpu = false) :
    mie t.cpu = false ∧ true ∉ labels ∨
      ∃ before after u, labels = before ++ after ∧ (loop bin options).Path s before u ∧
        after ≠ [] ∧ true ∉ before ∧ Reenables u.cpu u.cache := by
  induction path with
  | nil => exact Or.inl ⟨off, List.not_mem_nil⟩
  | snoc before last ih =>
    rename_i mid t labels a
    rcases ih with ⟨still, none⟩ | ⟨first, rest, u, rfl, path, later, none, enables⟩
    · rcases turn_masked still last.2 with ⟨masked, rfl⟩ | enables
      · refine Or.inl ⟨masked, ?_⟩
        simp [none]
      · exact Or.inr ⟨_, [a], _, rfl, before, List.cons_ne_nil _ _, none, enables⟩
    · refine Or.inr ⟨first, rest ++ [a], u, ?_, path, by simp, none, enables⟩
      rw [List.append_assoc]

/-- Timer interrupts do not nest by themselves: between two of them, the guest has turned
    interrupts on again, by MRET or by an M-mode instruction on mstatus. -/
theorem timer_interrupts_separated {bin : List ByteT} {options : Options} {s s' t : OsRun}
    {mid : List Bool} (first : (loop bin options).step s true s')
    (path : (loop bin options).Path s' (mid ++ [true]) t) :
    ∃ before after u, mid ++ [true] = before ++ after ∧ (loop bin options).Path s' before u ∧
      after ≠ [] ∧ true ∉ before ∧ Reenables u.cpu u.cache := by
  have masked : s'.cpu.halted = true ∨ mie s'.cpu = false := by
    obtain ⟨cpu, cache, -, -, cases⟩ := turn_cases first.2
    cases cases with
    | taken due fired => exact masked_of_taken fired
  have running : s'.cpu.halted = false := by
    rcases path.starts with none | ⟨a, u, next⟩
    · simp at none
    · exact next.1
  have off : mie s'.cpu = false := by
    rcases masked with stopped | off
    · rw [running] at stopped
      cases stopped
    · exact off
  rcases path_masked path off with ⟨-, none⟩ | enabled
  · exact absurd (List.mem_append_right mid List.mem_cons_self) none
  · exact enabled

def mretRun : OsRun where
  cpu := { RVModel.new ⟨Config.EXT_A⟩ with
    csr := ⟨fun a => if a = CSR.MTVEC then 16#32 else if a = CSR.MSTATUS then 8#32
      else if a = CSR.MIE then 128#32 else 0#32⟩ }
  cache := .new (runOsMemory (.ofWords MEM_SIZE
    [0x00000013#32, 0#32, 0#32, 0#32, 0x30200073#32] ⟨0#64, 0#64, []⟩)) 64

theorem timer_interrupts_separated_mret :
    Reenables (turn mretRun).2.cpu (turn mretRun).2.cache := by
  have first : (loop [] ⟨false, false⟩).step mretRun true (turn mretRun).2 :=
    ⟨rfl, Prod.ext rfl rfl⟩
  have second : (loop [] ⟨false, false⟩).step (turn mretRun).2 true (turn (turn mretRun).2).2 :=
    ⟨rfl, Prod.ext rfl rfl⟩
  have path : (loop [] ⟨false, false⟩).Path (turn mretRun).2 ([] ++ [true])
      (turn (turn mretRun).2).2 := .snoc (.nil _) second
  obtain ⟨before, after, u, split, path, later, none, enables⟩ :=
    timer_interrupts_separated first path
  cases before with
  | nil =>
    rw [path.eq_of_nil rfl]
    exact enables
  | cons b before =>
    have one : b = true := by
      rw [List.nil_append, List.cons_append] at split
      exact (List.cons.inj split).1.symm
    subst one
    exact absurd List.mem_cons_self none

def advance (s : OsRun) : Except Exn (Option Bool) × OsRun :=
  if s.cpu.halted then (.ok none, s) else ((turn s).1.map some, (turn s).2)

/-- Runs that differ in what the host sees of the processor only. -/
structure SameRun (s t : OsRun) : Prop where
  cpu : SameCpu s.cpu t.cpu
  cache : t.cache = s.cache

theorem triggerInterrupt_sameCpu {s t : RVModel 32} (same : SameCpu s t) (cause : BitVec 32) :
    (t.triggerInterrupt cause).1 = (s.triggerInterrupt cause).1 ∧
      SameCpu (s.triggerInterrupt cause).2 (t.triggerInterrupt cause).2 := by
  have twins := same.twins
  unfold triggerInterrupt
  simp only
  rw [twins.halted, twins.csr]
  split
  · exact ⟨rfl, same⟩
  split
  · exact ⟨rfl, same⟩
  split
  · exact ⟨rfl, same⟩
  · exact ⟨rfl, (twins.fireTrap (fun _ _ _ _ => trivial) cause 0#32).same⟩

theorem advance_same {s t : OsRun} (same : SameRun s t) :
    (advance s).1 = (advance t).1 ∧ SameRun (advance s).2 (advance t).2 := by
  obtain ⟨outcome, cpu, cache⟩ := step_sameCpu same.cpu s.cache
  unfold advance turn
  rw [same.cpu.twins.halted, same.cache]
  split
  · exact ⟨rfl, same⟩
  rcases left : s.cpu.step s.cache with ⟨x, s', c⟩
  rcases right : t.cpu.step s.cache with ⟨y, t', d⟩
  rw [left, right] at outcome cpu cache
  simp only at outcome cpu cache
  subst outcome cache
  cases x with
  | error e => exact ⟨rfl, cpu, rfl⟩
  | ok =>
    simp only
    split
    · obtain ⟨fired, same'⟩ := triggerInterrupt_sameCpu cpu (uword CSR.INT_TIMER_M)
      rw [fired]
      exact ⟨rfl, same', rfl⟩
    · exact ⟨rfl, cpu, rfl⟩

end XorOS.RunOs
