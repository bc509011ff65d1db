import XorOS.Library.Runs
import XorOS.Simulator.EncodeDecode
import XorOS.Simulator.MemoryEffects

/- spinlock.h: any processes, each with its registers, on one memory, an instruction of any of them
   at a time. -/
namespace XorOS.RVModel
open ISA Bits MemoryModel
variable {Dev : Type}

/-- amoswap traps, throws, or exchanges rs2 and the word at rs1 in one go. -/
theorem executeAMO_swap {s : RVModel 32} {d : DecodedInstr 32} {m : MemoryModel 32 Dev}
    (swap : Funct5AMO.ofBits? (funct5 d) = some .amoswap) :
    (∃ s', s'.regs = s.regs ∧ s.executeAMO d m = (.ok true, s', m)) ∨
      (∃ e, s.executeAMO d m = (.error e, s, m)) ∨
      ∃ pa w m', StoreTo s (s.regs.get d.rs1) m pa ∧ LowClear 2 pa ∧ m.readWord pa = .ok w ∧
        m.invalidateReservation.writeWord pa (s.regs.get d.rs2) = (.ok (), m') ∧
        s.executeAMO d m = (.ok false, s.setReg d.rd w, m') := by
  unfold executeAMO
  split
  · exact .inl ⟨_, regs_fireTrap .., rfl⟩
  simp only
  split
  · exact .inl ⟨_, regs_fireTrap .., rfl⟩
  rename_i word
  rcases translateAddr_cases s (s.regs.get d.rs1) .store m with ⟨pa, eq⟩ | eq
  · have translated : StoreTo s (s.regs.get d.rs1) m pa := by
      unfold StoreTo
      rw [eq]
    simp only [eq, swap]
    unfold executeAMOrmw
    rw [memT_readWord]
    cases read : m.readWord pa with
    | error e => exact .inr (.inl ⟨e, rfl⟩)
    | ok w =>
      have readable : m.invalidateReservation.readWord pa = .ok w := read
      obtain ⟨m', done⟩ := writeWord_of_readWord readable (s.regs.get d.rs2)
      have written : MemT.writeWord pa (s.regs.get d.rs2) (MemT.invalidateReservation 32 m) =
          (.ok (), m') := done
      refine .inr (.inr ⟨pa, w, m', translated, translated.clear (by omega) (misaligned_word word),
        read, done, ?_⟩)
      simp only [amoResult, Option.bind_some, BitVec.setWidth_eq, written]
  · simp only [eq]
    exact .inl ⟨_, regs_fireTrap .., rfl⟩

end XorOS.RVModel

namespace XorOS.Kernel
open ISA Bits Runs RVModel
variable {P Dev : Type}

def amoswap (order : BitVec 2) (rd rs2 rs1 : BitVec 5) : Option WordT :=
  InstrBuilder.R ((0b00001#5 ++ order).setWidth 8) (rs2.setWidth 8) (rs1.setWidth 8) 0b010#8
    (rd.setWidth 8) Opcode.amo.bits

/-- The registers that the compiler picks for an acquire; tmp is written before the inputs are
    done with. -/
structure LockRegs where
  tmp : BitVec 5
  one : BitVec 5
  addr : BitVec 5
  tmp_ne_zero : tmp ≠ 0#5
  tmp_ne_one : tmp ≠ one
  tmp_ne_addr : tmp ≠ addr

/-- Where a process stands: before the exchange, before the test of tmp, or between the end of
    spinlock_aquire and its spinlock_release. -/
inductive LockPoint where
  | outside
  | swap (r : LockRegs)
  | test (r : LockRegs)
  | held

/-- owes is a history variable: the process has swapped out a 0 and not yet released. -/
structure Sharing (P Dev : Type) where
  mem : MemoryModel 32 Dev
  cpu : P → RVModel 32
  point : P → LockPoint
  owes : P → Bool

def LeavesLock (lock : BitVec 32) (m m' : MemoryModel 32 Dev) : Prop :=
  m'.layout = m.layout ∧ m'.wordAt lock = m.wordAt lock

def Names (cpu : RVModel 32) (addr : BitVec 32) (m : MemoryModel 32 Dev) (lock : BitVec 32) :
    Prop := ∀ pa, StoreTo cpu addr m pa → pa = lock

section Steps
variable [DecidableEq P]

def Sharing.move (s : Sharing P Dev) (p : P) (cpu : RVModel 32) (point : LockPoint)
    (mem : MemoryModel 32 Dev) : Sharing P Dev :=
  { s with
    mem := mem
    cpu := Function.update s.cpu p cpu
    point := Function.update s.point p point }

def Sharing.setOwes (s : Sharing P Dev) (p : P) (owes : Bool) : Sharing P Dev :=
  { s with owes := Function.update s.owes p owes }

/-- One instruction of process p, or what happens to it between two of them. An exchange that
    traps is tried again when the handler returns. -/
inductive LockStep (lock : BitVec 32) (s : Sharing P Dev) (p : P) : Sharing P Dev → Prop
  | work (cpu : RVModel 32) (mem : MemoryModel 32 Dev)
      (own : s.point p = .outside ∨ s.point p = .held) (leaves : LeavesLock lock s.mem mem) :
      LockStep lock s p (s.move p cpu (s.point p) mem)
  | slice (cpu : RVModel 32) (mem : MemoryModel 32 Dev) (preserved : cpu.regs = (s.cpu p).regs)
      (leaves : LeavesLock lock s.mem mem) : LockStep lock s p (s.move p cpu (s.point p) mem)
  | enter (r : LockRegs) (outside : s.point p = .outside)
      (one : (s.cpu p).regs.get r.one = 1#32) :
      LockStep lock s p (s.move p (s.cpu p) (.swap r) s.mem)
  | swap (r : LockRegs) (w : WordT) (cpu : RVModel 32) (mem : MemoryModel 32 Dev)
      (before : s.point p = .swap r) (asm : amoswap 0b10#2 r.tmp r.one r.addr = some w)
      (names : Names (s.cpu p) ((s.cpu p).regs.get r.addr) s.mem lock)
      (done : (s.cpu p).executeInstr (Decoder.decode 32 w) s.mem = (.ok false, cpu, mem)) :
      LockStep lock s p ((s.move p cpu (.test r) mem).setOwes p (cpu.regs.get r.tmp = 0#32))
  | swapTrap (r : LockRegs) (w : WordT) (cpu : RVModel 32) (mem : MemoryModel 32 Dev)
      (before : s.point p = .swap r) (asm : amoswap 0b10#2 r.tmp r.one r.addr = some w)
      (trapped : (s.cpu p).executeInstr (Decoder.decode 32 w) s.mem = (.ok true, cpu, mem)) :
      LockStep lock s p (s.move p cpu (.swap r) mem)
  | again (r : LockRegs) (before : s.point p = .test r)
      (taken : (s.cpu p).regs.get r.tmp ≠ 0#32) :
      LockStep lock s p (s.move p (s.cpu p) (.swap r) s.mem)
  | leave (r : LockRegs) (before : s.point p = .test r)
      (free : (s.cpu p).regs.get r.tmp = 0#32) :
      LockStep lock s p (s.move p (s.cpu p) .held s.mem)
  | release (addr : BitVec 5) (w : WordT) (cpu : RVModel 32) (mem : MemoryModel 32 Dev)
      (before : s.point p = .held) (asm : amoswap 0b01#2 0#5 0#5 addr = some w)
      (names : Names (s.cpu p) ((s.cpu p).regs.get addr) s.mem lock)
      (done : (s.cpu p).executeInstr (Decoder.decode 32 w) s.mem = (.ok false, cpu, mem)) :
      LockStep lock s p ((s.move p cpu .outside mem).setOwes p false)
  | releaseTrap (addr : BitVec 5) (w : WordT) (cpu : RVModel 32) (mem : MemoryModel 32 Dev)
      (before : s.point p = .held) (asm : amoswap 0b01#2 0#5 0#5 addr = some w)
      (trapped : (s.cpu p).executeInstr (Decoder.decode 32 w) s.mem = (.ok true, cpu, mem)) :
      LockStep lock s p (s.move p cpu .held mem)

def spinlock (lock : BitVec 32) : System (Sharing P Dev) P where
  init s := s.mem.findMmio lock = none ∧ s.mem.wordAt lock = 0#32 ∧
    ∀ p, s.point p = .outside ∧ s.owes p = false
  step := LockStep lock

end Steps

theorem decode_amoswap {order : BitVec 2} {rd rs2 rs1 : BitVec 5} {w : WordT}
    (asm : amoswap order rd rs2 rs1 = some w) :
    Opcode.ofBits? (Decoder.decode 32 w).opcode = some .amo ∧
      Funct5AMO.ofBits? (funct5 (Decoder.decode 32 w)) = some .amoswap ∧
      (Decoder.decode 32 w).rd = rd ∧ (Decoder.decode 32 w).rs1 = rs1 ∧
      (Decoder.decode 32 w).rs2 = rs2 := by
  have narrow (r : BitVec 5) : (r.setWidth 8).setWidth 5 = r := by
    revert r
    decide
  have code (order : BitVec 2) : Funct5AMO.ofBits?
      (((((0b00001#5 ++ order).setWidth 8).setWidth 7) >>> 2).setWidth 5) = some .amoswap := by
    revert order
    decide
  obtain ⟨op, hd, h1, h2, _, h7⟩ := InstrBuilder.decode_R (o := .amo) asm
  refine ⟨op, ?_, hd.trans (narrow rd), h1.trans (narrow rs1), h2.trans (narrow rs2)⟩
  unfold funct5
  rw [show (Decoder.decode 32 w).funct7 = _ from h7]
  exact code order

theorem amoswap_lock {order : BitVec 2} {rd rs2 rs1 : BitVec 5} {w : WordT} {lock : BitVec 32}
    {cpu cpu' : RVModel 32} {m m' : MemoryModel 32 Dev} (ram : m.findMmio lock = none)
    (asm : amoswap order rd rs2 rs1 = some w) (names : Names cpu (cpu.regs.get rs1) m lock)
    (done : cpu.executeInstr (Decoder.decode 32 w) m = (.ok false, cpu', m')) :
    m'.layout = m.layout ∧ m'.wordAt lock = cpu.regs.get rs2 ∧
      cpu'.regs = cpu.regs.set rd (m.wordAt lock) := by
  obtain ⟨amo, swap, hd, h1, h2⟩ := decode_amoswap asm
  unfold executeInstr at done
  simp only [amo] at done
  rcases executeAMO_swap (s := cpu) (m := m) swap with ⟨s', _, eq⟩ | ⟨e, eq⟩ |
    ⟨pa, v, m'', translated, clear, read, write, eq⟩
  · rw [eq] at done
    cases done
  · rw [eq] at done
    cases done
  · rw [eq] at done
    cases done
    rw [h1] at translated
    obtain rfl := names pa translated
    rw [MemoryModel.readWord_ram m ram] at read
    split at read
    · rename_i inside
      cases read
      obtain ⟨after, wrote, layout, words⟩ :=
        MemoryModel.writeWord_word m.invalidateReservation clear ram inside
          (cpu.regs.get (Decoder.decode 32 w).rs2)
      rw [wrote] at write
      cases write
      refine ⟨layout, ?_, ?_⟩
      · rw [words pa clear, if_pos rfl, h2]
      · rw [hd]
        rfl
    · cases read

theorem amoswap_trap {order : BitVec 2} {rd rs2 rs1 : BitVec 5} {w : WordT}
    {cpu cpu' : RVModel 32} {m m' : MemoryModel 32 Dev}
    (asm : amoswap order rd rs2 rs1 = some w)
    (trapped : cpu.executeInstr (Decoder.decode 32 w) m = (.ok true, cpu', m')) :
    m' = m ∧ cpu'.regs = cpu.regs := by
  obtain ⟨amo, swap, _⟩ := decode_amoswap asm
  unfold executeInstr at trapped
  simp only [amo] at trapped
  rcases executeAMO_swap (s := cpu) (m := m) swap with ⟨s', kept, eq⟩ | ⟨e, eq⟩ |
    ⟨pa, v, m'', _, _, _, _, eq⟩
  · rw [eq] at trapped
    cases trapped
    exact ⟨rfl, kept⟩
  · rw [eq] at trapped
    cases trapped
  · rw [eq] at trapped
    cases trapped

def PointInv (regs : RegisterFile 32) (owes : Bool) : LockPoint → Prop
  | .outside => owes = false
  | .swap r => owes = false ∧ regs.get r.one = 1#32
  | .test r => (owes = true ↔ regs.get r.tmp = 0#32) ∧ regs.get r.one = 1#32
  | .held => owes = true

/-- The holder of the lock owes a release, nobody else does, and the lock word says whether there
    is a holder. -/
structure LockInv (lock : BitVec 32) (s : Sharing P Dev) : Prop where
  ram : s.mem.findMmio lock = none
  points : ∀ p, PointInv (s.cpu p).regs (s.owes p) (s.point p)
  holder : ∃ holder : Option P, s.mem.wordAt lock = (if holder.isSome then 1#32 else 0#32) ∧
    ∀ p, s.owes p = true ↔ holder = some p

namespace LockInv
variable {lock : BitVec 32} {s : Sharing P Dev}

variable [DecidableEq P]

theorem move (inv : LockInv lock s) {p : P} {cpu : RVModel 32} {point : LockPoint}
    {mem : MemoryModel 32 Dev} (leaves : LeavesLock lock s.mem mem)
    (own : PointInv cpu.regs (s.owes p) point) : LockInv lock (s.move p cpu point mem) := by
  constructor
  · exact (MemoryModel.findMmio_of_layout leaves.1 lock).trans inv.ram
  · intro q
    unfold Sharing.move
    by_cases same : q = p
    · subst same
      simpa only [Function.update_self] using own
    · simpa only [Function.update_of_ne same] using inv.points q
  · obtain ⟨holder, word, owes⟩ := inv.holder
    exact ⟨holder, leaves.2.trans word, owes⟩

theorem exchange (inv : LockInv lock s) {p : P} {cpu : RVModel 32} {point : LockPoint}
    {mem : MemoryModel 32 Dev} {owes : Bool} (layout : mem.layout = s.mem.layout)
    (own : PointInv cpu.regs owes point)
    (holder : ∃ holder : Option P, mem.wordAt lock = (if holder.isSome then 1#32 else 0#32) ∧
      ∀ q, Function.update s.owes p owes q = true ↔ holder = some q) :
    LockInv lock ((s.move p cpu point mem).setOwes p owes) := by
  constructor
  · exact (MemoryModel.findMmio_of_layout layout lock).trans inv.ram
  · intro q
    unfold Sharing.setOwes Sharing.move
    by_cases same : q = p
    · subst same
      simpa only [Function.update_self] using own
    · simpa only [Function.update_of_ne same] using inv.points q
  · exact holder

theorem leaves_self (m : MemoryModel 32 Dev) : LeavesLock lock m m := ⟨rfl, rfl⟩

theorem swap (inv : LockInv lock s) {p : P} {r : LockRegs} {cpu : RVModel 32}
    {mem : MemoryModel 32 Dev} (before : s.point p = .swap r)
    (layout : mem.layout = s.mem.layout) (word : mem.wordAt lock = (s.cpu p).regs.get r.one)
    (regs : cpu.regs = (s.cpu p).regs.set r.tmp (s.mem.wordAt lock)) :
    LockInv lock ((s.move p cpu (.test r) mem).setOwes p (cpu.regs.get r.tmp = 0#32)) := by
  have point := inv.points p
  rw [before] at point
  obtain ⟨free, one⟩ : s.owes p = false ∧ (s.cpu p).regs.get r.one = 1#32 := point
  have tmp : cpu.regs.get r.tmp = s.mem.wordAt lock := by
    rw [regs, RegisterFile.get_set_self _ _ r.tmp_ne_zero]
  have still : cpu.regs.get r.one = 1#32 := by
    rw [regs, RegisterFile.get_set, if_neg fun same => r.tmp_ne_one same.1.symm, one]
  refine inv.exchange layout ⟨decide_eq_true_iff, still⟩ ?_
  obtain ⟨holder, value, owes⟩ := inv.holder
  rw [word, one, tmp, value]
  cases holder with
  | none =>
    refine ⟨some p, rfl, fun q => ?_⟩
    by_cases same : q = p
    · subst same
      simp
    · rw [Function.update_of_ne same, owes q]
      simp [Ne.symm same]
  | some h =>
    refine ⟨some h, rfl, fun q => ?_⟩
    by_cases same : q = p
    · subst same
      rw [← owes q, free]
      simp
    · rw [Function.update_of_ne same, owes q]

/-- Only the holder releases, and then there is none. -/
theorem release (inv : LockInv lock s) {p : P} {cpu : RVModel 32} {mem : MemoryModel 32 Dev}
    (before : s.point p = .held) (layout : mem.layout = s.mem.layout)
    (word : mem.wordAt lock = 0#32) :
    LockInv lock ((s.move p cpu .outside mem).setOwes p false) := by
  have owed := inv.points p
  rw [before] at owed
  refine inv.exchange layout rfl ⟨none, word, fun q => ?_⟩
  obtain ⟨holder, _, owes⟩ := inv.holder
  have mine : holder = some p := (owes p).mp owed
  by_cases same : q = p
  · subst same
    simp
  · rw [Function.update_of_ne same, owes q, mine]
    simp [Ne.symm same]

theorem step (inv : LockInv lock s) {p : P} {t : Sharing P Dev} (next : LockStep lock s p t) :
    LockInv lock t := by
  have point := inv.points p
  cases next with
  | work cpu mem own leaves =>
    refine inv.move leaves ?_
    rcases own with at' | at'
    · rw [at'] at point ⊢
      exact point
    · rw [at'] at point ⊢
      exact point
  | slice cpu mem preserved leaves =>
    refine inv.move leaves ?_
    rw [preserved]
    exact point
  | enter r outside one =>
    refine inv.move (leaves_self s.mem) ⟨?_, one⟩
    rw [outside] at point
    exact point
  | swap r w cpu mem before asm names done =>
    obtain ⟨layout, word, regs⟩ := amoswap_lock inv.ram asm names done
    exact inv.swap before layout word regs
  | swapTrap r w cpu mem before asm trapped =>
    obtain ⟨rfl, kept⟩ := amoswap_trap asm trapped
    refine inv.move (leaves_self s.mem) ?_
    rw [before] at point
    rw [kept]
    exact point
  | again r before taken =>
    rw [before] at point
    refine inv.move (leaves_self s.mem) ⟨?_, point.2⟩
    exact Bool.eq_false_iff.mpr fun owes => taken (point.1.mp owes)
  | leave r before free =>
    rw [before] at point
    exact inv.move (leaves_self s.mem) (point.1.mpr free)
  | release addr w cpu mem before asm names done =>
    obtain ⟨layout, word, _⟩ := amoswap_lock inv.ram asm names done
    exact inv.release before layout word
  | releaseTrap addr w cpu mem before asm trapped =>
    obtain ⟨rfl, _⟩ := amoswap_trap asm trapped
    rw [before] at point
    exact inv.move (leaves_self s.mem) point

theorem of_reachable (reached : (spinlock lock).Reachable s) : LockInv lock s := by
  refine reached.invariant _ (fun start init => ?_) fun s p t inv next => inv.step next
  obtain ⟨ram, word, idle⟩ := init
  refine ⟨ram, fun p => ?_, none, word, fun p => ?_⟩
  · rw [(idle p).1]
    exact (idle p).2
  · rw [(idle p).2]
    simp

end LockInv

/-- At most one process is between its acquire and its release, and an amoswap reads 1 out of the
    lock word exactly when a process has swapped out a 0 and not yet released. -/
theorem spinlock_mutual_exclusion [DecidableEq P] {lock : BitVec 32} {s : Sharing P Dev}
    (reached : (spinlock lock).Reachable s) :
    (∀ p q, s.point p = .held → s.point q = .held → p = q) ∧
    ∀ (cpu cpu' : RVModel 32) (mem' : MemoryModel 32 Dev) (order : BitVec 2)
      (rd rs2 rs1 : BitVec 5) (w : WordT), rd ≠ 0#5 → amoswap order rd rs2 rs1 = some w →
      Names cpu (cpu.regs.get rs1) s.mem lock →
      cpu.executeInstr (Decoder.decode 32 w) s.mem = (.ok false, cpu', mem') →
      (cpu'.regs.get rd = 1#32 ↔ ∃ p, s.owes p = true) := by
  have inv := LockInv.of_reachable reached
  obtain ⟨holder, word, owes⟩ := inv.holder
  constructor
  · intro p q hp hq
    have owed (p : P) (held : s.point p = .held) : holder = some p := by
      have point := inv.points p
      rw [held] at point
      exact (owes p).mp point
    exact Option.some.inj ((owed p hp).symm.trans (owed q hq))
  · intro cpu cpu' mem' order rd rs2 rs1 w nonzero asm names done
    obtain ⟨_, _, regs⟩ := amoswap_lock inv.ram asm names done
    rw [regs, RegisterFile.get_set_self _ _ nonzero, word]
    cases holder with
    | none => simp [owes]
    | some h => simp [owes]

def unlocked : Sharing Bool Unit where
  mem := .ofWords 16 [] ()
  cpu _ := { RVModel.new ⟨Config.EXT_A⟩ with
    regs := (RegisterFile.new.set 6#5 1#32).set 7#5 8#32 }
  point _ := .outside
  owes _ := false

def lockRegs : LockRegs := ⟨5#5, 6#5, 7#5, by decide, by decide, by decide⟩

theorem spinlock_mutual_exclusion_two : ∃ s : Sharing Bool Unit,
    (s.point true = .held ∧ s.point false = .swap lockRegs) ∧
    (∀ p q, s.point p = .held → s.point q = .held → p = q) := by
  have names (pa : BitVec 32) (same : some 8#32 = some pa) : pa = 8#32 :=
    (Option.some.inj same).symm
  have start : (spinlock 8#32).Reachable unlocked := .of_init ⟨rfl, rfl, fun _ => ⟨rfl, rfl⟩⟩
  have entered := start.next (.enter (p := true) lockRegs rfl rfl)
  have swapped := entered.next (.swap (p := true) lockRegs 0x0C63A2AF#32 _ _ rfl rfl names rfl)
  have held := swapped.next (.leave (p := true) lockRegs rfl rfl)
  have entered' := held.next (.enter (p := false) lockRegs rfl rfl)
  have swapped' := entered'.next (.swap (p := false) lockRegs 0x0C63A2AF#32 _ _ rfl rfl names rfl)
  have spinning := swapped'.next (.again (p := false) lockRegs rfl (by decide))
  exact ⟨_, ⟨rfl, rfl⟩, (spinlock_mutual_exclusion spinning).1⟩

end XorOS.Kernel
