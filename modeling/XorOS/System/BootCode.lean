import XorOS.Simulator.IdentityMap
import XorOS.Simulator.Listing
import XorOS.Simulator.Programs
import XorOS.System.RunOs

/- boot.S at the start of the image, from the first turn of run_os to the entry of kernel_main. -/
namespace XorOS.RunOs
open ISA Bits Runs RVModel MemoryModel Kernel InstrBuilder

section Code

/-- la rd, symbol at pc: auipc and addi, for any split of the distance. -/
inductive Pcrel (rd : BitVec 5) (symbol pc : BitVec 32) : List WordT → Prop
  | mk {hi : BitVec 32} {lo : BitVec 16} {upper lower : WordT}
      (auipc : (Asm.auipc rd hi).word = some upper) (addi : (Asm.addi rd rd lo).word = some lower)
      (target : pc + (hi &&& 0xFFFFF000#32) + lo.signExtend 32 = symbol) :
      Pcrel rd symbol pc [upper, lower]

/-- What the linker may leave of an la outside .option norelax: it may also reach the symbol from
    gp, or from zero. -/
inductive La (rd : BitVec 5) (symbol gp pc : BitVec 32) : List WordT → Prop
  | pcrel {code : List WordT} (norelax : Pcrel rd symbol pc code) : La rd symbol gp pc code
  | gprel {off : BitVec 16} {w : WordT} (addi : (Asm.addi rd Reg.gp off).word = some w)
      (target : gp + off.signExtend 32 = symbol) : La rd symbol gp pc [w]
  | zero {imm : BitVec 16} {w : WordT} (li : (Asm.li rd imm).word = some w)
      (target : imm.signExtend 32 = symbol) : La rd symbol gp pc [w]

def wordAddr (k : Nat) : BitVec 32 := 0#32 + BitVec.ofNat 32 (4 * k)

/-- The words of boot.S for the addresses of __global_pointer$, trap_entry and kernel_main. -/
inductive BootCode (gp trap main : BitVec 32) : List WordT → Prop
  | mk {li_sp csrw_mtvec lui_t0 addi_t0 csrw_mstatus csrw_mepc mret : WordT}
      {la_gp la_trap la_main : List WordT}
      -- li sp, 0x3000
      (sp : LUI 2#8 3#32 = some li_sp)
      (gpCode : Pcrel Reg.gp gp (wordAddr 1) la_gp)
      (trapCode : La Reg.t0 trap gp (wordAddr 3) la_trap)
      (mtvec : (Asm.csrw CSR.MTVEC Reg.t0).word = some csrw_mtvec)
      -- li t0, (3 << 11)
      (mppHigh : LUI 5#8 2#32 = some lui_t0)
      (mppLow : (Asm.addi Reg.t0 Reg.t0 0xF800#16).word = some addi_t0)
      (mstatus : (Asm.csrw CSR.MSTATUS Reg.t0).word = some csrw_mstatus)
      (mainCode : La Reg.t0 main gp (wordAddr (3 + la_trap.length + 4)) la_main)
      (mepc : (Asm.csrw CSR.MEPC Reg.t0).word = some csrw_mepc)
      (ret : Asm.mret.word = some mret) :
      BootCode gp trap main ([li_sp] ++ la_gp ++ la_trap ++
        [csrw_mtvec, lui_t0, addi_t0, csrw_mstatus] ++ la_main ++ [csrw_mepc, mret])

end Code

section Instructions
variable {M N : Type} [MemT 32 M] [MemT 32 N]

theorem executeInstr_elsewhere (t : RVModel 32) (d : DecodedInstr 32) {o : Opcode}
    (op : Opcode.ofBits? d.opcode = some o) (other : o ≠ .load ∧ o ≠ .store ∧ o ≠ .amo)
    (m : M) (n : N) :
    t.executeInstr d m = ((t.executeInstr d n).1, (t.executeInstr d n).2.1, m) := by
  obtain ⟨load, store, amo⟩ := other
  unfold executeInstr
  rw [op]
  cases o with
  | load => exact absurd rfl load
  | store => exact absurd rfl store
  | amo => exact absurd rfl amo
  | _ => rfl

def Does (cpu : RVModel 32) (w : WordT) (modified : Bool) (u : RVModel 32) : Prop :=
  w ≠ 0#32 ∧ ∀ t, arch t = arch cpu → ∀ c : CacheModel 32 OsDevice, ∃ t',
    t.executeInstr (Decoder.decode 32 w) c = (.ok modified, t', c) ∧ arch t' = arch u

variable {cpu : RVModel 32} {w : WordT}

theorem Does.of_memory {o : Opcode} {modified : Bool} {u : RVModel 32} (nonzero : w ≠ 0#32)
    (op : Opcode.ofBits? (Decoder.decode 32 w).opcode = some o)
    (other : o ≠ .load ∧ o ≠ .store ∧ o ≠ .amo)
    (exec : ∀ t, arch t = arch cpu → ∃ t', t.executeInstr (Decoder.decode 32 w)
      (MemoryModel.new 0 () : MemoryModel 32 Unit) = (.ok modified, t', .new 0 ()) ∧
        arch t' = arch u) : Does cpu w modified u := by
  refine ⟨nonzero, fun t same c => ?_⟩
  obtain ⟨t', done, after⟩ := exec t same
  refine ⟨t', ?_, after⟩
  rw [executeInstr_elsewhere t _ op other c (MemoryModel.new 0 () : MemoryModel 32 Unit), done]

theorem does_addi {rd rs1 : BitVec 5} {imm : BitVec 16}
    (built : (Asm.addi rd rs1 imm).word = some w) :
    Does cpu w false (cpu.setReg rd (cpu.regs.get rs1 + imm.signExtend 32)) := by
  refine .of_memory (Asm.word_ne_zero built) (Asm.decodes_I (o := .opImm) rfl built).opcode
    (by decide) fun t same => ⟨_, execute_addi t _ built, ?_⟩
  rw [regs_of_arch same]
  exact congrArg (setReg · rd _) same

theorem does_auipc {rd : BitVec 5} {imm : BitVec 32}
    (built : (Asm.auipc rd imm).word = some w) :
    Does cpu w false (cpu.setReg rd (cpu.pc + (imm &&& 0xFFFFF000#32))) := by
  refine .of_memory (Asm.word_ne_zero built) (decode_U (o := .auipc) built).1 (by decide)
    fun t same => ⟨_, execute_auipc t _ built, ?_⟩
  rw [pc_of_arch same]
  exact congrArg (setReg · rd _) same

theorem does_csrw {csr : BitVec 12} {rs1 : BitVec 5} (built : (Asm.csrw csr rs1).word = some w)
    (machine : cpu.privMode = .M) :
    Does cpu w false { cpu with csr := cpu.csr.write csr (cpu.regs.get rs1) } := by
  refine .of_memory (Asm.word_ne_zero built) (Asm.decodes_I (o := .system) rfl built).opcode
    (by decide) fun t same => ⟨_, execute_csrw t _ built ?_, ?_⟩
  · rw [privMode_of_arch same, machine]
    exact machine_allowed csr
  · have value : t.csr.write csr (t.regs.get rs1) = cpu.csr.write csr (cpu.regs.get rs1) := by
      rw [regs_of_arch same, csr_of_arch same]
    rw [value]
    exact congrArg
      (fun u : RVModel 32 => { u with csr := cpu.csr.write csr (cpu.regs.get rs1) }) same

theorem does_mret (built : Asm.mret.word = some w) : Does cpu w true cpu.executeMRET := by
  refine .of_memory (Asm.word_ne_zero built)
    (decode_I (o := .system) (by decide : 12 ≤ 32) built).1 (by decide)
    fun t same => ⟨_, execute_mret t _ built, ?_⟩
  rw [arch_executeMRET t, same]
  exact (arch_executeMRET cpu).symm

theorem does_lui {rd : BitVec 8} {imm20 : BitVec 32} (built : LUI rd imm20 = some w) :
    Does cpu w false (cpu.setReg (rd.setWidth 5) ((imm20 <<< 12) &&& 0xFFFFF000#32)) := by
  obtain ⟨op, d, value⟩ := decode_U (o := .lui) built
  have known : Opcode.ofBits? (Decoder.decode 32 w).opcode = some .lui := op
  have immediate : (Decoder.decode 32 w).imm = _ := decodeImm_format op
  have upper : ((imm20 <<< 12) &&& 0xFFFFF000#32).toNat =
      (imm20 <<< 12).toNat - (imm20 <<< 12).toNat % 2 ^ 12 :=
    toNat_and_not_mask (w := 32) (k := 12) (by omega) (imm20 <<< 12)
  have same : decodeImmU w = (imm20 <<< 12) &&& 0xFFFFF000#32 := by
    apply BitVec.eq_of_toNat_eq
    rw [value, upper]
    omega
  simp only [Opcode.format, same, BitVec.signExtend_eq] at immediate
  have target : (Decoder.decode 32 w).rd = rd.setWidth 5 := d
  refine .of_memory ?_ known (by decide) fun t same => ⟨t.setReg (rd.setWidth 5) _, ?_,
    congrArg (setReg · _ _) same⟩
  · rintro rfl
    cases op
  · unfold executeInstr
    simp only [known, target, immediate]

end Instructions

section Turns
variable {bin : List ByteT} {options : Options} {mem : MemoryModel 32 OsDevice}
  {cpu u : RVModel 32} {k : Nat} {s : OsRun} {w : WordT} {modified : Bool}

/-- The loop after k turns, with the processor as cpu and nothing stored to memory or devices. -/
structure Boots (mem : MemoryModel 32 OsDevice) (cpu : RVModel 32) (k : Nat) (s : OsRun) :
    Prop where
  cpu : arch s.cpu = arch cpu
  backing : s.cache.backing = { mem with dev := { device with mtime := BitVec.ofNat 64 k } }
  coherent : CacheModel.Coherent s.cache

theorem step_boots (h : Boots mem cpu k s) (running : cpu.halted = false) (bare : ¬cpu.Paging)
    (placed : Placed cpu mem w) (nonzero : w ≠ 0#32) :
    s.cpu.step s.cache = s.cpu.executeWord w (s.cache.fetchWord cpu.pc).2 := by
  have awake : s.cpu.halted = false := (congrArg RVModel.halted h.cpu).trans running
  have pc : s.cpu.pc = cpu.pc := pc_of_arch h.cpu
  have off : s.cpu.csr.read CSR.SATP >>> 31 = 0#32 := by
    rw [csr_of_arch h.cpu]
    exact not_not.mp bare
  have clear : LowClear 2 cpu.pc :=
    (and_mask_eq_zero_iff (k := 2) (w := 32) (by omega) cpu.pc).mp placed.aligned
  have ram : s.cache.backing.findMmio cpu.pc = none := by
    rw [h.backing]
    exact placed.ram
  have read : s.cache.backing.readWord cpu.pc = .ok w := by
    have word := readWord_placed placed
    rw [readWord_ram mem placed.ram] at word
    rw [readWord_ram _ ram, h.backing]
    exact word
  have answer : MemT.readWord cpu.pc s.cache = (.ok w, (s.cache.fetchWord cpu.pc).2) :=
    Prod.ext ((CacheModel.fetchWord_coherent h.coherent clear ram).1.trans read) rfl
  unfold step translateAddr
  simp only [awake, off, pc, Bool.false_eq_true, if_false, if_true, answer, nonzero]

theorem not_due {k : Nat} (early : k < 2 ^ 64 - 1) :
    timerDue { device with mtime := BitVec.ofNat 64 k } = false := by
  apply decide_eq_false
  intro due
  have late : 2 ^ 64 - 1 ≤ (BitVec.ofNat 64 k).toNat := due
  rw [BitVec.toNat_ofNat, Nat.mod_eq_of_lt (by omega)] at late
  omega

theorem turn_boots (h : Boots mem cpu k s) (early : k + 1 < 2 ^ 64 - 1)
    (running : cpu.halted = false) (bare : ¬cpu.Paging) (placed : Placed cpu mem w)
    (does : Does cpu w modified u) : ∃ s', (loop bin options).step s false s' ∧
      Boots mem (if modified then u else u.advancePC) (k + 1) s' := by
  obtain ⟨nonzero, exec⟩ := does
  have hooked := (arch_callStepHook s.cpu (Disasm.disassemble (Decoder.decode 32 w))).trans h.cpu
  obtain ⟨t, done, after⟩ := exec _ hooked (s.cache.fetchWord cpu.pc).2
  have stepped := step_boots h running bare placed nonzero
  unfold executeWord at stepped
  simp only [done] at stepped
  have clear : LowClear 2 cpu.pc :=
    (and_mask_eq_zero_iff (k := 2) (w := 32) (by omega) cpu.pc).mp placed.aligned
  have ram : s.cache.backing.findMmio cpu.pc = none := by
    rw [h.backing]
    exact placed.ram
  obtain ⟨-, backing, coherent⟩ := CacheModel.fetchWord_coherent h.coherent clear ram
  have ticked : (tick (s.cache.fetchWord cpu.pc).2).backing =
      { mem with dev := { device with mtime := BitVec.ofNat 64 (k + 1) } } := by
    unfold tick CacheModel.withBacking
    rw [backing, h.backing, BitVec.ofNat_add]
  have soon : timerDue (tick (s.cache.fetchWord cpu.pc).2).backing.dev = false := by
    rw [ticked]
    exact not_due early
  refine ⟨⟨(if modified then t else t.advancePC).countInstr,
    tick (s.cache.fetchWord cpu.pc).2⟩, ⟨?_, ?_⟩, ?_, ticked, ?_⟩
  · exact (congrArg RVModel.halted h.cpu).trans running
  · unfold turn
    rw [stepped]
    simp only [soon, Bool.false_eq_true, if_false]
  · cases modified with
    | true => exact after
    | false => exact congrArg advancePC after
  · exact CacheModel.coherent_withBacking coherent rfl rfl fun _ => rfl

/-- The loop comes to cpu in k turns, none of which takes an interrupt. -/
def Booted (bin : List ByteT) (options : Options) (mem : MemoryModel 32 OsDevice) (s : OsRun)
    (k : Nat) (cpu : RVModel 32) : Prop :=
  ∃ t, (loop bin options).Path s (List.replicate k false) t ∧ Boots mem cpu k t

variable {words : List WordT} {base : RVModel 32} {regs regs' : RegisterFile 32}
  {csr csr' : CsrFile 32}

theorem Booted.word (h : Booted bin options mem s k (place base 0#32 k regs csr))
    (held : HoldsWords mem words 0#32) (running : base.halted = false)
    (bare : csr.read CSR.SATP >>> 31 = 0#32) (here : words[k]? = some w)
    (does : Does (place base 0#32 k regs csr) w modified u) :
    Booted bin options mem s (k + 1) (if modified then u else u.advancePC) := by
  obtain ⟨t, path, boots⟩ := h
  have inside : k < words.length := (List.getElem?_eq_some_iff.mp here).1
  have low := held.low
  have pc : (place base 0#32 k regs csr).pc.toNat = (0#32).toNat + 4 * k := by
    change (0#32 + BitVec.ofNat 32 (4 * k)).toNat = _
    rw [BitVec.zero_add, BitVec.toNat_ofNat, Nat.mod_eq_of_lt (by omega)]
    exact (Nat.zero_add _).symm
  obtain ⟨t', step, next⟩ : ∃ t', (loop bin options).step t false t' ∧ Boots mem _ (k + 1) t' :=
    turn_boots boots (by omega) running (not_not.mpr bare) (held.placed here pc) does
  refine ⟨t', ?_, next⟩
  rw [List.replicate_succ']
  exact path.snoc step

theorem Booted.next (h : Booted bin options mem s k (place base 0#32 k regs csr))
    (held : HoldsWords mem words 0#32) (running : base.halted = false)
    (bare : csr.read CSR.SATP >>> 31 = 0#32) (here : words[k]? = some w)
    (does : Does (place base 0#32 k regs csr) w false (place base 0#32 k regs' csr')) :
    Booted bin options mem s (k + 1) (place base 0#32 (k + 1) regs' csr') := by
  rw [place_next]
  exact h.word held running bare here does

theorem set_set (r : RegisterFile 32) (i : BitVec 5) (v w : BitVec 32) :
    (r.set i v).set i w = r.set i w := by
  unfold RegisterFile.set
  by_cases zero : i = 0#5
  · simp only [if_pos zero]
  · simp only [if_neg zero, RegisterFile.mk.injEq]
    funext j
    by_cases own : j = i
    · simp only [if_pos own]
    · simp only [if_neg own]

theorem getElem?_of_block {before block after : List WordT} (all : words = before ++ block ++ after)
    {j : Nat} (here : block[j]? = some w) : words[before.length + j]? = some w := by
  have inside : j < block.length := (List.getElem?_eq_some_iff.mp here).1
  rw [all, List.append_assoc, List.getElem?_append_right (by omega), Nat.add_sub_cancel_left,
    List.getElem?_append_left inside, here]

/-- la loads the address of its symbol. -/
theorem Booted.pcrel {rd : BitVec 5} {symbol : BitVec 32} {code : List WordT}
    (before after : List WordT) (all : words = before ++ code ++ after) (nonzero : rd ≠ 0#5)
    (la : Pcrel rd symbol (wordAddr before.length) code)
    (h : Booted bin options mem s before.length (place base 0#32 before.length regs csr))
    (held : HoldsWords mem words 0#32) (running : base.halted = false)
    (bare : csr.read CSR.SATP >>> 31 = 0#32) :
    Booted bin options mem s (before ++ code).length
      (place base 0#32 (before ++ code).length (regs.set rd symbol) csr) := by
  rw [List.length_append]
  obtain @⟨hi, lo, upper, lower, auipc, addi, target⟩ := la
  let high := wordAddr before.length + (hi &&& 0xFFFFF000#32)
  have first : Booted bin options mem s (before.length + 1)
      (place base 0#32 (before.length + 1) (regs.set rd high) csr) :=
    h.next held running bare (getElem?_of_block all (j := 0) rfl) (does_auipc auipc)
  have second : Booted bin options mem s (before.length + 2)
      (place base 0#32 (before.length + 2)
        ((regs.set rd high).set rd ((regs.set rd high).get rd + lo.signExtend 32)) csr) :=
    first.next held running bare (getElem?_of_block all (j := 1) rfl) (does_addi addi)
  rw [RegisterFile.get_set_self _ _ nonzero, set_set, target] at second
  exact second

theorem Booted.la {rd : BitVec 5} {symbol : BitVec 32} {code : List WordT}
    (before after : List WordT) (all : words = before ++ code ++ after) (nonzero : rd ≠ 0#5)
    (la : La rd symbol (regs.get Reg.gp) (wordAddr before.length) code)
    (h : Booted bin options mem s before.length (place base 0#32 before.length regs csr))
    (held : HoldsWords mem words 0#32) (running : base.halted = false)
    (bare : csr.read CSR.SATP >>> 31 = 0#32) :
    Booted bin options mem s (before ++ code).length
      (place base 0#32 (before ++ code).length (regs.set rd symbol) csr) := by
  cases la with
  | pcrel norelax => exact h.pcrel before after all nonzero norelax held running bare
  | gprel addi target =>
    have done : Booted bin options mem s (before.length + 1)
        (place base 0#32 (before.length + 1) (regs.set rd (regs.get Reg.gp + _)) csr) :=
      h.next held running bare (getElem?_of_block all (j := 0) rfl) (does_addi addi)
    rw [target] at done
    rw [List.length_append]
    exact done
  | zero li target =>
    have done : Booted bin options mem s (before.length + 1)
        (place base 0#32 (before.length + 1) (regs.set rd (regs.get Reg.zero + _)) csr) :=
      h.next held running bare (getElem?_of_block all (j := 0) rfl) (does_addi li)
    have zero : regs.get Reg.zero = 0#32 := rfl
    rw [zero, BitVec.zero_add, target] at done
    rw [List.length_append]
    exact done

theorem Booted.csrw {a : BitVec 12} {rs1 : BitVec 5} {block : List WordT} {j : Nat}
    (before after : List WordT) (all : words = before ++ block ++ after)
    (here : block[j]? = some w) (built : (Asm.csrw a rs1).word = some w)
    (h : Booted bin options mem s (before.length + j)
      (place base 0#32 (before.length + j) regs csr))
    (held : HoldsWords mem words 0#32) (running : base.halted = false)
    (machine : base.privMode = .M) (bare : csr.read CSR.SATP >>> 31 = 0#32) :
    Booted bin options mem s (before.length + (j + 1))
      (place base 0#32 (before.length + (j + 1)) regs (csr.write a (regs.get rs1))) :=
  h.next held running bare (getElem?_of_block all here) (does_csrw built machine)

/-- csrw mtvec, t0 with the vector in t0; then li t0, (3 << 11) and csrw mstatus, t0. -/
theorem Booted.vector {trap : BitVec 32} {csrw_mtvec lui_t0 addi_t0 csrw_mstatus : WordT}
    (front after : List WordT)
    (all : words = front ++ [csrw_mtvec, lui_t0, addi_t0, csrw_mstatus] ++ after)
    (mtvec : (Asm.csrw CSR.MTVEC Reg.t0).word = some csrw_mtvec)
    (mppHigh : LUI 5#8 2#32 = some lui_t0)
    (mppLow : (Asm.addi Reg.t0 Reg.t0 0xF800#16).word = some addi_t0)
    (mstatus : (Asm.csrw CSR.MSTATUS Reg.t0).word = some csrw_mstatus)
    (h : Booted bin options mem s front.length
      (place base 0#32 front.length (regs.set Reg.t0 trap) CsrFile.new))
    (held : HoldsWords mem words 0#32) (running : base.halted = false)
    (machine : base.privMode = .M) :
    Booted bin options mem s (front.length + 4)
      (place base 0#32 (front.length + 4) (regs.set Reg.t0 0x1800#32)
        ((CsrFile.new.write CSR.MTVEC trap).write CSR.MSTATUS 0x1800#32)) := by
  have bare : (CsrFile.new.write CSR.MTVEC trap).read CSR.SATP >>> 31 = 0#32 := by
    rw [CsrFile.read_write_of_ne _ (by decide)]
    rfl
  have vector : Booted bin options mem s (front.length + 1)
      (place base 0#32 (front.length + 1) (regs.set Reg.t0 trap)
        (CsrFile.new.write CSR.MTVEC ((regs.set Reg.t0 trap).get Reg.t0))) :=
    h.csrw front after all (j := 0) rfl mtvec held running machine rfl
  rw [RegisterFile.get_set_self _ _ (by decide)] at vector
  have high : Booted bin options mem s (front.length + 2)
      (place base 0#32 (front.length + 2) ((regs.set Reg.t0 trap).set Reg.t0 0x2000#32)
        (CsrFile.new.write CSR.MTVEC trap)) :=
    vector.next held running bare (getElem?_of_block all (j := 1) rfl) (does_lui mppHigh)
  rw [set_set] at high
  have low : Booted bin options mem s (front.length + 3)
      (place base 0#32 (front.length + 3) ((regs.set Reg.t0 0x2000#32).set Reg.t0
        ((regs.set Reg.t0 0x2000#32).get Reg.t0 + (0xF800#16).signExtend 32))
        (CsrFile.new.write CSR.MTVEC trap)) :=
    high.next held running bare (getElem?_of_block all (j := 2) rfl) (does_addi mppLow)
  rw [RegisterFile.get_set_self _ _ (by decide), set_set] at low
  have status : Booted bin options mem s (front.length + 4)
      (place base 0#32 (front.length + 4) (regs.set Reg.t0 0x1800#32)
        ((CsrFile.new.write CSR.MTVEC trap).write CSR.MSTATUS
          ((regs.set Reg.t0 0x1800#32).get Reg.t0))) :=
    low.csrw front after all (j := 3) rfl mstatus held running machine bare
  rw [RegisterFile.get_set_self _ _ (by decide)] at status
  exact status

end Turns

/-- The mret of boot.S stays in M-mode, and leaves MPIE set and interrupts off. -/
theorem executeMRET_boot {s : RVModel 32} (machine : s.privMode = .M) (k : Nat)
    (regs : RegisterFile 32) (trap main : BitVec 32) :
    (place s 0#32 k regs (((CsrFile.new.write CSR.MTVEC trap).write CSR.MSTATUS 0x1800#32).write
      CSR.MEPC main)).executeMRET = { s with
        pc := main
        regs := regs
        csr := ((CsrFile.new.put CSR.MTVEC trap).put CSR.MEPC main).put CSR.MSTATUS 0x80#32 } := by
  let csr := (CsrFile.new.write CSR.MTVEC trap).write CSR.MSTATUS 0x1800#32
  have mstatus : (csr.write CSR.MEPC main).read CSR.MSTATUS = 0x1800#32 := by
    rw [CsrFile.read_write_of_ne _ (by decide)]
    rfl
  have mode : mpp (0x1800#32) = s.privMode := by
    rw [machine]
    decide
  have enables : mretMstatus (0x1800#32) = 0x80#32 := by decide
  have csrs : (csr.write CSR.MEPC main).write CSR.MSTATUS 0x80#32 =
      ((CsrFile.new.put CSR.MTVEC trap).put CSR.MEPC main).put CSR.MSTATUS 0x80#32 := by
    change ((((CsrFile.new.put CSR.MTVEC trap).put CSR.MSTATUS 0x1800#32).put CSR.MEPC main).put
      CSR.MSTATUS 0x80#32) = _
    rw [(CsrFile.new.put CSR.MTVEC trap).put_comm (by decide : CSR.MSTATUS ≠ CSR.MEPC),
      CsrFile.put_put]
  have returned : (place s 0#32 k regs (csr.write CSR.MEPC main)).executeMRET = { s with
      pc := main
      regs := regs
      csr := (csr.write CSR.MEPC main).write CSR.MSTATUS 0x80#32 } := by
    unfold executeMRET
    simp only [place, mstatus, mode, enables]
    rfl
  exact returned.trans (by rw [csrs])

theorem BootCode.length_le {gp trap main : BitVec 32} {words : List WordT}
    (code : BootCode gp trap main words) : words.length ≤ 13 := by
  have pcrel {rd : BitVec 5} {symbol pc : BitVec 32} {code : List WordT}
      (la : Pcrel rd symbol pc code) : code.length = 2 := by
    cases la
    rfl
  have bound {rd : BitVec 5} {symbol gp pc : BitVec 32} {code : List WordT}
      (la : La rd symbol gp pc code) : code.length ≤ 2 := by
    cases la with
    | pcrel norelax => exact (pcrel norelax).le
    | gprel addi target => exact Nat.le_succ 1
    | zero li target => exact Nat.le_succ 1
  cases code with
  | mk sp gpCode trapCode mtvec mppHigh mppLow mstatus mainCode mepc ret =>
    have gpLength := pcrel gpCode
    have trapLength := bound trapCode
    have mainLength := bound mainCode
    simp only [List.length_append, List.length_cons, List.length_nil]
    omega

theorem holdsWords_boot {bin : List ByteT} {options : Options} {s : OsRun} {words : List WordT}
    (booted : boot bin options = some s) (short : words.length ≤ 13)
    (image : words.flatMap wordBytes <+: bin) : HoldsWords s.cache.backing words 0#32 := by
  unfold boot readBinary at booted
  split at booted
  swap
  · cases booted
  rename_i fits
  simp only [Option.map_some, Option.some.injEq] at booted
  subst booted
  refine ⟨rfl, ?_, ?_, fun a _ high => ?_, ?_⟩
  · change 0 + 4 * words.length ≤ _
    omega
  · change 0 + 4 * words.length ≤ 0x10000
    omega
  · change a.toNat < 0 + 4 * words.length at high
    exact findMmio_away rfl rfl (Or.inl (by omega))
  · intro k w word j small
    change bin.getD (0 + 4 * k + j) 0#8 = _
    obtain ⟨rest, rfl⟩ := image
    have byte := getElem?_wordBytes words k w word j small
    have inside := (List.getElem?_eq_some_iff.mp byte).1
    rw [Nat.zero_add, List.getD_eq_getElem?_getD, List.getElem?_append_left inside, byte]
    rfl

theorem boots_boot {bin : List ByteT} {options : Options} {s : OsRun}
    (booted : boot bin options = some s) : Boots s.cache.backing s.cpu 0 s := by
  unfold boot readBinary at booted
  split at booted
  swap
  · cases booted
  simp only [Option.map_some, Option.some.injEq] at booted
  subst booted
  have whole : MEM_SIZE % 4 = 0 := by decide
  refine ⟨rfl, rfl, CacheModel.coherent_new ⟨whole, ?_⟩ (by decide)⟩
  intro r listed
  have regions : ∀ r ∈ (osMemory 0#64).mmio, LowClear 2 r.base ∧ LowClear 2 r.endAddr := by
    intro r listed
    simp only [osMemory, runOsMemory, mapMmio, MemoryModel.new, List.nil_append, List.cons_append,
      List.mem_cons, List.not_mem_nil, or_false] at listed
    rcases listed with rfl | rfl | rfl
    all_goals exact ⟨(lowClear_iff_mod 2 _).mpr (by decide), (lowClear_iff_mod 2 _).mpr (by decide)⟩
  exact regions r listed

/-- Wherever trap_entry, kernel_main and the global pointer are linked, run_os on an image that
    starts with boot.S comes to kernel_main after one turn for each word: in M-mode, with the stack
    below 0x3000, the vector set and interrupts off, no trap on the way and nothing stored. -/
theorem boot_reaches_kernel_main {bin : List ByteT} {options : Options} {s : OsRun}
    {gp trap main : BitVec 32} {words : List WordT} (code : BootCode gp trap main words)
    (image : words.flatMap wordBytes <+: bin) (booted : boot bin options = some s) :
    ∃ t, (loop bin options).Path s (List.replicate words.length false) t ∧
      arch t.cpu = arch { s.cpu with
        pc := main
        regs := ((RegisterFile.new.set Reg.sp 0x3000#32).set Reg.gp gp).set Reg.t0 main
        csr := ((CsrFile.new.put CSR.MTVEC trap).put CSR.MEPC main).put CSR.MSTATUS 0x80#32 } ∧
      t.cache.backing = { s.cache.backing with
        dev := { device with mtime := BitVec.ofNat 64 words.length } } := by
  have held := holdsWords_boot booted code.length_le image
  have start : Booted bin options s.cache.backing s 0 s.cpu := ⟨s, .nil s, boots_boot booted⟩
  have reset : s.cpu = place s.cpu 0#32 0 (RegisterFile.new.set Reg.sp 0xFFFC#32) CsrFile.new ∧
      s.cpu.halted = false ∧ s.cpu.privMode = .M := by
    unfold boot at booted
    obtain ⟨mem, -, rfl⟩ := Option.map_eq_some_iff.mp booted
    exact ⟨rfl, rfl, rfl⟩
  obtain ⟨reset, running, machine⟩ := reset
  rw [reset] at start
  obtain @⟨li_sp, csrw_mtvec, lui_t0, addi_t0, csrw_mstatus, csrw_mepc, mret, la_gp, la_trap,
    la_main, sp, gpCode, trapCode, mtvec, mppHigh, mppLow, mstatus, mainCode, mepc, ret⟩ := code
  generalize all : [li_sp] ++ la_gp ++ la_trap ++
    [csrw_mtvec, lui_t0, addi_t0, csrw_mstatus] ++ la_main ++ [csrw_mepc, mret] = words at held ⊢
  let stores := [csrw_mtvec, lui_t0, addi_t0, csrw_mstatus]
  let ends := [csrw_mepc, mret]
  have split (before block after : List WordT)
      (same : [li_sp] ++ la_gp ++ la_trap ++ stores ++ la_main ++ ends = before ++ block ++ after) :
      words = before ++ block ++ after := all.symm.trans same
  let regs := (RegisterFile.new.set Reg.sp 0x3000#32).set Reg.gp gp
  let csr := (CsrFile.new.write CSR.MTVEC trap).write CSR.MSTATUS 0x1800#32
  have bare : csr.read CSR.SATP >>> 31 = 0#32 := by
    rw [CsrFile.read_write_of_ne _ (by decide), CsrFile.read_write_of_ne _ (by decide)]
    rfl
  -- li sp, 0x3000 and la gp, __global_pointer$
  have stack : Booted bin options s.cache.backing s 1
      (place s.cpu 0#32 1 ((RegisterFile.new.set Reg.sp 0xFFFC#32).set Reg.sp 0x3000#32)
        CsrFile.new) :=
    start.next held running rfl (w := li_sp) (by rw [← all]; rfl) (does_lui sp)
  rw [set_set] at stack
  have global : Booted bin options s.cache.backing s ([li_sp] ++ la_gp).length
      (place s.cpu 0#32 ([li_sp] ++ la_gp).length regs CsrFile.new) :=
    stack.pcrel [li_sp] (la_trap ++ stores ++ la_main ++ ends)
      (split _ _ _ (by simp only [List.append_assoc])) (by decide) gpCode held running rfl
  -- la t0, trap_entry
  have three : ([li_sp] ++ la_gp).length = 3 := by
    cases gpCode
    rfl
  rw [← three] at trapCode mainCode
  have target : Booted bin options s.cache.backing s ([li_sp] ++ la_gp ++ la_trap).length
      (place s.cpu 0#32 ([li_sp] ++ la_gp ++ la_trap).length (regs.set Reg.t0 trap)
        CsrFile.new) :=
    global.la ([li_sp] ++ la_gp) (stores ++ la_main ++ ends)
      (split _ _ _ (by simp only [List.append_assoc])) (by decide) trapCode held running rfl
  -- csrw mtvec, t0; li t0, (3 << 11); csrw mstatus, t0
  let front := [li_sp] ++ la_gp ++ la_trap
  have storesAt : words = front ++ stores ++ (la_main ++ ends) :=
    split _ _ _ (by simp only [front, List.append_assoc])
  have status : Booted bin options s.cache.backing s (front.length + 4)
      (place s.cpu 0#32 (front.length + 4) (regs.set Reg.t0 0x1800#32) csr) :=
    target.vector front (la_main ++ ends) storesAt mtvec mppHigh mppLow mstatus held running
      machine
  -- la t0, kernel_main; csrw mepc, t0
  have position : ([li_sp] ++ la_gp).length + la_trap.length + 4 = (front ++ stores).length := by
    simp only [front, stores, List.length_append, List.length_cons, List.length_nil]
  rw [position] at mainCode
  have entry : Booted bin options s.cache.backing s (front ++ stores ++ la_main).length
      (place s.cpu 0#32 (front ++ stores ++ la_main).length
        ((regs.set Reg.t0 0x1800#32).set Reg.t0 main) csr) := by
    have here : front.length + 4 = (front ++ stores).length := by
      simp only [stores, List.length_append, List.length_cons, List.length_nil]
    rw [here] at status
    exact status.la (front ++ stores) ends (split _ _ _ (by simp only [front, List.append_assoc]))
      (by decide) mainCode held running bare
  rw [set_set] at entry
  have whole : words = (front ++ stores ++ la_main) ++ ends ++ [] :=
    split _ _ _ (by simp only [front, List.append_assoc, List.append_nil])
  have epc : Booted bin options s.cache.backing s ((front ++ stores ++ la_main).length + 1)
      (place s.cpu 0#32 ((front ++ stores ++ la_main).length + 1) (regs.set Reg.t0 main)
        (csr.write CSR.MEPC ((regs.set Reg.t0 main).get Reg.t0))) :=
    entry.csrw (front ++ stores ++ la_main) [] whole (j := 0) rfl mepc held running machine bare
  rw [RegisterFile.get_set_self _ _ (by decide)] at epc
  have bare' : (csr.write CSR.MEPC main).read CSR.SATP >>> 31 = 0#32 := by
    rw [CsrFile.read_write_of_ne _ (by decide), bare]
  have done := epc.word held running bare' (getElem?_of_block whole (j := 1) rfl) (does_mret ret)
  have count : (front ++ stores ++ la_main).length + 1 + 1 = words.length := by
    rw [whole]
    simp only [ends, List.length_append, List.length_cons, List.length_nil]
  rw [count] at done
  obtain ⟨t, path, boots⟩ := done
  refine ⟨t, path, boots.cpu.trans ?_, boots.backing⟩
  rw [if_pos rfl, executeMRET_boot machine]

def bootWords : List WordT :=
  [0x00003137#32, 0x00004197#32, 0x7FC18193#32, 0x10000293#32, 0x30529073#32,
    0x000022B7#32, 0x80028293#32, 0x30029073#32, 0x00000297#32, 0x1E028293#32,
    0x34129073#32, 0x30200073#32]

def bootRun : OsRun where
  cpu := (RVModel.new ⟨Config.EXT_A⟩).init 0#32 0xFFFC#32
  cache := .new (runOsMemory { MemoryModel.new MEM_SIZE device with
    data := fun i => (bootWords.flatMap wordBytes).getD i 0#8 }) 64

theorem boot_reaches_kernel_main_linked :
    ∃ t, (loop (bootWords.flatMap wordBytes) ⟨false, false⟩).Path bootRun
        (List.replicate 12 false) t ∧
      t.cpu.pc = 0x200#32 ∧ t.cpu.csr.read CSR.MTVEC = 0x100#32 ∧ mie t.cpu = false := by
  have gpCode : Pcrel Reg.gp 0x4800#32 (wordAddr 1) [0x00004197#32, 0x7FC18193#32] :=
    @Pcrel.mk _ _ _ 0x4000#32 0x7FC#16 _ _ (by decide) (by decide) (by decide)
  have trapCode : La Reg.t0 0x100#32 0x4800#32 (wordAddr 3) [0x10000293#32] :=
    @La.zero _ _ _ _ 0x100#16 _ (by decide) (by decide)
  have mainCode : Pcrel Reg.t0 0x200#32 (wordAddr 8) [0x00000297#32, 0x1E028293#32] :=
    @Pcrel.mk _ _ _ 0#32 0x1E0#16 _ _ (by decide) (by decide) (by decide)
  have code : BootCode 0x4800#32 0x100#32 0x200#32 bootWords :=
    .mk (by decide) gpCode trapCode (by decide) (by decide) (by decide) (by decide)
      (.pcrel mainCode) (by decide) (by decide)
  have booted : boot (bootWords.flatMap wordBytes) ⟨false, false⟩ = some bootRun := rfl
  obtain ⟨t, path, cpu, -⟩ := boot_reaches_kernel_main code (List.prefix_refl _) booted
  refine ⟨t, path, pc_of_arch cpu, ?_, ?_⟩
  · rw [csr_of_arch cpu]
    rfl
  · unfold mie
    rw [csr_of_arch cpu]
    rfl

end XorOS.RunOs
