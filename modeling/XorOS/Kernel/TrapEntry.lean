import Mathlib.Data.List.Nodup
import XorOS.Kernel.Trap
import XorOS.Simulator.Listing
import XorOS.Simulator.Undisturbed

/- trap.S, run by the processor, around a trap_handler of which only the calling convention is
   known. -/
namespace XorOS.Kernel
open ISA Bits RVModel Reg MemoryModel

/-- call trap_handler: one jal where the linker relaxes it, else auipc and jalr. -/
inductive TrapCall where
  | near (offset : BitVec 32)
  | far (hi : BitVec 32) (lo : BitVec 16)
  deriving DecidableEq, Repr

namespace TrapCall

def code : TrapCall → List Asm
  | near offset => [.jal ra offset]
  | far hi lo => [.auipc ra hi, .jalr ra ra lo]

def target (pc : BitVec 32) : TrapCall → BitVec 32
  | near offset => pc + jalOffset offset
  | far hi lo => (pc + (hi &&& 0xFFFFF000#32) + lo.signExtend 32) &&& ~~~0b01#32

end TrapCall

def trapSave : List Asm :=
  [.csrw CSR.MSCRATCH t0,
    .addi sp sp (-128#16),
    .sw ra 0#16 sp,
    .addi t0 sp 128#16,
    .sw t0 4#16 sp,
    .sw gp 8#16 sp,
    .sw tp 12#16 sp,
    .csrr t0 CSR.MSCRATCH,
    .sw t0 16#16 sp,
    .sw t1 20#16 sp,
    .sw t2 24#16 sp,
    .sw s0 28#16 sp,
    .sw s1 32#16 sp,
    .sw a0 36#16 sp,
    .sw a1 40#16 sp,
    .sw a2 44#16 sp,
    .sw a3 48#16 sp,
    .sw a4 52#16 sp,
    .sw a5 56#16 sp,
    .sw a6 60#16 sp,
    .sw a7 64#16 sp,
    .sw s2 68#16 sp,
    .sw s3 72#16 sp,
    .sw s4 76#16 sp,
    .sw s5 80#16 sp,
    .sw s6 84#16 sp,
    .sw s7 88#16 sp,
    .sw s8 92#16 sp,
    .sw s9 96#16 sp,
    .sw s10 100#16 sp,
    .sw s11 104#16 sp,
    .sw t3 108#16 sp,
    .sw t4 112#16 sp,
    .sw t5 116#16 sp,
    .sw t6 120#16 sp,
    .csrr a0 CSR.MCAUSE,
    .csrr a1 CSR.MEPC,
    .csrr a2 CSR.MTVAL,
    .mv a3 sp]

def trapRestore : List Asm :=
  [.csrr t0 CSR.MCAUSE,
    .li t1 8#16,
    .beq t0 t1 20#16, -- 1f
    .li t1 9#16,
    .beq t0 t1 12#16, -- 1f
    .li t1 11#16,
    .bne t0 t1 16#16, -- 2f
    .csrr t0 CSR.MEPC, -- 1:
    .addi t0 t0 4#16,
    .csrw CSR.MEPC t0,
    .lw ra 0#16 sp, -- 2:
    .lw gp 8#16 sp,
    .lw tp 12#16 sp,
    .lw t0 16#16 sp,
    .lw t1 20#16 sp,
    .lw t2 24#16 sp,
    .lw s0 28#16 sp,
    .lw s1 32#16 sp,
    .lw a0 36#16 sp,
    .lw a1 40#16 sp,
    .lw a2 44#16 sp,
    .lw a3 48#16 sp,
    .lw a4 52#16 sp,
    .lw a5 56#16 sp,
    .lw a6 60#16 sp,
    .lw a7 64#16 sp,
    .lw s2 68#16 sp,
    .lw s3 72#16 sp,
    .lw s4 76#16 sp,
    .lw s5 80#16 sp,
    .lw s6 84#16 sp,
    .lw s7 88#16 sp,
    .lw s8 92#16 sp,
    .lw s9 96#16 sp,
    .lw s10 100#16 sp,
    .lw s11 104#16 sp,
    .lw t3 108#16 sp,
    .lw t4 112#16 sp,
    .lw t5 116#16 sp,
    .lw t6 120#16 sp,
    .addi sp sp 128#16,
    .mret]

def trapEntry (call : TrapCall) : List Asm := trapSave ++ (call.code ++ trapRestore)

def frameWord (f : BitVec 32) (k : Nat) : BitVec 32 := f + BitVec.ofNat 32 (4 * k)

def frameWords (f : BitVec 32) : Set (BitVec 32) := { a | ∃ k < 32, a = frameWord f k }

def TRAP_FRAME_SP : BitVec 5 := 1#5
def TRAP_FRAME_A0 : BitVec 5 := 9#5

variable {Dev : Type}

def frameAt (φ : BitVec 32 → BitVec 32) (m : MemoryModel 32 Dev) (f : BitVec 32) : TrapFrame :=
  ⟨f, fun k => view φ m (frameWord f k.toNat)⟩

def frameSlot (k : Nat) : BitVec 5 × BitVec 16 := (BitVec.ofNat 5 (k + 1), BitVec.ofNat 16 (4 * k))

def frameSlots (f : BitVec 32) (ks : List Nat) : List (BitVec 5 × BitVec 32) :=
  ks.map fun k => (BitVec.ofNat 5 (k + 1), frameWord f k)

theorem slotsAt_frame (f : BitVec 32) {ks : List Nat} (small : ∀ k ∈ ks, k < 32) :
    slotsAt f (ks.map frameSlot) = frameSlots f ks := by
  have table : ∀ k < 32, (BitVec.ofNat 16 (4 * k)).signExtend 32 = BitVec.ofNat 32 (4 * k) := by
    decide
  unfold slotsAt frameSlots frameSlot frameWord
  rw [List.map_map]
  refine List.map_congr_left fun k member => ?_
  simp only [Function.comp_apply, table k (small k member)]

theorem frameWord_injective (f : BitVec 32) {j k : Nat} (hj : j < 32) (hk : k < 32)
    (same : frameWord f j = frameWord f k) : j = k := by
  have offsets : BitVec.ofNat 32 (4 * j) = BitVec.ofNat 32 (4 * k) := by
    simpa [frameWord] using same
  have numbers := congrArg BitVec.toNat offsets
  rw [BitVec.toNat_ofNat, BitVec.toNat_ofNat] at numbers
  omega

theorem frameSlots_apart (f : BitVec 32) {ks : List Nat} (small : ∀ k ∈ ks, k < 32)
    (distinct : ks.Nodup) : ((frameSlots f ks).map Prod.snd).Nodup := by
  unfold frameSlots
  rw [List.map_map]
  exact distinct.map_on fun j hj k hk same => frameWord_injective f (small j hj) (small k hk) same

theorem frameSlots_other (f : BitVec 32) {ks : List Nat} (small : ∀ k ∈ ks, k < 32) {k : Nat}
    (hk : k < 32) (other : k ∉ ks) : frameWord f k ∉ (frameSlots f ks).map Prod.snd := by
  unfold frameSlots
  rw [List.map_map]
  rintro member
  obtain ⟨j, hj, same⟩ := List.mem_map.mp member
  exact other (frameWord_injective f (small j hj) hk same ▸ hj)

theorem frameSlots_inside (f : BitVec 32) {ks : List Nat} (small : ∀ k ∈ ks, k < 32) :
    ∀ p ∈ frameSlots f ks, p.2 ∈ frameWords f := by
  intro p member
  obtain ⟨k, hk, rfl⟩ := List.mem_map.mp member
  exact ⟨k, small k hk, rfl⟩

section Frame
variable {listing : List Asm} {base f : BitVec 32} {φ : BitVec 32 → BitVec 32} {s : RVModel 32}
  {m : MemoryModel 32 Dev} {k : Nat} {regs : RegisterFile 32} {csr : CsrFile 32}

theorem saves_frame (site : Site listing base (frameWords f) φ (place s base k regs csr) m)
    (frame : regs.get sp = f) (ks : List Nat) (small : ∀ j ∈ ks, j < 32) (distinct : ks.Nodup)
    (placed : (ks.map frameSlot).map (fun p => Asm.sw p.1 p.2 sp) <+: listing.drop k) :
    ∃ m', Reaches ks.length (place s base k regs csr) m (place s base (k + ks.length) regs csr) m' ∧
      AgreesOff (Set.image φ (frameWords f)) m m' ∧
      (∀ j ∈ ks, view φ m' (frameWord f j) = regs.get (BitVec.ofNat 5 (j + 1))) ∧
      ∀ j < 32, j ∉ ks → view φ m' (frameWord f j) = view φ m (frameWord f j) := by
  have slots : slotsAt ((place s base k regs csr).regs.get sp) (ks.map frameSlot) =
      frameSlots f ks := by
    change slotsAt (regs.get sp) _ = _
    rw [frame, slotsAt_frame f small]
  have inside : ∀ p ∈ slotsAt ((place s base k regs csr).regs.get sp) (ks.map frameSlot),
      p.2 ∈ frameWords f := by
    rw [slots]
    exact frameSlots_inside f small
  obtain ⟨m', reaches, agrees, words⟩ := site.saves placed rfl inside
  rw [slots] at words
  rw [List.length_map] at reaches
  refine ⟨m', reaches, agrees, fun j hj => ?_, fun j hj other => ?_⟩
  · rw [words _ ⟨j, small j hj, rfl⟩]
    exact Spill.store_slot _ (frameSlots_apart f small distinct) (List.mem_map_of_mem hj) _
  · rw [words _ ⟨j, hj, rfl⟩]
    exact Spill.store_other _ (frameSlots_other f small hj other) _

end Frame

section Entry
variable {call : TrapCall} {base : BitVec 32} {φ : BitVec 32 → BitVec 32} {s : RVModel 32}
  {m : MemoryModel 32 Dev}

/-- trap_entry is about to run: all but the cause, which is whatever the CSRs hold. -/
structure AtTrapEntry (call : TrapCall) (base : BitVec 32) (φ : BitVec 32 → BitVec 32)
    (s : RVModel 32) (m : MemoryModel 32 Dev) : Prop where
  site : Site (trapEntry call) base (frameWords (s.regs.get sp - 128#32)) φ s m
  pc : s.pc = base
  mode : s.privMode = .M

/-- The registers of a trap while trap_entry saves them: sp is at the frame, t0 is anything. -/
structure Saving (regs regs' : RegisterFile 32) : Prop where
  sp : regs'.get sp = regs.get sp - 128#32
  rest : ∀ r, r ≠ Reg.sp → r ≠ t0 → regs'.get r = regs.get r

theorem Saving.set_t0 {regs regs' : RegisterFile 32} (saving : Saving regs regs') (v : BitVec 32) :
    Saving regs (regs'.set t0 v) where
  sp := by
    rw [RegisterFile.get_set_of_ne _ (by decide)]
    exact saving.sp
  rest r frame scratch := by
    rw [RegisterFile.get_set_of_ne _ scratch]
    exact saving.rest r frame scratch

theorem Saving.get {regs regs' : RegisterFile 32} (saving : Saving regs regs')
    (scratch : regs'.get t0 = regs.get t0) {k : Nat} (other : k ≠ 1) (small : k < 31) :
    regs'.get (BitVec.ofNat 5 (k + 1)) = regs.get (BitVec.ofNat 5 (k + 1)) := by
  by_cases same : BitVec.ofNat 5 (k + 1) = t0
  · rw [same, scratch]
  · refine saving.rest _ (fun pointer => other ?_) same
    have number := congrArg BitVec.toNat pointer
    rw [BitVec.toNat_ofNat] at number
    simp only [BitVec.toNat_ofNat] at number
    omega

theorem word_saveFrame (regs : RegisterFile 32) {k : Nat} (small : k < 31) :
    (saveFrame regs).word (BitVec.ofNat 5 k) = if k = 1 then regs.get sp - 128#32 + 128#32
      else regs.get (BitVec.ofNat 5 (k + 1)) := by
  have second : BitVec.ofNat 5 k = 1#5 ↔ k = 1 := by
    constructor
    · intro same
      have number := congrArg BitVec.toNat same
      simp only [BitVec.toNat_ofNat] at number
      omega
    · rintro rfl
      rfl
  unfold saveFrame
  simp only [second, BitVec.ofNat_add]

/-- trap_handler is called: s and m are those of the trap. -/
structure Passed (φ : BitVec 32 → BitVec 32) (s : RVModel 32) (m : MemoryModel 32 Dev)
    (h : RVModel 32) (mh : MemoryModel 32 Dev) : Prop where
  mcause : h.regs.get a0 = s.csr.read CSR.MCAUSE
  mepc : h.regs.get a1 = s.csr.read CSR.MEPC
  mtval : h.regs.get a2 = s.csr.read CSR.MTVAL
  frame : h.regs.get a3 = s.regs.get sp - 128#32
  stack : h.regs.get sp = s.regs.get sp - 128#32
  words : ∀ k < 31, view φ mh (frameWord (s.regs.get sp - 128#32) k) =
    (saveFrame s.regs).word (BitVec.ofNat 5 k)
  csr : h.csr = s.csr.write CSR.MSCRATCH (s.regs.get t0)
  mode : h.privMode = s.privMode
  running : h.halted = s.halted
  memory : AgreesOff (Set.image φ (frameWords (s.regs.get sp - 128#32))) m mh

theorem Passed.read {h : RVModel 32} {mh : MemoryModel 32 Dev} (passed : Passed φ s m h mh)
    {a : BitVec 12} (other : a ≠ CSR.MSCRATCH) : h.csr.read a = s.csr.read a := by
  rw [passed.csr]
  exact CsrFile.read_write_of_ne _ other _

/-- trap_entry while sp and t0 are in flight: csrw mscratch is done, and words 0 to 3 follow. -/
theorem trapSave_first {f : BitVec 32} {csr : CsrFile 32} (frame : s.regs.get sp - 128#32 = f)
    (machine : s.privMode = .M) (scratch : csr.read CSR.MSCRATCH = s.regs.get t0)
    (site : ∀ {m'}, AgreesOff (Set.image φ (frameWords f)) m m' → ∀ k regs,
      Site (trapEntry call) base (frameWords f) φ (place s base k regs csr) m') :
    ∃ regs m', Reaches 7 (place s base 1 s.regs csr) m (place s base 8 regs csr) m' ∧
      AgreesOff (Set.image φ (frameWords f)) m m' ∧ Saving s.regs regs ∧
      regs.get t0 = s.regs.get t0 ∧
      ∀ k < 4, view φ m' (frameWord f k) = (saveFrame s.regs).word (BitVec.ofNat 5 k) := by
  -- addi sp, sp, -128
  obtain ⟨R₁, move₁, saving₁⟩ : ∃ R₁, Moves (place s base 1 s.regs csr) m
      (place s base 2 R₁ csr) m ∧ Saving s.regs R₁ := by
    refine ⟨_, (site (.refl m) 1 s.regs).place_addi rfl, ?_, fun r other _ => ?_⟩
    · rw [RegisterFile.get_set_self _ _ (by decide), BitVec.sub_eq_add_neg]
      rfl
    · exact RegisterFile.get_set_of_ne _ other _
  -- sw ra, 0(sp)
  obtain ⟨m₂, save₂, agrees₂, words₂, _⟩ := saves_frame (site (.refl m) 2 R₁)
    (saving₁.sp.trans frame) [0] (by decide) (by decide) ⟨_, rfl⟩
  -- addi t0, sp, 128
  obtain ⟨R₃, move₃, saving₃, t₃⟩ : ∃ R₃, Moves (place s base 3 R₁ csr) m₂
      (place s base 4 R₃ csr) m₂ ∧ Saving s.regs R₃ ∧ R₃.get t0 = f + 128#32 := by
    refine ⟨_, (site agrees₂ 3 R₁).place_addi rfl, saving₁.set_t0 _, ?_⟩
    rw [RegisterFile.get_set_self _ _ (by decide), saving₁.sp, frame]
    rfl
  -- sw t0, 4(sp)
  obtain ⟨m₄, save₄, agrees₄, words₄⟩ : ∃ m₄, Moves (place s base 4 R₃ csr) m₂
      (place s base 5 R₃ csr) m₄ ∧ AgreesOff (Set.image φ (frameWords f)) m₂ m₄ ∧
      ∀ va ∈ frameWords f, view φ m₄ va =
        Function.update (view φ m₂) (frameWord f 1) (f + 128#32) va := by
    have second : R₃.get sp + (4#16).signExtend 32 = frameWord f 1 := by
      rw [saving₃.sp, frame]
      rfl
    have here : (trapEntry call)[4]? = some (.sw t0 4#16 sp) := rfl
    have store := (site agrees₂ 4 R₃).place_sw here (second ▸ ⟨1, by decide, rfl⟩)
    rw [second, t₃] at store
    exact store
  have agrees₄ := agrees₂.trans agrees₄
  -- sw gp, 8(sp); sw tp, 12(sp)
  obtain ⟨m₅, save₅, agrees₅, words₅, kept₅⟩ := saves_frame (site agrees₄ 5 R₃)
    (saving₃.sp.trans frame) [2, 3] (by decide) (by decide) ⟨_, rfl⟩
  have agrees₅ := agrees₄.trans agrees₅
  -- csrr t0, mscratch
  obtain ⟨R₇, move₇, saving₇, t₇⟩ : ∃ R₇, Moves (place s base 7 R₃ csr) m₅
      (place s base 8 R₇ csr) m₅ ∧ Saving s.regs R₇ ∧ R₇.get t0 = s.regs.get t0 := by
    refine ⟨_, (site agrees₅ 7 R₃).place_csrr rfl machine, saving₃.set_t0 _, ?_⟩
    rw [RegisterFile.get_set_self _ _ (by decide), scratch]
  refine ⟨R₇, m₅, .next move₁ (save₂.trans (.next move₃ (.next save₄
    (save₅.trans move₇.reaches)))), agrees₅, saving₇, t₇, ?_⟩
  intro k small
  rw [word_saveFrame s.regs (by omega), frame]
  by_cases pointers : k = 2 ∨ k = 3
  · rw [words₅ k (by simpa using pointers), if_neg (by omega)]
    rcases pointers with rfl | rfl
    · exact saving₃.rest gp (by decide) (by decide)
    · exact saving₃.rest tp (by decide) (by decide)
  rw [kept₅ k (by omega) (by simpa using pointers), words₄ _ ⟨k, by omega, rfl⟩]
  by_cases stack : k = 1
  · rw [stack, Function.update_self, if_pos rfl]
  · obtain rfl : k = 0 := by omega
    rw [Function.update_of_ne fun same => stack (frameWord_injective f (by omega) (by omega) same),
      words₂ 0 (by decide), if_neg stack]
    exact saving₁.rest ra (by decide) (by decide)

theorem trapSave_frame (entry : AtTrapEntry call base φ s m) :
    ∃ n regs m', Reaches n s m
        (place s base 35 regs (s.csr.write CSR.MSCRATCH (s.regs.get t0))) m' ∧
      AgreesOff (Set.image φ (frameWords (s.regs.get sp - 128#32))) m m' ∧
      regs.get sp = s.regs.get sp - 128#32 ∧
      ∀ k < 31, view φ m' (frameWord (s.regs.get sp - 128#32) k) =
        (saveFrame s.regs).word (BitVec.ofNat 5 k) := by
  obtain ⟨site, pc, machine⟩ := entry
  have start : s = place s base 0 s.regs s.csr := by
    unfold place
    rw [Nat.mul_zero, BitVec.add_zero, ← pc]
  generalize frame : s.regs.get sp - 128#32 = f at site ⊢
  -- csrw mscratch, t0
  have move₀ : Moves (place s base 0 s.regs s.csr) m
      (place s base 1 s.regs (s.csr.write CSR.MSCRATCH (s.regs.get t0))) m := by
    have site₀ : Site (trapEntry call) base (frameWords f) φ (place s base 0 s.regs s.csr) m :=
      site.next (.refl m) rfl rfl rfl
    exact site₀.place_csrw rfl machine
  have scratch : (s.csr.write CSR.MSCRATCH (s.regs.get t0)).read CSR.MSCRATCH = s.regs.get t0 := rfl
  have satp : (s.csr.write CSR.MSCRATCH (s.regs.get t0)).read CSR.SATP = s.csr.read CSR.SATP := rfl
  generalize s.csr.write CSR.MSCRATCH (s.regs.get t0) = csr at move₀ scratch satp ⊢
  have site_at {m' : MemoryModel 32 Dev} (agrees : AgreesOff (Set.image φ (frameWords f)) m m')
      (k : Nat) (regs : RegisterFile 32) :
      Site (trapEntry call) base (frameWords f) φ (place s base k regs csr) m' :=
    site.next agrees satp rfl rfl
  obtain ⟨R₇, m₅, first, agrees₅, saving₇, t₇, words₅⟩ :=
    trapSave_first frame machine scratch site_at
  -- sw t0, 16(sp) to sw t6, 120(sp)
  obtain ⟨m₈, save₈, agrees₈, words₈, kept₈⟩ := saves_frame (site_at agrees₅ 8 R₇)
    (saving₇.sp.trans frame) (List.range' 4 27) (by decide) (by decide) ⟨_, rfl⟩
  have whole := Reaches.next move₀ (first.trans save₈)
  rw [← start] at whole
  refine ⟨_, R₇, m₈, whole, agrees₅.trans agrees₈, saving₇.sp.trans frame, ?_⟩
  intro k small
  by_cases high : 4 ≤ k
  · rw [words₈ k (by simp; omega), word_saveFrame s.regs small, if_neg (by omega)]
    exact saving₇.get t₇ (by omega) small
  · rw [kept₈ k (by omega) (by simp; omega)]
    exact words₅ k (by omega)

theorem call_moves {handler : BitVec 32} (regs : RegisterFile 32) {csr : CsrFile 32}
    {data : Set (BitVec 32)} (site : ∀ k regs, Site (trapEntry call) base data φ
      (place s base k regs csr) m)
    (links : call.target (base + BitVec.ofNat 32 (4 * 39)) = handler)
    (aligned : LowClear 2 handler) :
    ∃ n h, Reaches n (place s base 39 regs csr) m h m ∧ h = { place s base 39 regs csr with
      pc := handler
      regs := h.regs } ∧
      h.regs.get ra = base + BitVec.ofNat 32 (4 * (39 + call.code.length)) ∧
      ∀ r, r ≠ ra → h.regs.get r = regs.get r := by
  have link (k : Nat) (regs : RegisterFile 32) : (place s base k regs csr).pc + 4#32 =
      base + BitVec.ofNat 32 (4 * (k + 1)) := advancePC_next (s := place s base k regs csr) rfl
  subst links
  cases call with
  | near offset =>
    have goes := (site 39 regs).jal (k := 39) rfl rfl aligned
    refine ⟨_, _, goes.reaches, rfl, ?_, fun r other => RegisterFile.get_set_of_ne _ other _⟩
    exact (RegisterFile.get_set_self _ _ (by decide)).trans (link 39 regs)
  | far hi lo =>
    let upper := regs.set ra (base + BitVec.ofNat 32 (4 * 39) + (hi &&& 0xFFFFF000#32))
    have first : Moves (place s base 39 regs csr) m (place s base 40 upper csr) m := by
      rw [place_next s base 39]
      exact (site 39 regs).auipc (k := 39) rfl rfl
    have linked : upper.get ra + lo.signExtend 32 &&& ~~~0b01#32 =
        TrapCall.target (base + BitVec.ofNat 32 (4 * 39)) (.far hi lo) := by
      rw [RegisterFile.get_set_self _ _ (by decide)]
      rfl
    have goes := (site 40 upper).jalr (k := 40) rfl rfl linked aligned
    refine ⟨_, _, .next first goes.reaches, rfl, ?_, fun r other => ?_⟩
    · exact (RegisterFile.get_set_self _ _ (by decide)).trans (link 40 upper)
    · exact (RegisterFile.get_set_of_ne _ other _).trans (RegisterFile.get_set_of_ne _ other _)

/-- trap_entry up to the first instruction of trap_handler. -/
theorem trapSave_run (entry : AtTrapEntry call base φ s m) {handler : BitVec 32}
    (links : call.target (base + BitVec.ofNat 32 (4 * 39)) = handler)
    (aligned : LowClear 2 handler) :
    ∃ n h mh, RunsTo n s m h mh ∧ h.pc = handler ∧ Passed φ s m h mh ∧
      h.regs.get ra = base + BitVec.ofNat 32 (4 * (39 + call.code.length)) := by
  obtain ⟨n, regs, mh, saves, agrees, frame, words⟩ := trapSave_frame entry
  obtain ⟨site, _, machine⟩ := entry
  generalize saved : s.csr.write CSR.MSCRATCH (s.regs.get t0) = csr at saves
  have kept (a : BitVec 12) (other : a ≠ CSR.MSCRATCH) : csr.read a = s.csr.read a := by
    rw [← saved]
    exact CsrFile.read_write_of_ne _ other _
  have site_at (k : Nat) (regs : RegisterFile 32) : Site (trapEntry call) base
      (frameWords (s.regs.get sp - 128#32)) φ (place s base k regs csr) mh :=
    site.next agrees (kept CSR.SATP (by decide)) rfl rfl
  -- csrr a0, mcause to mv a3, sp
  let cause := regs.set a0 (csr.read CSR.MCAUSE)
  let epc := cause.set a1 (csr.read CSR.MEPC)
  let tval := epc.set a2 (csr.read CSR.MTVAL)
  have args : Reaches 4 (place s base 35 regs csr) mh
      (place s base 39 (tval.set a3 (tval.get sp + (0#16).signExtend 32)) csr) mh :=
    .next ((site_at 35 regs).place_csrr rfl machine)
      (.next ((site_at 36 cause).place_csrr rfl machine)
        (.next ((site_at 37 epc).place_csrr rfl machine)
          ((site_at 38 tval).place_addi rfl).reaches))
  obtain ⟨_, called, calls, frame_h, ra_h, regs_h⟩ :=
    call_moves (tval.set a3 _) site_at links aligned
  obtain ⟨h, ran, same⟩ := (saves.trans (args.trans calls)).runsTo s rfl
  have after := same
  rw [frame_h] at after
  have regs_eq : h.regs = called.regs := regs_of_arch same
  rw [← regs_eq] at ra_h regs_h
  refine ⟨_, h, mh, ran, pc_of_arch after, ?_, ra_h⟩
  constructor
  case mcause =>
    rw [regs_h a0 (by decide), ← kept CSR.MCAUSE (by decide)]
    rfl
  case mepc =>
    rw [regs_h a1 (by decide), ← kept CSR.MEPC (by decide)]
    rfl
  case mtval =>
    rw [regs_h a2 (by decide), ← kept CSR.MTVAL (by decide)]
    rfl
  case frame =>
    rw [regs_h a3 (by decide), ← frame]
    exact BitVec.add_zero (regs.get sp)
  case stack =>
    rw [regs_h sp (by decide), ← frame]
    rfl
  case words => exact words
  case csr =>
    rw [saved]
    exact csr_of_arch after
  case mode =>
    have mode := privMode_of_arch after
    exact mode
  case running =>
    have halted := congrArg halted after
    exact halted
  case memory => exact agrees

end Entry

theorem trapRestore_at (call : TrapCall) (k : Nat) :
    (trapEntry call)[39 + call.code.length + k]? = trapRestore[k]? := by
  have saved : trapSave.length = 39 := rfl
  unfold trapEntry
  rw [Nat.add_assoc, List.getElem?_append_right (by omega), List.getElem?_append_right (by omega)]
  congr 1
  omega

theorem trapRestore_drop (call : TrapCall) (k : Nat) :
    (trapEntry call).drop (39 + call.code.length + k) = trapRestore.drop k := by
  have saved : trapSave.length = 39 := rfl
  unfold trapEntry
  rw [Nat.add_assoc, ← saved, List.drop_length_add_append, List.drop_length_add_append]

section Return
variable {call : TrapCall} {base f : BitVec 32} {φ : BitVec 32 → BitVec 32} {s : RVModel 32}
  {m : MemoryModel 32 Dev} {regs : RegisterFile 32} {csr : CsrFile 32}

theorem check_moves {listing : List Asm} {data : Set (BitVec 32)} {k : Nat} {v : BitVec 16}
    {i : Asm} {g : Funct3Branch} {offset : BitVec 16}
    (site : ∀ k regs, Site listing base data φ (place s base k regs csr) m)
    (aligned : LowClear 2 base) (li : listing[k]? = some (.li t1 v))
    (branch : listing[k + 1]? = some i)
    (which : i = .beq t0 t1 offset ∧ g = .beq ∨ i = .bne t0 t1 offset ∧ g = .bne) {j : Nat}
    (forward : offset.signExtend 32 = BitVec.ofNat 32 (4 * j)) (regs : RegisterFile 32) :
    ∃ regs', Reaches 2 (place s base k regs csr) m
        (place s base (if branchTaken g (regs.get t0) (v.signExtend 32) then k + 1 + j else k + 2)
          regs' csr) m ∧
      ∀ r, r ≠ t1 → regs'.get r = regs.get r := by
  let regs' := regs.set t1 (regs.get 0#5 + v.signExtend 32)
  have value : regs'.get t1 = v.signExtend 32 :=
    (RegisterFile.get_set_self _ _ (by decide)).trans (BitVec.zero_add _)
  have kept (r : BitVec 5) (other : r ≠ t1) : regs'.get r = regs.get r :=
    RegisterFile.get_set_of_ne _ other _
  have first : Moves (place s base k regs csr) m (place s base (k + 1) regs' csr) m :=
    (site k regs).place_addi li
  have second := (site (k + 1) regs').place_branch branch which aligned forward
  rw [value, kept t0 (by decide)] at second
  exact ⟨regs', .next first second.reaches, kept⟩

theorem dispatch_moves (site : ∀ k regs, Site (trapEntry call) base (frameWords f) φ
      (place s base k regs csr) m) (aligned : LowClear 2 base) (machine : s.privMode = .M)
    (regs : RegisterFile 32) :
    ∃ n regs', Reaches n (place s base (39 + call.code.length) regs csr) m
        (place s base (39 + call.code.length + if isEcall (csr.read CSR.MCAUSE) then 7 else 10)
          regs' csr) m ∧
      regs'.get sp = regs.get sp := by
  have here := trapRestore_at call
  generalize 39 + call.code.length = e at here ⊢
  generalize cause : csr.read CSR.MCAUSE = c
  let R₁ := regs.set t0 c
  have t₁ : R₁.get t0 = c := RegisterFile.get_set_self _ _ (by decide)
  have sp₁ : R₁.get sp = regs.get sp := RegisterFile.get_set_of_ne _ (by decide) _
  have first : Moves (place s base e regs csr) m (place s base (e + 1) R₁ csr) m := by
    have move := (site e regs).place_csrr (here 0) machine
    rw [cause] at move
    exact move
  obtain ⟨R₂, check₂, kept₂⟩ := check_moves site aligned (here 1) (here 2) (.inl ⟨rfl, rfl⟩)
    (j := 5) rfl R₁
  have sp₂ : R₂.get sp = regs.get sp := (kept₂ sp (by decide)).trans sp₁
  have t₂ : R₂.get t0 = c := (kept₂ t0 (by decide)).trans t₁
  obtain ⟨R₃, check₃, kept₃⟩ := check_moves site aligned (here 3) (here 4) (.inl ⟨rfl, rfl⟩)
    (j := 3) rfl R₂
  have sp₃ : R₃.get sp = regs.get sp := (kept₃ sp (by decide)).trans sp₂
  have t₃ : R₃.get t0 = c := (kept₃ t0 (by decide)).trans t₂
  obtain ⟨R₄, check₄, kept₄⟩ := check_moves site aligned (here 5) (here 6) (.inr ⟨rfl, rfl⟩)
    (j := 4) rfl R₃
  have sp₄ : R₄.get sp = regs.get sp := (kept₄ sp (by decide)).trans sp₃
  rw [t₁] at check₂
  rw [t₂] at check₃
  rw [t₃] at check₄
  by_cases user : c = 8#32
  · subst user
    exact ⟨_, R₂, .next first check₂, sp₂⟩
  have pass₂ : branchTaken .beq c ((8#16).signExtend 32) = false := decide_eq_false user
  rw [pass₂] at check₂
  by_cases supervisor : c = 9#32
  · subst supervisor
    exact ⟨_, R₃, .next first (check₂.trans check₃), sp₃⟩
  have pass₃ : branchTaken .beq c ((9#16).signExtend 32) = false := decide_eq_false supervisor
  rw [pass₃] at check₃
  have whole := Reaches.next first (check₂.trans (check₃.trans check₄))
  by_cases kernel : c = 11#32
  · subst kernel
    exact ⟨_, R₄, whole, sp₄⟩
  · have taken : branchTaken .bne c ((11#16).signExtend 32) = true := decide_eq_true kernel
    have other : isEcall c = false := by
      simp [isEcall, user, supervisor, kernel]
    rw [taken] at whole
    rw [other]
    exact ⟨_, R₄, whole, sp₄⟩

def advanced (csr : CsrFile 32) : CsrFile 32 :=
  if isEcall (csr.read CSR.MCAUSE) then csr.write CSR.MEPC (csr.read CSR.MEPC + 4#32) else csr

theorem advanced_read (csr : CsrFile 32) {a : BitVec 12} (other : a ≠ CSR.MEPC) :
    (advanced csr).read a = csr.read a := by
  unfold advanced
  split
  · exact CsrFile.read_write_of_ne _ other _
  · rfl

theorem advanced_mepc (csr : CsrFile 32) : (advanced csr).read CSR.MEPC =
    if isEcall (csr.read CSR.MCAUSE) then csr.read CSR.MEPC + 4#32 else csr.read CSR.MEPC := by
  unfold advanced
  split
  · rfl
  · rfl

theorem advance_moves (site : ∀ k regs, Site (trapEntry call) base (frameWords f) φ
      (place s base k regs csr) m) (aligned : LowClear 2 base) (machine : s.privMode = .M)
    (regs : RegisterFile 32) :
    ∃ n regs', Reaches n (place s base (39 + call.code.length) regs csr) m
        (place s base (39 + call.code.length + 10) regs' (advanced csr)) m ∧
      regs'.get sp = regs.get sp := by
  obtain ⟨n, R₁, dispatch, sp₁⟩ := dispatch_moves site aligned machine regs
  have here := trapRestore_at call
  generalize 39 + call.code.length = e at here dispatch ⊢
  unfold advanced
  by_cases ecall : isEcall (csr.read CSR.MCAUSE)
  · simp only [ecall, if_true] at dispatch ⊢
    let R₂ := R₁.set t0 (csr.read CSR.MEPC)
    let R₃ := R₂.set t0 (R₂.get t0 + (4#16).signExtend 32)
    have value : R₃.get t0 = csr.read CSR.MEPC + 4#32 := by
      rw [RegisterFile.get_set_self _ _ (by decide), RegisterFile.get_set_self _ _ (by decide)]
      rfl
    have read : Moves (place s base (e + 7) R₁ csr) m (place s base (e + 8) R₂ csr) m :=
      (site (e + 7) R₁).place_csrr (here 7) machine
    have add : Moves (place s base (e + 8) R₂ csr) m (place s base (e + 9) R₃ csr) m :=
      (site (e + 8) R₂).place_addi (here 8)
    have write : Moves (place s base (e + 9) R₃ csr) m
        (place s base (e + 10) R₃ (csr.write CSR.MEPC (csr.read CSR.MEPC + 4#32))) m := by
      rw [← value]
      exact (site (e + 9) R₃).place_csrw (here 9) machine
    refine ⟨_, R₃, dispatch.trans (.next read (.next add write.reaches)), ?_⟩
    rw [RegisterFile.get_set_of_ne _ (by decide), RegisterFile.get_set_of_ne _ (by decide), sp₁]
  · simp only [ecall, if_false, Bool.false_eq_true] at dispatch ⊢
    exact ⟨n, R₁, dispatch, sp₁⟩

def restored : List Nat := 0 :: List.range' 2 29

theorem loads_frame (site : Site (trapEntry call) base (frameWords f) φ
      (place s base (39 + call.code.length + 10) regs csr) m) (frame : regs.get sp = f) :
    ∃ regs', Reaches 30 (place s base (39 + call.code.length + 10) regs csr) m
        (place s base (39 + call.code.length + 40) regs' csr) m ∧
      regs'.get sp = f ∧
      ∀ k ∈ restored, regs'.get (BitVec.ofNat 5 (k + 1)) = view φ m (frameWord f k) := by
  have small : ∀ k ∈ restored, k < 32 := by decide
  have written : ∀ p ∈ restored.map frameSlot, p.1 ≠ sp ∧ p.1 ≠ 0#5 :=
    List.forall_iff_forall_mem.mp (by decide)
  have placed : (restored.map frameSlot).map (fun p => Asm.lw p.1 p.2 sp) <+:
      (trapEntry call).drop (39 + call.code.length + 10) := by
    rw [trapRestore_drop]
    exact ⟨_, rfl⟩
  generalize 39 + call.code.length = e at site placed ⊢
  have slots : slotsAt ((place s base (e + 10) regs csr).regs.get sp) (restored.map frameSlot) =
      frameSlots f restored := by
    change slotsAt (regs.get sp) _ = _
    rw [frame, slotsAt_frame f small]
  have inside : ∀ p ∈ slotsAt ((place s base (e + 10) regs csr).regs.get sp)
      (restored.map frameSlot), p.2 ∈ frameWords f := by
    rw [slots]
    exact frameSlots_inside f small
  obtain ⟨regs', reaches, value⟩ := site.loads written placed rfl inside
  rw [slots] at value
  have apart : ((frameSlots f restored).map Prod.fst).Nodup := by
    unfold frameSlots
    rw [List.map_map]
    have registers : (restored.map fun k => BitVec.ofNat 5 (k + 1)).Nodup := by decide
    exact registers
  have pointer : sp ∉ (frameSlots f restored).map Prod.fst := by
    unfold frameSlots
    rw [List.map_map]
    have registers : sp ∉ restored.map fun k => BitVec.ofNat 5 (k + 1) := by decide
    exact registers
  refine ⟨regs', reaches, ?_, fun k member => ?_⟩
  · rw [value, Spill.load_other _ pointer]
    exact frame
  · rw [value]
    exact Spill.load_slot _ apart (List.mem_map_of_mem member) _

theorem restoreFrame_of_loads {regs : RegisterFile 32}
    (loaded : ∀ k ∈ restored, regs.get (BitVec.ofNat 5 (k + 1)) = view φ m (frameWord f k))
    (r : BitVec 5) : (regs.set sp (f + 128#32)).get r = (restoreFrame (frameAt φ m f)).get r := by
  have registers : ∀ r : BitVec 5, r ≠ 0#5 → r ≠ sp →
      (r - 1#5).toNat ∈ restored ∧ BitVec.ofNat 5 ((r - 1#5).toNat + 1) = r := by decide
  unfold restoreFrame frameAt
  by_cases zero : r = 0#5
  · subst zero
    rfl
  by_cases pointer : r = sp
  · subst pointer
    rfl
  · obtain ⟨member, number⟩ := registers r zero pointer
    have word := loaded _ member
    rw [number] at word
    rw [RegisterFile.get_set_of_ne _ pointer, word]
    simp only [RegisterFile.get, zero, pointer, if_false]

/-- From the return of trap_handler on, trap_entry does what trapReturn says. -/
theorem trapRestore_run (site : Site (trapEntry call) base (frameWords f) φ s m)
    (aligned : LowClear 2 base) (machine : s.privMode = .M) (frame : s.regs.get sp = f)
    (pc : s.pc = base + BitVec.ofNat 32 (4 * (39 + call.code.length))) :
    ∃ n t, Reaches n s m t m ∧ (∀ r, t.regs.get r = (restoreFrame (frameAt φ m f)).get r) ∧
      t.pc = (trapReturn s (frameAt φ m f)).pc ∧
      t.privMode = (trapReturn s (frameAt φ m f)).privMode ∧
      t.csr = (trapReturn s (frameAt φ m f)).csr := by
  have start : s = place s base (39 + call.code.length) s.regs s.csr := by
    unfold place
    rw [← pc]
  have before (k : Nat) (regs : RegisterFile 32) : Site (trapEntry call) base (frameWords f) φ
      (place s base k regs s.csr) m := site.next (.refl m) rfl rfl rfl
  have after (k : Nat) (regs : RegisterFile 32) : Site (trapEntry call) base (frameWords f) φ
      (place s base k regs (advanced s.csr)) m :=
    site.next (.refl m) (advanced_read _ (by decide)) rfl rfl
  obtain ⟨n, R₁, advance, sp₁⟩ := advance_moves before aligned machine s.regs
  obtain ⟨R₂, loads, sp₂, loaded⟩ := loads_frame (after _ R₁) (sp₁.trans frame)
  have here := trapRestore_at call
  generalize 39 + call.code.length = e at here start advance loads
  have pop : Moves (place s base (e + 40) R₂ (advanced s.csr)) m
      (place s base (e + 41) (R₂.set sp (f + 128#32)) (advanced s.csr)) m := by
    have move := (after (e + 40) R₂).place_addi (here 40)
    rw [sp₂] at move
    exact move
  have back := (after (e + 41) (R₂.set sp (f + 128#32))).mret (here 41) rfl
  have whole := advance.trans (loads.trans (.next pop back.reaches))
  rw [← start] at whole
  exact ⟨_, _, whole, restoreFrame_of_loads loaded, rfl, rfl, rfl⟩

end Return

section Trap
variable {φ : BitVec 32 → BitVec 32} {s : RVModel 32} {m : MemoryModel 32 Dev}

/-- trap_handler, called at (h, mh), comes back at (h', mh'): it has kept to the calling convention,
    the frame is as it was, code and frame are where they were, and no trap has come in between. -/
structure HandlerReturns (call : TrapCall) (base : BitVec 32) (φ : BitVec 32 → BitVec 32)
    (h : RVModel 32) (mh : MemoryModel 32 Dev) (h' : RVModel 32) (mh' : MemoryModel 32 Dev) :
    Prop where
  run : Undisturbed h mh h' mh'
  site : Site (trapEntry call) base (frameWords (h.regs.get a3)) φ h' mh'
  pc : h'.pc = h.regs.get ra
  sp : h'.regs.get sp = h.regs.get sp
  frame : ∀ k < 32, view φ mh' (frameWord (h.regs.get a3) k) =
    view φ mh (frameWord (h.regs.get a3) k)

theorem Passed.restores {h mh : _} (passed : Passed φ s m h mh) {mh' : MemoryModel 32 Dev}
    (kept : ∀ k < 32, view φ mh' (frameWord (h.regs.get a3) k) =
      view φ mh (frameWord (h.regs.get a3) k)) (r : BitVec 5) :
    (restoreFrame (frameAt φ mh' (h.regs.get a3))).get r = s.regs.get r := by
  have index : ∀ r : BitVec 5, r ≠ 0#5 → (r - 1#5).toNat < 31 := by decide
  rw [← restoreFrame_saveFrame s.regs r]
  unfold RegisterFile.get
  by_cases zero : r = 0#5
  · rw [if_pos zero, if_pos zero]
  rw [if_neg zero, if_neg zero]
  unfold restoreFrame
  by_cases pointer : r = 2#5
  · simp only [pointer, if_true]
    change h.regs.get a3 + 128#32 = _
    rw [passed.frame]
    rfl
  · simp only [pointer, if_false]
    have small := index r zero
    change view φ mh' (frameWord (h.regs.get a3) (r - 1#5).toNat) = _
    rw [kept _ (by omega), passed.frame, passed.words _ small, BitVec.ofNat_toNat,
      BitVec.setWidth_eq]

/-- trap_entry is transparent: trap_handler finds the cause, mepc, mtval and the frame in its
    arguments, and once it is back, mret resumes behind an ecall, and at mepc for every other cause,
    with all registers as they were. -/
theorem trap_transparent {call : TrapCall} {base handler : BitVec 32}
    (entry : AtTrapEntry call base φ s m) (placed : LowClear 2 base)
    (links : call.target (base + BitVec.ofNat 32 (4 * 39)) = handler)
    (aligned : LowClear 2 handler) :
    ∃ n h mh, RunsTo n s m h mh ∧ h.pc = handler ∧ Passed φ s m h mh ∧
      h.regs.get ra = base + BitVec.ofNat 32 (4 * (39 + call.code.length)) ∧
      (frameAt φ mh (h.regs.get a3)).word TRAP_FRAME_A0 = s.regs.get a0 ∧
      (frameAt φ mh (h.regs.get a3)).word TRAP_FRAME_A7 = s.regs.get a7 ∧
      (frameAt φ mh (h.regs.get a3)).word TRAP_FRAME_SP = s.regs.get sp ∧
      ∀ h' mh', HandlerReturns call base φ h mh h' mh' →
        ∃ n' t, RunsTo n' h' mh' t mh' ∧ (∀ r, t.regs.get r = s.regs.get r) ∧
          t.pc = if isEcall (s.csr.read CSR.MCAUSE) then s.csr.read CSR.MEPC + 4#32
            else s.csr.read CSR.MEPC := by
  obtain ⟨n, h, mh, ran, pc, passed, link⟩ := trapSave_run entry links aligned
  have word {k : Nat} (small : k < 31) : view φ mh (frameWord (h.regs.get a3) k) =
      (saveFrame s.regs).word (BitVec.ofNat 5 k) := by
    rw [passed.frame]
    exact passed.words k small
  refine ⟨n, h, mh, ran, pc, passed, link, word (k := 9) (by decide), word (k := 16) (by decide),
    ?_, ?_⟩
  · exact (word (k := 1) (by decide)).trans (BitVec.sub_add_cancel (s.regs.get sp) 128#32)
  intro h' mh' back
  have keeps := back.run.keeps
  have mcause : h'.csr.read CSR.MCAUSE = s.csr.read CSR.MCAUSE :=
    keeps.mcause.trans (passed.read (a := CSR.MCAUSE) (by decide))
  have mepc : h'.csr.read CSR.MEPC = s.csr.read CSR.MEPC :=
    keeps.mepc.trans (passed.read (a := CSR.MEPC) (by decide))
  have machine : h'.privMode = .M := keeps.mode.trans (passed.mode.trans entry.mode)
  have frame : h'.regs.get sp = h.regs.get a3 := by
    rw [back.sp, passed.stack, passed.frame]
  obtain ⟨n', t, restores, regs, target, _⟩ :=
    trapRestore_run back.site placed machine frame (back.pc.trans link)
  obtain ⟨t', ran', same⟩ := restores.runsTo h' rfl
  refine ⟨n', t', ran', fun r => ?_, ?_⟩
  · rw [regs_of_arch same, regs r]
    exact passed.restores back.frame r
  · rw [pc_of_arch same, target, ← mcause, ← mepc]
    exact advanced_mepc h'.csr

end Trap

theorem ret_returns {call : TrapCall} {base handler : BitVec 32} {φ : BitVec 32 → BitVec 32}
    {s h : RVModel 32} {m mh : MemoryModel 32 Dev} (entry : AtTrapEntry call base φ s m)
    (code : Site [.ret] handler (frameWords (s.regs.get sp - 128#32)) φ s m)
    (passed : Passed φ s m h mh) (pc : h.pc = handler) (aligned : LowClear 2 (h.regs.get ra)) :
    ∃ h', HandlerReturns call base φ h mh h' mh := by
  have satp : h.csr.read CSR.SATP = s.csr.read CSR.SATP := passed.read (by decide)
  have site := code.next passed.memory satp passed.mode passed.running
  have start : h.pc = handler + BitVec.ofNat 32 (4 * 0) := pc.trans (BitVec.add_zero handler).symm
  obtain ⟨w, built, fetch⟩ := site.code mh (.refl mh) 0 .ret rfl
  rw [← start] at fetch
  have fetched := fetched_of_fetches site.running fetch (Asm.word_ne_zero built)
  obtain ⟨h', step, same⟩ := site.ret rfl start aligned h rfl
  have regs : h'.regs = h.regs := (regs_of_arch same).trans rfl
  have untrapped : h'.trapCount = h.trapCount := (trapCount_of_arch same).trans rfl
  have outside : ¬TouchesTrap (Decoder.decode 32 w) := by
    obtain rfl : 0x8067#32 = w := Option.some.inj built
    rintro (⟨system, _⟩ | ⟨system, _⟩ | ⟨system, _⟩)
    · cases system
    · cases system
    · cases system
  refine ⟨h', ?_, ?_, pc_of_arch same, by rw [regs], fun _ _ => rfl⟩
  · refine .next .refl step untrapped fun v found => ?_
    obtain rfl : w = v := Option.some.inj (fetched.symm.trans found)
    exact outside
  · rw [passed.frame]
    refine entry.site.next passed.memory ?_ ?_ ?_
    · rw [csr_of_arch same]
      exact satp
    · exact (privMode_of_arch same).trans passed.mode
    · exact (congrArg halted same).trans passed.running

/-- A trap_handler that clears mcause and returns: two steps, after which only pc and mcause are
    not what they were at its entry. -/
theorem clear_runs {handler : BitVec 32} {φ : BitVec 32 → BitVec 32} {s h : RVModel 32}
    {m mh : MemoryModel 32 Dev}
    (code : Site [.csrw CSR.MCAUSE 0#5, .ret] handler (frameWords (s.regs.get sp - 128#32)) φ s m)
    (passed : Passed φ s m h mh) (pc : h.pc = handler) (machine : h.privMode = .M)
    (aligned : LowClear 2 (h.regs.get ra)) :
    ∃ h', RunsTo 2 h mh h' mh ∧
      arch h' = arch { h with pc := h.regs.get ra, csr := h.csr.write CSR.MCAUSE 0#32 } := by
  have satp : h.csr.read CSR.SATP = s.csr.read CSR.SATP := passed.read (by decide)
  have start : h = place h handler 0 h.regs h.csr := by
    unfold place
    rw [Nat.mul_zero, BitVec.add_zero, ← pc]
  let cleared := h.csr.write CSR.MCAUSE 0#32
  have kept : cleared.read CSR.SATP = h.csr.read CSR.SATP :=
    CsrFile.read_write_of_ne _ (by decide) _
  have clear : Moves h mh (place h handler 1 h.regs cleared) mh := by
    have site : Site _ handler _ φ (place h handler 0 h.regs h.csr) mh :=
      code.next passed.memory satp passed.mode passed.running
    have move := site.place_csrw (k := 0) rfl machine
    rw [← start] at move
    exact move
  have site : Site _ handler _ φ (place h handler 1 h.regs cleared) mh :=
    code.next passed.memory (kept.trans satp) passed.mode passed.running
  have back := site.ret (k := 1) rfl rfl aligned
  obtain ⟨h', ran, same⟩ := (Reaches.next clear back.reaches).runsTo h rfl
  exact ⟨h', ran, same⟩

def ecallTrap : RVModel 32 := { RVModel.new ⟨0#32⟩ with
  regs := RegisterFile.new.set sp 0x200#32
  csr := (CsrFile.new.write CSR.MCAUSE 8#32).write CSR.MEPC 0x1000#32 }

def withHandler (code : List Asm) : MemoryModel 32 Unit :=
  .ofWords 0x200 ((trapEntry (.near 172#32)).map (fun i => i.word.getD 0#32) ++
    code.map (fun i => i.word.getD 0#32)) ()

def ecallMemory : MemoryModel 32 Unit := withHandler [.ret]

theorem ecall_frame : ∀ va ∈ frameWords 0x180#32, LowClear 2 va ∧ 0x180 ≤ va.toNat ∧
    va.toNat + 4 ≤ 0x200 := by
  rintro va ⟨k, small, rfl⟩
  have number : (frameWord 0x180#32 k).toNat = 0x180 + 4 * k := by
    simp only [frameWord, BitVec.toNat_add, BitVec.toNat_ofNat]
    omega
  rw [lowClear_iff_mod, number]
  omega

theorem ecall_entry (code : List Asm) :
    AtTrapEntry (.near 172#32) 0#32 id ecallTrap (withHandler code) := by
  have pointer : ecallTrap.regs.get sp - 128#32 = 0x180#32 := by decide
  have length : 4 * (trapEntry (.near 172#32)).length = 0x148 := rfl
  refine ⟨?_, rfl, rfl⟩
  rw [pointer]
  refine .of_words rfl (by decide) (by decide) (by decide) (by decide) fun va inside => ?_
  obtain ⟨clear, above, below⟩ := ecall_frame va inside
  exact ⟨clear, by omega, below⟩

theorem ecall_links :
    (TrapCall.near 172#32).target (0#32 + BitVec.ofNat 32 (4 * 39)) = 0x148#32 := by decide

theorem handler_site (code : List Asm) (short : code.length ≤ 14)
    (built : ∀ i ∈ code, i.word.isSome) :
    Site code 0x148#32 (frameWords 0x180#32) id ecallTrap (withHandler code) := by
  have length : ((trapEntry (.near 172#32)).map fun i => i.word.getD 0#32).length = 82 := rfl
  refine .of_bare rfl (by decide) (fun k i here => ?_) fun va inside => ?_
  · obtain ⟨below, at_k⟩ := List.getElem?_eq_some_iff.mp here
    have number : (0x148#32 + BitVec.ofNat 32 (4 * k)).toNat = 4 * (82 + k) := by
      simp only [BitVec.toNat_add, BitVec.toNat_ofNat]
      omega
    have clear : LowClear 2 (0x148#32 + BitVec.ofNat 32 (4 * k)) := by
      rw [lowClear_iff_mod, number]
      omega
    obtain ⟨w, word⟩ := Option.isSome_iff_exists.mp (built i (at_k ▸ List.getElem_mem below))
    refine ⟨w, word, clear, fun data => ?_, rfl, ?_, ?_⟩
    · have above := (ecall_frame _ data).2.1
      omega
    · change _ ≤ 0x200
      omega
    · unfold withHandler
      rw [wordAt_ofWords 0x200 _ _ clear, number, Nat.mul_div_cancel_left _ (by omega),
        List.getD_eq_getElem?_getD, ← length, List.getElem?_append_right (by omega),
        Nat.add_sub_cancel_left, List.getElem?_map, here]
      exact congrArg (fun o : Option WordT => o.getD 0#32) word
  · obtain ⟨clear, _, below⟩ := ecall_frame va inside
    exact ⟨clear, rfl, below⟩

theorem trap_transparent_ecall : ∃ n h mh h' n' t, RunsTo n ecallTrap ecallMemory h mh ∧
    HandlerReturns (.near 172#32) 0#32 id h mh h' mh ∧ RunsTo n' h' mh t mh ∧ t.pc = 0x1004#32 ∧
      ∀ r, t.regs.get r = ecallTrap.regs.get r := by
  have pointer : ecallTrap.regs.get sp - 128#32 = 0x180#32 := by decide
  have entry := ecall_entry [.ret]
  obtain ⟨n, h, mh, ran, pc, passed, link, _, _, _, back⟩ :=
    trap_transparent entry (by decide) ecall_links (by decide)
  have code := handler_site [.ret] (by decide) (by decide)
  obtain ⟨h', returns⟩ := ret_returns entry (by rw [pointer]; exact code) passed pc
    (by rw [link]; decide)
  obtain ⟨n', t, ran', regs, target⟩ := back h' mh returns
  exact ⟨n, h, mh, h', n', t, ran, returns, ran', target, regs⟩

/-- A trap_handler that clears mcause: it returns with the registers, the frame and sp as they
    were, and without a trap. The ecall is resumed at the ecall. -/
theorem cleared_cause_repeats_ecall : ∃ n h mh h' n' t,
    RunsTo n ecallTrap (withHandler [.csrw CSR.MCAUSE 0#5, .ret]) h mh ∧
      Passed id ecallTrap (withHandler [.csrw CSR.MCAUSE 0#5, .ret]) h mh ∧
      h.pc = 0x148#32 ∧ RunsTo 2 h mh h' mh ∧ h'.pc = h.regs.get ra ∧ h'.regs = h.regs ∧
      h'.trapCount = h.trapCount ∧ RunsTo n' h' mh t mh ∧
      (∀ r, t.regs.get r = ecallTrap.regs.get r) ∧
      isEcall (ecallTrap.csr.read CSR.MCAUSE) = true ∧ t.pc = ecallTrap.csr.read CSR.MEPC := by
  have pointer : ecallTrap.regs.get sp - 128#32 = 0x180#32 := by decide
  have entry := ecall_entry [.csrw CSR.MCAUSE 0#5, .ret]
  have code := handler_site [.csrw CSR.MCAUSE 0#5, .ret] (by decide) (by decide)
  obtain ⟨n, h, mh, ran, pc, passed, link⟩ := trapSave_run entry ecall_links (by decide)
  have machine : h.privMode = .M := passed.mode
  obtain ⟨h', ran', same⟩ := clear_runs (by rw [pointer]; exact code) passed pc machine
    (by rw [link]; decide)
  have regs' : h'.regs = h.regs := (regs_of_arch same).trans rfl
  have csr' : h'.csr = h.csr.write CSR.MCAUSE 0#32 := (csr_of_arch same).trans rfl
  have mode' : h'.privMode = h.privMode := (privMode_of_arch same).trans rfl
  have halted' : h'.halted = h.halted := (congrArg halted same).trans rfl
  have kept : (h.csr.write CSR.MCAUSE 0#32).read CSR.SATP = h.csr.read CSR.SATP :=
    CsrFile.read_write_of_ne _ (by decide) _
  have satp' : h'.csr.read CSR.SATP = ecallTrap.csr.read CSR.SATP := by
    rw [csr']
    exact kept.trans (passed.read (by decide))
  have site' := entry.site.next passed.memory satp' (mode'.trans passed.mode)
    (halted'.trans passed.running)
  obtain ⟨n', t, restores, regs, target, _⟩ := trapRestore_run site' (by decide)
    (mode'.trans machine) (by rw [regs']; exact passed.stack) ((pc_of_arch same).trans link)
  obtain ⟨t', ran'', same'⟩ := restores.runsTo h' rfl
  have untrapped : h'.trapCount = h.trapCount := (trapCount_of_arch same).trans rfl
  have none : isEcall (h'.csr.read CSR.MCAUSE) = false := by
    rw [csr']
    rfl
  have mepc : h'.csr.read CSR.MEPC = ecallTrap.csr.read CSR.MEPC := by
    rw [csr', ← passed.read (by decide)]
    exact CsrFile.read_write_of_ne _ (by decide) _
  refine ⟨n, h, mh, h', n', t', ran, passed, pc, ran', (pc_of_arch same).trans rfl, regs',
    untrapped, ran'', fun r => ?_, by decide, ?_⟩
  · rw [regs_of_arch same', regs r, ← passed.frame]
    exact passed.restores (fun _ _ => rfl) r
  · rw [pc_of_arch same', target, ← mepc]
    exact (trapReturn_returned none _).pc

end XorOS.Kernel
