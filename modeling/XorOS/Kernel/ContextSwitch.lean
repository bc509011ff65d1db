import Mathlib.Data.List.Nodup
import XorOS.Kernel.ProcessTable
import XorOS.Simulator.Listing

/- sched_switch.S on any number of context_t records, with any code between its calls. -/
namespace XorOS.Kernel
open ISA Bits Runs RVModel Reg MemoryModel

def contextSlots : List (BitVec 5 × BitVec 16) :=
  [(ra, 0#16), (sp, 4#16), (s0, 8#16), (s1, 12#16), (s2, 16#16), (s3, 20#16), (s4, 24#16),
    (s5, 28#16), (s6, 32#16), (s7, 36#16), (s8, 40#16), (s9, 44#16), (s10, 48#16), (s11, 52#16)]

/-- sched_switch.S: a0 = old, a1 = new. -/
def contextSwitch : List Asm :=
  [.sw ra 0#16 a0,
    .sw sp 4#16 a0,
    .sw s0 8#16 a0,
    .sw s1 12#16 a0,
    .sw s2 16#16 a0,
    .sw s3 20#16 a0,
    .sw s4 24#16 a0,
    .sw s5 28#16 a0,
    .sw s6 32#16 a0,
    .sw s7 36#16 a0,
    .sw s8 40#16 a0,
    .sw s9 44#16 a0,
    .sw s10 48#16 a0,
    .sw s11 52#16 a0,
    .lw ra 0#16 a1,
    .lw sp 4#16 a1,
    .lw s0 8#16 a1,
    .lw s1 12#16 a1,
    .lw s2 16#16 a1,
    .lw s3 20#16 a1,
    .lw s4 24#16 a1,
    .lw s5 28#16 a1,
    .lw s6 32#16 a1,
    .lw s7 36#16 a1,
    .lw s8 40#16 a1,
    .lw s9 44#16 a1,
    .lw s10 48#16 a1,
    .lw s11 52#16 a1,
    .ret]

theorem contextSwitch_blocks : contextSwitch =
    contextSlots.map (fun p => Asm.sw p.1 p.2 a0) ++
      (contextSlots.map (fun p => Asm.lw p.1 p.2 a1) ++ [.ret]) := rfl

def sReg (i : Fin 12) : BitVec 5 := BitVec.ofNat 5 (if i.val < 2 then 8 + i.val else 16 + i.val)

def Context.ofRegs (regs : RegisterFile 32) : Context :=
  ⟨regs.get Reg.ra, regs.get Reg.sp, fun i => regs.get (sReg i)⟩

variable {Dev : Type}

def contextAt (φ : BitVec 32 → BitVec 32) (m : MemoryModel 32 Dev) (a : BitVec 32) : Context :=
  ⟨view φ m a, view φ m (a + 4#32), fun i => view φ m (a + BitVec.ofNat 32 (8 + 4 * i.val))⟩

theorem slot_ra (a : BitVec 32) : (ra, a) ∈ slotsAt a contextSlots := by
  refine List.mem_map.mpr ⟨(ra, 0#16), by decide, ?_⟩
  exact congrArg (Prod.mk ra) (BitVec.add_zero a)

theorem slot_sp (a : BitVec 32) : (sp, a + 4#32) ∈ slotsAt a contextSlots :=
  List.mem_map.mpr ⟨(sp, 4#16), by decide, rfl⟩

theorem slot_s (a : BitVec 32) (i : Fin 12) :
    (sReg i, a + BitVec.ofNat 32 (8 + 4 * i.val)) ∈ slotsAt a contextSlots := by
  have table : ∀ i : Fin 12, (sReg i, BitVec.ofNat 16 (8 + 4 * i.val)) ∈ contextSlots ∧
      (BitVec.ofNat 16 (8 + 4 * i.val)).signExtend 32 = BitVec.ofNat 32 (8 + 4 * i.val) := by
    decide
  obtain ⟨slot, offset⟩ := table i
  exact List.mem_map.mpr ⟨_, slot, by rw [offset]⟩

theorem contextAt_of_slots {φ : BitVec 32 → BitVec 32} {m : MemoryModel 32 Dev} {a : BitVec 32}
    {regs : RegisterFile 32} (same : ∀ p ∈ slotsAt a contextSlots, view φ m p.2 = regs.get p.1) :
    contextAt φ m a = Context.ofRegs regs := by
  have first : view φ m a = regs.get ra := same (ra, a) (slot_ra a)
  have second : view φ m (a + 4#32) = regs.get sp := same (sp, a + 4#32) (slot_sp a)
  have rest (i : Fin 12) : view φ m (a + BitVec.ofNat 32 (8 + 4 * i.val)) = regs.get (sReg i) :=
    same (sReg i, a + BitVec.ofNat 32 (8 + 4 * i.val)) (slot_s a i)
  simp only [contextAt, Context.ofRegs, first, second, rest]

theorem contextAt_congr {φ : BitVec 32 → BitVec 32} {m m' : MemoryModel 32 Dev} {a : BitVec 32}
    (same : ∀ p ∈ slotsAt a contextSlots, view φ m' p.2 = view φ m p.2) :
    contextAt φ m' a = contextAt φ m a := by
  have first : view φ m' a = view φ m a := same (ra, a) (slot_ra a)
  have second : view φ m' (a + 4#32) = view φ m (a + 4#32) := same (sp, a + 4#32) (slot_sp a)
  have rest (i : Fin 12) : view φ m' (a + BitVec.ofNat 32 (8 + 4 * i.val)) =
      view φ m (a + BitVec.ofNat 32 (8 + 4 * i.val)) :=
    same (sReg i, a + BitVec.ofNat 32 (8 + 4 * i.val)) (slot_s a i)
  simp only [contextAt, first, second, rest]

structure Records (C : Type) where
  addr : C → BitVec 32
  aligned : ∀ c, LowClear 2 (addr c)
  fits : ∀ c, (addr c).toNat + 56 ≤ 2 ^ 32
  apart : ∀ c d, c ≠ d →
    (addr c).toNat + 56 ≤ (addr d).toNat ∨ (addr d).toNat + 56 ≤ (addr c).toNat

namespace Records
variable {C : Type} (r : Records C)

def words : Set (BitVec 32) := { a | ∃ c, a ∈ (slotsAt (r.addr c) contextSlots).map Prod.snd }

theorem slot_word {c : C} : ∀ p ∈ slotsAt (r.addr c) contextSlots, p.2 ∈ r.words :=
  fun _ slot => ⟨c, List.mem_map_of_mem slot⟩

theorem slots_apart (a : BitVec 32) : ((slotsAt a contextSlots).map Prod.snd).Nodup := by
  have offsets : (contextSlots.map fun p => p.2.signExtend 32).Nodup := by decide
  have injective : Function.Injective (a + ·) := fun x y same => by simpa using same
  have moved := offsets.map injective
  unfold slotsAt
  rw [List.map_map] at moved ⊢
  exact moved

theorem slot_bounds {c : C} {p : BitVec 5 × BitVec 32}
    (slot : p ∈ slotsAt (r.addr c) contextSlots) :
    LowClear 2 p.2 ∧ (r.addr c).toNat ≤ p.2.toNat ∧ p.2.toNat + 4 ≤ (r.addr c).toNat + 56 := by
  obtain ⟨q, field, rfl⟩ := List.mem_map.mp slot
  have table : ∀ q ∈ contextSlots,
      (q.2.signExtend 32).toNat ≤ 52 ∧ (q.2.signExtend 32).toNat % 4 = 0 :=
    List.forall_iff_forall_mem.mp (by decide)
  obtain ⟨small, multiple⟩ := table q field
  have fits := r.fits c
  have aligned := (lowClear_iff_mod 2 _).mp (r.aligned c)
  rw [lowClear_iff_mod]
  simp only [BitVec.toNat_add]
  omega

theorem slots_disjoint {c d : C} (other : c ≠ d) {p : BitVec 5 × BitVec 32}
    (slot : p ∈ slotsAt (r.addr c) contextSlots) :
    p.2 ∉ (slotsAt (r.addr d) contextSlots).map Prod.snd := by
  intro shared
  obtain ⟨q, slot', same⟩ := List.mem_map.mp shared
  have here := r.slot_bounds slot
  have there := r.slot_bounds slot'
  rw [same] at there
  rcases r.apart c d other with below | above
  · omega
  · omega

end Records

section Run
variable {C : Type} {r : Records C} {φ : BitVec 32 → BitVec 32} {base : BitVec 32} {s : RVModel 32}
  {m : MemoryModel 32 Dev}

/-- The stores of context_switch fill the old record and leave every other. -/
theorem contextSwitch_saves (site : Site contextSwitch base r.words φ s m) (pc : s.pc = base)
    {old : C} (arg : s.regs.get a0 = r.addr old) :
    ∃ m', Reaches 14 s m { s with pc := base + BitVec.ofNat 32 (4 * 14) } m' ∧
      AgreesOff (Set.image φ r.words) m m' ∧
      contextAt φ m' (r.addr old) = Context.ofRegs s.regs ∧
      ∀ c, c ≠ old → contextAt φ m' (r.addr c) = contextAt φ m (r.addr c) := by
  have start : s.pc = base + BitVec.ofNat 32 (4 * 0) := pc.trans (BitVec.add_zero base).symm
  have inside : ∀ p ∈ slotsAt (s.regs.get a0) contextSlots, p.2 ∈ r.words := by
    rw [arg]
    exact r.slot_word
  obtain ⟨m', reaches, agrees, words⟩ :=
    site.saves ⟨_, contextSwitch_blocks.symm⟩ start inside
  rw [arg] at words
  refine ⟨m', reaches, agrees, contextAt_of_slots fun p slot => ?_, fun c other => ?_⟩
  · rw [words p.2 (r.slot_word p slot)]
    exact Spill.store_slot _ (Records.slots_apart _) slot _
  · refine contextAt_congr fun p slot => ?_
    rw [words p.2 (r.slot_word p slot)]
    exact Spill.store_other _ (r.slots_disjoint other slot) _

/-- The loads of context_switch fill the registers from the new record, and ret goes to its ra. -/
theorem contextSwitch_loads (site : Site contextSwitch base r.words φ s m)
    (pc : s.pc = base + BitVec.ofNat 32 (4 * 14)) {new : C} (arg : s.regs.get a1 = r.addr new)
    (aligned : LowClear 2 (contextAt φ m (r.addr new)).ra) :
    ∃ regs, Reaches 15 s m { s with pc := (contextAt φ m (r.addr new)).ra, regs := regs } m ∧
      Context.ofRegs regs = contextAt φ m (r.addr new) := by
  have inside : ∀ p ∈ slotsAt (s.regs.get a1) contextSlots, p.2 ∈ r.words := by
    rw [arg]
    exact r.slot_word
  have placed : contextSlots.map (fun p => Asm.lw p.1 p.2 a1) <+: contextSwitch.drop 14 :=
    ⟨[.ret], rfl⟩
  have kept : ∀ p ∈ contextSlots, p.1 ≠ a1 ∧ p.1 ≠ 0#5 :=
    List.forall_iff_forall_mem.mp (by decide)
  obtain ⟨regs, reaches, value⟩ := site.loads kept placed pc inside
  have apart : ((slotsAt (r.addr new) contextSlots).map Prod.fst).Nodup := by
    unfold slotsAt
    rw [List.map_map]
    have fields : (contextSlots.map Prod.fst).Nodup := by decide
    exact fields
  rw [arg] at value
  have slots : ∀ p ∈ slotsAt (r.addr new) contextSlots, view φ m p.2 = regs.get p.1 := by
    intro p slot
    rw [value]
    exact (Spill.load_slot _ apart slot _).symm
  have loaded := contextAt_of_slots slots
  have site' : Site contextSwitch base r.words φ
      { s with pc := base + BitVec.ofNat 32 (4 * 28), regs := regs } m :=
    site.next (.refl m) rfl rfl rfl
  rw [loaded] at aligned
  have back := site'.ret (k := 28) rfl rfl aligned
  have whole : Reaches 15 s m _ m := reaches.trans back.reaches
  refine ⟨regs, ?_, loaded.symm⟩
  rw [loaded]
  exact whole

end Run

/-- Where the linker puts context_switch, proc_trampoline, the records and the ends of the stacks,
    and how the records' addresses are translated. -/
structure SwitchImage (C : Type) where
  contextSwitch : BitVec 32
  procTrampoline : BitVec 32
  records : Records C
  stackEnd : C → BitVec 32
  phys : BitVec 32 → BitVec 32
  trampoline_aligned : LowClear 2 procTrampoline

/-- What a record is for: a process that has not run yet, or a call of context_switch made with
    these registers. -/
inductive Saved where
  | nothing
  | spawned
  | called (regs : Context)

/-- saved is a history variable. -/
structure Contexts (C Dev : Type) where
  cpu : RVModel 32
  mem : MemoryModel 32 Dev
  running : C
  saved : C → Saved

inductive SwitchEvent (C : Type) where
  | work
  | spawn (c : C)
  | switch (new : C)

section System
variable {C : Type} (I : SwitchImage C)

def SwitchImage.context (mem : MemoryModel 32 Dev) (c : C) : Context :=
  contextAt I.phys mem (I.records.addr c)

structure Calls (x : Contexts C Dev) (new : C) : Prop where
  site : Site Kernel.contextSwitch I.contextSwitch I.records.words I.phys x.cpu x.mem
  pc : x.cpu.pc = I.contextSwitch
  old_arg : x.cpu.regs.get a0 = I.records.addr x.running
  new_arg : x.cpu.regs.get a1 = I.records.addr new
  return_aligned : LowClear 2 (x.cpu.regs.get ra)
  ready : new = x.running ∨ x.saved new ≠ .nothing

variable [DecidableEq C]

def Contexts.calling (x : Contexts C Dev) : C → Saved :=
  Function.update x.saved x.running (.called (Context.ofRegs x.cpu.regs))

/-- Code outside context_switch changes what it likes but the records, of which sched_spawn fills
    two fields. A call of context_switch runs to the end of its listing. -/
inductive SwitchStep (x : Contexts C Dev) : SwitchEvent C → Contexts C Dev → Prop
  | work (cpu : RVModel 32) (mem : MemoryModel 32 Dev)
      (kept : ∀ c, I.context mem c = I.context x.mem c) :
      SwitchStep x .work { x with cpu := cpu, mem := mem }
  | spawn (c : C) (cpu : RVModel 32) (mem : MemoryModel 32 Dev) (free : c ≠ x.running)
      (filled : I.context mem c =
        { I.context x.mem c with ra := I.procTrampoline, sp := I.stackEnd c })
      (kept : ∀ d, d ≠ c → I.context mem d = I.context x.mem d) :
      SwitchStep x (.spawn c)
        { x with cpu := cpu, mem := mem, saved := Function.update x.saved c .spawned }
  | switch (new : C) (cpu : RVModel 32) (mem : MemoryModel 32 Dev) (call : Calls I x new)
      (ran : RunsTo Kernel.contextSwitch.length x.cpu x.mem cpu mem) :
      SwitchStep x (.switch new) ⟨cpu, mem, new, x.calling⟩

def switches : System (Contexts C Dev) (SwitchEvent C) where
  init x := ∀ c, x.saved c = .nothing
  step := SwitchStep I

/-- What the new context finds when a call has come to its end. -/
def Resumes (x : Contexts C Dev) (new : C) (cpu : RVModel 32) : Prop :=
  match x.calling new with
  | .called regs => cpu.pc = regs.ra ∧ Context.ofRegs cpu.regs = regs
  | .spawned => cpu.pc = I.procTrampoline ∧ cpu.regs.get sp = I.stackEnd new
  | .nothing => False

def RecordHolds (c : C) (ctx : Context) : Saved → Prop
  | .nothing => True
  | .spawned => ctx.ra = I.procTrampoline ∧ ctx.sp = I.stackEnd c
  | .called regs => ctx = regs ∧ LowClear 2 regs.ra

omit [DecidableEq C] in
theorem RecordHolds.ra_aligned {c : C} {ctx : Context} {saved : Saved}
    (holds : RecordHolds I c ctx saved) (used : saved ≠ .nothing) : LowClear 2 ctx.ra := by
  cases saved with
  | nothing => exact absurd rfl used
  | spawned =>
    rw [holds.1]
    exact I.trampoline_aligned
  | called regs =>
    rw [holds.1]
    exact holds.2

def SwitchInv (x : Contexts C Dev) : Prop := ∀ c, RecordHolds I c (I.context x.mem c) (x.saved c)

/-- A call comes to its end, writes nothing but records, and leaves each with what it is for. -/
theorem call_spec {x : Contexts C Dev} (inv : SwitchInv I x) {new : C} (call : Calls I x new) :
    ∃ cpu mem, RunsTo Kernel.contextSwitch.length x.cpu x.mem cpu mem ∧
      AgreesOff (Set.image I.phys I.records.words) x.mem mem ∧
      (∀ c, RecordHolds I c (I.context mem c) (x.calling c)) ∧ Resumes I x new cpu := by
  obtain ⟨mem, saves, agrees, own, others⟩ := contextSwitch_saves call.site call.pc call.old_arg
  have holds : ∀ c, RecordHolds I c (I.context mem c) (x.calling c) := by
    intro c
    unfold Contexts.calling
    by_cases same : c = x.running
    · rw [same, Function.update_self]
      exact ⟨own, call.return_aligned⟩
    · rw [Function.update_of_ne same]
      unfold SwitchImage.context
      rw [others c same]
      exact inv c
  have used : x.calling new ≠ .nothing := by
    unfold Contexts.calling
    by_cases same : new = x.running
    · rw [same, Function.update_self]
      exact nofun
    · rw [Function.update_of_ne same]
      exact call.ready.resolve_left same
  have site : Site Kernel.contextSwitch I.contextSwitch I.records.words I.phys
      { x.cpu with pc := I.contextSwitch + BitVec.ofNat 32 (4 * 14) } mem :=
    call.site.next agrees rfl rfl rfl
  obtain ⟨regs, loads, loaded⟩ :=
    contextSwitch_loads site rfl call.new_arg ((holds new).ra_aligned I used)
  obtain ⟨cpu, ran, after⟩ := (saves.trans loads).runsTo x.cpu rfl
  have pc : cpu.pc = (I.context mem new).ra := pc_of_arch after
  have found : Context.ofRegs cpu.regs = I.context mem new := by
    rw [regs_of_arch after]
    exact loaded
  refine ⟨cpu, mem, ran, agrees, holds, ?_⟩
  have held := holds new
  unfold Resumes
  cases saved : x.calling new with
  | nothing => exact used saved
  | spawned =>
    rw [saved] at held
    exact ⟨pc.trans held.1, (congrArg Context.sp found).trans held.2⟩
  | called regs =>
    rw [saved] at held
    exact ⟨by rw [pc, held.1], found.trans held.1⟩

theorem SwitchInv.step {x y : Contexts C Dev} {e : SwitchEvent C} (inv : SwitchInv I x)
    (step : SwitchStep I x e y) : SwitchInv I y := by
  cases step with
  | work cpu mem kept =>
    intro c
    rw [kept c]
    exact inv c
  | spawn c cpu mem free filled kept =>
    intro d
    change RecordHolds I d (I.context mem d) (Function.update x.saved c .spawned d)
    by_cases same : d = c
    · subst same
      rw [filled, Function.update_self]
      exact ⟨rfl, rfl⟩
    · rw [kept d same, Function.update_of_ne same]
      exact inv d
  | switch new cpu mem call ran =>
    obtain ⟨cpu', mem', ran', _, holds, _⟩ := call_spec I inv call
    obtain ⟨rfl, rfl⟩ := ran'.unique ran
    exact holds

theorem SwitchInv.of_reachable {x : Contexts C Dev} (reached : (switches I).Reachable x) :
    SwitchInv I x := by
  refine reached.invariant (SwitchInv I) (fun start init c => ?_) fun x e y inv step =>
    inv.step I step
  rw [init c]
  trivial

/-- In every run, a call of context_switch comes to its end, and there the context that goes on
    finds ra, sp and s0 to s11 as they were when it made its own last call, or, spawned and never
    run, proc_trampoline and the end of its own stack. -/
theorem context_switch_preserves {x : Contexts C Dev} (reached : (switches I).Reachable x)
    (new : C) : (∀ y, SwitchStep I x (.switch new) y → Resumes I x new y.cpu) ∧
      (Calls I x new → ∃ y, SwitchStep I x (.switch new) y) := by
  have inv := SwitchInv.of_reachable I reached
  constructor
  · intro y step
    cases step with
    | switch new cpu mem call ran =>
      obtain ⟨cpu', mem', ran', _, _, resumes⟩ := call_spec I inv call
      obtain ⟨rfl, rfl⟩ := ran'.unique ran
      exact resumes
  · intro call
    obtain ⟨cpu, mem, ran, _⟩ := call_spec I inv call
    exact ⟨_, .switch new cpu mem call ran⟩

end System

def pairImage : SwitchImage Bool where
  contextSwitch := 0#32
  procTrampoline := 0x100#32
  records := ⟨fun c => if c then 0xC0#32 else 0x80#32, by decide, by decide, by decide⟩
  stackEnd _ := 0x200#32
  phys := id
  trampoline_aligned := by decide

def pairCall : Contexts Bool Unit where
  cpu := { RVModel.new ⟨0#32⟩ with
    regs := (((RegisterFile.new.set ra 0x104#32).set s0 5#32).set a0 0x80#32).set a1 0xC0#32 }
  mem := .ofWords 0x200 (contextSwitch.map (fun i => i.word.getD 0#32) ++
    (List.replicate 19 0#32 ++ [0x100#32, 0x200#32])) ()
  running := false
  saved := Function.update (fun _ => .nothing) true .spawned

def pairAnswer : RVModel 32 :=
  { RVModel.new ⟨0#32⟩ with
    regs := (((RegisterFile.new.set ra 0x108#32).set s0 9#32).set a0 0xC0#32).set a1 0x80#32 }

/-- The first context's call starts the second, and returns once the second has made its own. -/
theorem context_switch_preserves_pair : ∃ y z,
    SwitchStep pairImage pairCall (.switch true) y ∧
    y.cpu.pc = 0x100#32 ∧ y.cpu.regs.get sp = 0x200#32 ∧
    SwitchStep pairImage { y with cpu := pairAnswer } (.switch false) z ∧
    z.cpu.pc = 0x104#32 ∧ z.cpu.regs.get s0 = 5#32 := by
  have start : (switches pairImage).Reachable { pairCall with saved := fun _ => .nothing } :=
    .of_init fun _ => rfl
  have words : view id pairCall.mem 0xC0#32 = 0x100#32 ∧
      view id pairCall.mem (0xC0#32 + 4#32) = 0x200#32 := by decide
  have filled : pairImage.context pairCall.mem true = { pairImage.context pairCall.mem true with
      ra := 0x100#32, sp := 0x200#32 } := by
    simp only [SwitchImage.context, contextAt, pairImage, if_true, words]
  have reached : (switches pairImage).Reachable pairCall :=
    start.next (.spawn true pairCall.cpu pairCall.mem (by decide) filled fun _ _ => rfl)
  have bounds : ∀ va ∈ pairImage.records.words,
      LowClear 2 va ∧ 4 * contextSwitch.length ≤ va.toNat ∧ va.toNat + 4 ≤ 0x200 := by
    rintro va ⟨c, member⟩
    obtain ⟨p, slot, rfl⟩ := List.mem_map.mp member
    obtain ⟨aligned, above, below⟩ := pairImage.records.slot_bounds slot
    have places : ∀ c, (pairImage.records.addr c).toNat = 0x80 ∨
        (pairImage.records.addr c).toNat = 0xC0 := by decide
    have place := places c
    have length : contextSwitch.length = 29 := rfl
    exact ⟨aligned, by omega, by omega⟩
  have site : Site contextSwitch 0#32 pairImage.records.words id pairCall.cpu pairCall.mem :=
    .of_words rfl (by decide) (by decide) (by decide) (by decide) bounds
  have call : Calls pairImage pairCall true := ⟨site, rfl, rfl, rfl, by decide, .inr nofun⟩
  obtain ⟨cpu, mem, ran, agrees, _⟩ :=
    call_spec pairImage (SwitchInv.of_reachable pairImage reached) call
  have step := SwitchStep.switch true cpu mem call ran
  obtain ⟨at_trampoline, stack⟩ := (context_switch_preserves pairImage reached true).1 _ step
  have later : (switches pairImage).Reachable
      ⟨pairAnswer, mem, true, pairCall.calling⟩ :=
    (reached.next step).next (.work pairAnswer mem fun _ => rfl)
  have aligned : LowClear 2 (pairAnswer.regs.get ra) := by decide
  have answer : Calls pairImage ⟨pairAnswer, mem, true, pairCall.calling⟩ false :=
    ⟨site.next agrees rfl rfl rfl, rfl, rfl, rfl, aligned, .inr nofun⟩
  obtain ⟨back, ends⟩ := context_switch_preserves pairImage later false
  obtain ⟨z, returned⟩ := ends answer
  obtain ⟨at_return, regs⟩ := back z returned
  exact ⟨_, z, step, at_trampoline, stack, returned, at_return,
    congrFun (congrArg Context.s regs) 0⟩

end XorOS.Kernel
