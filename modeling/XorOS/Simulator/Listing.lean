import XorOS.Library.Runs
import XorOS.Library.Spill
import XorOS.Simulator.Assembly

/- Runs of step() through an assembly listing whose data are words of RAM. -/
namespace XorOS.RVModel
open ISA Bits MemoryModel Runs
variable {Dev : Type}

def RunsTo (n : Nat) (s : RVModel 32) (m : MemoryModel 32 Dev) (s' : RVModel 32)
    (m' : MemoryModel 32 Dev) : Prop :=
  runFor machine n (s, m) = (List.replicate n (.ok ()), (s', m'))

/-- step() leads from (s, m) to (s', m'), whatever the counter and the hooks have recorded. -/
def Moves (s : RVModel 32) (m : MemoryModel 32 Dev) (s' : RVModel 32) (m' : MemoryModel 32 Dev) :
    Prop :=
  ∀ t, arch t = arch s → ∃ t', t.step m = (.ok (), t', m') ∧ arch t' = arch s'

inductive Reaches : Nat → RVModel 32 → MemoryModel 32 Dev → RVModel 32 → MemoryModel 32 Dev → Prop
  | refl (s : RVModel 32) (m : MemoryModel 32 Dev) : Reaches 0 s m s m
  | next {n : Nat} {s t s' : RVModel 32} {m mt m' : MemoryModel 32 Dev} (first : Moves s m t mt)
      (rest : Reaches n t mt s' m') : Reaches (n + 1) s m s' m'

theorem Reaches.trans {n k : Nat} {s t s' : RVModel 32} {m mt m' : MemoryModel 32 Dev}
    (first : Reaches n s m t mt) (rest : Reaches k t mt s' m') : Reaches (n + k) s m s' m' := by
  induction first with
  | refl =>
    rw [Nat.zero_add]
    exact rest
  | next move _ ih =>
    rw [Nat.add_right_comm]
    exact .next move (ih rest)

theorem Moves.reaches {s s' : RVModel 32} {m m' : MemoryModel 32 Dev} (move : Moves s m s' m') :
    Reaches 1 s m s' m' := .next move (.refl s' m')

theorem Reaches.runsTo {n : Nat} {s s' : RVModel 32} {m m' : MemoryModel 32 Dev}
    (reaches : Reaches n s m s' m') :
    ∀ t, arch t = arch s → ∃ t', RunsTo n t m t' m' ∧ arch t' = arch s' := by
  induction reaches with
  | refl s m => exact fun t same => ⟨t, rfl, same⟩
  | next move _ ih =>
    intro t same
    obtain ⟨u, first, same⟩ := move t same
    obtain ⟨t', rest, same⟩ := ih u same
    refine ⟨t', ?_, same⟩
    have one : machine (t, _) = (.ok (), (u, _)) := first
    unfold RunsTo at rest ⊢
    simp only [runFor, one, rest, List.replicate_succ]

theorem RunsTo.unique {n : Nat} {s t t' : RVModel 32} {m mt mt' : MemoryModel 32 Dev}
    (first : RunsTo n s m t mt) (second : RunsTo n s m t' mt') : t' = t ∧ mt' = mt := by
  have same := second.symm.trans first
  exact Prod.mk.inj (Prod.mk.inj same).2

def Fetches (s : RVModel 32) (m : MemoryModel 32 Dev) (pc : BitVec 32) (w : WordT) : Prop :=
  ∃ pa, (s.translateAddr pc .fetch m).1 = some pa ∧ m.readWord pa = .ok w

theorem fetched_of_fetches {s : RVModel 32} {m : MemoryModel 32 Dev} {w : WordT}
    (running : s.halted = false) (fetch : Fetches s m s.pc w) (nonzero : w ≠ 0#32) :
    s.fetched m = some w := by
  obtain ⟨pa, translated, read⟩ := fetch
  unfold fetched
  simp only [running, Bool.false_eq_true, if_false, translateAddr_some translated, memT_readWord,
    read, nonzero]

theorem machine_allowed (csr : BitVec 12) : ¬PrivMode.M < csrPriv csr := by
  generalize csrPriv csr = priv
  revert priv
  decide

/-- An instruction that does the same whatever the counter and the hooks have recorded. -/
theorem moves_of_instr {s u : RVModel 32} {m m' : MemoryModel 32 Dev} {w : WordT} {modified : Bool}
    (running : s.halted = false) (fetch : Fetches s m s.pc w) (nonzero : w ≠ 0#32)
    (exec : ∀ t, arch t = arch s → ∃ t', t.executeInstr (Decoder.decode 32 w) m =
      (.ok modified, t', m') ∧ arch t' = arch u) :
    Moves s m (if modified then u else u.advancePC) m' := by
  intro t same
  have awake : t.halted = false := (congrArg halted same).trans running
  have found : Fetches t m t.pc w := by
    obtain ⟨pa, translated, read⟩ := fetch
    refine ⟨pa, ?_, read⟩
    rw [pc_of_arch same, translateAddr_of_arch same, translated]
  rw [step_eq_executeWord (fetched_of_fetches awake found nonzero)]
  unfold executeWord
  obtain ⟨t', done, after⟩ := exec (t.callStepHook (Disasm.disassemble (Decoder.decode 32 w)))
    ((arch_callStepHook _ _).trans same)
  simp only [done]
  refine ⟨_, rfl, ?_⟩
  cases modified with
  | true => exact after
  | false => exact congrArg advancePC after

theorem return_target {a : BitVec 32} (aligned : LowClear 2 a) :
    (a + (0#16).signExtend 32) &&& ~~~0b01#32 = a := by
  rw [show (0#16).signExtend 32 = 0#32 from rfl, BitVec.add_zero]
  have even : (a &&& ~~~0b01#32).toNat = a.toNat - a.toNat % 2 ^ 1 :=
    toNat_and_not_mask (w := 32) (k := 1) (by omega) a
  have low := (lowClear_iff_mod 2 a).mp aligned
  apply BitVec.eq_of_toNat_eq
  omega

structure AgreesOff (F : Set (BitVec 32)) (m m' : MemoryModel 32 Dev) : Prop where
  layout : m'.layout = m.layout
  dev : m'.dev = m.dev
  words : ∀ t, LowClear 2 t → t ∉ F → m'.wordAt t = m.wordAt t

namespace AgreesOff
variable {F : Set (BitVec 32)} {m m' m'' : MemoryModel 32 Dev}

theorem refl (m : MemoryModel 32 Dev) : AgreesOff F m m := ⟨rfl, rfl, fun _ _ _ => rfl⟩

theorem trans (first : AgreesOff F m m') (second : AgreesOff F m' m'') : AgreesOff F m m'' where
  layout := second.layout.trans first.layout
  dev := second.dev.trans first.dev
  words t clear off := (second.words t clear off).trans (first.words t clear off)

end AgreesOff

theorem wordAt_ofWords (size : Nat) (words : List WordT) (dev : Dev) {a : BitVec 32}
    (clear : LowClear 2 a) :
    (ofWords size words dev : MemoryModel 32 Dev).wordAt a = words.getD (a.toNat / 4) 0#32 := by
  have aligned := clear_mod clear
  rw [← leWord_bytes (words.getD (a.toNat / 4) 0#32)]
  apply leWord_congr
  intro i small
  have byte (w : WordT) : (w &&& 0xFF#32).setWidth 8 = w.setWidth 8 := by
    apply BitVec.eq_of_toNat_eq
    have mask : (w &&& 0xFF#32).toNat = w.toNat % 2 ^ 8 :=
      toNat_and_mask (w := 32) (k := 8) (by omega) w
    rw [BitVec.toNat_setWidth, BitVec.toNat_setWidth, mask, Nat.mod_mod]
  rw [byte, byteAt, toNat_add_small clear small]
  simp only [ofWords, show (a.toNat + i) / 4 = a.toNat / 4 by omega,
    show (a.toNat + i) % 4 = i by omega]

def view (φ : BitVec 32 → BitVec 32) (m : MemoryModel 32 Dev) (va : BitVec 32) : WordT :=
  m.wordAt (φ va)

/-- A place to run a listing: it lies at base, the words of data are words of RAM, φ of them, and
    whatever these hold, code and data stay where they are. -/
structure Site (listing : List Asm) (base : BitVec 32) (data : Set (BitVec 32))
    (φ : BitVec 32 → BitVec 32) (s : RVModel 32) (m : MemoryModel 32 Dev) : Prop where
  running : s.halted = false
  code : ∀ m', AgreesOff (Set.image φ data) m m' → ∀ (k : Nat) (i : Asm), listing[k]? = some i →
    ∃ w, i.word = some w ∧ Fetches s m' (base + BitVec.ofNat 32 (4 * k)) w
  mapped : ∀ m', AgreesOff (Set.image φ data) m m' → ∀ va ∈ data, ∀ access, access ≠ .fetch →
    (s.translateAddr va access m').1 = some (φ va)
  aligned : ∀ va ∈ data, LowClear 2 va
  ram : ∀ va ∈ data, m.findMmio (φ va) = none ∧ (φ va).toNat + 4 ≤ m.size
  apart : Set.InjOn φ data

namespace Site
variable {listing : List Asm} {base : BitVec 32} {data : Set (BitVec 32)}
  {φ : BitVec 32 → BitVec 32} {s : RVModel 32} {m : MemoryModel 32 Dev}

/-- A change of the data leaves the place as it is, and so does one of pc, registers and CSRs
    but satp. -/
theorem next (site : Site listing base data φ s m) {t : RVModel 32} {m' : MemoryModel 32 Dev}
    (agrees : AgreesOff (Set.image φ data) m m') (satp : t.csr.read CSR.SATP = s.csr.read CSR.SATP)
    (priv : t.privMode = s.privMode) (halted : t.halted = s.halted) :
    Site listing base data φ t m' where
  running := halted.trans site.running
  code m'' later k i here := by
    obtain ⟨w, built, pa, translated, read⟩ := site.code m'' (agrees.trans later) k i here
    refine ⟨w, built, pa, ?_, read⟩
    rw [translateAddr_satp satp priv, translated]
  mapped m'' later va inside access data := by
    rw [translateAddr_satp satp priv]
    exact site.mapped m'' (agrees.trans later) va inside access data
  aligned := site.aligned
  ram va inside := by
    obtain ⟨ram, fits⟩ := site.ram va inside
    have size : m'.size = m.size := congrArg Prod.fst agrees.layout
    exact ⟨(findMmio_of_layout agrees.layout _).trans ram, by rw [size]; exact fits⟩
  apart := site.apart

theorem clear (site : Site listing base data φ s m) {va : BitVec 32} (inside : va ∈ data) :
    LowClear 2 (φ va) :=
  StoreTo.clear (site.mapped m (.refl m) va inside .store (by decide)) (by omega)
    (site.aligned va inside)

theorem read (site : Site listing base data φ s m) {va : BitVec 32} (inside : va ∈ data) :
    m.readWord (φ va) = .ok (view φ m va) := by
  obtain ⟨ram, fits⟩ := site.ram va inside
  rw [readWord_ram m ram, if_pos fits]
  rfl

theorem write (site : Site listing base data φ s m) {va : BitVec 32} (inside : va ∈ data)
    (v : WordT) : ∃ m', m.writeWord (φ va) v = (.ok (), m') ∧
      AgreesOff (Set.image φ data) m m'.invalidateReservation ∧
      ∀ t ∈ data, view φ m'.invalidateReservation t = Function.update (view φ m) va v t := by
  obtain ⟨ram, fits⟩ := site.ram va inside
  obtain ⟨m', written, layout, words⟩ := writeWord_word m (site.clear inside) ram fits v
  have dev : m'.dev = m.dev := by
    have eq := writeWord_ram m ram v
    rw [written, if_pos fits] at eq
    rw [(Prod.mk.inj eq).2]
    rfl
  refine ⟨m', written, ⟨layout, dev, fun t clear off => ?_⟩, fun t member => ?_⟩
  · refine (words t clear).trans (if_neg ?_)
    rintro rfl
    exact off ⟨va, inside, rfl⟩
  · refine (words (φ t) (site.clear member)).trans ?_
    by_cases same : t = va
    · rw [same, if_pos rfl, Function.update_self]
    · rw [if_neg fun eq => same (site.apart member inside eq), Function.update_of_ne same]
      rfl

/-- With satp off, a place is code and data in RAM, apart from each other. -/
theorem of_bare (running : s.halted = false) (bare : ¬s.Paging)
    (code : ∀ (k : Nat) (i : Asm), listing[k]? = some i → ∃ w, i.word = some w ∧
      LowClear 2 (base + BitVec.ofNat 32 (4 * k)) ∧ base + BitVec.ofNat 32 (4 * k) ∉ data ∧
      m.findMmio (base + BitVec.ofNat 32 (4 * k)) = none ∧
      (base + BitVec.ofNat 32 (4 * k)).toNat + 4 ≤ m.size ∧
      m.wordAt (base + BitVec.ofNat 32 (4 * k)) = w)
    (words : ∀ va ∈ data, LowClear 2 va ∧ m.findMmio va = none ∧ va.toNat + 4 ≤ m.size) :
    Site listing base data id s m where
  running := running
  code m' agrees k i here := by
    obtain ⟨w, built, clear, off, ram, fits, value⟩ := code k i here
    have size : m'.size = m.size := congrArg Prod.fst agrees.layout
    have ram' : m'.findMmio (base + BitVec.ofNat 32 (4 * k)) = none :=
      (findMmio_of_layout agrees.layout _).trans ram
    refine ⟨w, built, _, by rw [translateAddr_bare bare], ?_⟩
    rw [readWord_ram m' ram', size, if_pos fits, agrees.words _ clear (by simpa using off), value]
  mapped m' _ va _ access _ := by
    rw [translateAddr_bare bare]
    rfl
  aligned va inside := (words va inside).1
  ram va inside := (words va inside).2
  apart := Set.injOn_id data

theorem of_words {size : Nat} {rest : List WordT} {dev : Dev} (running : s.halted = false)
    (bare : ¬s.Paging) (built : ∀ i ∈ listing, i.word.isSome) (fits : 4 * listing.length ≤ size)
    (small : size ≤ 2 ^ 32) (words : ∀ va ∈ data,
      LowClear 2 va ∧ 4 * listing.length ≤ va.toNat ∧ va.toNat + 4 ≤ size) :
    Site listing 0#32 data id s
      (ofWords size (listing.map (fun i => i.word.getD 0#32) ++ rest) dev) := by
  refine of_bare running bare (fun k i here => ?_) fun va inside => ?_
  · obtain ⟨below, at_k⟩ := List.getElem?_eq_some_iff.mp here
    obtain ⟨w, word⟩ := Option.isSome_iff_exists.mp (built i (List.mem_of_getElem? here))
    have number : (0#32 + BitVec.ofNat 32 (4 * k)).toNat = 4 * k := by
      rw [BitVec.zero_add, BitVec.toNat_ofNat, Nat.mod_eq_of_lt (by omega)]
    have clear : LowClear 2 (0#32 + BitVec.ofNat 32 (4 * k)) := by
      rw [lowClear_iff_mod, number]
      omega
    refine ⟨w, word, clear, fun data => ?_, rfl, ?_, ?_⟩
    · have := (words _ data).2.1
      omega
    · change _ ≤ size
      omega
    · rw [wordAt_ofWords _ _ _ clear, number, Nat.mul_div_cancel_left k (by omega)]
      simp [List.getD_eq_getElem?_getD, List.getElem?_append_left, below, at_k, word]
  · obtain ⟨clear, _, inside⟩ := words va inside
    exact ⟨clear, rfl, inside⟩

theorem instr (site : Site listing base data φ s m) {k : Nat} {i : Asm}
    (here : listing[k]? = some i) (pc : s.pc = base + BitVec.ofNat 32 (4 * k)) {u : RVModel 32}
    {m' : MemoryModel 32 Dev} (modified : Bool)
    (exec : ∀ w, i.word = some w → ∀ t, arch t = arch s → ∃ t',
      t.executeInstr (Decoder.decode 32 w) m = (.ok modified, t', m') ∧ arch t' = arch u) :
    Moves s m (if modified then u else u.advancePC) m' := by
  obtain ⟨w, built, fetch⟩ := site.code m (.refl m) k i here
  rw [← pc] at fetch
  exact moves_of_instr site.running fetch (Asm.word_ne_zero built) (exec w built)

theorem addi (site : Site listing base data φ s m) {k : Nat} {rd rs1 : BitVec 5} {imm : BitVec 16}
    (here : listing[k]? = some (.addi rd rs1 imm)) (pc : s.pc = base + BitVec.ofNat 32 (4 * k)) :
    Moves s m (s.setReg rd (s.regs.get rs1 + imm.signExtend 32)).advancePC m := by
  refine site.instr here pc false fun w built t same => ?_
  refine ⟨_, execute_addi t m built, ?_⟩
  rw [regs_of_arch same]
  exact congrArg (setReg · rd _) same

theorem lw (site : Site listing base data φ s m) {k : Nat} {rd rs1 : BitVec 5}
    {offset : BitVec 16} (here : listing[k]? = some (.lw rd offset rs1))
    (pc : s.pc = base + BitVec.ofNat 32 (4 * k))
    (inside : s.regs.get rs1 + offset.signExtend 32 ∈ data) :
    Moves s m (s.setReg rd (view φ m (s.regs.get rs1 + offset.signExtend 32))).advancePC m := by
  refine site.instr here pc false fun w built t same => ?_
  refine ⟨_, execute_lw t m built ?_ ?_ (site.read inside), congrArg (setReg · rd _) same⟩
  · rw [regs_of_arch same]
    exact site.aligned _ inside
  · rw [regs_of_arch same, translateAddr_of_arch same]
    exact site.mapped m (.refl m) _ inside .load (by decide)

theorem sw (site : Site listing base data φ s m) {k : Nat} {rs2 rs1 : BitVec 5}
    {offset : BitVec 16} (here : listing[k]? = some (.sw rs2 offset rs1))
    (pc : s.pc = base + BitVec.ofNat 32 (4 * k))
    (inside : s.regs.get rs1 + offset.signExtend 32 ∈ data) :
    ∃ m', Moves s m s.advancePC m' ∧ AgreesOff (Set.image φ data) m m' ∧
      ∀ va ∈ data, view φ m' va = Function.update (view φ m)
        (s.regs.get rs1 + offset.signExtend 32) (s.regs.get rs2) va := by
  obtain ⟨m', written, agrees, words⟩ := site.write inside (s.regs.get rs2)
  refine ⟨_, ?_, agrees, words⟩
  refine site.instr here pc false fun w built t same => ?_
  have regs := regs_of_arch same
  have aligned : LowClear 2 (t.regs.get rs1 + offset.signExtend 32) := by
    rw [regs]
    exact site.aligned _ inside
  have translated : (t.translateAddr (t.regs.get rs1 + offset.signExtend 32) .store m).1 =
      some (φ (s.regs.get rs1 + offset.signExtend 32)) := by
    rw [regs, translateAddr_of_arch same]
    exact site.mapped m (.refl m) _ inside .store (by decide)
  have stored : m.writeWord (φ (s.regs.get rs1 + offset.signExtend 32)) (t.regs.get rs2) =
      (.ok (), m') := by
    rw [regs]
    exact written
  exact ⟨t, execute_sw t m built aligned translated stored, same⟩

theorem csrw (site : Site listing base data φ s m) {k : Nat} {csr : BitVec 12} {rs1 : BitVec 5}
    (here : listing[k]? = some (.csrw csr rs1)) (pc : s.pc = base + BitVec.ofNat 32 (4 * k))
    (machine : s.privMode = .M) :
    Moves s m { s with csr := s.csr.write csr (s.regs.get rs1) }.advancePC m := by
  refine site.instr here pc false fun w built t same => ?_
  refine ⟨_, execute_csrw t m built ?_, ?_⟩
  · rw [privMode_of_arch same, machine]
    exact machine_allowed csr
  · have value : t.csr.write csr (t.regs.get rs1) = s.csr.write csr (s.regs.get rs1) := by
      rw [regs_of_arch same, csr_of_arch same]
    rw [value]
    exact congrArg (fun u : RVModel 32 => { u with csr := s.csr.write csr (s.regs.get rs1) }) same

theorem csrr (site : Site listing base data φ s m) {k : Nat} {csr : BitVec 12} {rd : BitVec 5}
    (here : listing[k]? = some (.csrr rd csr)) (pc : s.pc = base + BitVec.ofNat 32 (4 * k))
    (machine : s.privMode = .M) : Moves s m (s.setReg rd (s.csr.read csr)).advancePC m := by
  refine site.instr here pc false fun w built t same => ?_
  refine ⟨_, execute_csrr t m built ?_, ?_⟩
  · rw [privMode_of_arch same, machine]
    exact machine_allowed csr
  · rw [csr_of_arch same]
    exact congrArg (setReg · rd _) same

theorem mret (site : Site listing base data φ s m) {k : Nat} (here : listing[k]? = some .mret)
    (pc : s.pc = base + BitVec.ofNat 32 (4 * k)) : Moves s m s.executeMRET m := by
  refine site.instr here pc true fun w built t same => ?_
  refine ⟨_, execute_mret t m built, ?_⟩
  rw [arch_executeMRET t, same]
  exact (arch_executeMRET s).symm

theorem branch (site : Site listing base data φ s m) {k : Nat} {i : Asm} {f : Funct3Branch}
    {rs1 rs2 : BitVec 5} {offset : BitVec 16} (here : listing[k]? = some i)
    (which : i = .beq rs1 rs2 offset ∧ f = .beq ∨ i = .bne rs1 rs2 offset ∧ f = .bne)
    (pc : s.pc = base + BitVec.ofNat 32 (4 * k))
    (aligned : LowClear 2 (s.pc + offset.signExtend 32)) :
    Moves s m (if branchTaken f (s.regs.get rs1) (s.regs.get rs2) then
      s.jump (s.pc + offset.signExtend 32) else s.advancePC) m := by
  have run (w : WordT) (built : i.word = some w) (t : RVModel 32) (same : arch t = arch s) :
      t.executeInstr (Decoder.decode 32 w) m =
        if branchTaken f (s.regs.get rs1) (s.regs.get rs2) then
          (.ok true, t.jump (s.pc + offset.signExtend 32), m)
        else (.ok false, t, m) := by
    rw [← pc_of_arch same] at aligned ⊢
    rw [← regs_of_arch same]
    rcases which with ⟨rfl, rfl⟩ | ⟨rfl, rfl⟩
    · exact execute_branch t m built aligned
    · exact execute_branch t m built aligned
  by_cases taken : branchTaken f (s.regs.get rs1) (s.regs.get rs2)
  · simp only [taken, if_true] at run ⊢
    exact site.instr here pc true fun w built t same =>
      ⟨_, run w built t same, congrArg (jump · _) same⟩
  · simp only [taken, if_false, Bool.false_eq_true] at run ⊢
    exact site.instr here pc false fun w built t same =>
      ⟨_, run w built t same, same⟩

theorem jalr (site : Site listing base data φ s m) {k : Nat} {rd rs1 : BitVec 5}
    {offset : BitVec 16} {target : BitVec 32} (here : listing[k]? = some (.jalr rd rs1 offset))
    (pc : s.pc = base + BitVec.ofNat 32 (4 * k))
    (reaches : (s.regs.get rs1 + offset.signExtend 32) &&& ~~~0b01#32 = target)
    (aligned : LowClear 2 target) :
    Moves s m ((s.setReg rd (s.pc + 4#32)).jump target) m := by
  refine site.instr here pc true fun w built t same => ?_
  rw [← regs_of_arch same] at reaches
  refine ⟨_, execute_jalr t m built reaches aligned, ?_⟩
  rw [pc_of_arch same]
  exact congrArg (fun u : RVModel 32 => (u.setReg rd (s.pc + 4#32)).jump target) same

theorem ret (site : Site listing base data φ s m) {k : Nat} (here : listing[k]? = some .ret)
    (pc : s.pc = base + BitVec.ofNat 32 (4 * k)) (aligned : LowClear 2 (s.regs.get Reg.ra)) :
    Moves s m (s.jump (s.regs.get Reg.ra)) m :=
  site.jalr here pc (return_target aligned) aligned

theorem jal (site : Site listing base data φ s m) {k : Nat} {rd : BitVec 5} {offset : BitVec 32}
    (here : listing[k]? = some (.jal rd offset)) (pc : s.pc = base + BitVec.ofNat 32 (4 * k))
    (aligned : LowClear 2 (s.pc + jalOffset offset)) :
    Moves s m ((s.setReg rd (s.pc + 4#32)).jump (s.pc + jalOffset offset)) m := by
  refine site.instr here pc true fun w built t same => ?_
  rw [← pc_of_arch same] at aligned ⊢
  refine ⟨_, execute_jal t m built aligned, ?_⟩
  exact congrArg (fun u : RVModel 32 => (u.setReg rd (t.pc + 4#32)).jump (t.pc + jalOffset offset))
    same

theorem auipc (site : Site listing base data φ s m) {k : Nat} {rd : BitVec 5} {imm : BitVec 32}
    (here : listing[k]? = some (.auipc rd imm)) (pc : s.pc = base + BitVec.ofNat 32 (4 * k)) :
    Moves s m (s.setReg rd (s.pc + (imm &&& 0xFFFFF000#32))).advancePC m := by
  refine site.instr here pc false fun w built t same => ?_
  refine ⟨_, execute_auipc t m built, ?_⟩
  rw [pc_of_arch same]
  exact congrArg (setReg · rd _) same

end Site

theorem advancePC_next {s : RVModel 32} {base : BitVec 32} {k : Nat}
    (pc : s.pc = base + BitVec.ofNat 32 (4 * k)) :
    s.advancePC.pc = base + BitVec.ofNat 32 (4 * (k + 1)) := by
  change s.pc + 4#32 = _
  rw [pc, BitVec.add_assoc, ← BitVec.ofNat_add]
  rfl

theorem prefix_drop {α : Type} {listing : List α} {a : α} {block : List α} {k : Nat}
    (placed : a :: block <+: listing.drop k) :
    listing[k]? = some a ∧ block <+: listing.drop (k + 1) := by
  obtain ⟨rest, eq⟩ := placed
  constructor
  · have first := congrArg (·[0]?) eq
    simpa using first.symm
  · refine ⟨rest, ?_⟩
    have tail := congrArg List.tail eq
    simpa using tail

def slotsAt (b : BitVec 32) (slots : List (BitVec 5 × BitVec 16)) :
    List (BitVec 5 × BitVec 32) :=
  slots.map fun p => (p.1, b + p.2.signExtend 32)

namespace Site
variable {listing : List Asm} {base : BitVec 32} {data : Set (BitVec 32)}
  {φ : BitVec 32 → BitVec 32}

theorem saves {rs1 : BitVec 5} {slots : List (BitVec 5 × BitVec 16)} :
    ∀ {k : Nat} {s : RVModel 32} {m : MemoryModel 32 Dev}, Site listing base data φ s m →
      slots.map (fun p => Asm.sw p.1 p.2 rs1) <+: listing.drop k →
      s.pc = base + BitVec.ofNat 32 (4 * k) →
      (∀ p ∈ slotsAt (s.regs.get rs1) slots, p.2 ∈ data) →
      ∃ m', Reaches slots.length s m
          { s with pc := base + BitVec.ofNat 32 (4 * (k + slots.length)) } m' ∧
        AgreesOff (Set.image φ data) m m' ∧ ∀ va ∈ data, view φ m' va =
          Spill.store s.regs.get (slotsAt (s.regs.get rs1) slots) (view φ m) va := by
  induction slots with
  | nil =>
    intro k s m _ _ pc _
    refine ⟨m, ?_, .refl m, fun _ _ => rfl⟩
    rw [List.length_nil, Nat.add_zero, ← pc]
    exact .refl s m
  | cons p rest ih =>
    intro k s m site placed pc inside
    simp only [slotsAt, List.map_cons, List.forall_mem_cons] at placed inside
    obtain ⟨here, placed⟩ := prefix_drop placed
    obtain ⟨m₁, move, agrees, words⟩ := site.sw here pc inside.1
    have site₁ : Site listing base data φ s.advancePC m₁ := site.next agrees rfl rfl rfl
    obtain ⟨m', reaches, agrees', words'⟩ := ih site₁ placed (advancePC_next pc) inside.2
    refine ⟨m', ?_, agrees.trans agrees', fun va member => ?_⟩
    · rw [List.length_cons, Nat.add_comm rest.length 1, ← Nat.add_assoc, Nat.add_comm 1]
      exact .next move reaches
    · rw [words' va member]
      exact Spill.store_congr _ _ (words va member)

theorem loads {rs1 : BitVec 5} {slots : List (BitVec 5 × BitVec 16)} {m : MemoryModel 32 Dev}
    (written : ∀ p ∈ slots, p.1 ≠ rs1 ∧ p.1 ≠ 0#5) :
    ∀ {k : Nat} {s : RVModel 32}, Site listing base data φ s m →
      slots.map (fun p => Asm.lw p.1 p.2 rs1) <+: listing.drop k →
      s.pc = base + BitVec.ofNat 32 (4 * k) →
      (∀ p ∈ slotsAt (s.regs.get rs1) slots, p.2 ∈ data) →
      ∃ regs, Reaches slots.length s m
          { s with pc := base + BitVec.ofNat 32 (4 * (k + slots.length)), regs := regs } m ∧
        regs.get = Spill.load (view φ m) (slotsAt (s.regs.get rs1) slots) s.regs.get := by
  induction slots with
  | nil =>
    intro k s _ _ pc _
    refine ⟨s.regs, ?_, rfl⟩
    rw [List.length_nil, Nat.add_zero, ← pc]
    exact .refl s m
  | cons p rest ih =>
    intro k s site placed pc inside
    obtain ⟨⟨other, nonzero⟩, written⟩ := List.forall_mem_cons.mp written
    simp only [slotsAt, List.map_cons, List.forall_mem_cons] at placed inside
    obtain ⟨here, placed⟩ := prefix_drop placed
    have move := site.lw here pc inside.1
    generalize loaded : s.setReg p.1 (view φ m (s.regs.get rs1 + p.2.signExtend 32)) = t at move
    have regs : t.regs.get = Function.update s.regs.get p.1
        (view φ m (s.regs.get rs1 + p.2.signExtend 32)) := by
      funext r
      rw [← loaded, setReg, RegisterFile.get_set, Function.update_apply]
      simp only [nonzero, ne_eq, not_false_eq_true, and_true]
    have kept : t.regs.get rs1 = s.regs.get rs1 := by
      rw [regs, Function.update_of_ne (Ne.symm other)]
    have site₁ : Site listing base data φ t.advancePC m := by
      rw [← loaded]
      exact site.next (.refl m) rfl rfl rfl
    have pc₁ : t.advancePC.pc = base + BitVec.ofNat 32 (4 * (k + 1)) := by
      rw [← loaded]
      exact advancePC_next pc
    rw [← kept] at inside
    obtain ⟨regs', reaches, value⟩ := ih written site₁ placed pc₁ inside.2
    refine ⟨regs', ?_, ?_⟩
    · have frame : { t.advancePC with
            pc := base + BitVec.ofNat 32 (4 * (k + 1 + rest.length)), regs := regs' } =
          { s with pc := base + BitVec.ofNat 32 (4 * (k + 1 + rest.length)), regs := regs' } := by
        rw [← loaded]
        rfl
      rw [frame] at reaches
      rw [List.length_cons, Nat.add_comm rest.length 1, ← Nat.add_assoc, Nat.add_comm 1]
      exact .next move reaches
    · rw [value]
      change Spill.load _ (slotsAt (t.regs.get rs1) rest) t.regs.get = _
      rw [kept, regs]
      rfl

end Site

def place (s : RVModel 32) (base : BitVec 32) (k : Nat) (regs : RegisterFile 32)
    (csr : CsrFile 32) : RVModel 32 :=
  { s with pc := base + BitVec.ofNat 32 (4 * k), regs := regs, csr := csr }

theorem place_next (s : RVModel 32) (base : BitVec 32) (k : Nat) (regs : RegisterFile 32)
    (csr : CsrFile 32) : place s base (k + 1) regs csr = (place s base k regs csr).advancePC := by
  have pc := advancePC_next (s := place s base k regs csr) (k := k) rfl
  unfold place at pc ⊢
  rw [← pc]
  rfl

namespace Site
variable {listing : List Asm} {base : BitVec 32} {data : Set (BitVec 32)}
  {φ : BitVec 32 → BitVec 32} {s : RVModel 32} {m : MemoryModel 32 Dev} {k : Nat}
  {regs : RegisterFile 32} {csr : CsrFile 32}

theorem place_addi (site : Site listing base data φ (place s base k regs csr) m)
    {rd rs1 : BitVec 5} {imm : BitVec 16} (here : listing[k]? = some (.addi rd rs1 imm)) :
    Moves (place s base k regs csr) m
      (place s base (k + 1) (regs.set rd (regs.get rs1 + imm.signExtend 32)) csr) m := by
  rw [place_next s base k]
  exact site.addi here rfl

theorem place_csrr (site : Site listing base data φ (place s base k regs csr) m) {rd : BitVec 5}
    {a : BitVec 12} (here : listing[k]? = some (.csrr rd a)) (machine : s.privMode = .M) :
    Moves (place s base k regs csr) m
      (place s base (k + 1) (regs.set rd (csr.read a)) csr) m := by
  rw [place_next s base k]
  exact site.csrr here rfl machine

theorem place_csrw (site : Site listing base data φ (place s base k regs csr) m) {rs1 : BitVec 5}
    {a : BitVec 12} (here : listing[k]? = some (.csrw a rs1)) (machine : s.privMode = .M) :
    Moves (place s base k regs csr) m
      (place s base (k + 1) regs (csr.write a (regs.get rs1))) m := by
  rw [place_next s base k]
  exact site.csrw here rfl machine

theorem place_sw (site : Site listing base data φ (place s base k regs csr) m)
    {rs2 rs1 : BitVec 5} {offset : BitVec 16} (here : listing[k]? = some (.sw rs2 offset rs1))
    (inside : regs.get rs1 + offset.signExtend 32 ∈ data) :
    ∃ m', Moves (place s base k regs csr) m (place s base (k + 1) regs csr) m' ∧
      AgreesOff (Set.image φ data) m m' ∧ ∀ va ∈ data, view φ m' va =
        Function.update (view φ m) (regs.get rs1 + offset.signExtend 32) (regs.get rs2) va := by
  rw [place_next s base k]
  exact site.sw here rfl inside

theorem place_branch (site : Site listing base data φ (place s base k regs csr) m) {i : Asm}
    {f : Funct3Branch} {rs1 rs2 : BitVec 5} {offset : BitVec 16} (here : listing[k]? = some i)
    (which : i = .beq rs1 rs2 offset ∧ f = .beq ∨ i = .bne rs1 rs2 offset ∧ f = .bne)
    (aligned : LowClear 2 base) {j : Nat}
    (forward : offset.signExtend 32 = BitVec.ofNat 32 (4 * j)) :
    Moves (place s base k regs csr) m
      (place s base (if branchTaken f (regs.get rs1) (regs.get rs2) then k + j else k + 1)
        regs csr) m := by
  have target : (place s base k regs csr).pc + offset.signExtend 32 =
      base + BitVec.ofNat 32 (4 * (k + j)) := by
    change base + BitVec.ofNat 32 (4 * k) + _ = _
    rw [forward, BitVec.add_assoc, ← BitVec.ofNat_add, ← Nat.mul_add]
  have clear : LowClear 2 (base + BitVec.ofNat 32 (4 * (k + j))) := by
    rw [lowClear_iff_mod] at aligned ⊢
    rw [BitVec.toNat_add, BitVec.toNat_ofNat]
    omega
  have move := site.branch here which rfl (by rw [target]; exact clear)
  rw [target] at move
  by_cases taken : branchTaken f (regs.get rs1) (regs.get rs2)
  · have taken' : branchTaken f ((place s base k regs csr).regs.get rs1)
        ((place s base k regs csr).regs.get rs2) = true := taken
    rw [if_pos taken'] at move
    rw [if_pos taken]
    exact move
  · have passed : ¬branchTaken f ((place s base k regs csr).regs.get rs1)
        ((place s base k regs csr).regs.get rs2) = true := taken
    rw [if_neg passed] at move
    rw [if_neg taken, place_next s base k]
    exact move

end Site

end XorOS.RVModel
