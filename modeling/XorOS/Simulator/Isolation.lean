import XorOS.Library.Runs
import XorOS.Simulator.MemoryEffects
import XorOS.Simulator.Privilege

/- User-mode programs change memory only where a leaf with PTE.U maps it, and as long as the
   page tables are out of their reach they cannot move that boundary. -/
namespace XorOS.RVModel
open ISA Bits MemoryModel Runs
variable {Dev : Type}

def pageOf (a : BitVec 32) : Nat := a.toNat / 4096

/-- A page that the walk reaches through a valid leaf PTE with U = 1. -/
def UserPage (s : RVModel 32) (m : MemoryModel 32 Dev) (page : Nat) : Prop :=
  ∃ va lvl pte pa, s.leaf va m = some (lvl, pte) ∧ pte.getLsbD 0 = true ∧
    pte.getLsbD 4 = true ∧ leafAddr .U va lvl pte = some pa ∧ pageOf pa = page

/-- A page that holds the root table or a table that a root entry points to. -/
def TablePage (s : RVModel 32) (m : MemoryModel 32 Dev) (page : Nat) : Prop :=
  page = pageOf (rootTable (s.csr.read CSR.SATP)) ∨
    ∃ va raw, m.readWord (rootTable (s.csr.read CSR.SATP) ||| (vpn va 1 <<< 2)) = .ok raw ∧
      raw.getLsbD 0 = true ∧ raw &&& 0xA#32 = 0#32 ∧ page = pageOf ((raw >>> 10) <<< 12)

structure Untouched (m m' : MemoryModel 32 Dev) : Prop where
  layout : m'.layout = m.layout
  data : m'.data = m.data
  dev : m'.dev = m.dev

/-- Only bytes and MMIO registers of one page have been written. -/
structure ChangedWithin (page : Nat) (m m' : MemoryModel 32 Dev) : Prop where
  layout : m'.layout = m.layout
  data : ∀ i, i / 4096 ≠ page → m'.data i = m.data i
  dev : m'.dev = m.dev ∨ ∃ pa r a v, pageOf pa = page ∧ m.findMmio pa = some r ∧
    pageOf a = page ∧ m'.dev = r.onWrite a v m.dev

theorem Untouched.changedWithin {m m' : MemoryModel 32 Dev} (h : Untouched m m') (page : Nat) :
    ChangedWithin page m m' :=
  ⟨h.layout, fun i _ => congrFun h.data i, Or.inl h.dev⟩

theorem ChangedWithin.of_untouched {page : Nat} {m₀ m m' m₁ : MemoryModel 32 Dev}
    (before : Untouched m₀ m) (h : ChangedWithin page m m') (after : Untouched m' m₁) :
    ChangedWithin page m₀ m₁ where
  layout := (after.layout.trans h.layout).trans before.layout
  data i other := by rw [after.data, h.data i other, before.data]
  dev := by
    rw [after.dev, ← before.dev]
    rcases h.dev with same | ⟨pa, r, a, v, here, mapped, there, wrote⟩
    · exact Or.inl same
    · refine Or.inr ⟨pa, r, a, v, here, ?_, there, wrote⟩
      rw [← mapped]
      rw [findMmio_of_layout before.layout]

theorem pageOf_block (a : BitVec 32) : pageOf (a &&& ~~~3#32) = pageOf a := by
  have eq : (a &&& ~~~3#32).toNat = a.toNat - a.toNat % 4 := block_toNat a
  unfold pageOf
  rw [eq]
  omega

theorem setByte_within (m : MemoryModel 32 Dev) (a : BitVec 32) (v : ByteT) {page : Nat}
    (here : pageOf a = page) {i : Nat} (other : i / 4096 ≠ page) :
    (m.setByte a v).data i = m.data i := by
  have ne : i ≠ a.toNat := by
    rintro rfl
    exact other here
  exact if_neg ne

theorem writeByte_within (m : MemoryModel 32 Dev) (a : BitVec 32) (v : ByteT) :
    ChangedWithin (pageOf a) m (m.writeByte a v).2 := by
  refine ⟨writeByte_layout m a v, ?_, ?_⟩
  · intro i other
    unfold writeByte
    split
    · rfl
    split
    · rfl
    · exact setByte_within m a v rfl other
  · unfold writeByte
    split
    · rename_i r mapped
      exact Or.inr ⟨a, r, _, _, rfl, mapped, pageOf_block a, rfl⟩
    split
    · exact Or.inl rfl
    · exact Or.inl rfl

theorem writeHalf_within (m : MemoryModel 32 Dev) {a : BitVec 32} (even : LowClear 1 a)
    (v : HalfT) : ChangedWithin (pageOf a) m (m.writeHalf a v).2 := by
  have par : a.toNat % 2 = 0 := (lowClear_iff_mod 1 a).mp even
  have next : pageOf (a + 1#32) = pageOf a := by
    have bound := a.isLt
    unfold pageOf
    rw [BitVec.toNat_add, show (1#32).toNat = 1 from rfl]
    omega
  refine ⟨writeHalf_layout m a v, ?_, ?_⟩
  · intro i other
    unfold writeHalf
    split
    · rfl
    split
    · rfl
    · simp only
      rw [setByte_within _ _ _ next other, setByte_within _ _ _ rfl other]
  · unfold writeHalf
    split
    · rename_i r mapped
      exact Or.inr ⟨a, r, _, _, rfl, mapped, pageOf_block a, rfl⟩
    split
    · exact Or.inl rfl
    · exact Or.inl rfl

theorem pageOf_add {a : BitVec 32} (aligned : LowClear 2 a) {i : Nat} (small : i < 4) :
    pageOf (a + BitVec.ofNat 32 i) = pageOf a := by
  have mod := clear_mod aligned
  unfold pageOf
  rw [toNat_add_small aligned small]
  omega

theorem writeWord_within (m : MemoryModel 32 Dev) {a : BitVec 32} (aligned : LowClear 2 a)
    (v : WordT) : ChangedWithin (pageOf a) m (m.writeWord a v).2 := by
  refine ⟨writeWord_layout m a v, ?_, ?_⟩
  · intro i other
    unfold writeWord
    split
    · rfl
    split
    · rfl
    · simp only
      rw [setByte_within _ _ _ (pageOf_add aligned (i := 3) (by omega)) other,
        setByte_within _ _ _ (pageOf_add aligned (i := 2) (by omega)) other,
        setByte_within _ _ _ (pageOf_add aligned (i := 1) (by omega)) other,
        setByte_within _ _ _ rfl other]
  · unfold writeWord
    split
    · rename_i r mapped
      exact Or.inr ⟨a, r, a, _, rfl, mapped, rfl, rfl⟩
    split
    · exact Or.inl rfl
    · exact Or.inl rfl

theorem storeConditional_within (m : MemoryModel 32 Dev) {a : BitVec 32}
    (aligned : LowClear 2 a) (v : WordT) :
    ChangedWithin (pageOf a) m (m.storeConditional a v).2 := by
  unfold storeConditional
  split
  · exact Untouched.changedWithin ⟨rfl, rfl, rfl⟩ _
  · have cleared : Untouched m { m with lrValid := false } := ⟨rfl, rfl, rfl⟩
    have wrote := writeWord_within { m with lrValid := false } aligned v
    split
    · rename_i eq
      rw [eq] at wrote
      exact .of_untouched cleared wrote ⟨rfl, rfl, rfl⟩
    · rename_i eq
      rw [eq] at wrote
      exact .of_untouched cleared wrote ⟨rfl, rfl, rfl⟩

theorem storeConditional_error {m m' : MemoryModel 32 Dev} {a : BitVec 32} {v : WordT}
    {e : OutOfRange} (threw : m.storeConditional a v = (.error e, m')) : Untouched m m' := by
  unfold storeConditional at threw
  split at threw
  · simp at threw
  · split at threw
    · rename_i wrote
      simp only [Prod.mk.injEq] at threw
      rw [← threw.2, writeWord_error wrote]
      exact ⟨rfl, rfl, rfl⟩
    · simp at threw

theorem storeValue_within {f : Funct3Store} {pa : BitVec 32} (data : BitVec 32)
    (m : MemoryModel 32 Dev) (aligned : StoreAligned f pa) :
    ChangedWithin (pageOf pa) m (storeValue f pa data m).2 := by
  cases f with
  | sb => exact writeByte_within m pa _
  | sh => exact writeHalf_within m aligned _
  | sw => exact writeWord_within m aligned _

theorem executeInstr_writes (s : RVModel 32) (d : DecodedInstr 32) (m : MemoryModel 32 Dev) :
    Untouched m (s.executeInstr d m).2.2 ∨
      ∃ va pa, StoreTo s va m pa ∧ ChangedWithin (pageOf pa) m (s.executeInstr d m).2.2 := by
  by_cases store : Opcode.ofBits? d.opcode = some .store
  · have outcome := executeStore_outcome s d m
    have mem : (s.executeInstr d m).2.2 = (s.executeStore d m).2.2 := by
      unfold executeInstr
      rw [store]
    rw [mem]
    generalize s.executeStore d m = r at outcome ⊢
    cases outcome with
    | trap cause tval => exact Or.inl ⟨rfl, rfl, rfl⟩
    | stored f va pa data m' translated aligned done =>
      refine Or.inr ⟨va, pa, translated, ?_⟩
      have wrote := storeValue_within data m aligned
      rw [done] at wrote
      exact .of_untouched ⟨rfl, rfl, rfl⟩ wrote ⟨rfl, rfl, rfl⟩
  by_cases amo : Opcode.ofBits? d.opcode = some .amo
  · have outcome := executeAMO_outcome s d m
    have mem : (s.executeInstr d m).2.2 = (s.executeAMO d m).2.2 := by
      unfold executeInstr
      rw [amo]
      rfl
    rw [mem]
    generalize s.executeAMO d m = r at outcome ⊢
    cases outcome with
    | trap cause tval => exact Or.inl ⟨rfl, rfl, rfl⟩
    | unreadable e => exact Or.inl ⟨rfl, rfl, rfl⟩
    | lr pa w translated aligned which read => exact Or.inl ⟨rfl, rfl, rfl⟩
    | sc pa ok m' translated aligned which done =>
      have wrote := storeConditional_within m aligned (s.regs.get d.rs2)
      rw [done] at wrote
      exact Or.inr ⟨_, pa, translated, wrote⟩
    | scThrows pa e m' threw => exact Or.inl (storeConditional_error threw)
    | rmw pa w result m' translated aligned which done =>
      have wrote := writeWord_within m.invalidateReservation aligned result
      rw [done] at wrote
      have cleared : Untouched m m.invalidateReservation := ⟨rfl, rfl, rfl⟩
      exact Or.inr ⟨_, pa, translated, .of_untouched cleared wrote ⟨rfl, rfl, rfl⟩⟩
  · rw [executeInstr_mem store amo]
    exact Or.inl ⟨rfl, rfl, rfl⟩

/-- One step() changes nothing, or only the page of an address that a store translated to. -/
theorem step_writes (s : RVModel 32) (m : MemoryModel 32 Dev) :
    Untouched m (s.step m).2.2 ∨
      ∃ va pa, StoreTo s va m pa ∧ ChangedWithin (pageOf pa) m (s.step m).2.2 := by
  cases word : s.fetched m with
  | none =>
    rw [step_mem_of_not_fetched word]
    exact Or.inl ⟨rfl, rfl, rfl⟩
  | some raw =>
    rw [step_eq_executeWord word, executeWord_mem]
    rcases executeInstr_writes (s.callStepHook (Disasm.disassemble (Decoder.decode 32 raw)))
      (Decoder.decode 32 raw) m with same | ⟨va, pa, translated, changed⟩
    · exact Or.inl same
    · exact Or.inr ⟨va, pa, storeTo_callStepHook translated, changed⟩

theorem walkLeaf_found {va a : BitVec 32} {m : MemoryModel 32 Dev} {lvl : Nat}
    {l : Nat × BitVec 32} (found : (walkLeaf va lvl a m).1 = some l) :
    ∃ raw, m.readWord (a ||| vpn va lvl <<< 2) = .ok raw ∧ ¬raw &&& 1#32 = 0#32 ∧
      (l = (lvl, raw) ∨ ∃ lower, lvl = lower + 1 ∧
        (walkLeaf va lower ((raw >>> 10) <<< 12) m).1 = some l) := by
  unfold walkLeaf at found
  rw [memT_readWord] at found
  cases read : m.readWord (a ||| vpn va lvl <<< 2) with
  | error e => simp [read] at found
  | ok raw =>
    simp only [read, BitVec.setWidth_eq] at found
    split at found
    · simp at found
    rename_i set
    refine ⟨raw, rfl, set, ?_⟩
    split at found
    · exact Or.inl (by simpa using found.symm)
    · cases lvl with
      | zero => simp at found
      | succ lower => exact Or.inr ⟨lower, rfl, found⟩

theorem walkLeaf_valid (va : BitVec 32) (m : MemoryModel 32 Dev) :
    ∀ (lvl : Nat) (a : BitVec 32) {l : Nat × BitVec 32},
      (walkLeaf va lvl a m).1 = some l → l.2.getLsbD 0 = true := by
  intro lvl
  induction lvl with
  | zero =>
    intro a l found
    obtain ⟨raw, -, set, rfl | ⟨lower, top, -⟩⟩ := walkLeaf_found found
    · exact valid_bit set
    · omega
  | succ lvl ih =>
    intro a l found
    obtain ⟨raw, -, set, rfl | ⟨lower, top, below⟩⟩ := walkLeaf_found found
    · exact valid_bit set
    · obtain rfl : lower = lvl := by omega
      exact ih _ below

/-- In U-mode, under paging, a store goes to a page mapped with U = 1. -/
theorem userPage_of_storeTo {s : RVModel 32} (user : s.privMode = .U) (paging : s.Paging)
    {va pa : BitVec 32} {m : MemoryModel 32 Dev} (translated : StoreTo s va m pa) :
    UserPage s m (pageOf pa) := by
  unfold StoreTo at translated
  rw [translateAddr_paging paging, user] at translated
  cases walk : s.leaf va m with
  | none => simp [walk] at translated
  | some l =>
    simp only [walk, Option.bind_some] at translated
    cases found : leafAddr .U va l.1 l.2 with
    | none => simp [found] at translated
    | some pa' =>
      simp only [found, Option.some.injEq] at translated
      subst translated
      have accepted := (leafAddr_ne_none_iff .U va l.1 l.2).mp (by simp [found])
      have bit := accepted.2 rfl
      rw [show (1#32 <<< 4) = BitVec.ofNat 32 (2 ^ 4) from rfl, Ne, and_bit_eq_zero_iff] at bit
      exact ⟨va, l.1, l.2, pa', walk, walkLeaf_valid va m 1 _ walk, by simpa using bit, found, rfl⟩

/-- A processor that user code is running on: U-mode, MPP = U, paging on. -/
structure RunsUser (s : RVModel 32) : Prop where
  priv : s.privMode = .U
  mppUser : mpp (s.csr.regs CSR.MSTATUS) = .U
  paging : s.Paging

theorem user_priv {p : PrivMode} (allowed : ¬PrivMode.U < p) : p = .U := by
  revert p
  decide

theorem satp_effect {s s' : RVModel 32} {m : MemoryModel 32 Dev} (user : s.privMode = .U)
    (effect : StepEffect s m s') : s'.csr.regs CSR.SATP = s.csr.regs CSR.SATP := by
  cases effect with
  | trap cause tval same =>
    obtain ⟨_, _, ⟨csr, _⟩ | ⟨csr, _⟩⟩ := trap_cases same
    · rw [csr]
    · rw [csr, regs_trapCsr]
      rfl
  | mret raw word instr same => rw [csr_of_arch same, regs_executeMRET, if_neg (by decide)]
  | csrAccess f addr rs1 v allowed csr priv count =>
    rw [user] at allowed
    have level := user_priv allowed
    rw [csr]
    apply csrOp_regs_ne
    rintro rfl
    revert level
    decide
  | quiet same => rw [same.csr]

theorem read_satp (c : CsrFile 32) : c.read CSR.SATP = c.regs CSR.SATP := rfl

theorem runsUser_effect {s s' : RVModel 32} {m : MemoryModel 32 Dev} (h : RunsUser s)
    (effect : StepEffect s m s') (noTrap : s'.trapCount = s.trapCount) : RunsUser s' := by
  have satp := satp_effect h.priv effect
  have below : s.privMode ≠ .M := by
    rw [h.priv]
    decide
  have paging : s'.Paging := by
    have on := h.paging
    unfold Paging at on ⊢
    rw [read_satp] at on ⊢
    rw [satp]
    exact on
  have priv : s'.privMode = .U := by
    cases effect with
    | trap cause tval same =>
      have count := (trap_cases same).1
      omega
    | mret raw word instr same => exact (privMode_of_arch same).trans h.mppUser
    | csrAccess f addr rs1 v allowed csr priv count => exact priv.trans h.priv
    | quiet same => exact same.privMode.trans h.priv
  have kept : MppUser s := fun _ => h.mppUser
  exact ⟨priv, mppUser_effect kept effect (by rw [priv]; decide), paging⟩

theorem getLsbD_vpn (va : BitVec 32) (lvl : Nat) {i : Nat} (high : 10 ≤ i) :
    (vpn va lvl).getLsbD i = false := by
  have mask : (0x3FF#32).getLsbD i = false := by
    have table := getLsbD_mask (w := 32) 10 i (by omega)
    rw [show BitVec.ofNat 32 (2 ^ 10 - 1) = 0x3FF#32 from rfl] at table
    rw [table]
    exact decide_eq_false (by omega)
  unfold vpn
  split
  · rw [BitVec.getLsbD_and, mask, Bool.and_false]
  · rw [BitVec.getLsbD_and, mask, Bool.and_false]

theorem pageOf_eq (a : BitVec 32) : pageOf a = (a >>> 12).toNat := by
  rw [BitVec.toNat_ushiftRight, Nat.shiftRight_eq_div_pow]
  rfl

theorem pageOf_entry (table va : BitVec 32) (lvl : Nat) :
    pageOf (table ||| (vpn va lvl <<< 2)) = pageOf table := by
  rw [pageOf_eq, pageOf_eq]
  congr 1
  apply BitVec.eq_of_getLsbD_eq
  intro i hi
  rw [BitVec.getLsbD_ushiftRight, BitVec.getLsbD_ushiftRight, BitVec.getLsbD_or,
    BitVec.getLsbD_shiftLeft, getLsbD_vpn va lvl (by omega), Bool.and_false, Bool.or_false]

theorem readWord_congr {m m' : MemoryModel 32 Dev} (layout : m'.layout = m.layout)
    {a : BitVec 32} (aligned : LowClear 2 a) (ram : m.findMmio a = none)
    (data : ∀ i, i / 4096 = pageOf a → m'.data i = m.data i) : m'.readWord a = m.readWord a := by
  have size : m'.size = m.size := congrArg Prod.fst layout
  have ram' : m'.findMmio a = none := (findMmio_of_layout layout a).trans ram
  have word : m'.wordAt a = m.wordAt a := by
    apply leWord_congr
    intro i small
    exact data _ (pageOf_add aligned small)
  rw [readWord_ram m ram, readWord_ram m' ram', size, word]

/-- The pages of the tables are RAM, and m' holds there what m holds. -/
structure TablesKept (s : RVModel 32) (m m' : MemoryModel 32 Dev) : Prop where
  layout : m'.layout = m.layout
  ram : ∀ a, TablePage s m (pageOf a) → m.findMmio a = none
  data : ∀ i, TablePage s m (i / 4096) → m'.data i = m.data i

theorem TablesKept.entry {s : RVModel 32} {m m' : MemoryModel 32 Dev} (h : TablesKept s m m')
    {table : BitVec 32} (clear : LowClear 2 table) (here : TablePage s m (pageOf table))
    (va : BitVec 32) (lvl : Nat) :
    m'.readWord (table ||| (vpn va lvl <<< 2)) = m.readWord (table ||| (vpn va lvl <<< 2)) := by
  have page := pageOf_entry table va lvl
  apply readWord_congr h.layout (entry_clear clear va lvl)
  · apply h.ram
    rw [page]
    exact here
  · intro i same
    apply h.data
    rw [same, page]
    exact here

/-- The walk reads nothing but the tables. -/
theorem TablesKept.leaf {s s' : RVModel 32} {m m' : MemoryModel 32 Dev} (h : TablesKept s m m')
    (satp : s'.csr.regs CSR.SATP = s.csr.regs CSR.SATP) (va : BitVec 32) :
    s'.leaf va m' = s.leaf va m := by
  have root := h.entry (rootTable_clear _) (Or.inl rfl) va 1
  unfold RVModel.leaf
  rw [read_satp, read_satp, satp, ← read_satp]
  unfold walkLeaf
  rw [memT_readWord, memT_readWord, root]
  cases read : m.readWord (rootTable (s.csr.read CSR.SATP) ||| (vpn va 1 <<< 2)) with
  | error e => rfl
  | ok raw =>
    simp only [BitVec.setWidth_eq]
    by_cases valid : raw &&& 1#32 = 0#32
    · rw [if_pos valid, if_pos valid]
    rw [if_neg valid, if_neg valid]
    by_cases isLeaf : raw &&& 0xA#32 ≠ 0#32
    · rw [if_pos isLeaf, if_pos isLeaf]
    rw [if_neg isLeaf, if_neg isLeaf]
    have here : TablePage s m (pageOf ((raw >>> 10) <<< 12)) :=
      Or.inr ⟨va, raw, read, valid_bit valid, not_not.mp isLeaf, rfl⟩
    have entry := h.entry (lowClear_shiftLeft (raw >>> 10) (by omega)) here va 0
    unfold walkLeaf
    rw [memT_readWord, memT_readWord, entry]
    cases m.readWord ((raw >>> 10) <<< 12 ||| (vpn va 0 <<< 2)) with
    | error e => rfl
    | ok raw =>
      simp only
      split
      · rfl
      split
      · rfl
      · rfl

theorem TablesKept.userPage {s s' : RVModel 32} {m m' : MemoryModel 32 Dev}
    (h : TablesKept s m m') (satp : s'.csr.regs CSR.SATP = s.csr.regs CSR.SATP) {page : Nat}
    (user : UserPage s' m' page) : UserPage s m page := by
  obtain ⟨va, lvl, pte, pa, walk, valid, bit, found, here⟩ := user
  rw [h.leaf satp] at walk
  exact ⟨va, lvl, pte, pa, walk, valid, bit, found, here⟩

/-- Runs of step() from (s₀, m₀) in which no step has trapped, halted or thrown yet. -/
def userRuns (s₀ : RVModel 32) (m₀ : MemoryModel 32 Dev) :
    System (RVModel 32 × MemoryModel 32 Dev) Unit where
  init p := p = (s₀, m₀)
  step p _ q := p.1.step p.2 = (.ok (), q) ∧ q.1.trapCount = p.1.trapCount ∧ q.1.halted = false

theorem step_writes_user {s : RVModel 32} (user : RunsUser s) (m : MemoryModel 32 Dev) :
    Untouched m (s.step m).2.2 ∨
      ∃ page, UserPage s m page ∧ ChangedWithin page m (s.step m).2.2 := by
  rcases step_writes s m with same | ⟨va, pa, translated, changed⟩
  · exact Or.inl same
  · exact Or.inr ⟨_, userPage_of_storeTo user.priv user.paging translated, changed⟩

/-- No page-table page is mapped with U = 1, and none is in an MMIO region. -/
def TablesProtected (s : RVModel 32) (m : MemoryModel 32 Dev) : Prop :=
  ∀ page, TablePage s m page →
    ¬UserPage s m page ∧ ∀ a, pageOf a = page → m.findMmio a = none

/-- The memory as seen from outside the pages that user code may write. -/
structure OutsideKept (s₀ : RVModel 32) (m₀ : MemoryModel 32 Dev) (s : RVModel 32)
    (m : MemoryModel 32 Dev) : Prop where
  layout : m.layout = m₀.layout
  satp : s.csr.regs CSR.SATP = s₀.csr.regs CSR.SATP
  data : ∀ i, ¬UserPage s₀ m₀ (i / 4096) → m.data i = m₀.data i

theorem OutsideKept.tables {s₀ s : RVModel 32} {m₀ m : MemoryModel 32 Dev}
    (h : OutsideKept s₀ m₀ s m) (safe : TablesProtected s₀ m₀) : TablesKept s₀ m₀ m where
  layout := h.layout
  ram a here := (safe _ here).2 a rfl
  data i here := h.data i (safe _ here).1

theorem outsideKept_step {s₀ s : RVModel 32} {m₀ m : MemoryModel 32 Dev}
    (safe : TablesProtected s₀ m₀) (user : RunsUser s) (h : OutsideKept s₀ m₀ s m) :
    OutsideKept s₀ m₀ (s.step m).2.1 (s.step m).2.2 := by
  have satp := (satp_effect user.priv (step_effect s m)).trans h.satp
  rcases step_writes_user user m with same | ⟨page, mapped, changed⟩
  · refine ⟨same.layout.trans h.layout, satp, fun i outside => ?_⟩
    rw [same.data, h.data i outside]
  · have mapped₀ := (h.tables safe).userPage h.satp mapped
    refine ⟨changed.layout.trans h.layout, satp, fun i outside => ?_⟩
    have other : i / 4096 ≠ page := by
      rintro rfl
      exact outside mapped₀
    rw [changed.data i other, h.data i outside]

/-- User code: from U-mode with MPP = U and paging on, each step up to and including the first
    that traps, halts or throws writes only inside a page mapped with U = 1; and if the
    page tables are RAM outside these pages, then over the whole run satp and every byte
    outside the pages that were mapped with U = 1 at its start are unchanged, and so are
    the devices but for registers in these pages. -/
theorem user_isolation {s₀ : RVModel 32} (start : RunsUser s₀) (m₀ : MemoryModel 32 Dev)
    {p : RVModel 32 × MemoryModel 32 Dev} (reached : (userRuns s₀ m₀).Reachable p) :
    (Untouched p.2 (p.1.step p.2).2.2 ∨
      ∃ page, UserPage p.1 p.2 page ∧ ChangedWithin page p.2 (p.1.step p.2).2.2) ∧
    (TablesProtected s₀ m₀ →
      (p.1.step p.2).2.1.csr.read CSR.SATP = s₀.csr.read CSR.SATP ∧
      (∀ i, ¬UserPage s₀ m₀ (i / 4096) → (p.1.step p.2).2.2.data i = m₀.data i) ∧
      (Untouched p.2 (p.1.step p.2).2.2 ∨
        ∃ page, UserPage s₀ m₀ page ∧ ChangedWithin page p.2 (p.1.step p.2).2.2)) := by
  have user : RunsUser p.1 := by
    refine reached.invariant (fun p => RunsUser p.1) ?_ ?_
    · rintro _ rfl
      exact start
    · rintro p _ q user ⟨step, noTrap, _⟩
      have effect := step_effect p.1 p.2
      rw [step] at effect
      exact runsUser_effect user effect noTrap
  have writes := step_writes_user user p.2
  refine ⟨writes, fun safe => ?_⟩
  have kept : RunsUser p.1 ∧ OutsideKept s₀ m₀ p.1 p.2 := by
    refine reached.invariant (fun p => RunsUser p.1 ∧ OutsideKept s₀ m₀ p.1 p.2) ?_ ?_
    · rintro _ rfl
      exact ⟨start, rfl, rfl, fun _ _ => rfl⟩
    · rintro p _ q ⟨user, kept⟩ ⟨step, noTrap, _⟩
      have effect := step_effect p.1 p.2
      have next := outsideKept_step safe user kept
      rw [step] at effect next
      exact ⟨runsUser_effect user effect noTrap, next⟩
  have next := outsideKept_step safe user kept.2
  refine ⟨next.satp, next.data, ?_⟩
  rcases writes with same | ⟨page, mapped, changed⟩
  · exact Or.inl same
  · exact Or.inr ⟨page, (kept.2.tables safe).userPage kept.2.satp mapped, changed⟩

def userCpu : RVModel 32 :=
  { RVModel.new ⟨0#32⟩ with
    privMode := .U
    csr := (CsrFile.new.put CSR.SATP 0x80000800#32).put CSR.MTVEC 0x4#32
    regs := (RegisterFile.new.set 1#5 0x2000#32).set 2#5 0xFF#32 }

theorem userCpu_runsUser : RunsUser userCpu := ⟨rfl, by decide, by decide⟩

/-- Every root entry is the superpage 0x1F: U, X, W, R and V, at physical address 0. -/
def AllSuperpage (m : MemoryModel 32 Dev) : Prop :=
  ∀ a, pageOf a = 0x800 → LowClear 2 a → m.readWord a = .ok 0x1F#32

theorem leaf_superpage {m : MemoryModel 32 Dev} (tables : AllSuperpage m) (va : BitVec 32) :
    userCpu.leaf va m = some (1, 0x1F#32) := by
  have page : pageOf (rootTable (userCpu.csr.read CSR.SATP) ||| (vpn va 1 <<< 2)) = 0x800 := by
    rw [pageOf_entry]
    rfl
  have entry := tables _ page (entry_clear (rootTable_clear _) va 1)
  unfold leaf walkLeaf
  rw [memT_readWord, entry]
  rfl

theorem userPage_superpage {m : MemoryModel 32 Dev} (tables : AllSuperpage m) {page : Nat}
    (user : UserPage userCpu m page) : page < 1024 := by
  obtain ⟨va, lvl, pte, pa, walk, _, _, found, rfl⟩ := user
  rw [leaf_superpage tables] at walk
  simp only [Option.some.injEq, Prod.mk.injEq] at walk
  obtain ⟨rfl, rfl⟩ := walk
  have address : pa = (vpn va 0 <<< 12) ||| (va &&& 0xFFF#32) := by
    unfold leafAddr at found
    rw [if_neg (by decide), if_neg (by decide), if_pos rfl] at found
    simp only [Option.some.injEq] at found
    rw [← found]
    simp
  have high : pa >>> 22 = 0#32 := by
    apply BitVec.eq_of_getLsbD_eq
    intro i hi
    have mask : (0xFFF#32).getLsbD (22 + i) = false := by
      have table := getLsbD_mask (w := 32) 12 (22 + i) (by omega)
      rw [show BitVec.ofNat 32 (2 ^ 12 - 1) = 0xFFF#32 from rfl] at table
      rw [table]
      exact decide_eq_false (by omega)
    rw [address, BitVec.getLsbD_ushiftRight, BitVec.getLsbD_or, BitVec.getLsbD_shiftLeft,
      BitVec.getLsbD_and, getLsbD_vpn va 0 (by omega), mask]
    simp
  have small := congrArg BitVec.toNat high
  rw [BitVec.toNat_ushiftRight, Nat.shiftRight_eq_div_pow, BitVec.toNat_ofNat] at small
  unfold pageOf
  omega

theorem tablePage_superpage {m : MemoryModel 32 Dev} (tables : AllSuperpage m) {page : Nat}
    (table : TablePage userCpu m page) : page = 0x800 := by
  rcases table with rfl | ⟨va, raw, read, _, pointer, _⟩
  · rfl
  · have page : pageOf (rootTable (userCpu.csr.read CSR.SATP) ||| (vpn va 1 <<< 2)) = 0x800 := by
      rw [pageOf_entry]
      rfl
    rw [tables _ page (entry_clear (rootTable_clear _) va 1)] at read
    simp only [Except.ok.injEq] at read
    rw [← read] at pointer
    exact absurd pointer (by decide)

/-- The root table is a device that follows a register at 0x2000: once the register has been
    written, the entries map the superpage at 0x400000 instead. -/
def deviceTables : MemoryModel 32 Bool :=
  let mem : MemoryModel 32 Bool :=
    { MemoryModel.new 0x800000 false with
      data := fun i =>
        if i < 4 then (0x0020A023#32 >>> (8 * i)).setWidth 8
        else if 0x400004 ≤ i ∧ i < 0x400008 then
          (0x10200023#32 >>> (8 * (i - 0x400004))).setWidth 8
        else 0#8 }
  (mem.mapMmio 0x800000#32 0x1000#32 (fun _ d => if d then 0x0010001F#32 else 0x1F#32)
    fun _ _ d => d).mapMmio 0x2000#32 4#32 (fun _ _ => 0#32) fun _ _ _ => true

theorem deviceTables_superpage : AllSuperpage deviceTables := by
  intro a page _
  have bound : 0x800000 ≤ a.toNat ∧ a.toNat < 0x801000 := by
    unfold pageOf at page
    omega
  unfold readWord findMmio
  have found : deviceTables.mmio.find? (fun r => decide (r.base ≤ a ∧ a < r.endAddr)) =
      some ⟨0x800000#32, 0x801000#32, fun _ d => if d then 0x0010001F#32 else 0x1F#32,
        fun _ _ d => d⟩ := by
    have inside : 0x800000#32 ≤ a ∧ a < 0x801000#32 := by
      simp only [BitVec.le_def, BitVec.lt_def, BitVec.toNat_ofNat]
      omega
    exact List.find?_cons_of_pos (by simpa using inside)
  rw [found]
  rfl

/-- sw x2, 0(x1) at 0 and, seen at 4 after it, sb x2, 0x100(x0): the second store writes to
    0x400100, which no U-mapped page held at the start. -/
theorem device_tables_break_isolation :
    RunsUser userCpu ∧ userCpu.csr.getMTVEC ≠ 0#32 ∧
      (∀ page, TablePage userCpu deviceTables page → ¬UserPage userCpu deviceTables page) ∧
      ∃ p, (userRuns userCpu deviceTables).Reachable p ∧
        ¬UserPage userCpu deviceTables (0x400100 / 4096) ∧
        (p.1.step p.2).2.2.data 0x400100 ≠ deviceTables.data 0x400100 := by
  have start : (userRuns userCpu deviceTables).Reachable (userCpu, deviceTables) :=
    System.Reachable.of_init rfl
  refine ⟨userCpu_runsUser, by decide, ?_, (userCpu.step deviceTables).2, ?_, ?_, ?_⟩
  · intro page table user
    have low := userPage_superpage deviceTables_superpage user
    rw [tablePage_superpage deviceTables_superpage table] at low
    omega
  · exact start.next (a := ()) ⟨Prod.ext (by decide) rfl, by decide, by decide⟩
  · intro user
    have low := userPage_superpage deviceTables_superpage user
    omega
  · decide

def ramTables : MemoryModel 32 Unit :=
  { MemoryModel.new 0x801000 () with
    data := fun i =>
      if i < 4 then (0x0020A023#32 >>> (8 * i)).setWidth 8
      else if 0x800000 ≤ i ∧ i % 4 = 0 then 0x1F#8 else 0#8 }

theorem ramTables_superpage : AllSuperpage ramTables := by
  intro a page aligned
  have mod := clear_mod aligned
  have bound : 0x800000 ≤ a.toNat ∧ a.toNat < 0x801000 := by
    unfold pageOf at page
    omega
  have word : ramTables.wordAt a = leWord fun i => if i = 0 then 0x1F#8 else 0#8 := by
    apply leWord_congr
    intro i small
    unfold byteAt ramTables
    simp only [toNat_add_small aligned small]
    rw [if_neg (by omega)]
    by_cases first : i = 0
    · rw [if_pos (by omega), if_pos first]
    · rw [if_neg (by omega), if_neg first]
  have inside : a.toNat + 4 ≤ ramTables.size := by
    change a.toNat + 4 ≤ 0x801000
    omega
  rw [readWord_ram _ (findMmio_empty _ rfl a), if_pos inside, word]
  rfl

/-- sw x2, 0(x1) again; the table entry at 0x800100 is out of its reach. -/
theorem user_isolation_ram :
    (userCpu.step ramTables).2.2.data 0x2000 = 0xFF#8 ∧
      (userCpu.step ramTables).2.2.data 0x800100 = ramTables.data 0x800100 := by
  have start : (userRuns userCpu ramTables).Reachable (userCpu, ramTables) :=
    System.Reachable.of_init rfl
  have safe : TablesProtected userCpu ramTables := by
    intro page table
    refine ⟨fun user => ?_, fun a _ => findMmio_empty _ rfl a⟩
    have low := userPage_superpage ramTables_superpage user
    rw [tablePage_superpage ramTables_superpage table] at low
    omega
  refine ⟨by decide, ((user_isolation userCpu_runsUser ramTables start).2 safe).2.1 0x800100 ?_⟩
  intro user
  have low := userPage_superpage ramTables_superpage user
  omega

end XorOS.RVModel
