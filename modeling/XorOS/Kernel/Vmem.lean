import Mathlib.Data.List.ReduceOption
import XorOS.Library.Runs
import XorOS.Simulator.Isolation

/- vmem.c builds Sv32 tables with one root entry; translateAddr walks them. -/
namespace XorOS.Kernel
open ISA Bits MemoryModel RVModel Runs
variable {Dev : Type}

def PTE_V : WordT := 1#32 <<< 0
def PTE_R : WordT := 1#32 <<< 1
def PTE_W : WordT := 1#32 <<< 2
def PTE_X : WordT := 1#32 <<< 3
def PTE_U : WordT := 1#32 <<< 4

/-- Where the linker puts root_pt (one word) and l0_pt (1024 words): aligned(4096), disjoint. -/
structure PageTables where
  rootPt : BitVec 32
  l0Pt : BitVec 32
  rootAligned : LowClear 12 rootPt
  l0Aligned : LowClear 12 l0Pt
  disjoint : rootPt ≠ l0Pt

def PageTables.l0Entry (pt : PageTables) (i : BitVec 32) : BitVec 32 := pt.l0Pt + (i <<< 2)

def store (m : MemoryModel 32 Dev) (addr : BitVec 32) (val : WordT) :
    Except OutOfRange (MemoryModel 32 Dev) :=
  match m.writeWord addr val with
  | (.error e, _) => .error e
  | (.ok (), m) => .ok m

def vpn0 (virt : BitVec 32) : BitVec 32 := (virt >>> 12) &&& 0x3FF#32

def rootPte (pt : PageTables) : WordT :=
  let l0Ppn := pt.l0Pt >>> 12
  (l0Ppn <<< 10) ||| PTE_V

def l0Pte (phys flags : BitVec 32) : WordT :=
  let ppn := phys >>> 12
  (ppn <<< 10) ||| flags ||| PTE_V

def linkRoot (pt : PageTables) (m : MemoryModel 32 Dev) :
    Except OutOfRange (MemoryModel 32 Dev) := do
  let root ← m.readWord pt.rootPt
  if root &&& PTE_V = 0#32 then store m pt.rootPt (rootPte pt) else pure m

def vmemMap (pt : PageTables) (virt phys flags : BitVec 32) (m : MemoryModel 32 Dev) :
    Except OutOfRange (MemoryModel 32 Dev) := do
  let m ← linkRoot pt m
  store m (pt.l0Entry (vpn0 virt)) (l0Pte phys flags)

/-- csrw satp; the sfence.vma after it does nothing in the simulator. -/
def vmemEnable (pt : PageTables) (s : RVModel 32) : RVModel 32 :=
  let ppn := pt.rootPt >>> 12
  let satp := (1#32 <<< 31) ||| ppn
  { s with csr := s.csr.write CSR.SATP satp }

structure MapCall where
  virt : BitVec 32
  phys : BitVec 32
  flags : BitVec 32

/-- A page below 4 MiB, with flags from R, W, X and U and among them R or X. -/
structure MapCall.Valid (c : MapCall) : Prop where
  low : c.virt < 0x400000#32
  flags : c.flags &&& ~~~(PTE_R ||| PTE_W ||| PTE_X ||| PTE_U) = 0#32
  leaf : c.flags &&& (PTE_R ||| PTE_X) ≠ 0#32

def lastMapped (calls : List MapCall) (va : BitVec 32) : Option MapCall :=
  calls.reverse.find? fun c => c.virt >>> 12 = va >>> 12

structure Placed (pt : PageTables) (m : MemoryModel 32 Dev) : Prop where
  rootInside : pt.rootPt.toNat + 4 ≤ m.size
  rootRam : m.findMmio pt.rootPt = none
  l0Inside : pt.l0Pt.toNat + 4096 ≤ m.size
  l0Ram : ∀ a, pageOf a = pageOf pt.l0Pt → m.findMmio a = none

/-- A run of the kernel as far as the tables see it: vmem_map calls, and anything else that
    leaves them alone. It starts with the zeroed arrays of .bss. -/
def vmemRuns (Dev : Type) (pt : PageTables) : System (MemoryModel 32 Dev) (Option MapCall) where
  init m := Placed pt m ∧ m.wordAt pt.rootPt = 0#32 ∧
    ∀ i, i < 1024#32 → m.wordAt (pt.l0Entry i) = 0#32
  step m label m' :=
    match label with
    | some c => vmemMap pt c.virt c.phys c.flags m = .ok m'
    | none => m'.layout = m.layout ∧ m'.wordAt pt.rootPt = m.wordAt pt.rootPt ∧
        ∀ i, i < 1024#32 → m'.wordAt (pt.l0Entry i) = m.wordAt (pt.l0Entry i)

theorem vpn0_lt (virt : BitVec 32) : vpn0 virt < 1024#32 := by
  have mask := toNat_and_mask (w := 32) (k := 10) (by omega) (virt >>> 12)
  rw [BitVec.lt_def]
  change ((virt >>> 12) &&& 0x3FF#32).toNat < 1024
  rw [show (0x3FF#32) = BitVec.ofNat 32 (2 ^ 10 - 1) from rfl, mask]
  omega

theorem toNat_index {i : BitVec 32} (small : i < 1024#32) : (i <<< 2).toNat = 4 * i.toNat := by
  rw [BitVec.lt_def] at small
  have bound : i.toNat < 1024 := small
  rw [BitVec.toNat_shiftLeft, Nat.shiftLeft_eq]
  omega

theorem l0Entry_or (pt : PageTables) {i : BitVec 32} (small : i < 1024#32) :
    pt.l0Entry i = pt.l0Pt ||| (i <<< 2) := by
  apply add_eq_or_of_clear pt.l0Aligned
  apply BitVec.eq_of_toNat_eq
  rw [BitVec.toNat_ushiftRight, toNat_index small, Nat.shiftRight_eq_div_pow]
  have bound : i.toNat < 1024 := BitVec.lt_def.mp small
  simp only [BitVec.toNat_ofNat]
  omega

theorem toNat_l0Entry (pt : PageTables) {i : BitVec 32} (small : i < 1024#32) :
    (pt.l0Entry i).toNat = pt.l0Pt.toNat + 4 * i.toNat := by
  have clear := (lowClear_iff_mod 12 pt.l0Pt).mp pt.l0Aligned
  have bound : i.toNat < 1024 := BitVec.lt_def.mp small
  have := pt.l0Pt.isLt
  unfold PageTables.l0Entry
  rw [BitVec.toNat_add, toNat_index small]
  omega

theorem l0Entry_clear (pt : PageTables) {i : BitVec 32} (small : i < 1024#32) :
    LowClear 2 (pt.l0Entry i) := by
  rw [l0Entry_or pt small]
  exact lowClear_or (lowClear_mono (by omega) pt.l0Aligned) (lowClear_shiftLeft i (by omega))

theorem l0Entry_inj (pt : PageTables) {i j : BitVec 32} (hi : i < 1024#32) (hj : j < 1024#32) :
    pt.l0Entry i = pt.l0Entry j ↔ i = j := by
  constructor
  · intro same
    have eq := congrArg BitVec.toNat same
    rw [toNat_l0Entry pt hi, toNat_l0Entry pt hj] at eq
    exact BitVec.eq_of_toNat_eq (by omega)
  · intro same
    rw [same]

theorem pageOf_l0Entry (pt : PageTables) {i : BitVec 32} (small : i < 1024#32) :
    pageOf (pt.l0Entry i) = pageOf pt.l0Pt := by
  have clear := (lowClear_iff_mod 12 pt.l0Pt).mp pt.l0Aligned
  have bound : i.toNat < 1024 := BitVec.lt_def.mp small
  unfold pageOf
  rw [toNat_l0Entry pt small]
  omega

theorem l0Entry_ne_rootPt (pt : PageTables) {i : BitVec 32} (small : i < 1024#32) :
    pt.l0Entry i ≠ pt.rootPt := by
  intro same
  have root := (lowClear_iff_mod 12 pt.rootPt).mp pt.rootAligned
  have l0 := (lowClear_iff_mod 12 pt.l0Pt).mp pt.l0Aligned
  have page := pageOf_l0Entry pt small
  rw [same] at page
  unfold pageOf at page
  exact pt.disjoint (BitVec.eq_of_toNat_eq (by omega))

theorem store_word {m : MemoryModel 32 Dev} {a : BitVec 32} (aligned : LowClear 2 a)
    (ram : m.findMmio a = none) (inside : a.toNat + 4 ≤ m.size) (v : WordT) :
    ∃ m', store m a v = .ok m' ∧ m'.layout = m.layout ∧
      ∀ t, LowClear 2 t → m'.wordAt t = if t = a then v else m.wordAt t := by
  obtain ⟨m', wrote, layout, words⟩ := m.writeWord_word aligned ram inside v
  refine ⟨m', ?_, layout, words⟩
  unfold store
  rw [wrote]

theorem Placed.of_layout {pt : PageTables} {m m' : MemoryModel 32 Dev} (h : Placed pt m)
    (layout : m'.layout = m.layout) : Placed pt m' := by
  have size : m'.size = m.size := congrArg Prod.fst layout
  have find := findMmio_of_layout layout
  exact ⟨size ▸ h.rootInside, (find _).trans h.rootRam, size ▸ h.l0Inside,
    fun a page => (find a).trans (h.l0Ram a page)⟩

def Linked (pt : PageTables) (m : MemoryModel 32 Dev) : Prop :=
  m.wordAt pt.rootPt = 0#32 ∨ m.wordAt pt.rootPt = rootPte pt

theorem rootPte_valid (pt : PageTables) : rootPte pt &&& PTE_V ≠ 0#32 := by
  intro zero
  have bit := congrArg (fun x => x.getLsbD 0) zero
  simp [rootPte, PTE_V] at bit

theorem linkRoot_spec {pt : PageTables} {m : MemoryModel 32 Dev} (placed : Placed pt m)
    (linked : Linked pt m) :
    ∃ m', linkRoot pt m = .ok m' ∧ m'.layout = m.layout ∧ m'.wordAt pt.rootPt = rootPte pt ∧
      ∀ i, i < 1024#32 → m'.wordAt (pt.l0Entry i) = m.wordAt (pt.l0Entry i) := by
  have rootClear : LowClear 2 pt.rootPt := lowClear_mono (by omega) pt.rootAligned
  have read : m.readWord pt.rootPt = .ok (m.wordAt pt.rootPt) := by
    rw [m.readWord_ram placed.rootRam, if_pos placed.rootInside]
  have value : linkRoot pt m =
      if m.wordAt pt.rootPt &&& PTE_V = 0#32 then store m pt.rootPt (rootPte pt)
      else .ok m := by
    unfold linkRoot
    rw [read]
    rfl
  rcases linked with zero | set
  · obtain ⟨m', stored, layout, words⟩ :=
      store_word rootClear placed.rootRam placed.rootInside (rootPte pt)
    refine ⟨m', ?_, layout, ?_, ?_⟩
    · rw [value, zero, if_pos (by simp), stored]
    · rw [words _ rootClear, if_pos rfl]
    · intro i small
      rw [words _ (l0Entry_clear pt small), if_neg (l0Entry_ne_rootPt pt small)]
  · refine ⟨m, ?_, rfl, set, fun _ _ => rfl⟩
    rw [value, set, if_neg (rootPte_valid pt)]

/-- vmem_map links the root entry and sets one entry of l0_pt. -/
theorem vmemMap_spec {pt : PageTables} {m : MemoryModel 32 Dev} (placed : Placed pt m)
    (linked : Linked pt m) (virt phys flags : BitVec 32) :
    ∃ m', vmemMap pt virt phys flags m = .ok m' ∧ m'.layout = m.layout ∧
      m'.wordAt pt.rootPt = rootPte pt ∧
      ∀ i, i < 1024#32 → m'.wordAt (pt.l0Entry i) =
        if i = vpn0 virt then l0Pte phys flags else m.wordAt (pt.l0Entry i) := by
  have rootClear : LowClear 2 pt.rootPt := lowClear_mono (by omega) pt.rootAligned
  obtain ⟨m₁, link, layout₁, root₁, words₁⟩ := linkRoot_spec placed linked
  have placed₁ := placed.of_layout layout₁
  have small := vpn0_lt virt
  have ram : m₁.findMmio (pt.l0Entry (vpn0 virt)) = none :=
    placed₁.l0Ram _ (pageOf_l0Entry pt small)
  have inside : (pt.l0Entry (vpn0 virt)).toNat + 4 ≤ m₁.size := by
    have bound : (vpn0 virt).toNat < 1024 := BitVec.lt_def.mp small
    have := placed₁.l0Inside
    rw [toNat_l0Entry pt small]
    omega
  obtain ⟨m₂, stored, layout₂, words₂⟩ :=
    store_word (l0Entry_clear pt small) ram inside (l0Pte phys flags)
  refine ⟨m₂, ?_, layout₂.trans layout₁, ?_, ?_⟩
  · unfold vmemMap
    rw [link]
    exact stored
  · rw [words₂ _ rootClear, if_neg (l0Entry_ne_rootPt pt small).symm, root₁]
  · intro i hi
    rw [words₂ _ (l0Entry_clear pt hi), words₁ i hi]
    simp only [l0Entry_inj pt hi small]

def lastIndexed (calls : List MapCall) (i : BitVec 32) : Option MapCall :=
  calls.reverse.find? fun c => vpn0 c.virt = i

/-- What the tables hold after a list of calls, whatever their arguments. -/
structure Entries (pt : PageTables) (calls : List MapCall) (m : MemoryModel 32 Dev) : Prop where
  placed : Placed pt m
  root : m.wordAt pt.rootPt = if calls = [] then 0#32 else rootPte pt
  l0 : ∀ i, i < 1024#32 → m.wordAt (pt.l0Entry i) =
    (lastIndexed calls i).elim 0#32 fun c => l0Pte c.phys c.flags

theorem Entries.linked {pt : PageTables} {calls : List MapCall} {m : MemoryModel 32 Dev}
    (h : Entries pt calls m) : Linked pt m := by
  unfold Linked
  rw [h.root]
  split
  · exact Or.inl rfl
  · exact Or.inr rfl

theorem find?_reverse_append {α : Type} (p : α → Bool) (xs : List α) (x : α) :
    (xs ++ [x]).reverse.find? p = if p x then some x else xs.reverse.find? p := by
  rw [List.reverse_append, List.reverse_singleton, List.singleton_append, List.find?_cons]
  cases p x with
  | true => rfl
  | false => rfl

theorem lastIndexed_append (calls : List MapCall) (c : MapCall) (i : BitVec 32) :
    lastIndexed (calls ++ [c]) i = if vpn0 c.virt = i then some c else lastIndexed calls i := by
  unfold lastIndexed
  rw [find?_reverse_append]
  simp only [decide_eq_true_eq]

theorem Entries.map {pt : PageTables} {calls : List MapCall} {m m' : MemoryModel 32 Dev}
    (h : Entries pt calls m) {c : MapCall}
    (mapped : vmemMap pt c.virt c.phys c.flags m = .ok m') : Entries pt (calls ++ [c]) m' := by
  obtain ⟨m₂, returned, layout, root, l0⟩ := vmemMap_spec h.placed h.linked c.virt c.phys c.flags
  rw [mapped] at returned
  simp only [Except.ok.injEq] at returned
  subst returned
  refine ⟨h.placed.of_layout layout, by simpa using root, ?_⟩
  intro i small
  rw [l0 i small, lastIndexed_append]
  by_cases same : i = vpn0 c.virt
  · rw [if_pos same, if_pos same.symm]
    rfl
  · rw [if_neg same, if_neg (Ne.symm same)]
    exact h.l0 i small

theorem vmemRuns_entries {pt : PageTables} {m m' : MemoryModel 32 Dev}
    {labels : List (Option MapCall)} (start : (vmemRuns Dev pt).init m)
    (path : (vmemRuns Dev pt).Path m labels m') : Entries pt labels.reduceOption m' := by
  induction path with
  | nil =>
    obtain ⟨placed, root, l0⟩ := start
    exact ⟨placed, root, l0⟩
  | @snoc t u labels label path last ih =>
    rw [List.reduceOption_append]
    cases label with
    | some c => exact ih.map last
    | none =>
      obtain ⟨layout, root, l0⟩ := last
      rw [List.reduceOption_singleton, Option.toList_none, List.append_nil]
      exact ⟨ih.placed.of_layout layout, root.trans ih.root,
        fun i small => (l0 i small).trans (ih.l0 i small)⟩

structure Holds (pt : PageTables) (calls : List MapCall) (m : MemoryModel 32 Dev) : Prop where
  placed : Placed pt m
  root : m.wordAt pt.rootPt = if calls = [] then 0#32 else rootPte pt
  l0 : ∀ va, va < 0x400000#32 → m.wordAt (pt.l0Entry (vpn0 va)) =
    (lastMapped calls va).elim 0#32 fun c => l0Pte c.phys c.flags

theorem toNat_vpn0 (virt : BitVec 32) : (vpn0 virt).toNat = virt.toNat / 4096 % 1024 := by
  have mask := toNat_and_mask (w := 32) (k := 10) (by omega) (virt >>> 12)
  rw [BitVec.toNat_ushiftRight, Nat.shiftRight_eq_div_pow] at mask
  exact mask

theorem vpn0_of_low {virt : BitVec 32} (low : virt < 0x400000#32) : vpn0 virt = virt >>> 12 := by
  have bound : virt.toNat < 0x400000 := BitVec.lt_def.mp low
  apply BitVec.eq_of_toNat_eq
  rw [toNat_vpn0, BitVec.toNat_ushiftRight, Nat.shiftRight_eq_div_pow]
  omega

theorem lastMapped_eq {calls : List MapCall} (low : ∀ c ∈ calls, c.virt < 0x400000#32)
    {va : BitVec 32} (lowVa : va < 0x400000#32) :
    lastMapped calls va = lastIndexed calls (vpn0 va) := by
  unfold lastMapped lastIndexed
  apply List.find?_congr
  intro c member
  rw [vpn0_of_low (low c (List.mem_reverse.mp member)), vpn0_of_low lowVa]

theorem vmemRuns_holds {pt : PageTables} {m m' : MemoryModel 32 Dev}
    {labels : List (Option MapCall)} (start : (vmemRuns Dev pt).init m)
    (path : (vmemRuns Dev pt).Path m labels m') (valid : ∀ c, some c ∈ labels → c.Valid) :
    Holds pt labels.reduceOption m' := by
  have entries := vmemRuns_entries start path
  refine ⟨entries.placed, entries.root, fun va low => ?_⟩
  rw [entries.l0 _ (vpn0_lt va), lastMapped_eq (fun c member => ?_) low]
  exact (valid c (List.reduceOption_mem_iff.mp member)).low

theorem pte_page (page : BitVec 32) {flags : BitVec 32} (small : flags >>> 10 = 0#32) :
    ((page >>> 12) <<< 10 ||| flags) >>> 10 = page >>> 12 := by
  rw [BitVec.ushiftRight_or_distrib, small, BitVec.or_zero]
  apply BitVec.eq_of_getLsbD_eq
  intro i hi
  rw [BitVec.getLsbD_ushiftRight, BitVec.getLsbD_shiftLeft, BitVec.getLsbD_ushiftRight,
    BitVec.getLsbD_ushiftRight, show 10 + i - 10 = i by omega]
  by_cases top : 10 + i < 32
  · simp [top]
  · rw [BitVec.getLsbD_of_ge page (12 + i) (by omega)]
    simp

theorem pte_flags (page flags : BitVec 32) {mask : BitVec 32} (small : mask >>> 10 = 0#32) :
    ((page >>> 12) <<< 10 ||| flags) &&& mask = flags &&& mask := by
  have clear : (page >>> 12) <<< 10 &&& mask = 0#32 := by
    apply BitVec.eq_of_getLsbD_eq
    intro i hi
    rw [BitVec.getLsbD_and, BitVec.getLsbD_shiftLeft]
    by_cases low : i < 10
    · simp [low]
    · have bit := congrArg (fun x => x.getLsbD (i - 10)) small
      simp only [BitVec.getLsbD_ushiftRight, show 10 + (i - 10) = i by omega] at bit
      simp [bit]
  rw [BitVec.and_or_distrib_right, clear, BitVec.zero_or]

theorem l0Pte_eq (phys flags : BitVec 32) :
    l0Pte phys flags = (phys >>> 12) <<< 10 ||| (flags ||| PTE_V) :=
  BitVec.or_assoc _ _ _

theorem l0Pte_flags (phys flags : BitVec 32) {mask : BitVec 32} (small : mask >>> 10 = 0#32) :
    l0Pte phys flags &&& mask = (flags &&& mask) ||| (PTE_V &&& mask) := by
  rw [l0Pte_eq, pte_flags _ _ small, BitVec.and_or_distrib_right]

theorem MapCall.Valid.small {c : MapCall} (valid : c.Valid) :
    (c.flags ||| PTE_V) >>> 10 = 0#32 := by
  have within : c.flags = c.flags &&& 0x1E#32 := by
    have outside : c.flags &&& ~~~0x1E#32 = 0#32 := valid.flags
    apply BitVec.eq_of_getLsbD_eq
    intro i hi
    have bit := congrArg (fun x => x.getLsbD i) outside
    simp only [BitVec.getLsbD_and, BitVec.getLsbD_not, hi, decide_true, Bool.true_and,
      BitVec.getLsbD_zero] at bit
    rw [BitVec.getLsbD_and]
    revert bit
    cases c.flags.getLsbD i with
    | false => simp
    | true => simp
  rw [BitVec.ushiftRight_or_distrib, within, BitVec.ushiftRight_and_distrib,
    show 0x1E#32 >>> 10 = 0#32 by decide, BitVec.and_zero]
  decide

theorem l0Pte_valid (phys flags : BitVec 32) : ¬l0Pte phys flags &&& 0x1#32 = 0#32 := by
  rw [l0Pte_flags _ _ (by decide)]
  intro zero
  exact absurd (BitVec.or_eq_zero_iff.mp zero).2 (by decide)

theorem MapCall.Valid.leafPte {c : MapCall} (valid : c.Valid) :
    l0Pte c.phys c.flags &&& 0x1#32 ≠ 0#32 ∧ l0Pte c.phys c.flags &&& 0xA#32 ≠ 0#32 := by
  constructor
  · exact l0Pte_valid c.phys c.flags
  · rw [l0Pte_flags _ _ (by decide)]
    intro zero
    exact valid.leaf (BitVec.or_eq_zero_iff.mp zero).1

theorem MapCall.Valid.leafAddr {c : MapCall} (valid : c.Valid) (priv : PrivMode)
    (va : BitVec 32) :
    RVModel.leafAddr priv va 0 (l0Pte c.phys c.flags) =
      if priv = .U ∧ c.flags &&& PTE_U = 0#32 then none
      else some ((c.phys &&& ~~~0xFFF#32) ||| (va &&& 0xFFF#32)) := by
  have user : l0Pte c.phys c.flags &&& (1#32 <<< 4) = c.flags &&& PTE_U := by
    rw [l0Pte_flags _ _ (by decide), show PTE_V &&& (1#32 <<< 4) = 0#32 by decide,
      BitVec.or_zero]
    rfl
  have page : (l0Pte c.phys c.flags >>> 10) <<< 12 = c.phys &&& ~~~0xFFF#32 := by
    rw [l0Pte_eq, pte_page _ valid.small]
    exact shiftLeft_ushiftRight (by omega) c.phys
  unfold RVModel.leafAddr
  rw [if_neg (by simp), user, page]
  simp only [Nat.zero_ne_one, if_false]

theorem satp_vmemEnable (pt : PageTables) (s : RVModel 32) :
    (vmemEnable pt s).csr.read CSR.SATP = (1#32 <<< 31) ||| (pt.rootPt >>> 12) := by
  rw [read_satp]
  unfold vmemEnable
  simp only
  rw [CsrFile.regs_write, if_pos ⟨rfl, rfl⟩]

theorem rootTable_vmemEnable (pt : PageTables) (s : RVModel 32) :
    rootTable ((vmemEnable pt s).csr.read CSR.SATP) = pt.rootPt := by
  have ppn : ((1#32 <<< 31) ||| (pt.rootPt >>> 12)) &&& 0x3FFFFF#32 = pt.rootPt >>> 12 := by
    rw [BitVec.and_or_distrib_right, show (1#32 <<< 31) &&& 0x3FFFFF#32 = 0#32 by decide,
      BitVec.zero_or, show 0x3FFFFF#32 = BitVec.ofNat 32 (2 ^ 22 - 1) from rfl]
    apply BitVec.eq_of_toNat_eq
    rw [toNat_and_mask (by omega), BitVec.toNat_ushiftRight, Nat.shiftRight_eq_div_pow]
    omega
  unfold rootTable
  rw [satp_vmemEnable, ppn, shiftLeft_ushiftRight_of_clear pt.rootAligned]

theorem paging_vmemEnable (pt : PageTables) (s : RVModel 32) : (vmemEnable pt s).Paging := by
  unfold Paging
  rw [satp_vmemEnable, BitVec.ushiftRight_or_distrib]
  intro zero
  exact absurd (BitVec.or_eq_zero_iff.mp zero).1 (by decide)

/-- Whatever runs after vmem_enable and leaves satp alone runs under paging, from root_pt. -/
theorem enabled_paging {pt : PageTables} {s s' : RVModel 32}
    (enabled : s'.csr.read CSR.SATP = (vmemEnable pt s).csr.read CSR.SATP) :
    s'.Paging ∧ rootTable (s'.csr.read CSR.SATP) = pt.rootPt := by
  constructor
  · have on := paging_vmemEnable pt s
    unfold Paging at on ⊢
    rwa [enabled]
  · rw [enabled]
    exact rootTable_vmemEnable pt s

theorem vpn_one_of_low {va : BitVec 32} (low : va < 0x400000#32) : vpn va 1 = 0#32 := by
  have bound : va.toNat < 0x400000 := BitVec.lt_def.mp low
  have top : va >>> 22 = 0#32 := by
    apply BitVec.eq_of_toNat_eq
    rw [BitVec.toNat_ushiftRight, Nat.shiftRight_eq_div_pow]
    simp only [BitVec.toNat_ofNat]
    omega
  unfold vpn
  rw [if_neg (by decide), top, BitVec.zero_and]

theorem readWord_l0Entry {pt : PageTables} {m : MemoryModel 32 Dev} (placed : Placed pt m)
    {i : BitVec 32} (small : i < 1024#32) :
    m.readWord (pt.l0Entry i) = .ok (m.wordAt (pt.l0Entry i)) := by
  have bound : i.toNat < 1024 := BitVec.lt_def.mp small
  have inside := placed.l0Inside
  rw [m.readWord_ram (placed.l0Ram _ (pageOf_l0Entry pt small)), if_pos]
  rw [toNat_l0Entry pt small]
  omega

theorem walk_rootPte (pt : PageTables) :
    rootPte pt &&& 0x1#32 ≠ 0#32 ∧ rootPte pt &&& 0xA#32 = 0#32 ∧
      (rootPte pt >>> 10) <<< 12 = pt.l0Pt := by
  refine ⟨rootPte_valid pt, ?_, ?_⟩
  · exact pte_flags pt.l0Pt PTE_V (by decide)
  · have page : rootPte pt >>> 10 = pt.l0Pt >>> 12 := pte_page pt.l0Pt (by decide)
    rw [page, shiftLeft_ushiftRight_of_clear pt.l0Aligned]

theorem readWord_rootPt {pt : PageTables} {m : MemoryModel 32 Dev} (placed : Placed pt m) :
    m.readWord pt.rootPt = .ok (m.wordAt pt.rootPt) := by
  rw [m.readWord_ram placed.rootRam, if_pos placed.rootInside]

theorem rootEntry_low (pt : PageTables) {va : BitVec 32} (low : va < 0x400000#32) :
    pt.rootPt ||| (vpn va 1 <<< 2) = pt.rootPt := by
  rw [vpn_one_of_low low]
  simp

theorem leaf_unlinked {pt : PageTables} {m : MemoryModel 32 Dev} (placed : Placed pt m)
    (unset : m.wordAt pt.rootPt = 0#32) {s : RVModel 32}
    (root : rootTable (s.csr.read CSR.SATP) = pt.rootPt) {va : BitVec 32}
    (low : va < 0x400000#32) : s.leaf va m = none := by
  unfold RVModel.leaf walkLeaf
  rw [root, memT_readWord, rootEntry_low pt low, readWord_rootPt placed, unset]
  rfl

theorem leaf_linked {pt : PageTables} {m : MemoryModel 32 Dev} (placed : Placed pt m)
    (linked : m.wordAt pt.rootPt = rootPte pt) {s : RVModel 32}
    (root : rootTable (s.csr.read CSR.SATP) = pt.rootPt) {va : BitVec 32}
    (low : va < 0x400000#32) {pte : WordT} (entry : m.wordAt (pt.l0Entry (vpn0 va)) = pte) :
    s.leaf va m = if pte &&& 0x1#32 = 0#32 then none
      else if pte &&& 0xA#32 ≠ 0#32 then some (0, pte) else none := by
  obtain ⟨rootValid, pointer, next⟩ := walk_rootPte pt
  have entryAddr : pt.l0Pt ||| (vpn va 0 <<< 2) = pt.l0Entry (vpn0 va) :=
    (l0Entry_or pt (vpn0_lt va)).symm
  unfold RVModel.leaf walkLeaf
  rw [root, memT_readWord, rootEntry_low pt low, readWord_rootPt placed, linked]
  simp only [BitVec.setWidth_eq, rootValid, if_false, pointer, ne_eq, not_true_eq_false, next]
  unfold walkLeaf
  rw [memT_readWord, entryAddr, readWord_l0Entry placed (vpn0_lt va), entry]
  simp only [BitVec.setWidth_eq]
  split
  · rfl
  split
  · rfl
  · rfl

theorem Entries.leaf {pt : PageTables} {calls : List MapCall} {m : MemoryModel 32 Dev}
    (h : Entries pt calls m) {s : RVModel 32}
    (root : rootTable (s.csr.read CSR.SATP) = pt.rootPt) {va : BitVec 32}
    (low : va < 0x400000#32) :
    s.leaf va m = (lastIndexed calls (vpn0 va)).bind fun c =>
      if l0Pte c.phys c.flags &&& 0xA#32 ≠ 0#32 then some (0, l0Pte c.phys c.flags)
      else none := by
  have rootWord := h.root
  have entry := h.l0 _ (vpn0_lt va)
  by_cases empty : calls = []
  · rw [if_pos empty] at rootWord
    rw [leaf_unlinked h.placed rootWord root low, empty]
    rfl
  · rw [if_neg empty] at rootWord
    rw [leaf_linked h.placed rootWord root low entry]
    cases lastIndexed calls (vpn0 va) with
    | none => rfl
    | some c => exact if_neg (l0Pte_valid c.phys c.flags)

/-- The walk for a low va ends at the entry of the last call that mapped its page. -/
theorem Holds.leaf {pt : PageTables} {calls : List MapCall} {m : MemoryModel 32 Dev}
    (h : Holds pt calls m) (valid : ∀ c ∈ calls, c.Valid) {s : RVModel 32}
    (root : rootTable (s.csr.read CSR.SATP) = pt.rootPt) {va : BitVec 32}
    (low : va < 0x400000#32) :
    s.leaf va m = (lastMapped calls va).map fun c => (0, l0Pte c.phys c.flags) := by
  have rootWord := h.root
  have entry := h.l0 va low
  by_cases empty : calls = []
  · rw [if_pos empty] at rootWord
    rw [leaf_unlinked h.placed rootWord root low, empty]
    rfl
  · rw [if_neg empty] at rootWord
    rw [leaf_linked h.placed rootWord root low entry]
    cases found : lastMapped calls va with
    | none => rfl
    | some c =>
      have member : c ∈ calls := List.mem_reverse.mp (List.mem_of_find?_eq_some found)
      obtain ⟨set, leaf⟩ := (valid c member).leafPte
      exact (if_neg set).trans (if_pos leaf)

/-- After any run of vmem_map calls and then vmem_enable, in any mode, the walk for a va below
    4 MiB finds the last call that mapped its page, or raises the page fault of the access;
    and vmem_map still returns. -/
theorem walk_agrees_with_vmem_map {pt : PageTables} {m m' : MemoryModel 32 Dev}
    {labels : List (Option MapCall)} (start : (vmemRuns Dev pt).init m)
    (path : (vmemRuns Dev pt).Path m labels m') (valid : ∀ c, some c ∈ labels → c.Valid)
    {s s' : RVModel 32} (enabled : s'.csr.read CSR.SATP = (vmemEnable pt s).csr.read CSR.SATP)
    {va : BitVec 32} (low : va < 0x400000#32) (access : MemAccess) :
    (s'.translateAddr va access m' =
      match lastMapped labels.reduceOption va with
      | some c =>
          if s'.privMode = .U ∧ c.flags &&& PTE_U = 0#32 then
            (none, s'.fireTrap (pageFaultCause access) va, m')
          else (some ((c.phys &&& ~~~0xFFF#32) ||| (va &&& 0xFFF#32)), s', m')
      | none => (none, s'.fireTrap (pageFaultCause access) va, m')) ∧
      ∀ c : MapCall, ∃ m'', (vmemRuns Dev pt).step m' (some c) m'' := by
  have holds := vmemRuns_holds start path valid
  have validCalls : ∀ c ∈ labels.reduceOption, c.Valid := fun c member =>
    valid c (List.reduceOption_mem_iff.mp member)
  obtain ⟨paging, root⟩ := enabled_paging enabled
  constructor
  · rw [translateAddr_paging paging, holds.leaf validCalls root low]
    cases found : lastMapped labels.reduceOption va with
    | none => rfl
    | some c =>
      have member : c ∈ labels.reduceOption :=
        List.mem_reverse.mp (List.mem_of_find?_eq_some found)
      simp only [Option.map_some, Option.bind_some, (validCalls c member).leafAddr]
      by_cases user : s'.privMode = .U ∧ c.flags &&& PTE_U = 0#32
      · rw [if_pos user, if_pos user]
      · rw [if_neg user, if_neg user]
  · intro c
    obtain ⟨m'', returned, _⟩ := vmemMap_spec holds.placed
      (vmemRuns_entries start path).linked c.virt c.phys c.flags
    exact ⟨m'', returned⟩

def smallTables : PageTables where
  rootPt := 0x1000#32
  l0Pt := 0x2000#32
  rootAligned := (lowClear_iff_mod 12 _).mpr (by decide)
  l0Aligned := (lowClear_iff_mod 12 _).mpr (by decide)
  disjoint := by decide

theorem smallTables_start : (vmemRuns Unit smallTables).init (MemoryModel.new 0x3000 ()) := by
  refine ⟨⟨by decide, findMmio_empty _ rfl _, by decide, fun a _ => findMmio_empty _ rfl a⟩, ?_⟩
  have zero (a : BitVec 32) :
      (MemoryModel.new 0x3000 () : MemoryModel 32 Unit).wordAt a = 0#32 := by
    change leWord (fun _ => 0#8) = 0#32
    decide
  exact ⟨zero _, fun _ _ => zero _⟩

/-- The page at 0x5000 is mapped read-only to 0x7000, and then to 0x12345678 with R and W; nothing
    else is mapped. -/
theorem walk_agrees_with_vmem_map_remapped :
    let b : MapCall := ⟨0x5000#32, 0x7000#32, PTE_R⟩
    let c : MapCall := ⟨0x5800#32, 0x12345678#32, PTE_R ||| PTE_W⟩
    let cpu := vmemEnable smallTables (RVModel.new ⟨0#32⟩)
    ∃ m' m'', (vmemRuns Unit smallTables).step (MemoryModel.new 0x3000 ()) (some b) m' ∧
      (vmemRuns Unit smallTables).step m' (some c) m'' ∧
      cpu.translateAddr 0x5ABC#32 .load m' = (some 0x7ABC#32, cpu, m') ∧
      cpu.translateAddr 0x5ABC#32 .load m'' = (some 0x12345ABC#32, cpu, m'') ∧
      cpu.translateAddr 0x6000#32 .store m'' = (none, cpu.fireTrap 15#32 0x6000#32, m'') := by
  intro b c cpu
  have enabled : cpu.csr.read CSR.SATP =
      (vmemEnable smallTables (RVModel.new ⟨0#32⟩)).csr.read CSR.SATP := rfl
  have low : 0x5ABC#32 < 0x400000#32 := by decide
  have valid : ∀ c', some c' ∈ [some b, some c] → c'.Valid := by
    intro c' member
    simp only [List.mem_pair, Option.some.injEq] at member
    rcases member with rfl | rfl
    · exact ⟨by decide, by decide, by decide⟩
    · exact ⟨by decide, by decide, by decide⟩
  obtain ⟨m', mapped⟩ := (walk_agrees_with_vmem_map smallTables_start (.nil _) (by simp) enabled
    low .load).2 b
  have once : (vmemRuns Unit smallTables).Path (MemoryModel.new 0x3000 ()) [some b] m' :=
    .snoc (.nil _) mapped
  obtain ⟨first, returns⟩ := walk_agrees_with_vmem_map smallTables_start once
    (fun c' member => valid c' (List.mem_append_left [some c] member)) enabled low .load
  obtain ⟨m'', remapped⟩ := returns c
  have twice : (vmemRuns Unit smallTables).Path (MemoryModel.new 0x3000 ()) [some b, some c] m'' :=
    once.snoc remapped
  have agrees (va : BitVec 32) (low : va < 0x400000#32) (access : MemAccess) :=
    (walk_agrees_with_vmem_map smallTables_start twice valid enabled low access).1
  have before : lastMapped [some b].reduceOption 0x5ABC#32 = some b := by
    simp [lastMapped, b]
  have found : lastMapped [some b, some c].reduceOption 0x5ABC#32 = some c := by
    simp [lastMapped, b, c]
  have unmapped : lastMapped [some b, some c].reduceOption 0x6000#32 = none := by
    simp [lastMapped, b, c]
  have kernel (flags : BitVec 32) : ¬(cpu.privMode = .U ∧ flags &&& PTE_U = 0#32) := by
    rintro ⟨user, _⟩
    exact absurd user (by decide)
  refine ⟨m', m'', mapped, remapped, ?_, ?_, ?_⟩
  · have address : (b.phys &&& ~~~0xFFF#32) ||| (0x5ABC#32 &&& 0xFFF#32) = 0x7ABC#32 := by decide
    rw [first, before]
    simp only [if_neg (kernel b.flags), address]
  · have address : (c.phys &&& ~~~0xFFF#32) ||| (0x5ABC#32 &&& 0xFFF#32) = 0x12345ABC#32 := by
      decide
    rw [agrees 0x5ABC#32 low .load, found]
    simp only [if_neg (kernel c.flags), address]
  · rw [agrees 0x6000#32 (by decide) .store, unmapped]
    rfl

end XorOS.Kernel
