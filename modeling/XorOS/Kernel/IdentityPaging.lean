import Mathlib.Data.List.GetD
import XorOS.Kernel.Vmem
import XorOS.Simulator.IdentityMap
import XorOS.Simulator.Reservation

/- kernel_main maps its 64 KiB onto itself and turns paging on: which addresses that leaves, and
   that the kernel then runs as it would without paging. -/
namespace XorOS.Kernel
open MemoryModel RVModel ISA Bits Runs
variable {Dev : Type}

def identityPages : List (BitVec 32) := (List.range 16).map fun i => BitVec.ofNat 32 (i * 0x1000)

def identityCall (p : BitVec 32) : MapCall := ⟨p, p, PTE_R ||| PTE_W ||| PTE_X⟩

@[simp] theorem virt_identityCall (p : BitVec 32) : (identityCall p).virt = p := rfl

def identityMap (pt : PageTables) (m : MemoryModel 32 Dev) :
    Except OutOfRange (MemoryModel 32 Dev) :=
  identityPages.foldlM (fun m p => vmemMap pt p p (PTE_R ||| PTE_W ||| PTE_X) m) m

def KeepsTables (pt : PageTables) (m m' : MemoryModel 32 Dev) : Prop :=
  (vmemRuns Dev pt).step m none m'

theorem KeepsTables.refl (pt : PageTables) (m : MemoryModel 32 Dev) : KeepsTables pt m m :=
  ⟨rfl, rfl, fun _ _ => rfl⟩

theorem KeepsTables.trans {pt : PageTables} {a b c : MemoryModel 32 Dev}
    (first : KeepsTables pt a b) (second : KeepsTables pt b c) : KeepsTables pt a c :=
  ⟨second.1.trans first.1, second.2.1.trans first.2.1,
    fun i small => (second.2.2 i small).trans (first.2.2 i small)⟩

theorem foldlM_vmemMap {pt : PageTables} {m₀ : MemoryModel 32 Dev}
    (start : (vmemRuns Dev pt).init m₀) : ∀ (pages : List (BitVec 32)) (m : MemoryModel 32 Dev)
    (labels : List (Option MapCall)), (vmemRuns Dev pt).Path m₀ labels m →
    ∃ m', pages.foldlM (fun m p => vmemMap pt p p (PTE_R ||| PTE_W ||| PTE_X) m) m = .ok m' ∧
      (vmemRuns Dev pt).Path m₀ (labels ++ pages.map fun p => some (identityCall p)) m' := by
  intro pages
  induction pages with
  | nil =>
    intro m labels path
    refine ⟨m, rfl, ?_⟩
    rwa [List.map_nil, List.append_nil]
  | cons p rest ih =>
    intro m labels path
    have entries := vmemRuns_entries start path
    obtain ⟨m₁, mapped, -⟩ := vmemMap_spec entries.placed entries.linked p p
      (PTE_R ||| PTE_W ||| PTE_X)
    have longer : (vmemRuns Dev pt).Path m₀ (labels ++ [some (identityCall p)]) m₁ :=
      .snoc path mapped
    obtain ⟨m', done, whole⟩ := ih m₁ _ longer
    refine ⟨m', ?_, ?_⟩
    · rw [List.foldlM_cons, mapped]
      exact done
    · rwa [List.append_assoc] at whole

theorem identityPages_page {p : BitVec 32} (listed : p ∈ identityPages) :
    p < 0x10000#32 ∧ p &&& ~~~0xFFF#32 = p := by
  obtain ⟨i, small, rfl⟩ := List.mem_map.mp listed
  rw [List.mem_range] at small
  interval_cases i <;> decide

theorem identityCall_valid {p : BitVec 32} (listed : p ∈ identityPages) :
    (identityCall p).Valid where
  low := by
    have low := (identityPages_page listed).1
    change p < _
    bv_omega
  flags := show (PTE_R ||| PTE_W ||| PTE_X) &&& ~~~(PTE_R ||| PTE_W ||| PTE_X ||| PTE_U) = 0#32 by
    decide
  leaf := show (PTE_R ||| PTE_W ||| PTE_X) &&& (PTE_R ||| PTE_X) ≠ 0#32 by decide

theorem toNat_page (va : BitVec 32) :
    (va &&& ~~~0xFFF#32).toNat = va.toNat / 0x1000 * 0x1000 := by
  have split : (va >>> 12) <<< 12 = va &&& ~~~0xFFF#32 :=
    shiftLeft_ushiftRight (w := 32) (k := 12) (by omega) va
  rw [← split, BitVec.toNat_shiftLeft, BitVec.toNat_ushiftRight, Nat.shiftLeft_eq,
    Nat.shiftRight_eq_div_pow]
  omega

theorem mem_identityPages {va : BitVec 32} (low : va < 0x10000#32) :
    va &&& ~~~0xFFF#32 ∈ identityPages := by
  have bound : va.toNat < 0x10000 := BitVec.lt_def.mp low
  refine List.mem_map.mpr ⟨va.toNat / 0x1000, List.mem_range.mpr (by omega), ?_⟩
  apply BitVec.eq_of_toNat_eq
  rw [toNat_page, BitVec.toNat_ofNat]
  omega

theorem page_of_shift {p va : BitVec 32} (same : p >>> 12 = va >>> 12) :
    p &&& ~~~0xFFF#32 = va &&& ~~~0xFFF#32 := by
  have split (x : BitVec 32) : (x >>> 12) <<< 12 = x &&& ~~~0xFFF#32 :=
    shiftLeft_ushiftRight (w := 32) (k := 12) (by omega) x
  rw [← split, ← split, same]

theorem shift_of_page (va : BitVec 32) : (va &&& ~~~0xFFF#32) >>> 12 = va >>> 12 := by
  apply BitVec.eq_of_toNat_eq
  rw [BitVec.toNat_ushiftRight, toNat_page, BitVec.toNat_ushiftRight, Nat.shiftRight_eq_div_pow]
  omega

theorem lastMapped_of_unique {calls : List MapCall} {va : BitVec 32} {c : MapCall}
    (member : c ∈ calls) (page : c.virt >>> 12 = va >>> 12)
    (only : ∀ c' ∈ calls, c'.virt >>> 12 = va >>> 12 → c' = c) :
    lastMapped calls va = some c := by
  cases found : lastMapped calls va with
  | none =>
    have never := List.find?_eq_none.mp found c (List.mem_reverse.mpr member)
    exact absurd page (by simpa only [decide_eq_true_eq] using never)
  | some c' =>
    have member' := List.mem_reverse.mp (List.mem_of_find?_eq_some found)
    have page' := List.find?_some found
    rw [only c' member' (of_decide_eq_true page')]

theorem lastMapped_eq_none {calls : List MapCall} {va : BitVec 32}
    (never : ∀ c ∈ calls, c.virt >>> 12 ≠ va >>> 12) : lastMapped calls va = none := by
  apply List.find?_eq_none.mpr
  intro c member
  simp only [decide_eq_true_eq]
  exact never c (List.mem_reverse.mp member)

theorem lastMapped_identity {va : BitVec 32} :
    lastMapped (identityPages.map identityCall) va =
      if va < 0x10000#32 then some (identityCall (va &&& ~~~0xFFF#32)) else none := by
  by_cases low : va < 0x10000#32
  · rw [if_pos low]
    have member : identityCall (va &&& ~~~0xFFF#32) ∈ identityPages.map identityCall :=
      List.mem_map_of_mem (mem_identityPages low)
    have page : (identityCall (va &&& ~~~0xFFF#32)).virt >>> 12 = va >>> 12 := by
      rw [virt_identityCall]
      exact shift_of_page va
    refine lastMapped_of_unique member page ?_
    intro c member page
    obtain ⟨p, listed, rfl⟩ := List.mem_map.mp member
    rw [virt_identityCall] at page
    rw [← page_of_shift page, (identityPages_page listed).2]
  · rw [if_neg low]
    apply lastMapped_eq_none
    intro c member page
    obtain ⟨p, listed, rfl⟩ := List.mem_map.mp member
    obtain ⟨small, clear⟩ := identityPages_page listed
    have same := toNat_page va
    rw [virt_identityCall] at page
    rw [← page_of_shift page, clear] at same
    have bound : p.toNat < 0x10000 := BitVec.lt_def.mp small
    have high : ¬va.toNat < 0x10000 := fun h => low (BitVec.lt_def.mpr h)
    omega

/-- What kernel_main leaves in the tables. -/
theorem identityMap_run {pt : PageTables} {m : MemoryModel 32 Dev}
    (start : (vmemRuns Dev pt).init m) : ∃ m₁, identityMap pt m = .ok m₁ ∧
      (vmemRuns Dev pt).Path m (identityPages.map fun p => some (identityCall p)) m₁ :=
  foldlM_vmemMap start identityPages m [] (.nil m)

theorem reduceOption_identity :
    ((identityPages.map fun p => some (identityCall p)) ++ [none]).reduceOption =
      identityPages.map identityCall := by
  rw [List.reduceOption_append, List.reduceOption_singleton, Option.toList_none, List.append_nil,
    List.reduceOption, List.filterMap_map]
  exact congrFun (List.filterMap_eq_map (f := identityCall)) identityPages

/-- kernel_main's loop returns. From then on, for as long as the tables and satp are left as
    they are, the addresses below 64 KiB translate to themselves outside U-mode, and every other
    address below 4 MiB raises the page fault of its access. -/
theorem identity_map_exact {pt : PageTables} {m : MemoryModel 32 Dev}
    (start : (vmemRuns Dev pt).init m) : ∃ m₁, identityMap pt m = .ok m₁ ∧
      ∀ (s s' : RVModel 32) (m₂ : MemoryModel 32 Dev), KeepsTables pt m₁ m₂ →
        s'.csr.read CSR.SATP = (vmemEnable pt s).csr.read CSR.SATP →
        ∀ (va : BitVec 32) (access : MemAccess), va < 0x400000#32 →
          s'.translateAddr va access m₂ =
            if s'.privMode ≠ .U ∧ va < 0x10000#32 then (some va, s', m₂)
            else (none, s'.fireTrap (pageFaultCause access) va, m₂) := by
  obtain ⟨m₁, mapped, path⟩ := identityMap_run start
  refine ⟨m₁, mapped, fun s s' m₂ kept enabled va access low => ?_⟩
  have whole : (vmemRuns Dev pt).Path m _ m₂ := .snoc path kept
  have valid : ∀ c, some c ∈ (identityPages.map fun p => some (identityCall p)) ++ [none] →
      c.Valid := by
    intro c member
    simp only [List.mem_append, List.mem_map, Option.some.injEq, List.mem_singleton,
      reduceCtorEq, or_false] at member
    obtain ⟨p, listed, rfl⟩ := member
    exact identityCall_valid listed
  obtain ⟨paging, root⟩ := enabled_paging enabled
  have holds := vmemRuns_holds start whole valid
  rw [reduceOption_identity] at holds
  have validCalls : ∀ c ∈ identityPages.map identityCall, c.Valid := by
    intro c member
    obtain ⟨p, listed, rfl⟩ := List.mem_map.mp member
    exact identityCall_valid listed
  rw [translateAddr_paging paging, holds.leaf validCalls root low, lastMapped_identity]
  by_cases inside : va < 0x10000#32
  · rw [if_pos inside]
    have listed := mem_identityPages inside
    have clear := (identityPages_page listed).2
    have address : (va &&& ~~~0xFFF#32) ||| (va &&& 0xFFF#32) = va := by
      rw [← BitVec.and_or_distrib_left]
      have all : ~~~0xFFF#32 ||| 0xFFF#32 = BitVec.allOnes 32 := by decide
      rw [all, BitVec.and_allOnes]
    simp only [Option.map_some, Option.bind_some, (identityCall_valid listed).leafAddr]
    have supervisor : (identityCall (va &&& ~~~0xFFF#32)).flags &&& PTE_U = 0#32 := by
      change (PTE_R ||| PTE_W ||| PTE_X) &&& PTE_U = 0#32
      decide
    by_cases user : s'.privMode = .U
    · rw [if_pos ⟨user, supervisor⟩, if_neg fun h => h.1 user]
    · rw [if_neg fun h => user h.1, if_pos ⟨user, inside⟩]
      change (some (((va &&& ~~~0xFFF#32) &&& ~~~0xFFF#32) ||| (va &&& 0xFFF#32)), s', m₂) = _
      rw [clear, address]
  · rw [if_neg inside, if_neg fun h => inside h.2]
    rfl

theorem identity_map_exact_small :
    ∃ m₁ : MemoryModel 32 Unit, identityMap smallTables (MemoryModel.new 0x3000 ()) = .ok m₁ ∧
      ∀ s : RVModel 32, s.privMode = .M →
        ((vmemEnable smallTables s).translateAddr 0xF000#32 .store m₁).1 = some 0xF000#32 ∧
        ((vmemEnable smallTables s).translateAddr 0x10000#32 .load m₁).1 = none := by
  obtain ⟨m₁, mapped, exact'⟩ := identity_map_exact smallTables_start
  refine ⟨m₁, mapped, fun s machine => ?_⟩
  have mode : (vmemEnable smallTables s).privMode ≠ .U := by
    change s.privMode ≠ .U
    rw [machine]
    decide
  have inside := exact' s (vmemEnable smallTables s) m₁ (.refl _ _) rfl 0xF000#32 .store (by decide)
  have outside := exact' s (vmemEnable smallTables s) m₁ (.refl _ _) rfl 0x10000#32 .load
    (by decide)
  rw [if_pos ⟨mode, by decide⟩] at inside
  rw [if_neg (by simp)] at outside
  exact ⟨congrArg Prod.fst inside, congrArg Prod.fst outside⟩

/-- What the host of the processor does: step(), an interrupt, and its work on the devices. -/
inductive Act (Dev : Type) where
  | step
  | interrupt (cause : BitVec 32)
  | device (f : Dev → Dev)

def act (p : RVModel 32 × MemoryModel 32 Dev) :
    Act Dev → Except Exn Unit × RVModel 32 × MemoryModel 32 Dev
  | .step => p.1.step p.2
  | .interrupt cause => (.ok (), (p.1.triggerInterrupt cause).2, p.2)
  | .device f => (.ok (), p.1, { p.2 with dev := f p.2.dev })

/-- A step of code that keeps to the kernel's 64 KiB, its mode, satp and the tables. -/
structure Confined (pt : PageTables) (s : RVModel 32) (m : MemoryModel 32 Dev) : Prop where
  mode : s.privMode ≠ .U
  inside : ∀ access va, StepAccesses s m access va → va < 0x10000#32
  satp : ∀ raw, s.fetched m = some raw → ¬NamesSatp (Decoder.decode 32 raw)
  tables : KeepsTables pt m (s.step m).2.2

def ConfinedAct (pt : PageTables) (p : RVModel 32 × MemoryModel 32 Dev) : Act Dev → Prop
  | .step => Confined pt p.1 p.2
  | _ => True

theorem vmemEnable_eq (pt : PageTables) (s : RVModel 32) :
    vmemEnable pt s = s.withSatp ((vmemEnable pt s).csr.read CSR.SATP) := by
  rw [satp_vmemEnable]
  rfl

theorem Confined.selfMapped {pt : PageTables} {s : RVModel 32} {m : MemoryModel 32 Dev}
    {satp : BitVec 32} (h : Confined pt s m) (bare : ¬s.Paging)
    (self : ∀ va access, va < 0x10000#32 →
      ((s.withSatp satp).translateAddr va access m).1 = some va) :
    SelfMapped (s.withSatp satp) m := by
  intro access va accesses
  cases accesses with
  | fetch running => exact self _ _ (h.inside _ _ (.fetch running))
  | data raw access va word accesses =>
    cases stopped : s.halted with
    | true =>
      unfold fetched at word
      rw [if_pos (show (s.withSatp satp).halted = true from stopped)] at word
      cases word
    | false =>
      have pc := self s.pc .fetch (h.inside _ _ (.fetch stopped))
      have word' := fetched_of_self (s := s.withSatp satp) stopped pc
      have same := fetched_of_self (s := s) stopped
        (congrArg Prod.fst (translateAddr_bare bare s.pc .fetch m))
      have fetched : s.fetched m = some raw := (same.trans word'.symm).trans word
      exact self va access (h.inside _ _ (.data raw access va fetched accesses))

/-- The machine after vmem_enable, beside the machine without it. -/
structure Paged (pt : PageTables) (m₁ : MemoryModel 32 Dev) (satp : BitVec 32)
    (p q : RVModel 32 × MemoryModel 32 Dev) : Prop where
  bare : ¬p.1.Paging
  tables : KeepsTables pt m₁ p.2
  same : q = (p.1.withSatp satp, p.2)

theorem Paged.act {pt : PageTables} {m₁ : MemoryModel 32 Dev} {satp : BitVec 32}
    (self : ∀ (s : RVModel 32) (m : MemoryModel 32 Dev), KeepsTables pt m₁ m → s.privMode ≠ .U →
      ∀ va access, va < 0x10000#32 → ((s.withSatp satp).translateAddr va access m).1 = some va)
    (p q : RVModel 32 × MemoryModel 32 Dev) (a : Act Dev) (h : Paged pt m₁ satp p q)
    (confined : ConfinedAct pt p a) :
    (act p a).1 = (act q a).1 ∧ Paged pt m₁ satp (act p a).2 (act q a).2 := by
  obtain ⟨s, m⟩ := p
  obtain ⟨bare, tables, rfl⟩ := h
  cases a with
  | step =>
    have confined : Confined pt s m := confined
    have whole := SelfMapped.of_bare (m := m) bare
    have mapped := confined.selfMapped bare (self s m tables confined.mode)
    have stepped := step_withSatp whole mapped confined.satp
    have satpKept := step_satp whole confined.satp
    have stays : ¬(s.step m).2.1.Paging := by
      unfold Paging at bare ⊢
      rwa [satpKept]
    refine ⟨(congrArg Prod.fst stepped).symm, stays, tables.trans confined.tables, ?_⟩
    exact congrArg Prod.snd stepped
  | interrupt cause =>
    have satpKept : (s.triggerInterrupt cause).2.csr.read CSR.SATP = s.csr.read CSR.SATP := by
      have again := triggerInterrupt_withSatp s (s.csr.read CSR.SATP) cause
      rw [withSatp_self] at again
      rw [again]
      rfl
    have stays : ¬(s.triggerInterrupt cause).2.Paging := by
      unfold Paging at bare ⊢
      rwa [satpKept]
    refine ⟨rfl, stays, tables, ?_⟩
    exact congrArg (fun cpu => (cpu, m)) (triggerInterrupt_withSatp s satp cause)
  | device f => exact ⟨rfl, bare, tables.trans ⟨rfl, rfl, fun _ _ => rfl⟩, rfl⟩

def addiImage : MemoryModel 32 Unit :=
  { MemoryModel.new 0x3000 () with data := fun i => [0x93#8, 0x00#8, 0x70#8, 0x00#8].getD i 0#8 }

def mappedImage : MemoryModel 32 Unit := (identityMap smallTables addiImage).toOption.getD addiImage

theorem addiImage_start : (vmemRuns Unit smallTables).init addiImage := by
  obtain ⟨placed, -, -⟩ := smallTables_start
  refine ⟨placed.of_layout rfl, by decide, fun i small => ?_⟩
  have bound : i.toNat < 1024 := BitVec.lt_def.mp small
  have base : smallTables.l0Pt.toNat = 0x2000 := by decide
  have entry := toNat_l0Entry smallTables small
  have zero : addiImage.wordAt (smallTables.l0Entry i) = leWord fun _ => 0#8 := by
    apply leWord_congr
    intro k low
    apply List.getD_eq_default
    change 4 ≤ (smallTables.l0Entry i + BitVec.ofNat 32 k).toNat
    rw [BitVec.toNat_add, BitVec.toNat_ofNat]
    omega
  rw [zero]
  decide

theorem addiImage_mapped : identityMap smallTables addiImage = .ok mappedImage := by
  obtain ⟨m', mapped, -⟩ := identityMap_run addiImage_start
  unfold mappedImage
  rw [mapped]
  rfl

theorem addiImage_fetched :
    (RVModel.new ⟨0#32⟩ : RVModel 32).fetched mappedImage = some 0x00700093#32 := by
  decide

theorem addiImage_confined :
    Confined smallTables (RVModel.new ⟨0#32⟩ : RVModel 32) mappedImage := by
  have still : ((RVModel.new ⟨0#32⟩ : RVModel 32).step mappedImage).2.2 = mappedImage := by
    rw [step_eq_executeWord addiImage_fetched]
    rfl
  refine ⟨by decide, ?_, ?_, ?_⟩
  · intro access va accesses
    cases accesses with
    | fetch running => decide
    | data raw access va word accesses =>
      rw [addiImage_fetched] at word
      obtain rfl := Option.some.inj word
      exact absurd accesses (by simp [show dataAccess (RVModel.new ⟨0#32⟩ : RVModel 32)
        (Decoder.decode 32 0x00700093#32) = none from rfl])
  · intro raw word
    rw [addiImage_fetched] at word
    obtain rfl := Option.some.inj word
    decide
  · rw [still]
    exact .refl _ _

end XorOS.Kernel
