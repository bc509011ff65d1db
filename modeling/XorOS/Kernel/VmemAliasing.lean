import XorOS.Kernel.Vmem
import XorOS.Simulator.PhysicalAddresses

/- vmem.c above 4 MiB, where "all addresses have vpn[1]=0" does not hold: vmem_map drops the upper
   index, and the walk reads what the linker has put after the one word of root_pt. -/
namespace XorOS.Kernel
open ISA Bits MemoryModel RVModel Runs
variable {Dev : Type} {pt : PageTables} {m m' : MemoryModel 32 Dev}

def PageTables.rootEntry (pt : PageTables) (i : BitVec 32) : BitVec 32 := pt.rootPt + (i <<< 2)

theorem rootEntry_or (pt : PageTables) {i : BitVec 32} (small : i < 1024#32) :
    pt.rootEntry i = pt.rootPt ||| (i <<< 2) := by
  apply add_eq_or_of_clear pt.rootAligned
  apply BitVec.eq_of_toNat_eq
  rw [BitVec.toNat_ushiftRight, toNat_index small, Nat.shiftRight_eq_div_pow]
  have bound : i.toNat < 1024 := BitVec.lt_def.mp small
  simp only [BitVec.toNat_ofNat]
  omega

theorem vpn_one (va : BitVec 32) : vpn va 1 = va >>> 22 := by
  apply BitVec.eq_of_toNat_eq
  rw [toNat_vpn_one, BitVec.toNat_ushiftRight, Nat.shiftRight_eq_div_pow]

theorem upper_lt (va : BitVec 32) : va >>> 22 < 1024#32 := by
  rw [BitVec.lt_def, BitVec.toNat_ushiftRight, Nat.shiftRight_eq_div_pow]
  change va.toNat / 2 ^ 22 < 1024
  omega

theorem vpn0_low (virt : BitVec 32) : vpn0 (virt &&& 0x3FFFFF#32) = vpn0 virt := by
  have mask := toNat_and_mask (w := 32) (k := 22) (by omega) virt
  apply BitVec.eq_of_toNat_eq
  rw [toNat_vpn0, toNat_vpn0]
  change (virt &&& BitVec.ofNat 32 (2 ^ 22 - 1)).toNat / 4096 % 1024 = _
  rw [mask]
  omega

theorem vmemMap_low (pt : PageTables) (virt phys flags : BitVec 32) (m : MemoryModel 32 Dev) :
    vmemMap pt virt phys flags m = vmemMap pt (virt &&& 0x3FFFFF#32) phys flags m := by
  unfold vmemMap
  rw [vpn0_low]

theorem leaf_of_invalid_root {s : RVModel 32} (root : rootTable (s.csr.read CSR.SATP) = pt.rootPt)
    {va : BitVec 32}
    (invalid : ∀ w, m.readWord (pt.rootEntry (va >>> 22)) = .ok w → w &&& PTE_V = 0#32) :
    s.leaf va m = none := by
  have entry : pt.rootPt ||| (vpn va 1 <<< 2) = pt.rootEntry (va >>> 22) := by
    rw [vpn_one, rootEntry_or pt (upper_lt va)]
  unfold RVModel.leaf walkLeaf
  rw [root, memT_readWord, entry]
  cases read : m.readWord (pt.rootEntry (va >>> 22)) with
  | error e => rfl
  | ok w =>
    have zero : w &&& 0x1#32 = 0#32 := invalid w read
    simp only [BitVec.setWidth_eq, zero, if_true]

theorem translateAddr_of_leaf {s : RVModel 32} (paging : s.Paging) {va : BitVec 32}
    (same : s.leaf va m' = s.leaf va m) (access : MemAccess) :
    (s.translateAddr va access m').1 = (s.translateAddr va access m).1 ∧
      (s.translateAddr va access m').2.1 = (s.translateAddr va access m).2.1 := by
  rw [translateAddr_paging paging, translateAddr_paging paging, same]
  split
  · exact ⟨rfl, rfl⟩
  · exact ⟨rfl, rfl⟩

/-- After any run of vmem_map calls and then vmem_enable: a vmem_map of any virt is one of virt
    modulo 4 MiB, which leaves the translation of a lower va alone unless va has the same index
    in l0_pt; and a va from 4 MiB on page-faults, mapped or not, as long as the word found at its
    index from root_pt on cannot be read or has V = 0. -/
theorem high_pages_alias_low {labels : List (Option MapCall)}
    (start : (vmemRuns Dev pt).init m) (path : (vmemRuns Dev pt).Path m labels m')
    {s s' : RVModel 32} (enabled : s'.csr.read CSR.SATP = (vmemEnable pt s).csr.read CSR.SATP)
    (access : MemAccess) :
    (∀ (c : MapCall) (m'' : MemoryModel 32 Dev), (vmemRuns Dev pt).step m' (some c) m'' →
      vmemMap pt (c.virt &&& 0x3FFFFF#32) c.phys c.flags m' = .ok m'' ∧
      ∀ va, va < 0x400000#32 → vpn0 va ≠ vpn0 c.virt →
        (s'.translateAddr va access m'').1 = (s'.translateAddr va access m').1 ∧
        (s'.translateAddr va access m'').2.1 = (s'.translateAddr va access m').2.1) ∧
    ∀ va, 0x400000#32 ≤ va →
      (∀ w, m'.readWord (pt.rootEntry (va >>> 22)) = .ok w → w &&& PTE_V = 0#32) →
      s'.translateAddr va access m' =
        (none, s'.fireTrap (pageFaultCause access) va, m') := by
  have entries := vmemRuns_entries start path
  obtain ⟨paging, root⟩ := enabled_paging enabled
  constructor
  · intro c m'' mapped
    have after := entries.map mapped
    refine ⟨(vmemMap_low pt _ _ _ m').symm.trans mapped, fun va low other => ?_⟩
    apply translateAddr_of_leaf paging
    rw [after.leaf root low, entries.leaf root low, lastIndexed_append, if_neg (Ne.symm other)]
  · intro va _ invalid
    rw [translateAddr_paging paging, leaf_of_invalid_root root invalid]
    rfl

def mapPage (virt phys : BitVec 32) (m : MemoryModel 32 Unit) : MemoryModel 32 Unit :=
  (vmemMap smallTables virt phys PTE_R m).toOption.getD m

def lowPages : MemoryModel 32 Unit :=
  mapPage 0x6000#32 0x8000#32 (mapPage 0x5000#32 0x7000#32 (MemoryModel.new 0x3000 ()))

/-- A call for 0x405000 keeps the translation of 0x6000, takes the entry of 0x5000, and leaves
    0x405000 with its page fault. -/
theorem high_pages_alias_low_mapped :
    let cpu := vmemEnable smallTables (RVModel.new ⟨0#32⟩)
    let m := mapPage 0x405000#32 0x9000#32 lowPages
    (vmemRuns Unit smallTables).step lowPages (some ⟨0x405000#32, 0x9000#32, PTE_R⟩) m ∧
      (cpu.translateAddr 0x6ABC#32 .load m).1 = some 0x8ABC#32 ∧
      (cpu.translateAddr 0x5ABC#32 .load m).1 = some 0x9ABC#32 ∧
      cpu.translateAddr 0x405000#32 .load m = (none, cpu.fireTrap 13#32 0x405000#32, m) := by
  intro cpu m
  have enabled : cpu.csr.read CSR.SATP =
      (vmemEnable smallTables (RVModel.new ⟨0#32⟩)).csr.read CSR.SATP := rfl
  have low : (vmemRuns Unit smallTables).Path (MemoryModel.new 0x3000 ())
      [some ⟨0x5000#32, 0x7000#32, PTE_R⟩, some ⟨0x6000#32, 0x8000#32, PTE_R⟩] lowPages := by
    have first : (vmemRuns Unit smallTables).step (MemoryModel.new 0x3000 ())
      (some ⟨0x5000#32, 0x7000#32, PTE_R⟩)
      (mapPage 0x5000#32 0x7000#32 (MemoryModel.new 0x3000 ())) := rfl
    have second : (vmemRuns Unit smallTables).step
      (mapPage 0x5000#32 0x7000#32 (MemoryModel.new 0x3000 ()))
      (some ⟨0x6000#32, 0x8000#32, PTE_R⟩) lowPages := rfl
    exact .snoc (.snoc (.nil _) first) second
  have high : (vmemRuns Unit smallTables).step lowPages
    (some ⟨0x405000#32, 0x9000#32, PTE_R⟩) m := rfl
  obtain ⟨lower, _⟩ := high_pages_alias_low smallTables_start low enabled .load
  have kept := ((lower _ m high).2 0x6ABC#32 (by decide) (by decide)).1
  have before : (cpu.translateAddr 0x6ABC#32 .load lowPages).1 = some 0x8ABC#32 := by decide
  obtain ⟨_, faults⟩ := high_pages_alias_low smallTables_start (low.snoc high) enabled .load
  refine ⟨high, kept.trans before, by decide, faults 0x405000#32 (by decide) ?_⟩
  have zero : m.readWord (smallTables.rootEntry (0x405000#32 >>> 22)) = .ok 0#32 := by decide
  intro w read
  rw [zero] at read
  rw [← Except.ok.inj read]
  decide

/-- The kernel data after root_pt[0] is a word with V, R, W and X set. -/
def strayTables : MemoryModel 32 Unit :=
  { MemoryModel.new 0x3000 () with data := fun i => if i = 0x1004 then 0x0F#8 else 0#8 }

theorem strayTables_start : (vmemRuns Unit smallTables).init strayTables := by
  refine ⟨⟨by decide, findMmio_empty _ rfl _, by decide, fun a _ => findMmio_empty _ rfl a⟩,
    by decide, fun i small => ?_⟩
  have bound : i.toNat < 1024 := BitVec.lt_def.mp small
  have address := toNat_l0Entry smallTables small
  have base : smallTables.l0Pt.toNat = 0x2000 := rfl
  refine Eq.trans (leWord_congr (c := fun _ => 0#8) fun k lt => ?_) (by decide)
  apply if_neg
  rw [BitVec.toNat_add, address, base, BitVec.toNat_ofNat]
  omega

/-- A va from 4 MiB on that nothing mapped, through the stray root entry; and a call for
    0x400000 that maps page 0. -/
theorem high_pages_not_isolated :
    let cpu := vmemEnable smallTables (RVModel.new ⟨0#32⟩)
    (vmemRuns Unit smallTables).init strayTables ∧
    (cpu.translateAddr 0x400000#32 .load strayTables).1 = some 0#32 ∧
    (cpu.translateAddr 0#32 .load strayTables).1 = none ∧
    ∃ m', (vmemRuns Unit smallTables).step strayTables
        (some ⟨0x400000#32, 0x5000#32, PTE_R⟩) m' ∧
      (cpu.translateAddr 0#32 .load m').1 = some 0x5000#32 := by
  intro cpu
  have entries := vmemRuns_entries strayTables_start (.nil _)
  obtain ⟨m', mapped, _⟩ :=
    vmemMap_spec entries.placed entries.linked 0x400000#32 0x5000#32 PTE_R
  have after := entries.map (c := ⟨0x400000#32, 0x5000#32, PTE_R⟩) mapped
  refine ⟨strayTables_start, by decide, by decide, m', mapped, ?_⟩
  have low : 0#32 < 0x400000#32 := by decide
  have leaf := after.leaf (rootTable_vmemEnable smallTables (RVModel.new ⟨0#32⟩)) low
  have found : cpu.leaf 0#32 m' = some (0, l0Pte 0x5000#32 PTE_R) := leaf.trans (by decide)
  have target : leafAddr cpu.privMode 0#32 0 (l0Pte 0x5000#32 PTE_R) = some 0x5000#32 := by
    decide
  rw [translateAddr_paging (paging_vmemEnable smallTables _), found, Option.bind_some]
  simp only
  rw [target]

end XorOS.Kernel
