import XorOS.Simulator.PhysicalAddresses

/- The permission bits of a leaf. translateAddr reads R and X to tell a leaf from a pointer, and
   W never: whether the access is allowed is up to the words of the page table. -/
namespace XorOS.RVModel
open Bits ISA
variable {Dev : Type}

/-- PTE.X for a fetch, PTE.R for a load, PTE.W for a store, LR, SC or AMO. -/
def Permits (access : MemAccess) (pte : WordT) : Prop :=
  match access with
  | .fetch => pte.getLsbD 3 = true
  | .load => pte.getLsbD 1 = true
  | .store => pte.getLsbD 2 = true

instance : (access : MemAccess) → (pte : WordT) → Decidable (Permits access pte)
  | .fetch, _ | .load, _ | .store, _ => inferInstanceAs (Decidable (_ = true))

/-- The PTEs in memory that the two-level path for va leads over. -/
def path (s : RVModel 32) (va : BitVec 32) (m : MemoryModel 32 Dev) : List WordT :=
  ptesAlong m (rootTable (s.csr.read CSR.SATP)) va

def LeafPermits (s : RVModel 32) (va : BitVec 32) (access : MemAccess)
    (m : MemoryModel 32 Dev) : Prop :=
  ∃ lvl pte, landing (s.path va m) = some (lvl, pte) ∧ Permits access pte

/-- What the leaf permissions are for: nothing passes without its bit, and what does not pass
    takes the page fault of its access and changes no register and no memory. -/
structure PermissionsEnforced (s : RVModel 32) (va : BitVec 32) (access : MemAccess)
    (m : MemoryModel 32 Dev) : Prop where
  returns : ∀ pa, (s.translateAddr va access m).1 = some pa → LeafPermits s va access m
  faults : ¬LeafPermits s va access m →
    s.translateAddr va access m = (none, s.fireTrap (pageFaultCause access) va, m)
  harmless : ¬LeafPermits s va access m → StepAccesses s m access va →
    (s.step m).2.1.regs = s.regs ∧ (s.step m).2.2 = m

/-- A word that is a leaf for the mode: V, and R or X; U in U-mode; and as a superpage a page
    number that is a multiple of 2 ^ 10. -/
structure OpenLeaf (priv : PrivMode) (superpage : Bool) (pte : WordT) : Prop where
  valid : pte.getLsbD 0 = true
  rx : pte.getLsbD 1 = true ∨ pte.getLsbD 3 = true
  user : priv = .U → pte.getLsbD 4 = true
  aligned : superpage = true → ppn pte % 2 ^ 10 = 0

/-- The last word of the path, if it is a leaf for the mode, has the bit of the access. -/
def LastPermits (priv : PrivMode) (access : MemAccess) : List WordT → Prop
  | [pte] => OpenLeaf priv true pte → Permits access pte
  | [_, pte] => OpenLeaf priv false pte → Permits access pte
  | _ => True

theorem openLeaf_iff (priv : PrivMode) (lvl : Nat) (pte : WordT) :
    OpenLeaf priv (decide (lvl = 1)) pte ↔ LeafPte pte ∧ Accepted priv lvl pte := by
  have user : pte &&& (1#32 <<< 4) ≠ 0#32 ↔ pte.getLsbD 4 = true := by
    have bit : pte &&& (1#32 <<< 4) = 0#32 ↔ pte.getLsbD 4 = false := and_bit_eq_zero_iff pte 4
    rw [ne_eq, bit, Bool.not_eq_false]
  have page : (pte >>> 10) &&& 0x3FF#32 = 0#32 ↔ ppn pte % 2 ^ 10 = 0 := by
    have low := and_mask_eq_zero_iff (w := 32) (k := 10) (by omega) (pte >>> 10)
    exact low.trans ((lowClear_iff_mod 10 _).trans (by rw [toNat_ppn]))
  unfold Accepted
  rw [leafPte_iff, user, page]
  constructor
  · intro h
    exact ⟨⟨h.valid, h.rx⟩, fun one => h.aligned (decide_eq_true one), h.user⟩
  · rintro ⟨⟨valid, rx⟩, aligned, user⟩
    exact ⟨valid, rx, user, fun one => aligned (of_decide_eq_true one)⟩

theorem lastPermits_iff (priv : PrivMode) (access : MemAccess) (ptes : List WordT) :
    LastPermits priv access ptes ↔ ∀ lvl pte, landing ptes = some (lvl, pte) →
      Accepted priv lvl pte → Permits access pte := by
  match ptes with
  | [] => simp [LastPermits, landing]
  | [pte] =>
    have isLeaf := openLeaf_iff priv 1 pte
    simp only [decide_true] at isLeaf
    simp only [LastPermits, isLeaf, landing, Option.ite_none_right_eq_some, Option.some.injEq,
      Prod.mk.injEq]
    constructor
    · rintro permits lvl q ⟨leaf, rfl, rfl⟩ accepted
      exact permits ⟨leaf, accepted⟩
    · rintro permits ⟨leaf, accepted⟩
      exact permits 1 pte ⟨leaf, rfl, rfl⟩ accepted
  | [first, pte] =>
    have isLeaf := openLeaf_iff priv 0 pte
    simp only [show decide (0 = 1) = false from rfl] at isLeaf
    simp only [LastPermits, isLeaf, landing, Option.ite_none_right_eq_some, Option.some.injEq,
      Prod.mk.injEq]
    constructor
    · rintro permits lvl q ⟨leaf, rfl, rfl⟩ accepted
      exact permits ⟨leaf, accepted⟩
    · rintro permits ⟨leaf, accepted⟩
      exact permits 0 pte ⟨leaf, rfl, rfl⟩ accepted
  | _ :: _ :: _ :: _ => simp [LastPermits, landing]

/-- The permissions are enforced for an access exactly if the last PTE on the path, where it is a
    leaf for the mode, happens to have the bit of the access. -/
theorem permissions_enforced_iff {s : RVModel 32} (paging : s.Paging) (va : BitVec 32)
    (access : MemAccess) (m : MemoryModel 32 Dev) :
    PermissionsEnforced s va access m ↔ LastPermits s.privMode access (s.path va m) := by
  have result : (s.translateAddr va access m).1 =
      (landing (s.path va m)).bind fun l => leafAddr s.privMode va l.1 l.2 :=
    translateAddr_landing paging va access m
  rw [lastPermits_iff]
  constructor
  · intro enforced lvl pte landed accepted
    obtain ⟨pa, found⟩ :=
      Option.ne_none_iff_exists'.mp ((leafAddr_ne_none_iff _ va _ _).mpr accepted)
    rw [landed, Option.bind_some, found] at result
    obtain ⟨lvl', pte', landed', permits⟩ := enforced.returns pa result
    rw [landed, Option.some.injEq, Prod.mk.injEq] at landed'
    rw [landed'.2]
    exact permits
  · intro condition
    have refuses (refused : ¬LeafPermits s va access m) :
        (s.translateAddr va access m).1 = none := by
      rw [result]
      cases landed : landing (s.path va m) with
      | none => rfl
      | some l =>
        by_contra some
        have accepted := (leafAddr_ne_none_iff s.privMode va l.1 l.2).mp some
        exact refused ⟨l.1, l.2, landed, condition l.1 l.2 landed accepted⟩
    refine ⟨?_, fun refused => ?_, fun refused accesses => step_of_fault accesses (refuses refused)⟩
    · intro pa found
      by_contra refused
      rw [refuses refused] at found
      cases found
    · rcases translateAddr_cases s va access m with ⟨pa, eq⟩ | eq
      · have none := refuses refused
        rw [eq] at none
        cases none
      · exact eq

theorem permissions_enforced_iff_load :
    PermissionsEnforced pagedCpu 0x100#32 .load readOnlyImage := by
  have paging : pagedCpu.Paging := by decide
  refine (permissions_enforced_iff paging 0x100#32 .load readOnlyImage).mpr ?_
  have words : pagedCpu.path 0x100#32 readOnlyImage = [0x03#32] := by decide
  rw [words]
  intro _
  decide

/-- A store to a page without W is translated. -/
theorem store_passes_without_W :
    pagedCpu.Paging ∧ pagedCpu.path 0x100#32 readOnlyImage = [0x03#32] ∧
      (pagedCpu.translateAddr 0x100#32 .store readOnlyImage).1 = some 0x100#32 ∧
      ¬PermissionsEnforced pagedCpu 0x100#32 .store readOnlyImage := by
  have words : pagedCpu.path 0x100#32 readOnlyImage = [0x03#32] := by decide
  have found : (pagedCpu.translateAddr 0x100#32 .store readOnlyImage).1 = some 0x100#32 := by
    decide
  refine ⟨by decide, words, found, ?_⟩
  intro enforced
  obtain ⟨lvl, pte, landed, permits⟩ := enforced.returns _ found
  rw [words] at landed
  have same : landing [0x03#32] = some (1, 0x03#32) := by decide
  rw [same, Option.some.injEq, Prod.mk.injEq] at landed
  rw [← landed.2] at permits
  revert permits
  decide

end XorOS.RVModel
