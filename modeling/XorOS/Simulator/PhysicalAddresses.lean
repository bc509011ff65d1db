import XorOS.Library.Bits
import XorOS.Simulator.Translation

/- translateAddr computes physical addresses in the 32 bits of an Addr. The Sv32 walk has 34 of
   them, and takes a PTE for a pointer only if none of R, W and X is set. -/
namespace XorOS.RVModel
open Bits ISA
variable {Dev : Type}

inductive PteKind where
  | fault
  | pointer
  | leaf

/-- V = 0 faults, and so does W without R. -/
def pteKind (pte : WordT) : PteKind :=
  if pte.getLsbD 0 = false ∨ (pte.getLsbD 2 = true ∧ pte.getLsbD 1 = false) then .fault
  else if pte.getLsbD 1 = true ∨ pte.getLsbD 3 = true then .leaf
  else .pointer

def ppn (pte : WordT) : Nat := pte.toNat / 2 ^ 10

/-- There is no memory from 2 ^ 32 on. -/
def readPhysical (m : MemoryModel 32 Dev) (a : Nat) : Option WordT :=
  if a < 2 ^ 32 then (m.readWord (BitVec.ofNat 32 a)).toOption else none

/-- The two-level walk with exact physical addresses, and the address that it yields. -/
def exactWalk (m : MemoryModel 32 Dev) (satp va : BitVec 32) : Option Nat :=
  (readPhysical m (satp.toNat % 2 ^ 22 * 2 ^ 12 + va.toNat / 2 ^ 22 * 4)).bind fun first =>
    match pteKind first with
    | .fault => none
    | .leaf =>
        if ppn first % 2 ^ 10 = 0 then some (ppn first * 2 ^ 12 + va.toNat % 2 ^ 22) else none
    | .pointer =>
        (readPhysical m (ppn first * 2 ^ 12 + va.toNat / 2 ^ 12 % 2 ^ 10 * 4)).bind fun second =>
          match pteKind second with
          | .leaf => some (ppn second * 2 ^ 12 + va.toNat % 2 ^ 12)
          | _ => none

/-- V = 1, and R = 1 or X = 1: where the loop of translateAddr enters its leaf branch. -/
def LeafPte (pte : WordT) : Prop := pte &&& 0x1#32 ≠ 0#32 ∧ pte &&& 0xA#32 ≠ 0#32

instance (pte : WordT) : Decidable (LeafPte pte) := inferInstanceAs (Decidable (_ ∧ _))

/-- The PTEs in memory along the 32-bit addresses, from the root table at a. -/
def ptesAlong (m : MemoryModel 32 Dev) (a va : BitVec 32) : List WordT :=
  match m.readWord (a ||| vpn va 1 <<< 2) with
  | .error _ => []
  | .ok first =>
      if first &&& 0x1#32 = 0#32 ∨ first &&& 0xA#32 ≠ 0#32 then [first]
      else
        match m.readWord (((first >>> 10) <<< 12) ||| vpn va 0 <<< 2) with
        | .error _ => [first]
        | .ok second => [first, second]

def landing : List WordT → Option (Nat × WordT)
  | [pte] => if LeafPte pte then some (1, pte) else none
  | [_, pte] => if LeafPte pte then some (0, pte) else none
  | _ => none

theorem walkLeaf_landing (m : MemoryModel 32 Dev) (a va : BitVec 32) :
    (walkLeaf va 1 a m).1 = landing (ptesAlong m a va) := by
  unfold walkLeaf ptesAlong
  rw [MemoryModel.memT_readWord]
  cases m.readWord (a ||| vpn va 1 <<< 2) with
  | error e => rfl
  | ok first =>
    simp only [BitVec.setWidth_eq]
    by_cases invalid : first &&& 0x1#32 = 0#32
    · simp [invalid, landing, LeafPte]
    by_cases rx : first &&& 0xA#32 = 0#32
    · simp only [invalid, rx, if_false, ne_eq, not_true_eq_false, or_self]
      unfold walkLeaf
      rw [MemoryModel.memT_readWord]
      cases m.readWord (((first >>> 10) <<< 12) ||| vpn va 0 <<< 2) with
      | error e => simp [landing, LeafPte, rx]
      | ok second =>
        simp only [BitVec.setWidth_eq, landing, LeafPte]
        by_cases invalid' : second &&& 0x1#32 = 0#32
        · simp [invalid']
        by_cases rx' : second &&& 0xA#32 = 0#32
        · simp [invalid', rx']
        · simp [invalid', rx']
    · simp [invalid, rx, landing, LeafPte]

/-- The walk ends in a leaf that passes the checks of the leaf branch. -/
def Lands (priv : PrivMode) (ptes : List WordT) : Prop :=
  ∃ lvl pte, landing ptes = some (lvl, pte) ∧ Accepted priv lvl pte

/-- A PTE that 32-bit physical addresses are enough for, without W or with W and R. -/
structure ProperPte (pte : WordT) : Prop where
  low : ppn pte < 2 ^ 20
  readable : pte.getLsbD 2 = true → pte.getLsbD 1 = true

theorem toNat_vpn_one (va : BitVec 32) : (vpn va 1).toNat = va.toNat / 2 ^ 22 := by
  have mask := toNat_and_mask (w := 32) (k := 10) (by omega) (va >>> 22)
  rw [BitVec.toNat_ushiftRight, Nat.shiftRight_eq_div_pow] at mask
  have bound := va.isLt
  refine mask.trans ?_
  omega

theorem toNat_vpn_zero (va : BitVec 32) : (vpn va 0).toNat = va.toNat / 2 ^ 12 % 2 ^ 10 := by
  have mask := toNat_and_mask (w := 32) (k := 10) (by omega) (va >>> 12)
  rw [BitVec.toNat_ushiftRight, Nat.shiftRight_eq_div_pow] at mask
  exact mask

theorem toNat_ppn (pte : WordT) : (pte >>> 10).toNat = ppn pte := by
  rw [BitVec.toNat_ushiftRight, Nat.shiftRight_eq_div_pow]
  rfl

theorem toNat_entry (p v : BitVec 32) (small : v.toNat < 2 ^ 10) :
    ((p <<< 12) ||| (v <<< 2)).toNat = (p.toNat * 2 ^ 12 + v.toNat * 4) % 2 ^ 32 := by
  have index : (v <<< 2).toNat = v.toNat * 4 := toNat_shiftLeft_of_lt (k := 2) (by omega)
  have table : (p <<< 12).toNat = p.toNat * 2 ^ 12 % 2 ^ 32 := by
    rw [BitVec.toNat_shiftLeft, Nat.shiftLeft_eq]
  rw [toNat_or_of_lt 12 (by omega) (by omega), index, table]
  omega

theorem readPhysical_entry (m : MemoryModel 32 Dev) (p v : BitVec 32) (small : v.toNat < 2 ^ 10) :
    readPhysical m (p.toNat * 2 ^ 12 + v.toNat * 4) =
      if p.toNat < 2 ^ 20 then (m.readWord ((p <<< 12) ||| (v <<< 2))).toOption else none := by
  have fits : p.toNat * 2 ^ 12 + v.toNat * 4 < 2 ^ 32 ↔ p.toNat < 2 ^ 20 := by omega
  have wraps := toNat_entry p v small
  simp only [readPhysical, fits]
  split
  · rename_i low
    congr 2
    apply BitVec.eq_of_toNat_eq
    rw [wraps, BitVec.toNat_ofNat]
  · rfl

theorem read_first (m : MemoryModel 32 Dev) (satp va : BitVec 32) :
    readPhysical m (satp.toNat % 2 ^ 22 * 2 ^ 12 + va.toNat / 2 ^ 22 * 4) =
      if satp.toNat % 2 ^ 22 < 2 ^ 20 then
        (m.readWord (rootTable satp ||| vpn va 1 <<< 2)).toOption
      else none := by
  have root : (satp &&& 0x3FFFFF#32).toNat = satp.toNat % 2 ^ 22 :=
    toNat_and_mask (w := 32) (k := 22) (by omega) satp
  have small : (vpn va 1).toNat < 2 ^ 10 := by
    have := va.isLt
    rw [toNat_vpn_one]
    omega
  rw [← root, ← toNat_vpn_one]
  exact readPhysical_entry m _ _ small

theorem read_second (m : MemoryModel 32 Dev) (first : WordT) (va : BitVec 32) :
    readPhysical m (ppn first * 2 ^ 12 + va.toNat / 2 ^ 12 % 2 ^ 10 * 4) =
      if ppn first < 2 ^ 20 then
        (m.readWord (((first >>> 10) <<< 12) ||| vpn va 0 <<< 2)).toOption
      else none := by
  have small : (vpn va 0).toNat < 2 ^ 10 := by
    rw [toNat_vpn_zero]
    omega
  rw [← toNat_ppn, ← toNat_vpn_zero]
  exact readPhysical_entry m _ _ small

theorem leafPte_iff (pte : WordT) :
    LeafPte pte ↔ pte.getLsbD 0 = true ∧ (pte.getLsbD 1 = true ∨ pte.getLsbD 3 = true) := by
  have valid := and_bit_eq_zero_iff pte 0
  have masked : pte &&& 0xA#32 = 0#32 ↔ pte.getLsbD 1 = false ∧ pte.getLsbD 3 = false := by
    constructor
    · intro zero
      have bit (i : Nat) := congrArg (fun x => x.getLsbD i) zero
      have one := bit 1
      have three := bit 3
      simp only [BitVec.getLsbD_and] at one three
      simpa using And.intro one three
    · rintro ⟨one, three⟩
      apply BitVec.eq_of_getLsbD_eq
      intro i hi
      rw [BitVec.getLsbD_and]
      by_cases low : i = 1 ∨ i = 3
      · rcases low with rfl | rfl
        · rw [one, Bool.false_and, BitVec.getLsbD_zero]
        · rw [three, Bool.false_and, BitVec.getLsbD_zero]
      · have bit : (0xA#32).getLsbD i = false := by
          have table : ∀ i < 32, ¬(i = 1 ∨ i = 3) → (0xA#32).getLsbD i = false := by decide
          exact table i hi low
        simp [bit]
  have one : (0x1#32) = BitVec.ofNat 32 (2 ^ 0) := rfl
  rw [LeafPte, one, ne_eq, ne_eq, valid, masked]
  cases pte.getLsbD 0 <;> cases pte.getLsbD 1 <;> cases pte.getLsbD 3 <;> simp

/-- What a leaf of the code is to the exact walk. -/
theorem pteKind_leaf {pte : WordT} (isLeaf : LeafPte pte) :
    pteKind pte = if pte.getLsbD 2 = true → pte.getLsbD 1 = true then .leaf else .fault := by
  obtain ⟨valid, rx⟩ := (leafPte_iff pte).mp isLeaf
  unfold pteKind
  rw [valid]
  revert rx
  cases pte.getLsbD 1 <;> cases pte.getLsbD 2 <;> cases pte.getLsbD 3 <;> simp

theorem pteKind_pointer {pte : WordT} (valid : pte &&& 0x1#32 ≠ 0#32)
    (rx : pte &&& 0xA#32 = 0#32) :
    pteKind pte = if pte.getLsbD 2 = true → pte.getLsbD 1 = true then .pointer else .fault := by
  have notLeaf : ¬LeafPte pte := fun isLeaf => isLeaf.2 rx
  have bit := valid_bit valid
  rw [leafPte_iff, bit] at notLeaf
  unfold pteKind
  rw [bit]
  revert notLeaf
  cases pte.getLsbD 1 <;> cases pte.getLsbD 2 <;> cases pte.getLsbD 3 <;> simp

def exactAddr (va : BitVec 32) (lvl : Nat) (pte : WordT) : Nat :=
  ppn pte * 2 ^ 12 + va.toNat % 2 ^ (12 + 10 * lvl)

theorem toNat_offset (va : BitVec 32) : (va &&& 0xFFF#32).toNat = va.toNat % 2 ^ 12 :=
  toNat_and_mask (w := 32) (k := 12) (by omega) va

theorem aligned_ppn {pte : WordT} (aligned : (pte >>> 10) &&& 0x3FF#32 = 0#32) :
    ppn pte % 2 ^ 10 = 0 := by
  have low := toNat_and_mask (w := 32) (k := 10) (by omega) (pte >>> 10)
  rw [toNat_ppn] at low
  rw [← low]
  exact congrArg BitVec.toNat aligned

theorem leafAddr_page {priv : PrivMode} {va pa : BitVec 32} {pte : WordT}
    (returned : leafAddr priv va 0 pte = some pa) :
    pa.toNat = exactAddr va 0 pte ↔ ppn pte < 2 ^ 20 := by
  unfold leafAddr at returned
  rw [if_neg (by simp)] at returned
  split at returned
  · simp at returned
  rw [if_neg (by simp)] at returned
  have page : ((pte >>> 10) <<< 12).toNat = ppn pte * 2 ^ 12 % 2 ^ 32 := by
    rw [BitVec.toNat_shiftLeft, Nat.shiftLeft_eq, toNat_ppn]
  have offset := toNat_offset va
  have sum : pa.toNat = ppn pte * 2 ^ 12 % 2 ^ 32 + va.toNat % 2 ^ 12 := by
    rw [← Option.some.inj returned, toNat_or_of_lt 12 (by omega) (by omega), page, offset]
  have bound : ppn pte < 2 ^ 22 := by
    have := pte.isLt
    unfold ppn
    omega
  simp only [sum, exactAddr]
  omega

theorem leafAddr_superpage {priv : PrivMode} {va pa : BitVec 32} {pte : WordT}
    (returned : leafAddr priv va 1 pte = some pa) :
    ppn pte % 2 ^ 10 = 0 ∧ (pa.toNat = exactAddr va 1 pte ↔ ppn pte < 2 ^ 20) := by
  unfold leafAddr at returned
  split at returned
  · simp at returned
  rename_i aligned
  split at returned
  · simp at returned
  rw [if_pos rfl] at returned
  have whole : ppn pte % 2 ^ 10 = 0 := aligned_ppn (by simpa using aligned)
  refine ⟨whole, ?_⟩
  have upper : ((pte >>> 20) &&& 0xFFF#32).toNat = pte.toNat / 2 ^ 20 := by
    have mask := toNat_and_mask (w := 32) (k := 12) (by omega) (pte >>> 20)
    rw [BitVec.toNat_ushiftRight, Nat.shiftRight_eq_div_pow] at mask
    have := pte.isLt
    refine mask.trans ?_
    omega
  have page : (((pte >>> 20) &&& 0xFFF#32) <<< 22).toNat =
      pte.toNat / 2 ^ 20 * 2 ^ 22 % 2 ^ 32 := by
    rw [BitVec.toNat_shiftLeft, Nat.shiftLeft_eq, upper]
  have middle : (vpn va 0 <<< 12).toNat = va.toNat / 2 ^ 12 % 2 ^ 10 * 2 ^ 12 := by
    have index := toNat_vpn_zero va
    rw [toNat_shiftLeft_of_lt (k := 12) (by omega), index]
  have offset := toNat_offset va
  have sum : pa.toNat = pte.toNat / 2 ^ 20 * 2 ^ 22 % 2 ^ 32 + va.toNat % 2 ^ 22 := by
    rw [← Option.some.inj returned, BitVec.or_assoc, toNat_or_of_lt 22 (by omega) ?_, page,
      toNat_or_of_lt 12 (by omega) (by omega), middle, offset]
    · omega
    · rw [toNat_or_of_lt 12 (by omega) (by omega)]
      omega
  have split : ppn pte = pte.toNat / 2 ^ 20 * 2 ^ 10 := by
    unfold ppn at whole ⊢
    omega
  have bound : pte.toNat / 2 ^ 20 < 2 ^ 12 := by
    have := pte.isLt
    omega
  simp only [sum, exactAddr, split]
  omega

inductive Landing (m : MemoryModel 32 Dev) (a va : BitVec 32) : Nat → WordT → List WordT → Prop
  | superpage (pte : WordT) (read : m.readWord (a ||| vpn va 1 <<< 2) = .ok pte)
      (isLeaf : LeafPte pte) : Landing m a va 1 pte [pte]
  | page (first pte : WordT) (readFirst : m.readWord (a ||| vpn va 1 <<< 2) = .ok first)
      (valid : first &&& 0x1#32 ≠ 0#32) (rx : first &&& 0xA#32 = 0#32)
      (read : m.readWord (((first >>> 10) <<< 12) ||| vpn va 0 <<< 2) = .ok pte)
      (isLeaf : LeafPte pte) : Landing m a va 0 pte [first, pte]

theorem landing_cases {m : MemoryModel 32 Dev} {a va : BitVec 32} {lvl : Nat} {pte : WordT}
    (landed : landing (ptesAlong m a va) = some (lvl, pte)) :
    Landing m a va lvl pte (ptesAlong m a va) := by
  unfold ptesAlong at landed ⊢
  cases readFirst : m.readWord (a ||| vpn va 1 <<< 2) with
  | error e => simp [readFirst, landing] at landed
  | ok first =>
    simp only [readFirst] at landed ⊢
    by_cases last : first &&& 0x1#32 = 0#32 ∨ first &&& 0xA#32 ≠ 0#32
    · rw [if_pos last] at landed ⊢
      simp only [landing, Option.ite_none_right_eq_some, Option.some.injEq, Prod.mk.injEq] at landed
      obtain ⟨isLeaf, rfl, rfl⟩ := landed
      exact .superpage first readFirst isLeaf
    · rw [if_neg last] at landed ⊢
      simp only [not_or, not_not] at last
      cases read : m.readWord (((first >>> 10) <<< 12) ||| vpn va 0 <<< 2) with
      | error e => simp [read, landing, LeafPte, last.2] at landed
      | ok second =>
        simp only [read, landing, Option.ite_none_right_eq_some, Option.some.injEq,
          Prod.mk.injEq] at landed
        obtain ⟨isLeaf, rfl, rfl⟩ := landed
        exact .page first second readFirst last.1 last.2 read isLeaf

/-- Where the exact walk leads from the words along the 32-bit addresses. -/
theorem exactWalk_landing {m : MemoryModel 32 Dev} {satp va : BitVec 32} {lvl : Nat}
    {pte : WordT} {ptes : List WordT} (landed : Landing m (rootTable satp) va lvl pte ptes)
    (whole : lvl = 1 → ppn pte % 2 ^ 10 = 0) (pa : Nat) :
    exactWalk m satp va = some pa ↔
      satp.toNat % 2 ^ 22 < 2 ^ 20 ∧ (∀ first ∈ ptes.dropLast, ProperPte first) ∧
        (pte.getLsbD 2 = true → pte.getLsbD 1 = true) ∧ exactAddr va lvl pte = pa := by
  cases landed with
  | superpage _ read isLeaf =>
    unfold exactWalk
    rw [read_first, read]
    by_cases low : satp.toNat % 2 ^ 22 < 2 ^ 20
    · simp only [low, if_true, Except.toOption, Option.bind_some, pteKind_leaf isLeaf]
      by_cases readable : pte.getLsbD 2 = true → pte.getLsbD 1 = true
      · rw [if_pos readable]
        simp only [whole rfl, if_true, Option.some.injEq]
        refine ⟨fun same => ⟨trivial, ?_, readable, same⟩, fun all => all.2.2.2⟩
        exact fun first member => absurd member List.not_mem_nil
      · rw [if_neg readable]
        exact ⟨fun none => by simp at none, fun all => absurd all.2.2.1 readable⟩
    · rw [if_neg low]
      exact ⟨fun none => by simp at none, fun all => absurd all.1 low⟩
  | page first _ readFirst valid rx read isLeaf =>
    unfold exactWalk
    rw [read_first, readFirst]
    by_cases low : satp.toNat % 2 ^ 22 < 2 ^ 20
    · simp only [low, if_true, Except.toOption, Option.bind_some, pteKind_pointer valid rx]
      by_cases pointer : first.getLsbD 2 = true → first.getLsbD 1 = true
      · rw [if_pos pointer]
        simp only [read_second, read]
        by_cases low' : ppn first < 2 ^ 20
        · have proper : ∀ p ∈ [first, pte].dropLast, ProperPte p := by
            intro p member
            rw [List.mem_singleton.mp member]
            exact ⟨low', pointer⟩
          simp only [low', if_true, Except.toOption, Option.bind_some, pteKind_leaf isLeaf]
          by_cases readable : pte.getLsbD 2 = true → pte.getLsbD 1 = true
          · rw [if_pos readable]
            simp only [Option.some.injEq]
            exact ⟨fun same => ⟨trivial, proper, readable, same⟩, fun all => all.2.2.2⟩
          · rw [if_neg readable]
            exact ⟨fun none => by simp at none, fun all => absurd all.2.2.1 readable⟩
        · simp only [low', if_false, Option.bind_none]
          refine ⟨fun none => by simp at none, fun all => ?_⟩
          exact absurd (all.2.1 first List.mem_cons_self).low low'
      · rw [if_neg pointer]
        refine ⟨fun none => by simp at none, fun all => ?_⟩
        exact absurd (all.2.1 first List.mem_cons_self).readable pointer
    · rw [if_neg low]
      exact ⟨fun none => by simp at none, fun all => absurd all.1 low⟩

theorem Landing.address {m : MemoryModel 32 Dev} {a va pa : BitVec 32} {lvl : Nat} {pte : WordT}
    {ptes : List WordT} (landed : Landing m a va lvl pte ptes) {priv : PrivMode}
    (returned : leafAddr priv va lvl pte = some pa) :
    (lvl = 1 → ppn pte % 2 ^ 10 = 0) ∧ (exactAddr va lvl pte = pa.toNat ↔ ppn pte < 2 ^ 20) := by
  cases landed with
  | superpage _ read isLeaf =>
    obtain ⟨whole, same⟩ := leafAddr_superpage returned
    exact ⟨fun _ => whole, eq_comm.trans same⟩
  | page first _ readFirst valid rx read isLeaf =>
    exact ⟨fun one => by simp at one, eq_comm.trans (leafAddr_page returned)⟩

theorem Landing.forall_ptes {m : MemoryModel 32 Dev} {a va : BitVec 32} {lvl : Nat} {pte : WordT}
    {ptes : List WordT} (landed : Landing m a va lvl pte ptes) {P : WordT → Prop} :
    (∀ p ∈ ptes, P p) ↔ (∀ p ∈ ptes.dropLast, P p) ∧ P pte := by
  cases landed with
  | superpage _ read isLeaf => simp
  | page first _ readFirst valid rx read isLeaf => simp

theorem translateAddr_landing {s : RVModel 32} (paging : s.Paging) (va : BitVec 32)
    (access : MemAccess) (m : MemoryModel 32 Dev) : (s.translateAddr va access m).1 =
      (landing (ptesAlong m (rootTable (s.csr.read CSR.SATP)) va)).bind fun l =>
        leafAddr s.privMode va l.1 l.2 := by
  rw [translateAddr_paging paging, leaf, walkLeaf_landing]
  split
  · rename_i pa found
    exact found.symm
  · rename_i none
    exact none.symm

theorem lands_iff {priv : PrivMode} {va : BitVec 32} {ptes : List WordT} {lvl : Nat} {pte : WordT}
    (landed : landing ptes = some (lvl, pte)) :
    Lands priv ptes ↔ leafAddr priv va lvl pte ≠ none := by
  rw [leafAddr_ne_none_iff]
  constructor
  · rintro ⟨lvl', pte', found, accepted⟩
    rw [landed, Option.some.injEq, Prod.mk.injEq] at found
    obtain ⟨rfl, rfl⟩ := found
    exact accepted
  · intro accepted
    exact ⟨lvl, pte, landed, accepted⟩

/-- Under paging translateAddr yields, where it yields one, the address of the exact walk, exactly
    if a walk that ends in an accepted leaf has low page numbers and proper PTEs all along. -/
theorem translation_exact_iff (s : RVModel 32) (va : BitVec 32) (access : MemAccess)
    (m : MemoryModel 32 Dev) (paging : s.Paging) :
    (∀ pa, (s.translateAddr va access m).1 = some pa →
      exactWalk m (s.csr.read CSR.SATP) va = some pa.toNat) ↔
    (Lands s.privMode (ptesAlong m (rootTable (s.csr.read CSR.SATP)) va) →
      (s.csr.read CSR.SATP).toNat % 2 ^ 22 < 2 ^ 20 ∧
        ∀ pte ∈ ptesAlong m (rootTable (s.csr.read CSR.SATP)) va, ProperPte pte) := by
  rw [translateAddr_landing paging]
  cases landed : landing (ptesAlong m (rootTable (s.csr.read CSR.SATP)) va) with
  | none =>
    constructor
    · rintro _ ⟨lvl, pte, found, _⟩
      rw [landed] at found
      simp at found
    · intro _ pa none
      simp at none
  | some l =>
    obtain ⟨lvl, pte⟩ := l
    have path := landing_cases landed
    generalize ptesAlong m (rootTable (s.csr.read CSR.SATP)) va = ptes at landed path ⊢
    have lands : Lands s.privMode ptes ↔ leafAddr s.privMode va lvl pte ≠ none := lands_iff landed
    rw [lands]
    simp only [Option.bind_some]
    cases returned : leafAddr s.privMode va lvl pte with
    | none => simp
    | some pa =>
      -- the walk lands: what is left is when the exact walk yields this address
      obtain ⟨whole, address⟩ := path.address returned
      simp only [Option.some.injEq, forall_eq', ne_eq, reduceCtorEq, not_false_eq_true,
        true_implies, exactWalk_landing path whole, path.forall_ptes, address]
      constructor
      · rintro ⟨low, firsts, readable, small⟩
        exact ⟨low, firsts, small, readable⟩
      · rintro ⟨low, firsts, last⟩
        exact ⟨low, firsts, last.readable, last.low⟩

theorem translation_exact_iff_superpage :
    exactWalk readOnlyImage (pagedCpu.csr.read CSR.SATP) 0x100#32 = some (0x100#32).toNat := by
  have found : (pagedCpu.translateAddr 0x100#32 .load readOnlyImage).1 = some 0x100#32 := by decide
  refine (translation_exact_iff pagedCpu 0x100#32 .load readOnlyImage (by decide)).mpr ?_ _ found
  intro _
  have path : ptesAlong readOnlyImage (rootTable (pagedCpu.csr.read CSR.SATP)) 0x100#32 =
      [0x03#32] := by decide
  rw [path]
  refine ⟨by decide, fun pte member => ?_⟩
  rw [List.mem_singleton.mp member]
  exact ⟨by decide, by decide⟩

/-- Entry 0 of the root table in page 1 is a superpage at 2 ^ 32: its PPN is 2 ^ 20. -/
def highPageImage : MemoryModel 32 Unit :=
  { (MemoryModel.new 0x2000 () : MemoryModel 32 Unit) with
    data := fun i => if i = 0x1000 then 0x03#8 else if i = 0x1003 then 0x40#8 else 0#8 }

/-- The page at 2 ^ 32 appears at 0. -/
theorem translation_wraps :
    pagedCpu.Paging ∧ (pagedCpu.translateAddr 0x100#32 .load highPageImage).1 = some 0x100#32 ∧
      exactWalk highPageImage (pagedCpu.csr.read CSR.SATP) 0x100#32 = some (2 ^ 32 + 0x100) := by
  exact ⟨by decide, by decide, by decide⟩

end XorOS.RVModel
