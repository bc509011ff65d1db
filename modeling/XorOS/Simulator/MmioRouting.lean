import XorOS.Simulator.MemoryBounds

/- Which region a list of calls of mapMmio makes findMmio find. The end of a region is an Addr, so
   that of a region at the top of the address space is 0. -/
namespace XorOS

structure Mapping (xlen : Nat) (Dev : Type) where
  base : BitVec xlen
  size : BitVec xlen
  onRead : BitVec xlen → Dev → WordT
  onWrite : BitVec xlen → WordT → Dev → Dev

namespace Mapping
variable {xlen : Nat} {Dev : Type}

def region (r : Mapping xlen Dev) : MmioRegion xlen Dev :=
  ⟨r.base, r.base + r.size, r.onRead, r.onWrite⟩

def stop (r : Mapping xlen Dev) : Nat := r.base.toNat + r.size.toNat

def Covers (r : Mapping xlen Dev) (a : BitVec xlen) : Prop :=
  r.base.toNat ≤ a.toNat ∧ a.toNat < r.stop

/-- The regions are nonempty, end within the address space and have no address in common. -/
structure Layout (rs : List (Mapping xlen Dev)) : Prop where
  nonempty : ∀ r ∈ rs, 0 < r.size.toNat
  within : ∀ r ∈ rs, r.stop ≤ 2 ^ xlen
  disjoint : rs.Pairwise fun r s => ∀ a, ¬(r.Covers a ∧ s.Covers a)

end Mapping

namespace MemoryModel
variable {xlen : Nat} {Dev : Type}
open Mapping

def mapAll (m : MemoryModel xlen Dev) (rs : List (Mapping xlen Dev)) : MemoryModel xlen Dev :=
  rs.foldl (fun m r => m.mapMmio r.base r.size r.onRead r.onWrite) m

/-- An access at a is for the region that has a, and for RAM where there is none. -/
structure RoutedAt (m : MemoryModel xlen Dev) (rs : List (Mapping xlen Dev)) (a : BitVec xlen) :
    Prop where
  device : ∀ r ∈ rs, r.Covers a → (m.mapAll rs).findMmio a = some r.region
  ram : (∀ r ∈ rs, ¬r.Covers a) → (m.mapAll rs).findMmio a = none

theorem mapAll_fields (rs : List (Mapping xlen Dev)) : ∀ m : MemoryModel xlen Dev,
    (m.mapAll rs).mmio = m.mmio ++ rs.map Mapping.region ∧ (m.mapAll rs).size = m.size ∧
      (m.mapAll rs).data = m.data ∧ (m.mapAll rs).dev = m.dev := by
  induction rs with
  | nil =>
    intro m
    exact ⟨(List.append_nil m.mmio).symm, rfl, rfl, rfl⟩
  | cons r rest ih =>
    intro m
    obtain ⟨mmio, same⟩ := ih (m.mapMmio r.base r.size r.onRead r.onWrite)
    refine ⟨mmio.trans ?_, same⟩
    simp [mapMmio, Mapping.region]

/-- The comparison of findMmio, where the stored end has or has not wrapped round to 0. -/
theorem region_test {r : Mapping xlen Dev} (within : r.stop ≤ 2 ^ xlen) (a : BitVec xlen) :
    (r.region.base ≤ a ∧ a < r.region.endAddr) ↔ r.Covers a ∧ r.stop < 2 ^ xlen := by
  have stored : r.region.endAddr.toNat = r.stop % 2 ^ xlen := BitVec.toNat_add r.base r.size
  have base : r.region.base = r.base := rfl
  rw [BitVec.le_def, BitVec.lt_def, stored, base]
  unfold Covers
  rcases Nat.lt_or_eq_of_le within with below | top
  · rw [Nat.mod_eq_of_lt below]
    exact ⟨fun inside => ⟨inside, below⟩, fun inside => inside.1⟩
  · rw [top, Nat.mod_self]
    constructor
    · rintro ⟨_, never⟩
      exact absurd never (Nat.not_lt_zero _)
    · rintro ⟨_, never⟩
      exact absurd never (Nat.lt_irrefl _)

section Routing
variable {m : MemoryModel xlen Dev} {rs : List (Mapping xlen Dev)} {a : BitVec xlen}

theorem findMmio_mapAll_some (bare : m.mmio = []) (layout : Layout rs)
    {found : MmioRegion xlen Dev} (hit : (m.mapAll rs).findMmio a = some found) :
    ∃ r ∈ rs, found = r.region ∧ r.Covers a ∧ r.stop < 2 ^ xlen := by
  unfold findMmio at hit
  rw [(mapAll_fields rs m).1, bare, List.nil_append] at hit
  obtain ⟨r, listed, same⟩ := List.mem_map.mp (List.mem_of_find?_eq_some hit)
  have test := List.find?_some hit
  rw [← same, decide_eq_true_iff, region_test (layout.within r listed)] at test
  exact ⟨r, listed, same.symm, test⟩

theorem findMmio_mapAll_of_covers (bare : m.mmio = []) (layout : Layout rs)
    {r : Mapping xlen Dev} (listed : r ∈ rs) (covers : r.Covers a) (below : r.stop < 2 ^ xlen) :
    (m.mapAll rs).findMmio a = some r.region := by
  cases hit : (m.mapAll rs).findMmio a with
  | none =>
    unfold findMmio at hit
    rw [(mapAll_fields rs m).1, bare, List.nil_append] at hit
    have test := List.find?_eq_none.mp hit r.region (List.mem_map_of_mem listed)
    rw [decide_eq_true_iff, region_test (layout.within r listed)] at test
    exact absurd ⟨covers, below⟩ test
  | some found =>
    obtain ⟨s, other, same, also, _⟩ := findMmio_mapAll_some bare layout hit
    have one : r = s := by
      by_contra apart
      have symmetric : Std.Symm fun p q : Mapping xlen Dev =>
          ∀ a, ¬(p.Covers a ∧ q.Covers a) := by
        constructor
        intro p q separate a both
        exact separate a ⟨both.2, both.1⟩
      exact layout.disjoint.forall listed other apart a ⟨covers, also⟩
    rw [same, one]

/-- Routing is right at an address exactly unless the region that has it ends at the top of the
    address space. -/
theorem mmio_routing_iff (bare : m.mmio = []) (layout : Layout rs) (a : BitVec xlen) :
    m.RoutedAt rs a ↔ ∀ r ∈ rs, r.Covers a → r.stop < 2 ^ xlen := by
  constructor
  · intro routed r listed covers
    obtain ⟨s, other, same, covers', below⟩ :=
      findMmio_mapAll_some bare layout (routed.device r listed covers)
    have test := (region_test (layout.within s other) a).mpr ⟨covers', below⟩
    rw [← same] at test
    exact ((region_test (layout.within r listed) a).mp test).2
  · intro short
    constructor
    · intro r listed covers
      exact findMmio_mapAll_of_covers bare layout listed covers (short r listed covers)
    · intro outside
      cases hit : (m.mapAll rs).findMmio a with
      | none => rfl
      | some found =>
        obtain ⟨r, listed, _, covers, _⟩ := findMmio_mapAll_some bare layout hit
        exact absurd covers (outside r listed)

end Routing

def uartAndMtime : List (Mapping 32 (BitVec 64)) :=
  [⟨0xF000#32, 4#32, fun _ _ => 0#32, fun _ _ d => d⟩,
    ⟨0xF004#32, 8#32, fun a d => (if a = 0xF004#32 then d else d >>> 32).setWidth 32,
      fun _ _ d => d⟩]

/-- The high word of mtime is the second region's, and the word after it is RAM. -/
theorem mmio_routing_iff_mtime :
    (new 0x10000 0#64).RoutedAt uartAndMtime 0xF008#32 ∧
      (new 0x10000 0#64).RoutedAt uartAndMtime 0xF00C#32 := by
  have stops : ∀ r ∈ uartAndMtime, 0 < r.size.toNat ∧ r.stop < 2 ^ 32 :=
    List.forall_iff_forall_mem.mp (by decide)
  have layout : Layout uartAndMtime := by
    refine ⟨fun r listed => (stops r listed).1, fun r listed => (stops r listed).2.le, ?_⟩
    refine List.pairwise_pair.mpr fun a both => ?_
    have below : a.toNat < 0xF004 := both.1.2
    have above : 0xF004 ≤ a.toNat := both.2.1
    omega
  exact ⟨(mmio_routing_iff rfl layout _).mpr fun r listed _ => (stops r listed).2,
    (mmio_routing_iff rfl layout _).mpr fun r listed _ => (stops r listed).2⟩

/-- The last page of the 32-bit address space as a region: its end is stored as 0. -/
def lastPage : Mapping 32 Unit := ⟨0xFFFFF000#32, 0x1000#32, fun _ _ => 7#32, fun _ _ _ => ()⟩

theorem last_page_unrouted :
    lastPage.stop = 2 ^ 32 ∧
      (lastPage.base ≤ 0xFFFFFFFC#32 ∧ (0xFFFFFFFC#32).toNat < lastPage.stop) ∧
      (((new 16 () : MemoryModel 32 Unit).mapAll [lastPage]).findMmio 0xFFFFFFFC#32).isNone = true ∧
      (((new 16 () : MemoryModel 32 Unit).mapAll [lastPage]).readWord 0xFFFFFFFC#32).isOk =
        false := by
  decide

end MemoryModel

end XorOS
