import XorOS.Simulator.ByteMap

/- The bounds checks of MemoryModel<XLEN>: which indices of data_ an access uses, against the
   size of data_ as a number. -/
namespace XorOS

inductive DataAccess (xlen : Nat) where
  | readByte (addr : BitVec xlen)
  | readHalf (addr : BitVec xlen)
  | readWord (addr : BitVec xlen)
  | writeByte (addr : BitVec xlen) (val : ByteT)
  | writeHalf (addr : BitVec xlen) (val : HalfT)
  | writeWord (addr : BitVec xlen) (val : WordT)

namespace DataAccess
variable {xlen : Nat}

@[simp] def addr : DataAccess xlen → BitVec xlen
  | .readByte a | .readHalf a | .readWord a | .writeByte a _ | .writeHalf a _ | .writeWord a _ => a

@[simp] def width : DataAccess xlen → Nat
  | .readByte _ | .writeByte _ _ => 1
  | .readHalf _ | .writeHalf _ _ => 2
  | .readWord _ | .writeWord _ _ => 4

theorem width_pos (c : DataAccess xlen) : 0 < c.width ∧ c.width ≤ 4 := by
  cases c with
  | _ => simp

end DataAccess

namespace MemoryModel
variable {xlen : Nat} {Dev : Type}

def access (m : MemoryModel xlen Dev) :
    DataAccess xlen → Except OutOfRange Nat × MemoryModel xlen Dev
  | .readByte a => ((m.readByte a).map BitVec.toNat, m)
  | .readHalf a => ((m.readHalf a).map BitVec.toNat, m)
  | .readWord a => ((m.readWord a).map BitVec.toNat, m)
  | .writeByte a v => ((m.writeByte a v).1.map fun _ => 0, (m.writeByte a v).2)
  | .writeHalf a v => ((m.writeHalf a v).1.map fun _ => 0, (m.writeHalf a v).2)
  | .writeWord a v => ((m.writeWord a v).1.map fun _ => 0, (m.writeWord a v).2)

def indices (a : BitVec xlen) (width : Nat) : List Nat :=
  (List.range width).map fun i => (a + BitVec.ofNat xlen i).toNat

/-- The elements of data_ that an access reads or writes. -/
def touched (m : MemoryModel xlen Dev) (c : DataAccess xlen) : List Nat :=
  match m.findMmio c.addr, m.checkBounds c.addr c.width with
  | none, .ok () => indices c.addr c.width
  | _, _ => []

def loaded (m : MemoryModel xlen Dev) (program : Program) (base : BitVec xlen) : List Nat :=
  match m.loadProgram program.bytes base with
  | some (.ok (), _) => (List.range program.bytes.length).map fun i => base.toNat + i
  | _ => []

theorem mem_indices {a : BitVec xlen} {width i : Nat} :
    i ∈ indices a width ↔ ∃ k < width, i = (a + BitVec.ofNat xlen k).toNat := by
  constructor
  · intro listed
    obtain ⟨k, below, same⟩ := List.mem_map.mp listed
    exact ⟨k, List.mem_range.mp below, same.symm⟩
  · rintro ⟨k, below, same⟩
    exact List.mem_map.mpr ⟨k, List.mem_range.mpr below, same.symm⟩

theorem setByte_data {m : MemoryModel xlen Dev} {a : BitVec xlen} {v : ByteT} {i : Nat}
    (other : i ≠ a.toNat) : (m.setByte a v).data i = m.data i := by
  simp [setByte, other]

section Touched
variable {m : MemoryModel xlen Dev} {a : BitVec xlen} {width i : Nat}

theorem not_mem_index (outside : i ∉ indices a width) (k : Nat) (below : k < width) :
    i ≠ (a + BitVec.ofNat xlen k).toNat :=
  fun same => outside (mem_indices.mpr ⟨k, below, same⟩)

theorem not_mem_index_zero (outside : i ∉ indices a width) (some : 0 < width) : i ≠ a.toNat := by
  have first := not_mem_index outside 0 some
  rwa [BitVec.add_zero] at first

end Touched

theorem touched_of_ok {m : MemoryModel xlen Dev} {c : DataAccess xlen}
    (ram : m.findMmio c.addr = none) (bounds : m.checkBounds c.addr c.width = .ok ()) :
    m.touched c = indices c.addr c.width := by
  unfold touched
  rw [ram, bounds]

theorem access_of_error {m : MemoryModel xlen Dev} {c : DataAccess xlen} {e : OutOfRange}
    (ram : m.findMmio c.addr = none) (bounds : m.checkBounds c.addr c.width = .error e) :
    m.access c = (.error e, m) := by
  cases c with
  | _ =>
    simp only [DataAccess.addr, DataAccess.width] at ram bounds
    simp only [access, readByte, readHalf, readWord, writeByte, writeHalf, writeWord, ram, bounds]
    rfl

theorem access_frame (m : MemoryModel xlen Dev) (c : DataAccess xlen) {i : Nat}
    (outside : i ∉ m.touched c) : (m.access c).2.data i = m.data i := by
  cases ram : m.findMmio c.addr with
  | some r =>
    cases c with
    | _ =>
      simp only [DataAccess.addr] at ram
      simp only [access, writeByte, writeHalf, writeWord, ram]
  | none =>
    cases bounds : m.checkBounds c.addr c.width with
    | error e => rw [access_of_error ram bounds]
    | ok =>
      rw [touched_of_ok ram bounds] at outside
      cases c with
      | readByte a => rfl
      | readHalf a => rfl
      | readWord a => rfl
      | writeByte a v =>
        simp only [DataAccess.addr, DataAccess.width] at ram bounds outside
        simp only [access, writeByte, ram, bounds]
        exact setByte_data (not_mem_index_zero outside (by omega))
      | writeHalf a v =>
        simp only [DataAccess.addr, DataAccess.width] at ram bounds outside
        simp only [access, writeHalf, ram, bounds]
        rw [setByte_data (not_mem_index outside 1 (by omega)),
          setByte_data (not_mem_index_zero outside (by omega))]
      | writeWord a v =>
        simp only [DataAccess.addr, DataAccess.width] at ram bounds outside
        simp only [access, writeWord, ram, bounds]
        rw [setByte_data (not_mem_index outside 3 (by omega)),
          setByte_data (not_mem_index outside 2 (by omega)),
          setByte_data (not_mem_index outside 1 (by omega)),
          setByte_data (not_mem_index_zero outside (by omega))]

theorem access_congr {m m' : MemoryModel xlen Dev} (layout : m'.layout = m.layout)
    (device : m'.dev = m.dev) (c : DataAccess xlen)
    (agree : ∀ i ∈ m.touched c, m'.data i = m.data i) : (m'.access c).1 = (m.access c).1 := by
  have region := findMmio_of_layout layout c.addr
  have check := checkBounds_of_layout layout c.addr c.width
  cases ram : m.findMmio c.addr with
  | some r =>
    rw [ram] at region
    cases c with
    | _ =>
      simp only [DataAccess.addr] at ram region
      simp only [access, readByte, readHalf, readWord, writeByte, writeHalf, writeWord, ram, region,
        device]
  | none =>
    rw [ram] at region
    cases bounds : m.checkBounds c.addr c.width with
    | error e => rw [access_of_error ram bounds, access_of_error region (check.trans bounds)]
    | ok =>
      rw [bounds] at check
      rw [touched_of_ok ram bounds] at agree
      have byte : ∀ k < c.width, m'.byteAt (c.addr + BitVec.ofNat xlen k) =
          m.byteAt (c.addr + BitVec.ofNat xlen k) := by
        intro k below
        exact agree _ (mem_indices.mpr ⟨k, below, rfl⟩)
      have first := byte 0 c.width_pos.1
      rw [BitVec.add_zero] at first
      cases c with
      | readByte a =>
        simp only [DataAccess.addr, DataAccess.width] at ram region bounds check first
        simp only [access, readByte, ram, region, bounds, check, first]
      | readHalf a =>
        simp only [DataAccess.addr, DataAccess.width] at ram region bounds check first byte
        simp only [access, readHalf, ram, region, bounds, check, first, byte 1 (by omega)]
      | readWord a =>
        simp only [DataAccess.addr, DataAccess.width] at ram region bounds check first byte
        simp only [access, readWord, ram, region, bounds, check, first, byte 1 (by omega),
          byte 2 (by omega), byte 3 (by omega)]
      | _ =>
        simp only [DataAccess.addr, DataAccess.width] at ram region bounds check
        simp only [access, writeByte, writeHalf, writeWord, ram, region, bounds, check]

theorem access_of_ok {m : MemoryModel xlen Dev} {c : DataAccess xlen}
    (ram : m.findMmio c.addr = none) (bounds : m.checkBounds c.addr c.width = .ok ()) :
    (m.access c).1.isOk = true := by
  cases c with
  | _ =>
    simp only [DataAccess.addr, DataAccess.width] at ram bounds
    simp only [access, readByte, readHalf, readWord, writeByte, writeHalf, writeWord, ram, bounds]
    rfl

theorem access_keeps {α : Type} (part : Dev → α) (m : MemoryModel xlen Dev) (c : DataAccess xlen)
    (keeps : ∀ r, m.findMmio c.addr = some r → ∀ a v d, part (r.onWrite a v d) = part d) :
    part (m.access c).2.dev = part m.dev := by
  cases ram : m.findMmio c.addr with
  | some r =>
    have kept := keeps r ram
    cases c with
    | _ =>
      simp only [DataAccess.addr] at ram
      simp only [access, writeByte, writeHalf, writeWord, ram, kept]
  | none =>
    cases bounds : m.checkBounds c.addr c.width with
    | error e => rw [access_of_error ram bounds]
    | ok =>
      cases c with
      | _ =>
        simp only [DataAccess.addr, DataAccess.width] at ram bounds
        simp only [access, writeByte, writeHalf, writeWord, ram, bounds, setByte]

structure BoundsChecked (m : MemoryModel xlen Dev) (c : DataAccess xlen) : Prop where
  touches : m.touched c ≠ [] → c.addr.toNat + c.width ≤ m.size
  inside : ∀ i ∈ m.touched c, i < m.size
  throws : m.size < c.addr.toNat + c.width →
    m.access c = (.error ⟨c.addr.toNat, c.width, m.size⟩, m)
  serves : c.addr.toNat + c.width ≤ m.size → (m.access c).1.isOk = true

structure LoadChecked (m : MemoryModel xlen Dev) (program : Program) (base : BitVec xlen) :
    Prop where
  writes : m.loaded program base ≠ [] → base.toNat + program.bytes.length ≤ m.size
  inside : ∀ i ∈ m.loaded program base, i < m.size
  throws : m.size < base.toNat + program.bytes.length →
    m.loadProgram program.bytes base =
      some (.error ⟨base.toNat, program.bytes.length, m.size⟩, m)

/-- The 64-bit sum of address and width wraps round to a number that fits the memory. -/
def SumWraps (size : Nat) (a : BitVec xlen) (width : Nat) : Prop :=
  2 ^ 64 ≤ a.toNat + width ∧ a.toNat + width - 2 ^ 64 ≤ size

instance (size : Nat) (a : BitVec xlen) (width : Nat) : Decidable (SumWraps size a width) :=
  inferInstanceAs (Decidable (_ ∧ _))

theorem not_sumWraps_32 (size : Nat) (a : BitVec 32) {width : Nat} (short : width < 2 ^ 63) :
    ¬SumWraps size a width := by
  have bound := a.isLt
  intro wraps
  have past := wraps.1
  omega

theorem addr_lt (wide : xlen ≤ 64) (a : BitVec xlen) : a.toNat < 2 ^ 64 :=
  Nat.lt_of_lt_of_le a.isLt (Nat.pow_le_pow_right (by omega) wide)

/-- The sum that the code compares is the sum itself, unless that wraps. -/
theorem wrapped_sum {size sum : Nat} (fits : size < 2 ^ 64) (below : sum < 2 ^ 65)
    (straight : ¬(2 ^ 64 ≤ sum ∧ sum - 2 ^ 64 ≤ size)) : sum % 2 ^ 64 > size ↔ sum > size := by
  omega

theorem indices_le {a : BitVec xlen} {width i : Nat} (listed : i ∈ indices a width) :
    i < a.toNat + width := by
  obtain ⟨k, below, rfl⟩ := mem_indices.mp listed
  rw [BitVec.toNat_add, BitVec.toNat_ofNat]
  have sum := Nat.mod_le (a.toNat + k % 2 ^ xlen) (2 ^ xlen)
  have offset := Nat.mod_le k (2 ^ xlen)
  omega

theorem boundsChecked_iff (wide : xlen ≤ 64) {m : MemoryModel xlen Dev} (fits : m.size < 2 ^ 64)
    {c : DataAccess xlen} (ram : m.findMmio c.addr = none) :
    m.BoundsChecked c ↔ ¬SumWraps m.size c.addr c.width := by
  have bound := addr_lt wide c.addr
  obtain ⟨pos, small⟩ := c.width_pos
  constructor
  · rintro checked ⟨past, rest⟩
    have bounds : m.checkBounds c.addr c.width = .ok () := by
      unfold checkBounds
      rw [if_neg (by omega)]
    have some : indices c.addr c.width ≠ [] := by
      simpa [indices] using Nat.pos_iff_ne_zero.mp pos
    have le := checked.touches (by rwa [touched_of_ok ram bounds])
    omega
  · intro straight
    have below : c.addr.toNat + c.width < 2 ^ 65 := by omega
    have same := wrapped_sum fits below straight
    by_cases inside : c.addr.toNat + c.width ≤ m.size
    · have bounds : m.checkBounds c.addr c.width = .ok () := by
        unfold checkBounds
        rw [if_neg (by omega)]
      refine ⟨fun _ => inside, ?_, fun outside => absurd inside (by omega), fun _ => ?_⟩
      · intro i listed
        rw [touched_of_ok ram bounds] at listed
        exact Nat.lt_of_lt_of_le (indices_le listed) inside
      · exact access_of_ok ram bounds
    · have bounds : m.checkBounds c.addr c.width =
          .error ⟨c.addr.toNat, c.width, m.size⟩ := by
        unfold checkBounds
        rw [if_pos (by omega)]
      have none : m.touched c = [] := by
        unfold touched
        rw [ram, bounds]
      refine ⟨fun some => absurd none some, ?_, fun _ => access_of_error ram bounds,
        fun within => absurd within inside⟩
      intro i listed
      rw [none] at listed
      cases listed

theorem loadProgram_frame (m : MemoryModel xlen Dev) (program : Program) (base : BitVec xlen)
    {i : Nat} (outside : i ∉ m.loaded program base) :
    ((m.loadProgram program.bytes base).elim m Prod.snd).data i = m.data i := by
  unfold loaded at outside
  unfold loadProgram at outside ⊢
  rw [if_neg program.nonempty] at outside ⊢
  by_cases past : (base.toNat + program.bytes.length) % 2 ^ 64 > m.size
  · rw [if_pos past]
    rfl
  · rw [if_neg past] at outside ⊢
    have away : ¬(base.toNat ≤ i ∧ i < base.toNat + program.bytes.length) := by
      rintro ⟨from_, below⟩
      refine outside (List.mem_map.mpr ⟨i - base.toNat, List.mem_range.mpr (by omega), ?_⟩)
      omega
    exact if_neg away

theorem loadChecked_iff (wide : xlen ≤ 64) {m : MemoryModel xlen Dev} (fits : m.size < 2 ^ 64)
    (program : Program) (base : BitVec xlen) :
    m.LoadChecked program base ↔ ¬SumWraps m.size base program.bytes.length := by
  have bound := addr_lt wide base
  have short := program.fits
  have pos : 0 < program.bytes.length := List.length_pos_of_ne_nil program.nonempty
  constructor
  · rintro checked ⟨past, rest⟩
    have some : m.loaded program base ≠ [] := by
      unfold loaded loadProgram
      rw [if_neg program.nonempty, if_neg (by omega)]
      simpa using program.nonempty
    have le := checked.writes some
    omega
  · intro straight
    have below : base.toNat + program.bytes.length < 2 ^ 65 := by omega
    have same := wrapped_sum fits below straight
    by_cases inside : base.toNat + program.bytes.length ≤ m.size
    · refine ⟨fun _ => inside, ?_, fun outside => absurd inside (by omega)⟩
      intro i listed
      unfold loaded loadProgram at listed
      rw [if_neg program.nonempty, if_neg (by omega)] at listed
      obtain ⟨k, below, here⟩ := List.mem_map.mp listed
      have before := List.mem_range.mp below
      omega
    · have threw : m.loadProgram program.bytes base =
          some (.error ⟨base.toNat, program.bytes.length, m.size⟩, m) := by
        unfold loadProgram
        rw [if_neg program.nonempty, if_pos (by omega)]
      have none : m.loaded program base = [] := by
        unfold loaded
        rw [threw]
      refine ⟨fun some => absurd none some, ?_, fun _ => threw⟩
      intro i listed
      rw [none] at listed
      cases listed

/-- Reads, writes and loadProgram stay within data_ exactly where the 64-bit sum of address and
    width is the sum: always on a 32-bit machine. -/
theorem bounds_sound_iff (wide : xlen ≤ 64) (m : MemoryModel xlen Dev) (fits : m.size < 2 ^ 64) :
    (∀ c : DataAccess xlen, m.findMmio c.addr = none →
      (m.BoundsChecked c ↔ ¬SumWraps m.size c.addr c.width)) ∧
    ∀ (program : Program) (base : BitVec xlen),
      m.LoadChecked program base ↔ ¬SumWraps m.size base program.bytes.length := by
  constructor
  · intro c ram
    exact boundsChecked_iff wide fits ram
  · intro program base
    exact loadChecked_iff wide fits program base

/-- A byte inside a memory of 16, and one at the last address of each width. -/
theorem bounds_sound_iff_widths :
    ((new 16 () : MemoryModel 32 Unit).BoundsChecked (.readByte 0xFFFFFFFF#32) ↔
      ¬SumWraps 16 0xFFFFFFFF#32 1) ∧
    ((new 16 () : MemoryModel 64 Unit).BoundsChecked (.readByte 0xFFFFFFFFFFFFFFFF#64) ↔
      ¬SumWraps 16 0xFFFFFFFFFFFFFFFF#64 1) :=
  ⟨(bounds_sound_iff (by decide) (new 16 ()) (by decide)).1 (.readByte 0xFFFFFFFF#32) rfl,
    (bounds_sound_iff (by decide) (new 16 ()) (by decide)).1 (.readByte 0xFFFFFFFFFFFFFFFF#64) rfl⟩

/-- The last byte of the 64-bit address space passes the check of a memory of 16 bytes. -/
theorem top_byte_unchecked :
    ((new 16 () : MemoryModel 64 Unit).access (.readByte 0xFFFFFFFFFFFFFFFF#64)).1.isOk = true ∧
      (new 16 () : MemoryModel 64 Unit).touched (.readByte 0xFFFFFFFFFFFFFFFF#64) =
        [0xFFFFFFFFFFFFFFFF] ∧
      ¬(0xFFFFFFFFFFFFFFFF#64).toNat + 1 ≤ 16 :=
  ⟨rfl, rfl, by decide⟩

end MemoryModel

end XorOS
