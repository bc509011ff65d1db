import XorOS.Library.Runs
import XorOS.Simulator.InstrBuilder
import XorOS.Simulator.Storage

/- MemoryModel<32> without an MMIO region, against a map from addresses to bytes. -/
namespace XorOS
open Bits IntHart Runs

/-- A memory whose accesses name their bytes by numbers. -/
structure ByteMap where
  size : Nat
  byte : Nat → ByteT

namespace ByteMap

inductive Access where
  | read (addr width : Nat)
  | store (addr : Nat) (bytes : List ByteT)

def Access.stop : Access → Nat
  | .read addr width => addr + width
  | .store addr bytes => addr + bytes.length

def perform (b : ByteMap) (a : Access) : Option Nat × ByteMap :=
  if a.stop ≤ b.size then
    match a with
    | .read addr width => (some (littleEndian (fun k => (b.byte (addr + k)).toNat) width), b)
    | .store addr bytes =>
        (some 0, { b with
          byte := fun i =>
            if addr ≤ i ∧ i < addr + bytes.length then bytes.getD (i - addr) 0#8 else b.byte i })
  else (none, b)

def bytesOf (width v : Nat) : List ByteT :=
  (List.range width).map fun k => BitVec.ofNat 8 (byteOf v k)

end ByteMap

/-- A vector of bytes that loadProgram may be called with: its assert holds, and its length is
    one a std::vector can have. -/
structure Program where
  bytes : List ByteT
  nonempty : bytes ≠ []
  fits : bytes.length < 2 ^ 63

structure WordProgram where
  words : List WordT
  nonempty : words ≠ []
  fits : 4 * words.length < 2 ^ 63

inductive MemCall where
  | readByte (addr : BitVec 32)
  | readHalf (addr : BitVec 32)
  | readWord (addr : BitVec 32)
  | writeByte (addr : BitVec 32) (val : ByteT)
  | writeHalf (addr : BitVec 32) (val : HalfT)
  | writeWord (addr : BitVec 32) (val : WordT)
  | loadProgram (program : Program) (base : BitVec 32)
  | loadWords (program : WordProgram) (base : BitVec 32)

namespace MemCall
open ByteMap

def access : MemCall → Access
  | .readByte a => .read a.toNat 1
  | .readHalf a => .read a.toNat 2
  | .readWord a => .read a.toNat 4
  | .writeByte a v => .store a.toNat (bytesOf 1 v.toNat)
  | .writeHalf a v => .store a.toNat (bytesOf 2 v.toNat)
  | .writeWord a v => .store a.toNat (bytesOf 4 v.toNat)
  | .loadProgram p base => .store base.toNat p.bytes
  | .loadWords p base => .store base.toNat (p.words.flatMap fun w => bytesOf 4 w.toNat)

/-- The access passes checkBounds, and data_[addr + 1], .. has an index past the last Addr. -/
def Wraps (size : Nat) : MemCall → Prop
  | .readHalf a => 2 ^ 32 < a.toNat + 2 ∧ a.toNat + 2 ≤ size
  | .readWord a => 2 ^ 32 < a.toNat + 4 ∧ a.toNat + 4 ≤ size
  | .writeHalf a _ => 2 ^ 32 < a.toNat + 2 ∧ a.toNat + 2 ≤ size
  | .writeWord a _ => 2 ^ 32 < a.toNat + 4 ∧ a.toNat + 4 ≤ size
  | _ => False

end MemCall

def ByteMap.after (size : Nat) (cs : List MemCall) : ByteMap :=
  cs.foldl (fun b c => (b.perform c.access).2) ⟨size, fun _ => 0#8⟩

namespace MemoryModel
open ByteMap
variable {Dev : Type}

def stored {ε : Type} (r : Except ε Unit × MemoryModel 32 Dev) :
    Option Nat × MemoryModel 32 Dev :=
  (r.1.toOption.map fun _ => 0, r.2)

def perform (m : MemoryModel 32 Dev) : MemCall → Option (Option Nat × MemoryModel 32 Dev)
  | .readByte a => some ((m.readByte a).toOption.map BitVec.toNat, m)
  | .readHalf a => some ((m.readHalf a).toOption.map BitVec.toNat, m)
  | .readWord a => some ((m.readWord a).toOption.map BitVec.toNat, m)
  | .writeByte a v => some (stored (m.writeByte a v))
  | .writeHalf a v => some (stored (m.writeHalf a v))
  | .writeWord a v => some (stored (m.writeWord a v))
  | .loadProgram p base => (m.loadProgram p.bytes base).map stored
  | .loadWords p base => (InstrBuilder.loadProgram m p.words base).map stored

/-- The memory does with a call what the byte map does. -/
def Faithful (m : MemoryModel 32 Dev) (b : ByteMap) (c : MemCall) : Prop :=
  ∃ m', m.perform c = some ((b.perform c.access).1, m') ∧ m'.size = m.size ∧
    ∀ i < m.size, m'.data i = (b.perform c.access).2.byte i

structure Follows (m : MemoryModel 32 Dev) (b : ByteMap) : Prop where
  mmio : m.mmio = []
  size : m.size = b.size
  data : ∀ i, m.data i = b.byte i

def setBytes (m : MemoryModel 32 Dev) (a : BitVec 32) : List ByteT → MemoryModel 32 Dev
  | [] => m
  | byte :: rest => (m.setByte a byte).setBytes (a + 1#32) rest

theorem setBytes_layout (bytes : List ByteT) : ∀ (m : MemoryModel 32 Dev) (a : BitVec 32),
    (m.setBytes a bytes).layout = m.layout := by
  induction bytes with
  | nil => intro m a; rfl
  | cons byte rest ih => intro m a; exact ih (m.setByte a byte) (a + 1#32)

theorem toNat_succ {a : BitVec 32} (below : a.toNat + 1 < 2 ^ 32) :
    (a + 1#32).toNat = a.toNat + 1 := by
  rw [BitVec.toNat_add]
  exact Nat.mod_eq_of_lt below

theorem data_setBytes (bytes : List ByteT) : ∀ (m : MemoryModel 32 Dev) (a : BitVec 32) (i : Nat),
    a.toNat + bytes.length ≤ 2 ^ 32 → (m.setBytes a bytes).data i =
      if a.toNat ≤ i ∧ i < a.toNat + bytes.length then bytes.getD (i - a.toNat) 0#8
      else m.data i := by
  induction bytes with
  | nil =>
    intro m a i _
    rw [if_neg (by simp)]
    rfl
  | cons byte rest ih =>
    intro m a i fits
    rw [List.length_cons] at fits ⊢
    simp only [setBytes]
    cases rest with
    | nil =>
      simp only [setBytes, setByte, List.length_nil]
      by_cases here : i = a.toNat
      · rw [if_pos here, if_pos (by omega), here, Nat.sub_self]
        rfl
      · rw [if_neg here, if_neg (by omega)]
    | cons second rest =>
      rw [List.length_cons] at fits
      have next := toNat_succ (a := a) (by omega)
      rw [ih _ _ _ (by rw [next, List.length_cons]; omega), next, List.length_cons]
      simp only [setByte]
      by_cases here : i = a.toNat
      · rw [if_neg (by omega), if_pos here, if_pos (by omega), here, Nat.sub_self]
        rfl
      · by_cases later : a.toNat + 1 ≤ i ∧ i < a.toNat + 1 + (rest.length + 1)
        · have shift : i - a.toNat = i - (a.toNat + 1) + 1 := by omega
          rw [if_pos later, if_pos (by omega), shift, List.getD_cons_succ]
        · rw [if_neg later, if_neg here, if_neg (by omega)]

theorem data_setBytes_wrap (bytes : List ByteT) :
    ∀ (m : MemoryModel 32 Dev) (a : BitVec 32) (k : Nat), bytes.length ≤ 2 ^ 32 →
      a.toNat + k = 2 ^ 32 → k < bytes.length →
      (m.setBytes a bytes).data 0 = bytes.getD k 0#8 := by
  induction bytes with
  | nil =>
    intro m a k _ _ inside
    cases inside
  | cons byte rest ih =>
    intro m a k short reaches inside
    have below := a.isLt
    rw [List.length_cons] at short inside
    obtain ⟨j, rfl⟩ : ∃ j, k = j + 1 := ⟨k - 1, by omega⟩
    rw [List.getD_cons_succ]
    simp only [setBytes]
    by_cases last : j = 0
    · have zero : (a + 1#32).toNat = 0 := by
        rw [BitVec.toNat_add, BitVec.toNat_ofNat]
        omega
      rw [data_setBytes _ _ _ _ (by rw [zero]; omega), zero, if_pos (by omega), last]
    · have next := toNat_succ (a := a) (by omega)
      exact ih _ _ _ (by omega) (by omega) (by omega)

theorem ofNat_byteOf (v k : Nat) : BitVec.ofNat 8 (byteOf v k) = BitVec.ofNat 8 (v / 256 ^ k) := by
  apply BitVec.eq_of_toNat_eq
  simp [byteOf]

theorem low_byte {w : Nat} (wide : 8 ≤ w) (x : BitVec w) :
    (x &&& BitVec.ofNat w (2 ^ 8 - 1)).setWidth 8 = BitVec.ofNat 8 x.toNat := by
  apply BitVec.eq_of_toNat_eq
  rw [BitVec.toNat_setWidth, toNat_and_mask wide, BitVec.toNat_ofNat, Nat.mod_mod]

theorem shifted_byte {w : Nat} (wide : 8 ≤ w) (x : BitVec w) (k : Nat) :
    ((x >>> (8 * k)) &&& BitVec.ofNat w (2 ^ 8 - 1)).setWidth 8 =
      BitVec.ofNat 8 (byteOf x.toNat k) := by
  rw [low_byte wide, ofNat_byteOf, BitVec.toNat_ushiftRight, Nat.shiftRight_eq_div_pow, Nat.pow_mul]

theorem byte_bytes (v : ByteT) : [v] = bytesOf 1 v.toNat := by
  have whole : BitVec.ofNat 8 (byteOf v.toNat 0) = v := by
    rw [ofNat_byteOf]
    simp
  exact congrArg (fun b => [b]) whole.symm

theorem half_bytes (v : HalfT) :
    [(v &&& 0xFF#16).setWidth 8, ((v >>> 8) &&& 0xFF#16).setWidth 8] = bytesOf 2 v.toNat := by
  have b0 := shifted_byte (by omega) v 0
  have b1 := shifted_byte (by omega) v 1
  exact congrArg₂ (fun x y => [x, y]) b0 b1

theorem word_bytes (v : WordT) : InstrBuilder.wordBytes v = bytesOf 4 v.toNat := by
  have b0 := shifted_byte (by omega) v 0
  have b1 := shifted_byte (by omega) v 1
  have b2 := shifted_byte (by omega) v 2
  have b3 := shifted_byte (by omega) v 3
  exact congrArg₂ (· ++ ·) (congrArg₂ (fun x y => [x, y]) b0 b1)
    (congrArg₂ (fun x y => [x, y]) b2 b3)

def indexed (m : MemoryModel 32 Dev) (a : BitVec 32) (width : Nat) : Option Nat :=
  if a.toNat + width ≤ m.size then
    some (littleEndian (fun k => (m.byteAt (a + BitVec.ofNat 32 k)).toNat) width)
  else none

section Indexed
variable {m : MemoryModel 32 Dev}

theorem readByte_indexed (ram : m.mmio = []) (a : BitVec 32) :
    (m.readByte a).toOption.map BitVec.toNat = m.indexed a 1 := by
  rw [readByte_ram m (findMmio_empty m ram a)]
  unfold indexed
  split
  · simp [Except.toOption, littleEndian]
  · rfl

theorem readHalf_indexed (ram : m.mmio = []) (a : BitVec 32) :
    (m.readHalf a).toOption.map BitVec.toNat = m.indexed a 2 := by
  have number (low high : ByteT) : (low.setWidth 16 ||| (high.setWidth 16 <<< 8)).toNat =
      low.toNat + high.toNat * 256 := by
    have shifted : (high.setWidth 16 <<< 8).toNat = high.toNat * 256 := by
      have bound := high.isLt
      rw [toNat_shiftLeft_of_lt, BitVec.toNat_setWidth]
      · omega
      · rw [BitVec.toNat_setWidth]
        omega
    have small : (low.setWidth 16).toNat = low.toNat := by
      have bound := low.isLt
      rw [BitVec.toNat_setWidth]
      omega
    rw [BitVec.or_comm, toNat_or_of_lt 8 (by omega) (by rw [small]; exact low.isLt), shifted, small]
    omega
  rw [readHalf_ram m (findMmio_empty m ram a)]
  unfold indexed
  split
  · simp only [Except.toOption, Option.map_some, number, littleEndian, Finset.sum_range_succ,
      Finset.sum_range_zero, BitVec.add_zero]
    simp
  · rfl

theorem readWord_indexed (ram : m.mmio = []) (a : BitVec 32) :
    (m.readWord a).toOption.map BitVec.toNat = m.indexed a 4 := by
  rw [readWord_ram m (findMmio_empty m ram a)]
  unfold indexed
  split
  · simp only [Except.toOption, Option.map_some, wordAt, toNat_leWord]
  · rfl

def storing (m : MemoryModel 32 Dev) (a : BitVec 32) (bytes : List ByteT) :
    Option Nat × MemoryModel 32 Dev :=
  if a.toNat + bytes.length ≤ m.size then (some 0, m.setBytes a bytes) else (none, m)

theorem writeByte_storing (ram : m.mmio = []) (a : BitVec 32) (v : ByteT) :
    stored (m.writeByte a v) = m.storing a (bytesOf 1 v.toNat) := by
  rw [writeByte_ram m (findMmio_empty m ram a), ← byte_bytes]
  unfold storing stored
  split
  · rename_i inside
    exact (if_pos inside).symm
  · rename_i outside
    exact (if_neg outside).symm

theorem writeHalf_storing (ram : m.mmio = []) (a : BitVec 32) (v : HalfT) :
    stored (m.writeHalf a v) = m.storing a (bytesOf 2 v.toNat) := by
  rw [writeHalf_ram m (findMmio_empty m ram a), ← half_bytes]
  unfold storing stored
  split
  · rename_i inside
    exact (if_pos inside).symm
  · rename_i outside
    exact (if_neg outside).symm

theorem writeWord_storing (ram : m.mmio = []) (a : BitVec 32) (v : WordT) :
    stored (m.writeWord a v) = m.storing a (bytesOf 4 v.toNat) := by
  rw [writeWord_ram m (findMmio_empty m ram a), ← word_bytes]
  unfold storing stored
  split
  · rename_i inside
    have second : a + 1#32 + 1#32 = a + 2#32 := by rw [BitVec.add_assoc]; rfl
    have third : a + 2#32 + 1#32 = a + 3#32 := by rw [BitVec.add_assoc]; rfl
    have fits : a.toNat + (InstrBuilder.wordBytes v).length ≤ m.size := inside
    rw [if_pos fits]
    simp only [InstrBuilder.wordBytes, setBytes, second, third]
    rfl
  · rename_i outside
    exact (if_neg outside).symm

end Indexed

theorem size_perform (b : ByteMap) (a : Access) : (b.perform a).2.size = b.size := by
  unfold ByteMap.perform
  split
  · cases a with
    | read addr width => rfl
    | store addr bytes => rfl
  · rfl

section Steps
variable {m : MemoryModel 32 Dev} {b : ByteMap}

def Straight (m : MemoryModel 32 Dev) (a : BitVec 32) (width : Nat) : Prop :=
  ¬(2 ^ 32 < a.toNat + width ∧ a.toNat + width ≤ m.size)

theorem indexed_eq (follows : Follows m b) {a : BitVec 32} {width : Nat}
    (straight : m.Straight a width) :
    m.indexed a width = (b.perform (.read a.toNat width)).1 := by
  unfold indexed ByteMap.perform
  simp only [Access.stop, ← follows.size]
  split
  · rename_i inside
    have fits : a.toNat + width ≤ 2 ^ 32 := by
      by_contra past
      exact straight ⟨by omega, inside⟩
    simp only [Option.some.injEq]
    unfold littleEndian
    refine Finset.sum_congr rfl fun k member => ?_
    have below := Finset.mem_range.mp member
    have index : (a + BitVec.ofNat 32 k).toNat = a.toNat + k := by
      rw [BitVec.toNat_add, BitVec.toNat_ofNat]
      omega
    simp only [byteAt, index, follows.data]
  · rfl

theorem storing_eq (follows : Follows m b) {a : BitVec 32} {bytes : List ByteT}
    (straight : m.Straight a bytes.length) :
    (m.storing a bytes).1 = (b.perform (.store a.toNat bytes)).1 ∧
      Follows (m.storing a bytes).2 (b.perform (.store a.toNat bytes)).2 := by
  unfold storing ByteMap.perform
  simp only [Access.stop, ← follows.size]
  split
  · rename_i inside
    have fits : a.toNat + bytes.length ≤ 2 ^ 32 := by
      by_contra past
      exact straight ⟨by omega, inside⟩
    obtain ⟨size, mmio⟩ := Prod.mk.inj (setBytes_layout bytes m a)
    refine ⟨rfl, mmio.trans follows.mmio, size, ?_⟩
    intro i
    rw [data_setBytes bytes m a i fits, follows.data]
  · exact ⟨rfl, follows⟩

theorem loadProgram_eq (follows : Follows m b) {bytes : List ByteT} (nonempty : bytes ≠ [])
    (short : bytes.length < 2 ^ 63) (base : BitVec 32) :
    ∃ m', (m.loadProgram bytes base).map stored =
        some ((b.perform (.store base.toNat bytes)).1, m') ∧
      Follows m' (b.perform (.store base.toNat bytes)).2 := by
  have bound := base.isLt
  have sum : (base.toNat + bytes.length) % 2 ^ 64 = base.toNat + bytes.length :=
    Nat.mod_eq_of_lt (by omega)
  unfold loadProgram ByteMap.perform
  rw [if_neg nonempty, sum]
  simp only [Access.stop, ← follows.size]
  by_cases inside : base.toNat + bytes.length ≤ m.size
  · rw [if_neg (by omega), if_pos inside]
    refine ⟨_, rfl, follows.mmio, rfl, ?_⟩
    intro i
    change (if _ then _ else m.data i) = if _ then _ else b.byte i
    rw [follows.data]
  · rw [if_pos (by omega), if_neg inside]
    exact ⟨m, rfl, follows⟩

theorem length_bytesOf (width v : Nat) : (bytesOf width v).length = width := by
  simp [bytesOf]

theorem wordProgram_bytes (p : WordProgram) :
    p.words.flatMap InstrBuilder.wordBytes = p.words.flatMap (fun w => bytesOf 4 w.toNat) ∧
      p.words.flatMap (fun w => bytesOf 4 w.toNat) ≠ [] ∧
      (p.words.flatMap fun w => bytesOf 4 w.toNat).length < 2 ^ 63 := by
  have length : (p.words.flatMap fun w => bytesOf 4 w.toNat).length = 4 * p.words.length := by
    induction p.words with
    | nil => rfl
    | cons w rest ih =>
      rw [List.flatMap_cons, List.length_append, ih, length_bytesOf, List.length_cons]
      omega
  refine ⟨?_, ?_, ?_⟩
  · congr 1
    funext w
    exact word_bytes w
  · intro none
    have some := List.length_pos_of_ne_nil p.nonempty
    rw [none, List.length_nil] at length
    omega
  · rw [length]
    exact p.fits

/-- A call that does not wrap does what the byte map says. -/
theorem follows_step (follows : Follows m b) {c : MemCall} (straight : ¬c.Wraps m.size) :
    ∃ m', m.perform c = some ((b.perform c.access).1, m') ∧
      Follows m' (b.perform c.access).2 := by
  have read (a : BitVec 32) (width : Nat) : (b.perform (.read a.toNat width)).2 = b := by
    unfold ByteMap.perform
    split
    · rfl
    · rfl
  have store {a : BitVec 32} {bytes : List ByteT} {r : Option Nat × MemoryModel 32 Dev}
      (result : r = m.storing a bytes) (inRange : m.Straight a bytes.length) :
      ∃ m', some r = some ((b.perform (.store a.toNat bytes)).1, m') ∧
        Follows m' (b.perform (.store a.toNat bytes)).2 := by
    obtain ⟨value, kept⟩ := storing_eq follows inRange
    rw [result, ← value]
    exact ⟨_, rfl, kept⟩
  have byte (a : BitVec 32) : m.Straight a 1 := fun past => by
    have bound := a.isLt
    omega
  cases c with
  | readByte a =>
    unfold perform
    simp only [MemCall.access, readByte_indexed follows.mmio, indexed_eq follows (byte a), read]
    exact ⟨m, rfl, follows⟩
  | readHalf a =>
    unfold perform
    simp only [MemCall.access, readHalf_indexed follows.mmio, indexed_eq follows straight, read]
    exact ⟨m, rfl, follows⟩
  | readWord a =>
    unfold perform
    simp only [MemCall.access, readWord_indexed follows.mmio, indexed_eq follows straight, read]
    exact ⟨m, rfl, follows⟩
  | writeByte a v =>
    refine store (writeByte_storing follows.mmio a v) ?_
    rw [length_bytesOf]
    exact byte a
  | writeHalf a v =>
    refine store (writeHalf_storing follows.mmio a v) ?_
    rw [length_bytesOf]
    exact straight
  | writeWord a v =>
    refine store (writeWord_storing follows.mmio a v) ?_
    rw [length_bytesOf]
    exact straight
  | loadProgram p base => exact loadProgram_eq follows p.nonempty p.fits base
  | loadWords p base =>
    obtain ⟨bytes, nonempty, short⟩ := wordProgram_bytes p
    unfold perform InstrBuilder.loadProgram
    simp only [bytes]
    exact loadProgram_eq follows nonempty short base

theorem faithful_of_straight (follows : Follows m b) {c : MemCall} (straight : ¬c.Wraps m.size) :
    Faithful m b c := by
  obtain ⟨m', done, kept⟩ := follows_step follows straight
  refine ⟨m', done, ?_, fun i _ => kept.data i⟩
  rw [kept.size, size_perform, follows.size]

end Steps

theorem follows_run {size : Nat} (dev : Dev) {cs : List MemCall}
    (straight : ∀ d ∈ cs, ¬d.Wraps size) :
    ∃ history m, attempt perform cs (.new size dev) = some (history, m) ∧
      m.size = size ∧ Follows m (ByteMap.after size cs) := by
  obtain ⟨history, m, done, asked, fits, follows⟩ := attempt_invariant
    (fun past (m : MemoryModel 32 Dev) => m.size = size ∧
      Follows m (ByteMap.after size (past.map Prod.fst)))
    (fun d => ¬d.Wraps size)
    (fun past m d inv allowed => by
      obtain ⟨fits, follows⟩ := inv
      obtain ⟨m', done, kept⟩ := follows_step follows (by rwa [fits])
      refine ⟨_, m', done, ?_, ?_⟩
      · rw [kept.size, size_perform, ← follows.size, fits]
      · unfold ByteMap.after at kept ⊢
        rw [List.map_append, List.foldl_append]
        exact kept)
    cs [] (.new size dev) ⟨rfl, rfl, rfl, fun _ => rfl⟩ straight
  rw [List.nil_append, asked] at follows
  exact ⟨history, m, done, fits, follows⟩

theorem byte_after_one {size : Nat} (some : 1 ≤ size) (v : ByteT) (i : Nat) :
    (ByteMap.after size [.writeByte 0#32 v]).byte i = if i = 0 then v else 0#8 := by
  have length : (bytesOf 1 v.toNat).length = 1 := length_bytesOf 1 v.toNat
  unfold ByteMap.after ByteMap.perform
  simp only [List.foldl_cons, List.foldl_nil, MemCall.access, Access.stop, length]
  have zero : (0#32).toNat + 1 ≤ size := some
  rw [if_pos zero, ← byte_bytes]
  change (if 0 ≤ i ∧ i < 0 + 1 then [v].getD (i - 0) 0#8 else 0#8) = _
  by_cases first : i = 0
  · rw [if_pos (by omega), if_pos first, first]
    rfl
  · rw [if_neg (by omega), if_neg first]

theorem littleEndian_pos {byte : Nat → Nat} {width k : Nat} (inside : k < width)
    (some : 0 < byte k) : 0 < littleEndian byte width := by
  have term : byte k * 256 ^ k ≤ littleEndian byte width :=
    Finset.single_le_sum (fun j _ => Nat.zero_le (byte j * 256 ^ j)) (Finset.mem_range.mpr inside)
  have positive : 0 < byte k * 256 ^ k := Nat.mul_pos some (Nat.pow_pos (by omega))
  omega

theorem indexed_wrong {size : Nat} {m : MemoryModel 32 Dev} {a : BitVec 32} {width : Nat}
    (short : width ≤ 2 ^ 32) (past : 2 ^ 32 < a.toNat + width) (inside : a.toNat + width ≤ size)
    (follows : Follows m (ByteMap.after size [.writeByte 0#32 1#8])) (fits : m.size = size) :
    m.indexed a width ≠
      ((ByteMap.after size [.writeByte 0#32 1#8]).perform (.read a.toNat width)).1 := by
  have bound := a.isLt
  have some : 1 ≤ size := by omega
  have byte := byte_after_one some 1#8
  have limit : (ByteMap.after size [.writeByte 0#32 1#8]).size = size := by
    rw [← follows.size, fits]
  have meant : littleEndian (fun k => ((ByteMap.after size [.writeByte 0#32 1#8]).byte
      (a.toNat + k)).toNat) width = 0 := by
    unfold littleEndian
    refine Finset.sum_eq_zero fun k _ => ?_
    dsimp only
    rw [byte, if_neg (by omega)]
    exact Nat.zero_mul _
  have found : 0 < littleEndian (fun k => (m.byteAt (a + BitVec.ofNat 32 k)).toNat) width := by
    refine littleEndian_pos (k := 2 ^ 32 - a.toNat) (by omega) ?_
    have zero : (a + BitVec.ofNat 32 (2 ^ 32 - a.toNat)).toNat = 0 := by
      rw [BitVec.toNat_add, BitVec.toNat_ofNat]
      omega
    rw [byteAt, zero, follows.data, byte, if_pos rfl]
    decide
  unfold indexed ByteMap.perform
  simp only [Access.stop, fits, limit, if_pos inside, meant, ne_eq, Option.some.injEq]
  omega

theorem storing_wrong {size : Nat} {m : MemoryModel 32 Dev} {a : BitVec 32} {bytes : List ByteT}
    (short : bytes.length ≤ 2 ^ 32) (past : 2 ^ 32 < a.toNat + bytes.length)
    (inside : a.toNat + bytes.length ≤ size) {v : ByteT}
    (other : v ≠ bytes.getD (2 ^ 32 - a.toNat) 0#8)
    (follows : Follows m (ByteMap.after size [.writeByte 0#32 v])) (fits : m.size = size) :
    (m.storing a bytes).2.data 0 ≠
      ((ByteMap.after size [.writeByte 0#32 v]).perform (.store a.toNat bytes)).2.byte 0 := by
  have bound := a.isLt
  have limit : (ByteMap.after size [.writeByte 0#32 v]).size = size := by
    rw [← follows.size, fits]
  have found : (m.setBytes a bytes).data 0 = bytes.getD (2 ^ 32 - a.toNat) 0#8 :=
    data_setBytes_wrap bytes m a _ short (by omega) (by omega)
  unfold storing ByteMap.perform
  simp only [Access.stop, fits, limit, if_pos inside, found]
  rw [if_neg (by omega), byte_after_one (by omega), if_pos rfl]
  exact Ne.symm other

/-- Each call that wraps goes wrong after one byte write. -/
theorem unfaithful_of_wraps {size : Nat} {c : MemCall} (wraps : c.Wraps size) :
    ∃ v, ∀ m : MemoryModel 32 Dev, m.size = size →
      Follows m (ByteMap.after size [.writeByte 0#32 v]) →
      ¬Faithful m (ByteMap.after size [.writeByte 0#32 v]) c := by
  have differs (b : ByteT) : b + 1#8 ≠ b := by
    revert b
    decide
  have store {a : BitVec 32} {bytes : List ByteT} (call : c.access = .store a.toNat bytes)
      (does : ∀ m : MemoryModel 32 Dev, m.mmio = [] → m.perform c = some (m.storing a bytes))
      (short : bytes.length ≤ 4) (past : 2 ^ 32 < a.toNat + bytes.length)
      (inside : a.toNat + bytes.length ≤ size) :
      ∃ v, ∀ m : MemoryModel 32 Dev, m.size = size →
        Follows m (ByteMap.after size [.writeByte 0#32 v]) →
        ¬Faithful m (ByteMap.after size [.writeByte 0#32 v]) c := by
    refine ⟨bytes.getD (2 ^ 32 - a.toNat) 0#8 + 1#8, ?_⟩
    rintro m fits follows ⟨m', done, _, bytes'⟩
    have wrong := storing_wrong (by omega) past inside (differs _) follows fits
    rw [does m follows.mmio, Option.some.injEq] at done
    have first := bytes' 0 (by omega)
    have same : (m.storing a bytes).2 = m' := congrArg Prod.snd done
    rw [call, ← same] at first
    exact wrong first
  have read {a : BitVec 32} {width : Nat} (call : c.access = .read a.toNat width)
      (does : ∀ m : MemoryModel 32 Dev, m.mmio = [] → m.perform c = some (m.indexed a width, m))
      (short : width ≤ 4) (past : 2 ^ 32 < a.toNat + width) (inside : a.toNat + width ≤ size) :
      ∃ v, ∀ m : MemoryModel 32 Dev, m.size = size →
        Follows m (ByteMap.after size [.writeByte 0#32 v]) →
        ¬Faithful m (ByteMap.after size [.writeByte 0#32 v]) c := by
    refine ⟨1#8, ?_⟩
    rintro m fits follows ⟨m', done, _, _⟩
    have wrong := indexed_wrong (by omega) past inside follows fits
    rw [does m follows.mmio, call, Option.some.injEq] at done
    exact wrong (congrArg Prod.fst done)
  cases c with
  | readHalf a =>
    refine read (a := a) rfl (fun m ram => ?_) (by omega) wraps.1 wraps.2
    rw [← readHalf_indexed ram]
    rfl
  | readWord a =>
    refine read (a := a) rfl (fun m ram => ?_) (by omega) wraps.1 wraps.2
    rw [← readWord_indexed ram]
    rfl
  | writeHalf a v =>
    have length := length_bytesOf 2 v.toNat
    refine store (a := a) rfl (fun m ram => ?_) (by omega) (by rw [length]; exact wraps.1)
      (by rw [length]; exact wraps.2)
    rw [← writeHalf_storing ram]
    rfl
  | writeWord a v =>
    have length := length_bytesOf 4 v.toNat
    refine store (a := a) rfl (fun m ram => ?_) (by omega) (by rw [length]; exact wraps.1)
      (by rw [length]; exact wraps.2)
    rw [← writeWord_storing ram]
    rfl
  | readByte a => exact wraps.elim
  | writeByte a v => exact wraps.elim
  | loadProgram p base => exact wraps.elim
  | loadWords p base => exact wraps.elim

/-- After any calls that do not wrap, a call does what the byte map says if and only if it does
    not wrap itself. -/
theorem byte_level_memory_iff (size : Nat) (dev : Dev) (c : MemCall) :
    (∀ cs : List MemCall, (∀ d ∈ cs, ¬d.Wraps size) →
      ∃ history m, attempt perform cs (.new size dev) = some (history, m) ∧ m.size = size ∧
        Faithful m (ByteMap.after size cs) c) ↔ ¬c.Wraps size := by
  constructor
  · intro faithful wraps
    obtain ⟨v, wrong⟩ := unfaithful_of_wraps wraps
    have straight : ∀ d ∈ [MemCall.writeByte 0#32 v], ¬d.Wraps size := by
      intro d member
      rw [List.mem_singleton.mp member]
      exact not_false
    obtain ⟨_, m, done, fits, follows⟩ := follows_run dev straight
    obtain ⟨_, m', done', _, right⟩ := faithful _ straight
    rw [done, Option.some.injEq, Prod.mk.injEq] at done'
    rw [← done'.2] at right
    exact wrong m fits follows right
  · intro straight cs allowed
    obtain ⟨history, m, done, fits, follows⟩ := follows_run dev allowed
    exact ⟨history, m, done, fits, faithful_of_straight follows (by rwa [fits])⟩

/-- A memory one byte longer than the address space: the half at the last Addr takes its high
    byte from address 0, and not from address 2^32, which was never written. -/
theorem half_read_past_last_addr :
    ∃ history m, attempt perform [.writeByte 0#32 1#8] (.new (2 ^ 32 + 1) ()) =
        some (history, m) ∧ m.readHalf 0xFFFFFFFF#32 = .ok 0x100#16 ∧
      ((ByteMap.after (2 ^ 32 + 1) [.writeByte 0#32 1#8]).perform (.read 0xFFFFFFFF 2)).1 =
        some 0 := by
  refine ⟨_, _, rfl, rfl, ?_⟩
  decide

end MemoryModel
end XorOS
