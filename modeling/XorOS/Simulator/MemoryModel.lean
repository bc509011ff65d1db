import XorOS.Simulator.Isa

/- memory_model.hpp, and the interface through which RVModel<XLEN, MemT> uses its memory. -/
namespace XorOS

structure OutOfRange where
  addr : Nat
  width : Nat
  limit : Nat
  deriving DecidableEq, Repr

def OutOfRange.what (e : OutOfRange) : String :=
  "MemoryModel: OOB addr=" ++ toHex e.addr ++ " width=" ++ toString e.width ++
    " limit=" ++ toString e.limit

structure ProgramOutOfRange where
  base : Nat
  size : Nat
  limit : Nat
  deriving DecidableEq, Repr

def ProgramOutOfRange.what (e : ProgramOutOfRange) : String :=
  "MemoryModel::loadProgram — program exceeds memory: base=" ++ toHex e.base ++ " size=" ++
    toString e.size ++ " limit=" ++ toString e.limit

section IsOk
variable {ε α β : Type}

@[simp] theorem isOk_ok (v : α) : (Except.ok v : Except ε α).isOk = true := rfl

@[simp] theorem isOk_error (e : ε) : (Except.error e : Except ε α).isOk = false := rfl

theorem isOk_iff (r : Except ε α) : r.isOk = true ↔ ∃ v, r = .ok v := by
  cases r with
  | error e => simp
  | ok v => simp

@[simp] theorem isOk_map (f : α → β) (r : Except ε α) : (r.map f).isOk = r.isOk := by
  cases r with
  | error e => rfl
  | ok v => rfl

end IsOk

/-- The operations RVModel needs of its MemT. Each may change the memory object and
    may throw std::out_of_range; the object keeps what was done before the throw. -/
class MemT (xlen : Nat) (M : Type) where
  readByte : BitVec xlen → M → Except OutOfRange ByteT × M
  readHalf : BitVec xlen → M → Except OutOfRange HalfT × M
  readWord : BitVec xlen → M → Except OutOfRange WordT × M
  writeByte : BitVec xlen → ByteT → M → Except OutOfRange Unit × M
  writeHalf : BitVec xlen → HalfT → M → Except OutOfRange Unit × M
  writeWord : BitVec xlen → WordT → M → Except OutOfRange Unit × M
  reserveLoad : BitVec xlen → M → M
  storeConditional : BitVec xlen → WordT → M → Except OutOfRange Bool × M
  invalidateReservation : M → M

/-- An MMIO region [base, endAddr) whose handlers read and change a device state of type Dev.
    The handlers are host code; they are taken to return. -/
structure MmioRegion (xlen : Nat) (Dev : Type) where
  base : BitVec xlen
  endAddr : BitVec xlen
  onRead : BitVec xlen → Dev → WordT
  onWrite : BitVec xlen → WordT → Dev → Dev

/-- data is the vector data_ of size bytes; only indices below size are ever meant. -/
structure MemoryModel (xlen : Nat) (Dev : Type) where
  size : Nat
  data : Nat → ByteT
  mmio : List (MmioRegion xlen Dev)
  dev : Dev
  lrAddr : BitVec xlen
  lrValid : Bool

namespace MemoryModel
variable {xlen : Nat} {Dev : Type}

def new (size : Nat) (dev : Dev) : MemoryModel xlen Dev where
  size := size
  data := fun _ => 0#8
  mmio := []
  dev := dev
  lrAddr := 0#(xlen)
  lrValid := false

def ofWords (size : Nat) (words : List WordT) (dev : Dev) : MemoryModel xlen Dev :=
  { new size dev with data := fun i => (words.getD (i / 4) 0#32 >>> (8 * (i % 4))).setWidth 8 }

def mapMmio (m : MemoryModel xlen Dev) (base size : BitVec xlen)
    (onRead : BitVec xlen → Dev → WordT) (onWrite : BitVec xlen → WordT → Dev → Dev) :
    MemoryModel xlen Dev :=
  { m with mmio := m.mmio ++ [⟨base, base + size, onRead, onWrite⟩] }

/-- Both overloads; none where the assert fails. -/
def loadProgram (m : MemoryModel xlen Dev) (program : List ByteT) (base : BitVec xlen) :
    Option (Except ProgramOutOfRange Unit × MemoryModel xlen Dev) :=
  if program = [] then none
  else if (base.toNat + program.length) % 2 ^ 64 > m.size then
    some (.error ⟨base.toNat, program.length, m.size⟩, m)
  else
    some (.ok (), { m with
      data := fun i =>
        if base.toNat ≤ i ∧ i < base.toNat + program.length then program.getD (i - base.toNat) 0#8
        else m.data i })

def findMmio (m : MemoryModel xlen Dev) (addr : BitVec xlen) : Option (MmioRegion xlen Dev) :=
  m.mmio.find? fun r => decide (r.base ≤ addr ∧ addr < r.endAddr)

/-- static_cast<size_t>(addr) + width is a 64-bit sum. -/
def checkBounds (m : MemoryModel xlen Dev) (addr : BitVec xlen) (width : Nat) :
    Except OutOfRange Unit :=
  if (addr.toNat + width) % 2 ^ 64 > m.size then .error ⟨addr.toNat, width, m.size⟩ else .ok ()

def byteAt (m : MemoryModel xlen Dev) (addr : BitVec xlen) : ByteT := m.data addr.toNat

def setByte (m : MemoryModel xlen Dev) (addr : BitVec xlen) (val : ByteT) :
    MemoryModel xlen Dev :=
  { m with data := fun i => if i = addr.toNat then val else m.data i }

def readByte (m : MemoryModel xlen Dev) (addr : BitVec xlen) : Except OutOfRange ByteT :=
  match m.findMmio addr with
  | some r =>
      let waddr := addr &&& ~~~3#(xlen)
      let w := r.onRead waddr m.dev
      .ok (((w >>> ((addr &&& 3#(xlen)) * 8#(xlen))) &&& 0xFF#32).setWidth 8)
  | none => do
      m.checkBounds addr 1
      return m.byteAt addr

def readHalf (m : MemoryModel xlen Dev) (addr : BitVec xlen) : Except OutOfRange HalfT :=
  match m.findMmio addr with
  | some r =>
      let waddr := addr &&& ~~~3#(xlen)
      let w := r.onRead waddr m.dev
      .ok (((w >>> ((addr &&& 2#(xlen)) * 8#(xlen))) &&& 0xFFFF#32).setWidth 16)
  | none => do
      m.checkBounds addr 2
      return (m.byteAt addr).setWidth 16 ||| ((m.byteAt (addr + 1#(xlen))).setWidth 16 <<< 8)

def readWord (m : MemoryModel xlen Dev) (addr : BitVec xlen) : Except OutOfRange WordT :=
  match m.findMmio addr with
  | some r => .ok (r.onRead addr m.dev)
  | none => do
      m.checkBounds addr 4
      return (m.byteAt addr).setWidth 32 ||| ((m.byteAt (addr + 1#(xlen))).setWidth 32 <<< 8) |||
        ((m.byteAt (addr + 2#(xlen))).setWidth 32 <<< 16) |||
        ((m.byteAt (addr + 3#(xlen))).setWidth 32 <<< 24)

def writeByte (m : MemoryModel xlen Dev) (addr : BitVec xlen) (val : ByteT) :
    Except OutOfRange Unit × MemoryModel xlen Dev :=
  match m.findMmio addr with
  | some r =>
      let waddr := addr &&& ~~~3#(xlen)
      let shift := (addr &&& 3#(xlen)) * 8#(xlen)
      let w := r.onRead waddr m.dev
      let w := (w &&& ~~~(0xFF#32 <<< shift)) ||| (val.setWidth 32 <<< shift)
      (.ok (), { m with dev := r.onWrite waddr w m.dev })
  | none =>
      match m.checkBounds addr 1 with
      | .error e => (.error e, m)
      | .ok () => (.ok (), m.setByte addr val)

def writeHalf (m : MemoryModel xlen Dev) (addr : BitVec xlen) (val : HalfT) :
    Except OutOfRange Unit × MemoryModel xlen Dev :=
  match m.findMmio addr with
  | some r =>
      let waddr := addr &&& ~~~3#(xlen)
      let shift := (addr &&& 2#(xlen)) * 8#(xlen)
      let w := r.onRead waddr m.dev
      let w := (w &&& ~~~(0xFFFF#32 <<< shift)) ||| (val.setWidth 32 <<< shift)
      (.ok (), { m with dev := r.onWrite waddr w m.dev })
  | none =>
      match m.checkBounds addr 2 with
      | .error e => (.error e, m)
      | .ok () =>
          (.ok (), (m.setByte addr ((val &&& 0xFF#16).setWidth 8)).setByte (addr + 1#(xlen))
            (((val >>> 8) &&& 0xFF#16).setWidth 8))

def writeWord (m : MemoryModel xlen Dev) (addr : BitVec xlen) (val : WordT) :
    Except OutOfRange Unit × MemoryModel xlen Dev :=
  match m.findMmio addr with
  | some r => (.ok (), { m with dev := r.onWrite addr val m.dev })
  | none =>
      match m.checkBounds addr 4 with
      | .error e => (.error e, m)
      | .ok () =>
          (.ok (), (((m.setByte addr ((val &&& 0xFF#32).setWidth 8)).setByte (addr + 1#(xlen))
            (((val >>> 8) &&& 0xFF#32).setWidth 8)).setByte (addr + 2#(xlen))
            (((val >>> 16) &&& 0xFF#32).setWidth 8)).setByte (addr + 3#(xlen))
            (((val >>> 24) &&& 0xFF#32).setWidth 8))

def reserveLoad (m : MemoryModel xlen Dev) (addr : BitVec xlen) : MemoryModel xlen Dev :=
  { m with lrAddr := addr, lrValid := true }

def invalidateReservation (m : MemoryModel xlen Dev) : MemoryModel xlen Dev :=
  { m with lrValid := false }

def storeConditional (m : MemoryModel xlen Dev) (addr : BitVec xlen) (val : WordT) :
    Except OutOfRange Bool × MemoryModel xlen Dev :=
  if !m.lrValid ∨ m.lrAddr ≠ addr then (.ok false, m)
  else
    match { m with lrValid := false }.writeWord addr val with
    | (.error e, m) => (.error e, m)
    | (.ok (), m) => (.ok true, m)

def layout (m : MemoryModel xlen Dev) : Nat × List (MmioRegion xlen Dev) := (m.size, m.mmio)

section Layout
variable {m m' : MemoryModel xlen Dev}

theorem findMmio_congr (same : m'.mmio = m.mmio) (a : BitVec xlen) :
    m'.findMmio a = m.findMmio a := by
  unfold findMmio
  rw [same]

theorem findMmio_of_layout (layout : m'.layout = m.layout) (a : BitVec xlen) :
    m'.findMmio a = m.findMmio a :=
  findMmio_congr (congrArg Prod.snd layout) a

theorem checkBounds_of_layout (layout : m'.layout = m.layout) (a : BitVec xlen) (width : Nat) :
    m'.checkBounds a width = m.checkBounds a width := by
  have size : m'.size = m.size := congrArg Prod.fst layout
  unfold checkBounds
  rw [size]

theorem readWord_isOk_congr (layout : m'.layout = m.layout) (a : BitVec xlen) :
    (m'.readWord a).isOk = (m.readWord a).isOk := by
  unfold readWord
  rw [findMmio_of_layout layout, checkBounds_of_layout layout]
  cases m.findMmio a with
  | some r => rfl
  | none =>
    cases m.checkBounds a 4 with
    | error e => rfl
    | ok => rfl

end Layout

theorem loadProgram_layout (m : MemoryModel xlen Dev) (p : List ByteT) (base : BitVec xlen) :
    ((m.loadProgram p base).elim m Prod.snd).layout = m.layout := by
  unfold loadProgram
  split
  · rfl
  split
  · rfl
  · rfl

@[simp] theorem writeByte_layout (m : MemoryModel xlen Dev) (a : BitVec xlen) (v : ByteT) :
    (m.writeByte a v).2.layout = m.layout := by
  unfold writeByte
  split
  · rfl
  split
  · rfl
  · rfl

@[simp] theorem writeHalf_layout (m : MemoryModel xlen Dev) (a : BitVec xlen) (v : HalfT) :
    (m.writeHalf a v).2.layout = m.layout := by
  unfold writeHalf
  split
  · rfl
  split
  · rfl
  · rfl

@[simp] theorem writeWord_layout (m : MemoryModel xlen Dev) (a : BitVec xlen) (v : WordT) :
    (m.writeWord a v).2.layout = m.layout := by
  unfold writeWord
  split
  · rfl
  split
  · rfl
  · rfl

@[simp] theorem storeConditional_layout (m : MemoryModel xlen Dev) (a : BitVec xlen)
    (v : WordT) : (m.storeConditional a v).2.layout = m.layout := by
  unfold storeConditional
  split
  · rfl
  have same := writeWord_layout { m with lrValid := false } a v
  split
  · rename_i wrote
    rw [wrote] at same
    exact same
  · rename_i wrote
    rw [wrote] at same
    exact same

instance : MemT xlen (MemoryModel xlen Dev) where
  readByte addr m := (m.readByte addr, m)
  readHalf addr m := (m.readHalf addr, m)
  readWord addr m := (m.readWord addr, m)
  writeByte addr val m := m.writeByte addr val
  writeHalf addr val m := m.writeHalf addr val
  writeWord addr val m := m.writeWord addr val
  reserveLoad addr m := m.reserveLoad addr
  storeConditional addr val m := m.storeConditional addr val
  invalidateReservation m := m.invalidateReservation

theorem memT_readWord (addr : BitVec xlen) (m : MemoryModel xlen Dev) :
    MemT.readWord addr m = (m.readWord addr, m) := rfl

theorem memT_storeConditional (addr : BitVec xlen) (v : WordT) (m : MemoryModel xlen Dev) :
    MemT.storeConditional addr v m = m.storeConditional addr v := rfl

end MemoryModel

end XorOS
