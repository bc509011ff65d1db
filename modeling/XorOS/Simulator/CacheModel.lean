import Mathlib.Data.List.AList
import XorOS.Library.IterList
import XorOS.Simulator.MemoryModel

/- cache_model.hpp: an LRU cache of words in front of a MemoryModel. lru_ is the std::list,
   most recently used first; index_ maps a tag to the iterator of its line. -/
namespace XorOS

structure Line (xlen : Nat) where
  tag : BitVec xlen
  value : WordT
  deriving DecidableEq, Repr

structure CacheModel (xlen : Nat) (Dev : Type) where
  backing : MemoryModel xlen Dev
  capacity : Nat
  hits : BitVec 64
  misses : BitVec 64
  lru : IterList (Line xlen)
  index : AList (fun _ : BitVec xlen => Nat)

namespace CacheModel
variable {xlen : Nat} {Dev : Type}

def new (backing : MemoryModel xlen Dev) (capacity : Nat) : CacheModel xlen Dev where
  backing := backing
  capacity := capacity
  hits := 0#64
  misses := 0#64
  lru := .empty
  index := ∅

/-- it->second->value. An iterator of index_ that points nowhere would be undefined. -/
def value (c : CacheModel xlen Dev) (it : Nat) : WordT :=
  ((c.lru.get? it).map Line.value).getD 0#32

/-- index_.erase(lru_.back().tag); lru_.pop_back(), undefined on an empty list. -/
def evict (c : CacheModel xlen Dev) : CacheModel xlen Dev :=
  match c.lru.back? with
  | some line => { c with index := c.index.erase line.tag, lru := c.lru.popBack }
  | none => c

def makeRoom (c : CacheModel xlen Dev) : CacheModel xlen Dev :=
  if c.index.keys.length ≥ c.capacity then c.evict else c

def countMiss (c : CacheModel xlen Dev) : CacheModel xlen Dev :=
  { c with misses := c.misses + 1#64 }

def countHit (c : CacheModel xlen Dev) : CacheModel xlen Dev :=
  { c with hits := c.hits + 1#64 }

def touch (c : CacheModel xlen Dev) (it : Nat) : CacheModel xlen Dev :=
  { c with lru := c.lru.spliceFront it }

def insertLine (c : CacheModel xlen Dev) (wordAddr : BitVec xlen) (val : WordT) :
    CacheModel xlen Dev :=
  let lru := c.lru.pushFront ⟨wordAddr, val⟩
  { c with lru := lru, index := c.index.insert wordAddr lru.begin }

def setValue (c : CacheModel xlen Dev) (it : Nat) (val : WordT) : CacheModel xlen Dev :=
  { c with lru := c.lru.modify it fun line => { line with value := val } }

def fetchWord (c : CacheModel xlen Dev) (wordAddr : BitVec xlen) :
    Except OutOfRange WordT × CacheModel xlen Dev :=
  match c.index.lookup wordAddr with
  | some it =>
      let c := (c.touch it).countHit
      (.ok (c.value it), c)
  | none =>
      -- the eviction comes before the read that may throw
      let c := c.countMiss.makeRoom
      match c.backing.readWord wordAddr with
      | .error e => (.error e, c)
      | .ok val => (.ok val, c.insertLine wordAddr val)

def patchCached (c : CacheModel xlen Dev) (wordAddr byteOff : BitVec xlen) (width : Nat)
    (val : WordT) : CacheModel xlen Dev :=
  match c.index.lookup wordAddr with
  | none => c
  | some it =>
      let mask : WordT := if width = 1 then 0xFF#32 else 0xFFFF#32
      let shift := byteOff.setWidth 32 * 8#32
      (c.setValue it ((c.value it &&& ~~~(mask <<< shift)) ||| ((val &&& mask) <<< shift))).touch it

def readByte (c : CacheModel xlen Dev) (addr : BitVec xlen) :
    Except OutOfRange ByteT × CacheModel xlen Dev :=
  (c.fetchWord (addr &&& ~~~0b11#(xlen))).map
    (Except.map fun w => ((w >>> ((addr &&& 0b11#(xlen)) * 8#(xlen))) &&& 0xFF#32).setWidth 8) id

def readHalf (c : CacheModel xlen Dev) (addr : BitVec xlen) :
    Except OutOfRange HalfT × CacheModel xlen Dev :=
  (c.fetchWord (addr &&& ~~~0b11#(xlen))).map
    (Except.map fun w => ((w >>> ((addr &&& 0b11#(xlen)) * 8#(xlen))) &&& 0xFFFF#32).setWidth 16) id

def readWord (c : CacheModel xlen Dev) (addr : BitVec xlen) :
    Except OutOfRange WordT × CacheModel xlen Dev := c.fetchWord addr

def withBacking (c : CacheModel xlen Dev) (m : MemoryModel xlen Dev) : CacheModel xlen Dev :=
  { c with backing := m }

def writeByte (c : CacheModel xlen Dev) (addr : BitVec xlen) (val : ByteT) :
    Except OutOfRange Unit × CacheModel xlen Dev :=
  match c.backing.writeByte addr val with
  | (.error e, m) => (.error e, c.withBacking m)
  | (.ok (), m) =>
      (.ok (), (c.withBacking m).patchCached (addr &&& ~~~0b11#(xlen)) (addr &&& 0b11#(xlen)) 1
        (val.setWidth 32))

def writeHalf (c : CacheModel xlen Dev) (addr : BitVec xlen) (val : HalfT) :
    Except OutOfRange Unit × CacheModel xlen Dev :=
  match c.backing.writeHalf addr val with
  | (.error e, m) => (.error e, c.withBacking m)
  | (.ok (), m) =>
      (.ok (), (c.withBacking m).patchCached (addr &&& ~~~0b11#(xlen)) (addr &&& 0b11#(xlen)) 2
        (val.setWidth 32))

def writeWord (c : CacheModel xlen Dev) (addr : BitVec xlen) (val : WordT) :
    Except OutOfRange Unit × CacheModel xlen Dev :=
  match c.backing.writeWord addr val with
  | (.error e, m) => (.error e, c.withBacking m)
  | (.ok (), m) =>
      match c.index.lookup addr with
      | some it => (.ok (), ((c.withBacking m).setValue it val).touch it)
      | none => (.ok (), c.withBacking m)

/-- Both overloads, past the cache; none where the assert of the backing memory fails. -/
def loadProgram (c : CacheModel xlen Dev) (p : List ByteT) (base : BitVec xlen) :
    Option (Except ProgramOutOfRange Unit × CacheModel xlen Dev) :=
  (c.backing.loadProgram p base).map fun r => (r.1, c.withBacking r.2)

def reserveLoad (c : CacheModel xlen Dev) (addr : BitVec xlen) : CacheModel xlen Dev :=
  c.withBacking (c.backing.reserveLoad addr)

def storeConditional (c : CacheModel xlen Dev) (addr : BitVec xlen) (val : WordT) :
    Except OutOfRange Bool × CacheModel xlen Dev :=
  match c.backing.storeConditional addr val with
  | (.error e, m) => (.error e, c.withBacking m)
  | (.ok false, m) => (.ok false, c.withBacking m)
  | (.ok true, m) =>
      match c.index.lookup (addr &&& ~~~0b11#(xlen)) with
      | some it => (.ok true, (c.withBacking m).setValue it val)
      | none => (.ok true, c.withBacking m)

def invalidateReservation (c : CacheModel xlen Dev) : CacheModel xlen Dev :=
  c.withBacking c.backing.invalidateReservation

instance : MemT xlen (CacheModel xlen Dev) where
  readByte addr c := c.readByte addr
  readHalf addr c := c.readHalf addr
  readWord addr c := c.readWord addr
  writeByte addr val c := c.writeByte addr val
  writeHalf addr val c := c.writeHalf addr val
  writeWord addr val c := c.writeWord addr val
  reserveLoad addr c := c.reserveLoad addr
  storeConditional addr val c := c.storeConditional addr val
  invalidateReservation c := c.invalidateReservation

end CacheModel

end XorOS
