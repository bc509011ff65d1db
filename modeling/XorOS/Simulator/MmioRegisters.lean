import XorOS.Library.Runs
import XorOS.Simulator.ByteMap
import XorOS.Simulator.MmioRouting
import XorOS.Simulator.RamWords

/- A device that keeps a word for each word address of its region, seen through the byte, half
   and word accesses of MemoryModel<32>, next to plain RAM. -/
namespace XorOS

inductive HandlerCall (xlen : Nat) where
  | onRead (addr : BitVec xlen)
  | onWrite (addr : BitVec xlen) (val : WordT)

def HandlerCall.addr {xlen : Nat} : HandlerCall xlen → BitVec xlen
  | onRead a | onWrite a _ => a

def DataAccess.Aligned {xlen : Nat} (c : DataAccess xlen) : Prop := c.addr.toNat % c.width = 0

def DataAccess.call : DataAccess 32 → MemCall
  | .readByte a => .readByte a
  | .readHalf a => .readHalf a
  | .readWord a => .readWord a
  | .writeByte a v => .writeByte a v
  | .writeHalf a v => .writeHalf a v
  | .writeWord a v => .writeWord a v

def ByteMap.access (b : ByteMap) (c : DataAccess 32) : Option Nat × ByteMap :=
  b.perform c.call.access

theorem DataAccess.Aligned.straight {c : DataAccess 32} (aligned : c.Aligned) (size : Nat) :
    ¬c.call.Wraps size := by
  have bound := c.addr.isLt
  unfold DataAccess.Aligned at aligned
  cases c with
  | readByte a | writeByte a v => exact id
  | readHalf a | readWord a | writeHalf a v | writeWord a v =>
    rintro ⟨past, _⟩
    simp only [addr, width] at aligned bound
    omega

namespace MemoryModel
open Bits Runs
section Calls
variable {xlen : Nat} {Dev : Type}

/-- The calls of its handlers that an access in a region makes, oldest first. -/
def regionCalls (r : MmioRegion xlen Dev) (dev : Dev) : DataAccess xlen → List (HandlerCall xlen)
  | .readByte a => [.onRead (a &&& ~~~3#(xlen))]
  | .readHalf a => [.onRead (a &&& ~~~3#(xlen))]
  | .readWord a => [.onRead a]
  | .writeByte a v =>
      let waddr := a &&& ~~~3#(xlen)
      let shift := (a &&& 3#(xlen)) * 8#(xlen)
      let w := r.onRead waddr dev
      [.onRead waddr, .onWrite waddr ((w &&& ~~~(0xFF#32 <<< shift)) ||| (v.setWidth 32 <<< shift))]
  | .writeHalf a v =>
      let waddr := a &&& ~~~3#(xlen)
      let shift := (a &&& 2#(xlen)) * 8#(xlen)
      let w := r.onRead waddr dev
      [.onRead waddr,
        .onWrite waddr ((w &&& ~~~(0xFFFF#32 <<< shift)) ||| (v.setWidth 32 <<< shift))]
  | .writeWord a v => [.onWrite a v]

def handlerCalls (m : MemoryModel xlen Dev) (c : DataAccess xlen) : List (HandlerCall xlen) :=
  match m.findMmio c.addr with
  | some r => regionCalls r m.dev c
  | none => []

def handlerTrace (m : MemoryModel xlen Dev) : List (DataAccess xlen) → List (HandlerCall xlen)
  | [] => []
  | c :: rest => m.handlerCalls c ++ (m.access c).2.handlerTrace rest

/-- Two regions that answer a call alike. -/
def SameAnswer (r s : MmioRegion xlen Dev) : HandlerCall xlen → Prop
  | .onRead a => ∀ d, s.onRead a d = r.onRead a d
  | .onWrite a v => ∀ d, s.onWrite a v d = r.onWrite a v d

def SameBounds (f : MmioRegion xlen Dev → MmioRegion xlen Dev) : Prop :=
  ∀ r, (f r).base = r.base ∧ (f r).endAddr = r.endAddr

def withHandlers (m : MemoryModel xlen Dev) (f : MmioRegion xlen Dev → MmioRegion xlen Dev) :
    MemoryModel xlen Dev :=
  { m with mmio := m.mmio.map f }

theorem findMmio_withHandlers {f : MmioRegion xlen Dev → MmioRegion xlen Dev}
    (bounds : SameBounds f) (m : MemoryModel xlen Dev)
    (a : BitVec xlen) : (m.withHandlers f).findMmio a = (m.findMmio a).map f := by
  unfold findMmio withHandlers
  rw [List.find?_map]
  congr 2
  funext r
  simp only [Function.comp_apply, bounds r]

/-- An access depends on the handlers only through the calls listed: with any others that answer
    these alike, it does and returns the same. -/
theorem access_withHandlers {f : MmioRegion xlen Dev → MmioRegion xlen Dev}
    (bounds : SameBounds f) (m : MemoryModel xlen Dev) (c : DataAccess xlen)
    (alike : ∀ r, m.findMmio c.addr = some r →
      ∀ call ∈ regionCalls r m.dev c, SameAnswer r (f r) call) :
    (m.withHandlers f).access c = ((m.access c).1, (m.access c).2.withHandlers f) := by
  have region := findMmio_withHandlers bounds m c.addr
  cases found : m.findMmio c.addr with
  | none =>
    rw [found] at region
    have same : (m.withHandlers f).checkBounds c.addr c.width = m.checkBounds c.addr c.width := rfl
    cases checked : m.checkBounds c.addr c.width with
    | error e =>
      rw [access_of_error region (same.trans checked), access_of_error found checked]
    | ok =>
      cases c with
      | _ =>
        simp only [DataAccess.addr, DataAccess.width] at found region checked same
        simp only [access, readByte, readHalf, readWord, writeByte, writeHalf, writeWord, found,
          region, same, checked, Option.map_none]
        rfl
  | some r =>
    rw [found] at region
    have answers := alike r found
    have device : (m.withHandlers f).dev = m.dev := rfl
    cases c with
    | readByte a =>
      have read : ∀ d, (f r).onRead _ d = _ :=
        answers (.onRead (a &&& ~~~3#(xlen))) (by simp [regionCalls])
      simp only [DataAccess.addr] at found region
      simp only [access, readByte, found, region, Option.map_some, device, read]
    | readHalf a =>
      have read : ∀ d, (f r).onRead _ d = _ :=
        answers (.onRead (a &&& ~~~3#(xlen))) (by simp [regionCalls])
      simp only [DataAccess.addr] at found region
      simp only [access, readHalf, found, region, Option.map_some, device, read]
    | readWord a =>
      have read : ∀ d, (f r).onRead _ d = _ := answers (.onRead a) (by simp [regionCalls])
      simp only [DataAccess.addr] at found region
      simp only [access, readWord, found, region, Option.map_some, device, read]
    | writeByte a v =>
      have read : ∀ d, (f r).onRead _ d = _ :=
        answers (.onRead (a &&& ~~~3#(xlen))) (by simp [regionCalls])
      have wrote : ∀ d, (f r).onWrite _ _ d = _ :=
        answers (.onWrite _ _) (List.mem_cons_of_mem _ (List.mem_singleton_self _))
      simp only [DataAccess.addr] at found region
      simp only [access, writeByte, found, region, Option.map_some, device, read, wrote]
      rfl
    | writeHalf a v =>
      have read : ∀ d, (f r).onRead _ d = _ :=
        answers (.onRead (a &&& ~~~3#(xlen))) (by simp [regionCalls])
      have wrote : ∀ d, (f r).onWrite _ _ d = _ :=
        answers (.onWrite _ _) (List.mem_cons_of_mem _ (List.mem_singleton_self _))
      simp only [DataAccess.addr] at found region
      simp only [access, writeHalf, found, region, Option.map_some, device, read, wrote]
      rfl
    | writeWord a v =>
      have wrote : ∀ d, (f r).onWrite _ _ d = _ := answers (.onWrite a v) (by simp [regionCalls])
      simp only [DataAccess.addr] at found region
      simp only [access, writeWord, found, region, Option.map_some, device, wrote]
      rfl

theorem access_layout (m : MemoryModel xlen Dev) (c : DataAccess xlen) :
    (m.access c).2.layout = m.layout := by
  cases c with
  | readByte a => rfl
  | readHalf a => rfl
  | readWord a => rfl
  | writeByte a v => exact writeByte_layout m a v
  | writeHalf a v => exact writeHalf_layout m a v
  | writeWord a v => exact writeWord_layout m a v

/-- So do accesses in one region, by induction on the list: other handlers that answer the calls
    of its trace alike are not told apart. -/
theorem respond_withHandlers {f : MmioRegion xlen Dev → MmioRegion xlen Dev}
    (bounds : SameBounds f) {r : MmioRegion xlen Dev} (cs : List (DataAccess xlen)) :
    ∀ m : MemoryModel xlen Dev, (∀ c ∈ cs, m.findMmio c.addr = some r) →
      (∀ call ∈ m.handlerTrace cs, SameAnswer r (f r) call) →
      respond access cs (m.withHandlers f) =
        ((respond access cs m).1, (respond access cs m).2.withHandlers f) := by
  induction cs with
  | nil =>
    intro m _ _
    rfl
  | cons c rest ih =>
    intro m inside alike
    have found := inside c List.mem_cons_self
    have calls : m.handlerCalls c = regionCalls r m.dev c := by
      unfold handlerCalls
      rw [found]
    have first := access_withHandlers bounds m c fun s also call listed => by
      obtain rfl := Option.some.inj (found.symm.trans also)
      exact alike call (List.mem_append_left _ (calls ▸ listed))
    have later := ih (m.access c).2
      (fun d member => (findMmio_of_layout (access_layout m c) d.addr).trans
        (inside d (List.mem_cons_of_mem c member)))
      fun call listed => alike call (List.mem_append_right _ listed)
    simp only [respond, first, later]

end Calls

section Bytes
variable {Dev : Type} {m : MemoryModel 32 Dev} {b : ByteMap}

theorem perform_call (m : MemoryModel 32 Dev) (c : DataAccess 32) :
    m.perform c.call = some ((m.access c).1.toOption, (m.access c).2) := by
  cases c with
  | readByte a =>
    simp only [DataAccess.call, perform, MemoryModel.access]
    cases m.readByte a <;> rfl
  | readHalf a =>
    simp only [DataAccess.call, perform, MemoryModel.access]
    cases m.readHalf a <;> rfl
  | readWord a =>
    simp only [DataAccess.call, perform, MemoryModel.access]
    cases m.readWord a <;> rfl
  | writeByte a v =>
    simp only [DataAccess.call, perform, MemoryModel.access, stored]
    cases (m.writeByte a v).1 <;> rfl
  | writeHalf a v =>
    simp only [DataAccess.call, perform, MemoryModel.access, stored]
    cases (m.writeHalf a v).1 <;> rfl
  | writeWord a v =>
    simp only [DataAccess.call, perform, MemoryModel.access, stored]
    cases (m.writeWord a v).1 <;> rfl

theorem Follows.access (follows : Follows m b) {c : DataAccess 32} (aligned : c.Aligned) :
    (m.access c).1.toOption = (b.access c).1 ∧ Follows (m.access c).2 (b.access c).2 := by
  obtain ⟨m', done, kept⟩ := follows_step follows (aligned.straight m.size)
  rw [perform_call, Option.some.injEq, Prod.mk.injEq] at done
  obtain ⟨answer, rfl⟩ := done
  exact ⟨answer, kept⟩

theorem Follows.respond (cs : List (DataAccess 32)) :
    ∀ {m : MemoryModel 32 Dev} {b : ByteMap}, Follows m b → (∀ c ∈ cs, c.Aligned) →
      (Runs.respond MemoryModel.access cs m).1.map Except.toOption =
        (Runs.respond ByteMap.access cs b).1 := by
  induction cs with
  | nil =>
    intro m b _ _
    rfl
  | cons c rest ih =>
    intro m b follows aligned
    obtain ⟨answer, kept⟩ := follows.access (aligned c List.mem_cons_self)
    have later := ih kept fun d member => aligned d (List.mem_cons_of_mem c member)
    simp only [Runs.respond, List.map_cons, answer, later]

end Bytes

/-- A region of whole words whose handlers keep, for each word address, the word last written. -/
structure WordFile {Dev : Type} (r : Mapping 32 Dev) : Prop where
  base_aligned : r.base.toNat % 4 = 0
  size_aligned : r.size.toNat % 4 = 0
  below : r.stop < 2 ^ 32
  last_written : ∀ a b v d, r.Covers a → r.Covers b → a.toNat % 4 = 0 → b.toNat % 4 = 0 →
    r.onRead b (r.onWrite a v d) = if b = a then v else r.onRead b d

section Registers
variable {Dev Ram : Type} {r : Mapping 32 Dev}

structure Mirrors (m : MemoryModel 32 Dev) (r : Mapping 32 Dev) (now : MemoryModel 32 Dev)
    (ram : MemoryModel 32 Ram) : Prop where
  layout : now.layout = m.layout
  data : now.data = m.data
  plain : ram.mmio = []
  room : r.stop ≤ ram.size
  words : ∀ t, r.Covers t → t.toNat % 4 = 0 → ram.wordAt t = r.onRead t now.dev

theorem WordFile.covers_block (file : WordFile r) {a : BitVec 32} (covers : r.Covers a) :
    r.Covers (block a) ∧ (block a).toNat % 4 = 0 ∧ a.toNat + 4 ≤ r.stop + a.toNat % 4 := by
  obtain ⟨lo, hi⟩ := covers
  have base := file.base_aligned
  have size := file.size_aligned
  unfold Mapping.Covers
  unfold Mapping.stop at hi ⊢
  rw [block_toNat]
  omega

theorem covers_of_findMmio (file : WordFile r) {m : MemoryModel 32 Dev} {a : BitVec 32}
    (found : m.findMmio a = some r.region) : r.Covers a := by
  have test := List.find?_some found
  rw [decide_eq_true_iff, region_test (Nat.le_of_lt file.below)] at test
  exact test.1

variable {m now : MemoryModel 32 Dev} {ram : MemoryModel 32 Ram}

theorem Mirrors.store (mirrors : Mirrors m r now ram) (file : WordFile r) {a : BitVec 32}
    (covers : r.Covers a) (aligned : a.toNat % 4 = 0) {v : WordT} {after : MemoryModel 32 Ram}
    (kept : after.layout = ram.layout)
    (wrote : ∀ t, LowClear 2 t → after.wordAt t = if t = a then v else ram.wordAt t) :
    Mirrors m r { now with dev := r.onWrite a v now.dev } after where
  layout := mirrors.layout
  data := mirrors.data
  plain := (congrArg Prod.snd kept).trans mirrors.plain
  room := by
    rw [show after.size = ram.size from congrArg Prod.fst kept]
    exact mirrors.room
  words := by
    intro t inside whole
    rw [wrote t ((lowClear_iff_mod 2 t).mpr whole), file.last_written a t v now.dev covers inside
      aligned whole]
    split
    · rfl
    · exact mirrors.words t inside whole

theorem Mirrors.access (mirrors : Mirrors m r now ram) (file : WordFile r) {c : DataAccess 32}
    (aligned : c.Aligned) (inside : m.findMmio c.addr = some r.region) :
    (now.access c).1 = (ram.access c).1 ∧ Mirrors m r (now.access c).2 (ram.access c).2 := by
  have found := (findMmio_of_layout mirrors.layout c.addr).trans inside
  have free := findMmio_empty ram mirrors.plain c.addr
  have covers := covers_of_findMmio file inside
  obtain ⟨blockCovers, blockAligned, fits⟩ := file.covers_block covers
  have room := mirrors.room
  have word : ram.wordAt (block c.addr) = r.region.onRead (block c.addr) now.dev :=
    mirrors.words (block c.addr) blockCovers blockAligned
  unfold DataAccess.Aligned at aligned
  cases c with
  | readByte a =>
    simp only [DataAccess.addr] at found free fits word
    refine ⟨?_, mirrors⟩
    simp only [MemoryModel.access, readByte_ram ram free]
    simp only [readByte, found]
    rw [if_pos (by omega), ← word, byteAt_of_word]
  | readHalf a =>
    simp only [DataAccess.addr, DataAccess.width] at found free fits word aligned
    have even : LowClear 1 a := (lowClear_iff_mod 1 a).mpr aligned
    refine ⟨?_, mirrors⟩
    simp only [MemoryModel.access, readHalf_ram ram free]
    simp only [readHalf, found]
    rw [if_pos (by omega), ← word, even_offset even, half_of_word ram even]
  | readWord a =>
    simp only [DataAccess.addr, DataAccess.width] at found free fits word aligned
    have whole : LowClear 2 a := (lowClear_iff_mod 2 a).mpr aligned
    rw [block_eq_self whole] at word
    refine ⟨?_, mirrors⟩
    simp only [MemoryModel.access, readWord_ram ram free]
    simp only [readWord, found]
    rw [if_pos (by omega), word]
  | writeByte a v =>
    simp only [DataAccess.addr] at found free fits word blockCovers blockAligned
    have stored := writeByte_ram ram free v
    rw [if_pos (by omega)] at stored
    simp only [MemoryModel.access, stored]
    simp only [writeByte, found]
    refine ⟨trivial, mirrors.store file blockCovers blockAligned rfl ?_⟩
    intro t whole
    rw [wordAt_setByte_patch ram whole]
    split
    · rename_i here
      rw [here, word]
    · rfl
  | writeHalf a v =>
    simp only [DataAccess.addr] at found free fits word blockCovers blockAligned
    simp only [DataAccess.addr, DataAccess.width] at aligned
    have even : LowClear 1 a := (lowClear_iff_mod 1 a).mpr aligned
    have stored := writeHalf_ram ram free v
    rw [if_pos (by omega)] at stored
    simp only [MemoryModel.access, stored]
    simp only [writeHalf, found]
    refine ⟨trivial, mirrors.store file blockCovers blockAligned rfl ?_⟩
    intro t whole
    rw [wordAt_setHalf_patch ram whole even, even_offset even]
    split
    · rename_i here
      rw [here, word]
    · rfl
  | writeWord a v =>
    simp only [DataAccess.addr, DataAccess.width] at found free fits covers aligned
    have whole : LowClear 2 a := (lowClear_iff_mod 2 a).mpr aligned
    have stored := writeWord_ram ram free v
    rw [if_pos (by omega)] at stored
    simp only [MemoryModel.access, stored]
    simp only [writeWord, found]
    refine ⟨trivial, mirrors.store file covers aligned rfl ?_⟩
    intro t clear
    exact wordAt_setWord ram clear whole v

theorem handlerCalls_inside (file : WordFile r) {c : DataAccess 32} (aligned : c.Aligned)
    (inside : m.findMmio c.addr = some r.region) :
    ∀ call ∈ m.handlerCalls c, r.Covers call.addr ∧ call.addr.toNat % 4 = 0 := by
  have covers := covers_of_findMmio file inside
  obtain ⟨blockCovers, blockAligned, _⟩ := file.covers_block covers
  have block : r.Covers (block c.addr) ∧ (block c.addr).toNat % 4 = 0 := ⟨blockCovers, blockAligned⟩
  unfold DataAccess.Aligned at aligned
  unfold handlerCalls
  rw [inside]
  intro call listed
  cases c with
  | readByte a =>
    obtain rfl := List.mem_singleton.mp listed
    exact block
  | readHalf a =>
    obtain rfl := List.mem_singleton.mp listed
    exact block
  | readWord a =>
    obtain rfl := List.mem_singleton.mp listed
    exact ⟨covers, aligned⟩
  | writeByte a v =>
    rcases List.mem_pair.mp listed with rfl | rfl
    · exact block
    · exact block
  | writeHalf a v =>
    rcases List.mem_pair.mp listed with rfl | rfl
    · exact block
    · exact block
  | writeWord a v =>
    obtain rfl := List.mem_singleton.mp listed
    exact ⟨covers, aligned⟩

theorem handlerTrace_inside (file : WordFile r) : ∀ {cs : List (DataAccess 32)}
    {now : MemoryModel 32 Dev}, now.layout = m.layout → (∀ c ∈ cs, c.Aligned) →
      (∀ c ∈ cs, m.findMmio c.addr = some r.region) →
      ∀ call ∈ now.handlerTrace cs, r.Covers call.addr ∧ call.addr.toNat % 4 = 0 := by
  intro cs
  induction cs with
  | nil =>
    intro now _ _ _ call listed
    cases listed
  | cons c rest ih =>
    intro now layout aligned inside call listed
    rcases List.mem_append.mp listed with first | later
    · have found := (findMmio_of_layout layout c.addr).trans (inside c List.mem_cons_self)
      exact handlerCalls_inside file (aligned c List.mem_cons_self) found call first
    · exact ih ((access_layout now c).trans layout)
        (fun d member => aligned d (List.mem_cons_of_mem c member))
        (fun d member => inside d (List.mem_cons_of_mem c member)) call later

theorem access_outside {xlen : Nat} (m : MemoryModel xlen Dev) {c : DataAccess xlen}
    (outside : m.findMmio c.addr = none) :
    m.handlerCalls c = [] ∧ (m.access c).2.dev = m.dev ∧
      ∀ f : MmioRegion xlen Dev → MmioRegion xlen Dev, SameBounds f →
        (m.withHandlers f).access c = ((m.access c).1, (m.access c).2.withHandlers f) := by
  refine ⟨?_, ?_, fun f bounds => access_withHandlers bounds m c fun r found => ?_⟩
  · unfold handlerCalls
    rw [outside]
  · apply access_keeps id
    intro r found
    rw [outside] at found
    cases found
  · rw [outside] at found
    cases found

/-- Aligned accesses to a file of word registers answer as RAM that starts with the same words
    does, byte for byte, leave data_ alone and call the handlers with word addresses of the region
    and for nothing else; accesses outside all regions call no handler. -/
theorem mmio_registers_refine_ram (file : WordFile r) (plain : ram.mmio = [])
    (room : r.stop ≤ ram.size)
    (words : ∀ t, r.Covers t → t.toNat % 4 = 0 → ram.wordAt t = r.onRead t m.dev)
    {cs : List (DataAccess 32)} (aligned : ∀ c ∈ cs, c.Aligned)
    (inside : ∀ c ∈ cs, m.findMmio c.addr = some r.region) :
    ((respond MemoryModel.access cs m).1 = (respond MemoryModel.access cs ram).1 ∧
      (respond MemoryModel.access cs m).1.map Except.toOption =
        (respond ByteMap.access cs ⟨ram.size, ram.data⟩).1 ∧
      (respond MemoryModel.access cs m).2.data = m.data ∧
      (∀ call ∈ m.handlerTrace cs, r.Covers call.addr ∧ call.addr.toNat % 4 = 0) ∧
      ∀ f : MmioRegion 32 Dev → MmioRegion 32 Dev, SameBounds f →
        (∀ call ∈ m.handlerTrace cs, SameAnswer r.region (f r.region) call) →
        respond MemoryModel.access cs (m.withHandlers f) =
          ((respond MemoryModel.access cs m).1,
            (respond MemoryModel.access cs m).2.withHandlers f)) ∧
    ∀ (n : MemoryModel 32 Dev) (c : DataAccess 32), n.findMmio c.addr = none →
      n.handlerCalls c = [] ∧ (n.access c).2.dev = n.dev ∧
      ∀ f : MmioRegion 32 Dev → MmioRegion 32 Dev, SameBounds f →
        (n.withHandlers f).access c = ((n.access c).1, (n.access c).2.withHandlers f) := by
  have start : Mirrors m r m ram := ⟨rfl, rfl, plain, room, words⟩
  have step : ∀ (now : MemoryModel 32 Dev) (other : MemoryModel 32 Ram) (c : DataAccess 32),
      Mirrors m r now other → c.Aligned ∧ m.findMmio c.addr = some r.region →
        (now.access c).1 = (other.access c).1 ∧
          Mirrors m r (now.access c).2 (other.access c).2 := by
    intro now other c mirrors allowed
    exact mirrors.access file allowed.1 allowed.2
  obtain ⟨answers, last⟩ := respond_simulation (Mirrors m r) _ step cs m ram start
    fun c member => ⟨aligned c member, inside c member⟩
  have follows : Follows ram ⟨ram.size, ram.data⟩ := ⟨plain, rfl, fun _ => rfl⟩
  refine ⟨⟨answers, ?_, last.data, handlerTrace_inside file rfl aligned inside, ?_⟩,
    fun n c outside => access_outside n outside⟩
  · rw [answers]
    exact follows.respond cs aligned
  · intro f bounds alike
    exact respond_withHandlers bounds cs m inside alike

end Registers

def twoRegisters : Mapping 32 (BitVec 32 → WordT) where
  base := 0x1000#32
  size := 8#32
  onRead a d := d a
  onWrite a v d := fun b => if b = a then v else d b

def lanes : List (DataAccess 32) :=
  [.writeHalf 0x1006#32 0xBEEF#16, .writeByte 0x1005#32 0x7F#8, .readByte 0x1007#32,
    .readHalf 0x1004#32, .readWord 0x1004#32]

theorem mmio_registers_refine_ram_lanes :
    (respond access lanes ((new 16 fun _ => 0#32).mapAll [twoRegisters])).1 =
      (respond access lanes (new 0x2000 () : MemoryModel 32 Unit)).1 ∧
    (respond access lanes ((new 16 fun _ => 0#32).mapAll [twoRegisters])).1.map
      Except.toOption = [some 0, some 0, some 0xBE, some 0x7F00, some 0xBEEF7F00] := by
  have file : WordFile twoRegisters := by
    refine ⟨rfl, rfl, by decide, ?_⟩
    intro a b v d _ _ _ _
    rfl
  have words : ∀ t, twoRegisters.Covers t → t.toNat % 4 = 0 →
      (new 0x2000 () : MemoryModel 32 Unit).wordAt t =
        twoRegisters.onRead t ((new 16 fun _ => 0#32).mapAll [twoRegisters]).dev := by
    intro t _ _
    simp [wordAt, leWord, byteAt, new, mapAll, mapMmio, twoRegisters]
  have aligned : ∀ c ∈ lanes, c.Aligned := by
    simp [lanes, DataAccess.Aligned]
  have inside : ∀ c ∈ lanes, ((new 16 fun _ => 0#32).mapAll [twoRegisters]).findMmio c.addr =
      some twoRegisters.region := by
    simp [lanes, mapAll, mapMmio, findMmio, new, twoRegisters, Mapping.region]
  obtain ⟨same, bytes, _⟩ :=
    (mmio_registers_refine_ram file rfl (by decide) words aligned inside).1
  refine ⟨same, bytes.trans ?_⟩
  decide

end MemoryModel

end XorOS
