import XorOS.Library.Runs
import XorOS.Simulator.CacheCoherence

/- CacheModel caches the words of MMIO regions like any others. A read in a region answers
   as the handler does exactly as long as nothing lets the handler drift away from a
   resident line. -/
namespace XorOS
open Bits Runs MemoryModel

/-- What can happen to a CacheModel<32>; device is a change of the device behind its back. -/
inductive CacheOp (Dev : Type) where
  | readByte (a : BitVec 32)
  | readHalf (a : BitVec 32)
  | readWord (a : BitVec 32)
  | writeByte (a : BitVec 32) (v : ByteT)
  | writeHalf (a : BitVec 32) (v : HalfT)
  | writeWord (a : BitVec 32) (v : WordT)
  | reserveLoad (a : BitVec 32)
  | storeConditional (a : BitVec 32) (v : WordT)
  | invalidateReservation
  | device (d : Dev)

def CacheOp.Aligned {Dev : Type} : CacheOp Dev → Prop
  | .readHalf a | .writeHalf a _ => LowClear 1 a
  | .readWord a | .writeWord a _ | .storeConditional a _ => LowClear 2 a
  | _ => True

namespace CacheModel
variable {Dev : Type}

def apply (c : CacheModel 32 Dev) : CacheOp Dev → CacheModel 32 Dev
  | .readByte a => (c.readByte a).2
  | .readHalf a => (c.readHalf a).2
  | .readWord a => (c.readWord a).2
  | .writeByte a v => (c.writeByte a v).2
  | .writeHalf a v => (c.writeHalf a v).2
  | .writeWord a v => (c.writeWord a v).2
  | .reserveLoad a => c.reserveLoad a
  | .storeConditional a v => (c.storeConditional a v).2
  | .invalidateReservation => c.invalidateReservation
  | .device d => c.withBacking { c.backing with dev := d }

def direct (m : MemoryModel 32 Dev) : CacheOp Dev → MemoryModel 32 Dev
  | .readByte _ | .readHalf _ | .readWord _ => m
  | .writeByte a v => (m.writeByte a v).2
  | .writeHalf a v => (m.writeHalf a v).2
  | .writeWord a v => (m.writeWord a v).2
  | .reserveLoad a => m.reserveLoad a
  | .storeConditional a v => (m.storeConditional a v).2
  | .invalidateReservation => m.invalidateReservation
  | .device d => { m with dev := d }

/-- The word w of the aligned address t with the bytes that the operation writes into it. -/
def written (m : MemoryModel 32 Dev) (op : CacheOp Dev) (t : BitVec 32) (w : WordT) : WordT :=
  match op with
  | .writeByte a v =>
      if (m.writeByte a v).1.isOk ∧ t = block a then
        (w &&& ~~~(0xFF#32 <<< ((a &&& 3#32) * 8#32))) |||
          (v.setWidth 32 <<< ((a &&& 3#32) * 8#32))
      else w
  | .writeHalf a v =>
      if (m.writeHalf a v).1.isOk ∧ t = block a then
        (w &&& ~~~(0xFFFF#32 <<< ((a &&& 3#32) * 8#32))) |||
          (v.setWidth 32 <<< ((a &&& 3#32) * 8#32))
      else w
  | .writeWord a v => if (m.writeWord a v).1.isOk ∧ t = a then v else w
  | .storeConditional a v => if (m.storeConditional a v).1 = .ok true ∧ t = a then v else w
  | _ => w

/-- Reads at MMIO addresses answer as the handler of the region does now. -/
def ServesMmio (c : CacheModel 32 Dev) : Prop :=
  ∀ a, c.backing.findMmio a ≠ none →
    (c.readByte a).1 = c.backing.readByte a ∧
    (LowClear 1 a → (c.readHalf a).1 = c.backing.readHalf a) ∧
    (LowClear 2 a → (c.readWord a).1 = c.backing.readWord a)

/-- For each resident word of theirs, the operation makes the handlers yield what they yielded
    before it with the bytes it writes. -/
def Steady (c : CacheModel 32 Dev) (op : CacheOp Dev) : Prop :=
  ∀ t r, c.index.lookup t ≠ none → c.backing.findMmio t = some r →
    r.onRead t (direct c.backing op).dev = written c.backing op t (r.onRead t c.backing.dev)

instance (c : CacheModel 32 Dev) (op : CacheOp Dev) : Decidable (Steady c op) :=
  decidable_of_iff (c.index.keys.all fun t => (c.backing.findMmio t).all fun r =>
      r.onRead t (direct c.backing op).dev = written c.backing op t (r.onRead t c.backing.dev)) (by
    simp only [Steady, List.all_eq_true, Option.all_eq_true, decide_eq_true_eq, ne_eq,
      ← AList.mem_keys, AList.lookup_eq_none, not_not]
    exact ⟨fun h t r resident mapped => h t resident r mapped,
      fun h t resident r mapped => h t r resident mapped⟩)

/-- Each MMIO address is in the region of its aligned word. -/
def MmioByWord (m : MemoryModel 32 Dev) : Prop :=
  ∀ a, m.findMmio a ≠ none → m.findMmio (block a) = m.findMmio a

def operations (m : MemoryModel 32 Dev) (capacity : Nat) :
    System (CacheModel 32 Dev) (CacheOp Dev) where
  init c := c = new m capacity
  step c op c' := op.Aligned ∧ c' = c.apply op

/-- An aligned line that, in a region, holds what read yields for its word. -/
structure LineHolds (m : MemoryModel 32 Dev) (read : BitVec 32 → WordT → WordT)
    (line : Line 32) : Prop where
  aligned : LowClear 2 line.tag
  value : ∀ r, m.findMmio line.tag = some r → line.value = read line.tag (r.onRead line.tag m.dev)

abbrev LineCurrent (m : MemoryModel 32 Dev) : Line 32 → Prop := LineHolds m fun _ w => w

theorem readWord_mmio {m : MemoryModel 32 Dev} {a : BitVec 32} {r : MmioRegion 32 Dev}
    (mapped : m.findMmio a = some r) : m.readWord a = .ok (r.onRead a m.dev) := by
  simp [MemoryModel.readWord, mapped]

theorem lines_read {c : CacheModel 32 Dev} (h : Lines (LineCurrent c.backing) c) {a : BitVec 32}
    (clear : LowClear 2 a) : Lines (LineCurrent c.backing) (c.fetchWord a).2 := by
  apply lines_fetchWord h
  intro v _ word
  refine ⟨clear, ?_⟩
  intro r mapped
  rw [readWord_mmio mapped] at word
  exact (Except.ok.inj word).symm

theorem LineHolds.untouched {m : MemoryModel 32 Dev} {read : BitVec 32 → WordT → WordT}
    {line : Line 32} (current : LineCurrent m line) (same : ∀ w, read line.tag w = w) :
    LineHolds m read line where
  aligned := current.aligned
  value r mapped := (current.value r mapped).trans (same _).symm

theorem LineHolds.patched {m : MemoryModel 32 Dev} {read : BitVec 32 → WordT → WordT}
    {wa : BitVec 32} {w v : WordT} (current : LineCurrent m ⟨wa, w⟩) (new : v = read wa w) :
    LineHolds m read ⟨wa, v⟩ where
  aligned := current.aligned
  value r mapped := by
    have old : w = r.onRead wa m.dev := current.value r mapped
    rw [← old]
    exact new

theorem lines_narrow {c : CacheModel 32 Dev} (h : Lines (LineCurrent c.backing) c)
    {op : CacheOp Dev} {a : BitVec 32} {width : Nat} {val : WordT} (m' : MemoryModel 32 Dev)
    (others : ∀ t w, t ≠ block a → written c.backing op t w = w)
    (here : ∀ w, written c.backing op (block a) w = (w &&&
        ~~~((if width = 1 then 0xFF#32 else 0xFFFF#32) <<< ((a &&& 3#32).setWidth 32 * 8#32))) |||
      ((val &&& if width = 1 then 0xFF#32 else 0xFFFF#32) <<< ((a &&& 3#32).setWidth 32 * 8#32))) :
    Lines (LineHolds c.backing (written c.backing op))
      ((c.withBacking m').patchCached (block a) (a &&& 3#32) width val) := by
  apply lines_patchCached (lines_withBacking h m')
  · intro line other current
    exact LineHolds.untouched current fun w => others line.tag w other
  · intro w current
    exact LineHolds.patched current (here w).symm

theorem lines_writeByte {c : CacheModel 32 Dev} (h : Lines (LineCurrent c.backing) c)
    (a : BitVec 32) (v : ByteT) :
    Lines (LineHolds c.backing (written c.backing (.writeByte a v))) (c.writeByte a v).2 := by
  unfold writeByte
  rcases wrote : c.backing.writeByte a v with ⟨result, m'⟩
  cases result with
  | error e =>
    refine (lines_withBacking h m').imp fun line current => LineHolds.untouched current ?_
    intro w
    simp [written, wrote]
  | ok =>
    have done : (c.backing.writeByte a v).1.isOk := by
      rw [wrote]
      rfl
    have mask : v.setWidth 32 &&& 0xFF#32 = v.setWidth 32 :=
      setWidth_and_mask (w := 32) (k := 8) (by omega) v
    apply lines_narrow h m'
    · intro t w other
      exact if_neg fun hit => other hit.2
    · intro w
      rw [if_pos rfl, mask, BitVec.setWidth_eq]
      exact if_pos ⟨done, rfl⟩

theorem lines_writeHalf {c : CacheModel 32 Dev} (h : Lines (LineCurrent c.backing) c)
    (a : BitVec 32) (v : HalfT) :
    Lines (LineHolds c.backing (written c.backing (.writeHalf a v))) (c.writeHalf a v).2 := by
  unfold writeHalf
  rcases wrote : c.backing.writeHalf a v with ⟨result, m'⟩
  cases result with
  | error e =>
    refine (lines_withBacking h m').imp fun line current => LineHolds.untouched current ?_
    intro w
    simp [written, wrote]
  | ok =>
    have done : (c.backing.writeHalf a v).1.isOk := by
      rw [wrote]
      rfl
    have mask : v.setWidth 32 &&& 0xFFFF#32 = v.setWidth 32 :=
      setWidth_and_mask (w := 32) (k := 16) (by omega) v
    apply lines_narrow h m'
    · intro t w other
      exact if_neg fun hit => other hit.2
    · intro w
      rw [if_neg (by omega), mask, BitVec.setWidth_eq]
      exact if_pos ⟨done, rfl⟩

theorem lines_writeWord {c : CacheModel 32 Dev} (h : Lines (LineCurrent c.backing) c)
    (a : BitVec 32) (v : WordT) :
    Lines (LineHolds c.backing (written c.backing (.writeWord a v))) (c.writeWord a v).2 := by
  unfold writeWord
  rcases wrote : c.backing.writeWord a v with ⟨result, m'⟩
  have others : ∀ line : Line 32, line.tag ≠ a → LineCurrent c.backing line →
      LineHolds c.backing (written c.backing (.writeWord a v)) line := by
    intro line other current
    apply LineHolds.untouched current
    intro w
    exact if_neg fun hit => other hit.2
  cases result with
  | error e =>
    refine (lines_withBacking h m').imp fun line current => LineHolds.untouched current ?_
    intro w
    simp [written, wrote]
  | ok =>
    cases found : c.index.lookup a with
    | none => exact lines_write_absent (lines_withBacking h m') found others
    | some it =>
      refine lines_touch (lines_setValue (lines_withBacking h m') found v others ?_) it
      apply LineHolds.patched (h.of_lookup found)
      have hit : (c.backing.writeWord a v).1.isOk ∧ a = a := by
        rw [wrote]
        exact ⟨rfl, rfl⟩
      exact (if_pos hit).symm

theorem lines_storeConditional {c : CacheModel 32 Dev} (h : Lines (LineCurrent c.backing) c)
    {a : BitVec 32} (clear : LowClear 2 a) (v : WordT) :
    Lines (LineHolds c.backing (written c.backing (.storeConditional a v)))
      (c.storeConditional a v).2 := by
  have same : a &&& ~~~3#32 = a := block_eq_self clear
  unfold storeConditional
  rw [same]
  rcases wrote : c.backing.storeConditional a v with ⟨result, m'⟩
  have others : ∀ line : Line 32, line.tag ≠ a → LineCurrent c.backing line →
      LineHolds c.backing (written c.backing (.storeConditional a v)) line := by
    intro line other current
    apply LineHolds.untouched current
    intro w
    exact if_neg fun hit => other hit.2
  have refused : result ≠ .ok true → ∀ line : Line 32, LineCurrent c.backing line →
      LineHolds c.backing (written c.backing (.storeConditional a v)) line := by
    intro no line current
    apply LineHolds.untouched current
    intro w
    refine if_neg fun hit => no ?_
    rw [← hit.1, wrote]
  match result with
  | .error e => exact (lines_withBacking h m').imp (refused (by simp))
  | .ok false => exact (lines_withBacking h m').imp (refused (by simp))
  | .ok true =>
    cases found : c.index.lookup a with
    | none => exact lines_write_absent (lines_withBacking h m') found others
    | some it =>
      refine lines_setValue (lines_withBacking h m') found v others ?_
      apply LineHolds.patched (h.of_lookup found)
      have hit : (c.backing.storeConditional a v).1 = .ok true ∧ a = a := by
        rw [wrote]
        exact ⟨rfl, rfl⟩
      exact (if_pos hit).symm

theorem lines_apply {c : CacheModel 32 Dev} (h : Lines (LineCurrent c.backing) c)
    {op : CacheOp Dev} (aligned : op.Aligned) :
    Lines (LineHolds c.backing (written c.backing op)) (c.apply op) := by
  cases op with
  | readByte a => exact lines_read h (block_clear a)
  | readHalf a => exact lines_read h (block_clear a)
  | readWord a => exact lines_read h aligned
  | writeByte a v => exact lines_writeByte h a v
  | writeHalf a v => exact lines_writeHalf h a v
  | writeWord a v => exact lines_writeWord h a v
  | reserveLoad a => exact lines_withBacking h _
  | storeConditional a v => exact lines_storeConditional h aligned v
  | invalidateReservation => exact lines_withBacking h _
  | device d => exact lines_withBacking h _

theorem apply_backing (c : CacheModel 32 Dev) (op : CacheOp Dev) :
    (c.apply op).backing = direct c.backing op := by
  cases op with
  | readByte a => exact fetchWord_backing c _
  | readHalf a => exact fetchWord_backing c _
  | readWord a => exact fetchWord_backing c _
  | writeByte a v => exact writeByte_backing c a v
  | writeHalf a v => exact writeHalf_backing c a v
  | writeWord a v => exact writeWord_backing c a v
  | reserveLoad a => rfl
  | storeConditional a v => exact storeConditional_backing c a v
  | invalidateReservation => rfl
  | device d => rfl

theorem direct_layout (m : MemoryModel 32 Dev) (op : CacheOp Dev) :
    (direct m op).layout = m.layout := by
  cases op with
  | writeByte a v => exact writeByte_layout m a v
  | writeHalf a v => exact writeHalf_layout m a v
  | writeWord a v => exact writeWord_layout m a v
  | storeConditional a v => exact storeConditional_layout m a v
  | _ => rfl

theorem apply_findMmio (c : CacheModel 32 Dev) (op : CacheOp Dev) (a : BitVec 32) :
    (c.apply op).backing.findMmio a = c.backing.findMmio a := by
  rw [apply_backing]
  exact findMmio_congr (congrArg Prod.snd (direct_layout c.backing op)) a

/-- Reads change neither memory nor device; the other operations allocate no line. -/
theorem direct_or_index (c : CacheModel 32 Dev) (op : CacheOp Dev) :
    (direct c.backing op = c.backing ∧ ∀ t w, written c.backing op t w = w) ∨
      ∀ t, (c.apply op).index.lookup t = c.index.lookup t := by
  cases op with
  | readByte a => exact Or.inl ⟨rfl, fun _ _ => rfl⟩
  | readHalf a => exact Or.inl ⟨rfl, fun _ _ => rfl⟩
  | readWord a => exact Or.inl ⟨rfl, fun _ _ => rfl⟩
  | writeByte a v => exact Or.inr (writeByte_lookup c a v)
  | writeHalf a v => exact Or.inr (writeHalf_lookup c a v)
  | writeWord a v => exact Or.inr (writeWord_lookup c a v)
  | reserveLoad a => exact Or.inr fun _ => rfl
  | storeConditional a v => exact Or.inr (storeConditional_lookup c a v)
  | invalidateReservation => exact Or.inr fun _ => rfl
  | device d => exact Or.inr fun _ => rfl

theorem servesMmio_iff {c : CacheModel 32 Dev} (routed : MmioByWord c.backing)
    (h : Lines (fun line => LowClear 2 line.tag) c) :
    ServesMmio c ↔ Lines (LineCurrent c.backing) c := by
  constructor
  · intro serves
    refine ⟨h.indexed, fun it line member => ⟨h.each it line member, ?_⟩⟩
    intro r mapped
    have found := (h.indexed line.tag it).mpr ⟨line.value, member⟩
    have value : c.value it = line.value :=
      congrArg (fun p => p.2.value) (IterList.eq_of_mem (h.indexed.line_of_lookup found) member rfl)
    have read := (serves line.tag (by simp [mapped])).2.2 (h.each it line member)
    change (c.fetchWord line.tag).1 = _ at read
    rw [fetchWord_answer h, found, readWord_mmio mapped] at read
    simp only [Except.ok.injEq] at read
    rw [← value, read]
  · intro current a mapped
    obtain ⟨r, found⟩ := Option.ne_none_iff_exists'.mp mapped
    have word (t : BitVec 32) (here : c.backing.findMmio t = some r) :
        (c.fetchWord t).1 = .ok (r.onRead t c.backing.dev) := by
      rw [fetchWord_answer current]
      cases hit : c.index.lookup t with
      | none => exact readWord_mmio here
      | some it => exact congrArg Except.ok ((current.of_lookup hit).value r here)
    have blockWord := word (a &&& ~~~3#32) ((routed a mapped).trans found)
    refine ⟨?_, ?_, ?_⟩
    · simp only [readByte, MemoryModel.readByte, found, Prod.map_fst]
      rw [blockWord]
      rfl
    · intro even
      simp only [readHalf, MemoryModel.readHalf, found, Prod.map_fst]
      rw [blockWord, even_offset even]
      rfl
    · intro _
      exact (word a found).trans (readWord_mmio found).symm

/-- One operation from current lines: they stay current exactly when it is steady. -/
theorem lines_apply_iff_steady {c : CacheModel 32 Dev} (h : Lines (LineCurrent c.backing) c)
    {op : CacheOp Dev} (aligned : op.Aligned) :
    Lines (LineCurrent (c.apply op).backing) (c.apply op) ↔ Steady c op := by
  have after := lines_apply h aligned
  constructor
  · intro current t r resident mapped
    rcases direct_or_index c op with ⟨still, unwritten⟩ | kept
    · rw [still, unwritten]
    · rw [← kept] at resident
      obtain ⟨it, found⟩ := Option.ne_none_iff_exists'.mp resident
      have now := (current.of_lookup found).value r ((apply_findMmio c op t).trans mapped)
      have was := (after.of_lookup found).value r mapped
      rw [apply_backing] at now
      exact now.symm.trans was
  · intro steady
    refine ⟨after.indexed, fun it line member => ⟨(after.each it line member).aligned, ?_⟩⟩
    intro r mapped
    rw [apply_findMmio] at mapped
    have was := (after.each it line member).value r mapped
    have found := (after.indexed line.tag it).mpr ⟨line.value, member⟩
    rw [apply_backing]
    rcases direct_or_index c op with ⟨still, unwritten⟩ | kept
    · rw [still]
      rwa [unwritten] at was
    · rw [kept] at found
      exact was.trans (steady line.tag r (by simp [found]) mapped).symm

/-- In every run of aligned operations that are all steady, reads at MMIO addresses answer as
    their handlers do, and the first operation that is not steady ends that. -/
theorem mmio_served_while_steady (m : MemoryModel 32 Dev) (routed : MmioByWord m)
    (capacity : Nat) (c : CacheModel 32 Dev)
    (reached : ((operations m capacity).restrict Steady).Reachable c) :
    ServesMmio c ∧ ∀ op : CacheOp Dev, op.Aligned → (ServesMmio (c.apply op) ↔ Steady c op) := by
  have inv : c.backing.layout = m.layout ∧ Lines (LineCurrent c.backing) c := by
    refine reached.invariant
      (fun c => c.backing.layout = m.layout ∧ Lines (LineCurrent c.backing) c) ?_ ?_
    · rintro _ rfl
      exact ⟨rfl, lines_new _ m capacity⟩
    · rintro c op c' ⟨layout, current⟩ ⟨⟨aligned, rfl⟩, steady⟩
      refine ⟨?_, (lines_apply_iff_steady current aligned).mpr steady⟩
      rw [apply_backing, direct_layout, layout]
  obtain ⟨layout, current⟩ := inv
  have mmio : c.backing.mmio = m.mmio := congrArg Prod.snd layout
  have routed' : MmioByWord c.backing := by
    intro a mapped
    rw [findMmio_congr mmio] at mapped ⊢
    rw [findMmio_congr mmio, routed a mapped]
  refine ⟨(servesMmio_iff routed' (current.imp fun _ line => line.aligned)).mpr current, ?_⟩
  intro op aligned
  have after := lines_apply current aligned
  have routed'' : MmioByWord (c.apply op).backing := by
    intro a mapped
    rw [apply_findMmio] at mapped ⊢
    rw [apply_findMmio, routed' a mapped]
  exact (servesMmio_iff routed'' (after.imp fun _ line => line.aligned)).trans
    (lines_apply_iff_steady current aligned)

theorem mmioByWord_of_aligned {m : MemoryModel 32 Dev}
    (mmio : ∀ r ∈ m.mmio, LowClear 2 r.base ∧ LowClear 2 r.endAddr) : MmioByWord m :=
  fun a _ => findMmio_block mmio a

end CacheModel

structure OsDevice where
  mtime : BitVec 64
  mtimecmp : BitVec 64
  stdout : List (BitVec 8)

def runOsMemory (mem : MemoryModel 32 OsDevice) : MemoryModel 32 OsDevice :=
  ((mem.mapMmio 0xF000#32 4#32 (fun _ _ => 0#32)
    fun _ val d => { d with stdout := d.stdout ++ [(val &&& 0xFF#32).setWidth 8] }).mapMmio
      0xF004#32 8#32
      (fun addr d => if addr = 0xF004#32 then d.mtime.setWidth 32 else (d.mtime >>> 32).setWidth 32)
      fun _ _ d => d).mapMmio
        0xF00C#32 8#32
        (fun addr d =>
          if addr = 0xF00C#32 then d.mtimecmp.setWidth 32 else (d.mtimecmp >>> 32).setWidth 32)
        fun addr val d =>
          if addr = 0xF00C#32 then
            { d with mtimecmp := (d.mtimecmp &&& 0xFFFFFFFF00000000#64) ||| val.setWidth 64 }
          else
            { d with mtimecmp := (val.setWidth 64 <<< 32) ||| (d.mtimecmp &&& 0xFFFFFFFF#64) }

/-- run_os: mtime starts at 0, mtimecmp at UINT64_MAX; each turn of its loop adds 1 to mtime. -/
def osMemory (mtime : BitVec 64) : MemoryModel 32 OsDevice :=
  runOsMemory (.new 0x10000 ⟨mtime, 0xFFFFFFFFFFFFFFFF#64, []⟩)

namespace CacheModel

def readMtime : CacheOp OsDevice := .readWord 0xF004#32

theorem readMtime_aligned : readMtime.Aligned :=
  (lowClear_iff_mod 2 0xF004#32).mpr (by decide)

/-- mtime is read, ticks, and is read again: the second answer is the first one. -/
theorem mtime_read_stale :
    let c := ((new (osMemory 0#64) 64).apply readMtime).apply (.device (osMemory 1#64).dev)
    (operations (osMemory 0#64) 64).Reachable c ∧
      (c.readWord 0xF004#32).1 = .ok 0#32 ∧ c.backing.readWord 0xF004#32 = .ok 1#32 ∧
      ¬ServesMmio c := by
  intro c
  have start : (operations (osMemory 0#64) 64).Reachable (new (osMemory 0#64) 64) :=
    System.Reachable.of_init rfl
  have read : (operations (osMemory 0#64) 64).Reachable
      ((new (osMemory 0#64) 64).apply readMtime) := start.next ⟨readMtime_aligned, rfl⟩
  have ticked : (operations (osMemory 0#64) 64).Reachable c :=
    read.next (a := .device (osMemory 1#64).dev) ⟨trivial, rfl⟩
  have stale : (c.readWord 0xF004#32).1 = .ok 0#32 := by decide
  have now : c.backing.readWord 0xF004#32 = .ok 1#32 := by decide
  refine ⟨ticked, stale, now, ?_⟩
  intro serves
  have served := (serves 0xF004#32 (by decide)).2.2 readMtime_aligned
  rw [stale, now] at served
  simp at served

def steadyOps : List (CacheOp OsDevice) :=
  [readMtime, .writeWord 0xF00C#32 1000#32, .readWord 0xF00C#32, .writeWord 0xF00C#32 2000#32,
    .device ⟨0#64, 0xFFFFFFFF000007D0#64, [65#8]⟩]

/-- All of that is steady, and the next tick of mtime is not. -/
theorem mmio_served_while_steady_mtime :
    let c := steadyOps.foldl apply (new (osMemory 0#64) 64)
    (c.readWord 0xF00C#32).1 = .ok 2000#32 ∧ ServesMmio c ∧
      ¬ServesMmio (c.apply (.device ⟨1#64, 0xFFFFFFFF000007D0#64, [65#8]⟩)) := by
  intro c
  have regions : ∀ r ∈ (osMemory 0#64).mmio, LowClear 2 r.base ∧ LowClear 2 r.endAddr := by
    simp only [lowClear_iff_mod]
    decide
  have aligned : LowClear 2 0xF00C#32 := (lowClear_iff_mod 2 0xF00C#32).mpr (by decide)
  have next (op : CacheOp OsDevice) {c : CacheModel 32 OsDevice}
      (reached : ((operations (osMemory 0#64) 64).restrict Steady).Reachable c)
      (aligned : op.Aligned) (steady : Steady c op) :
      ((operations (osMemory 0#64) 64).restrict Steady).Reachable (c.apply op) :=
    reached.next ⟨⟨aligned, rfl⟩, steady⟩
  have start : ((operations (osMemory 0#64) 64).restrict Steady).Reachable
      (new (osMemory 0#64) 64) := System.Reachable.of_init rfl
  have read := next readMtime start readMtime_aligned (by decide)
  have armed := next (.writeWord 0xF00C#32 1000#32) read aligned (by decide)
  have again := next (.readWord 0xF00C#32) armed aligned (by decide)
  have rearmed := next (.writeWord 0xF00C#32 2000#32) again aligned (by decide)
  have printed : ((operations (osMemory 0#64) 64).restrict Steady).Reachable c :=
    next (.device ⟨0#64, 0xFFFFFFFF000007D0#64, [65#8]⟩) rearmed trivial (by decide)
  obtain ⟨serves, onlySteady⟩ :=
    mmio_served_while_steady (osMemory 0#64) (mmioByWord_of_aligned regions) 64 c printed
  refine ⟨by decide, serves, fun ticked => ?_⟩
  have steady := (onlySteady (.device ⟨1#64, 0xFFFFFFFF000007D0#64, [65#8]⟩) trivial).mp ticked
  exact absurd steady (by decide)

end CacheModel

end XorOS
