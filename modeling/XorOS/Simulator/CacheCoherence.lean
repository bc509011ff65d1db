import XorOS.Simulator.RamWords
import XorOS.Simulator.CacheLines

/- Every resident line of an address outside the MMIO regions holds the word that the backing
   memory holds, and each operation of CacheModel<32> on such addresses answers as the
   backing memory would. -/
namespace XorOS.CacheModel
open Bits MemoryModel
variable {Dev : Type}

/-- A line of an aligned word of RAM that holds what the memory holds. -/
structure LineCoherent (m : MemoryModel 32 Dev) (line : Line 32) : Prop where
  aligned : LowClear 2 line.tag
  ram : m.findMmio line.tag = none
  inside : line.tag.toNat + 4 ≤ m.size
  value : line.value = m.wordAt line.tag

/-- The memory is made of whole words, RAM and MMIO alike. -/
structure WholeWords (m : MemoryModel 32 Dev) : Prop where
  size : m.size % 4 = 0
  mmio : ∀ r ∈ m.mmio, LowClear 2 r.base ∧ LowClear 2 r.endAddr

structure Coherent (c : CacheModel 32 Dev) : Prop where
  words : WholeWords c.backing
  room : 1 ≤ c.capacity
  lines : Lines (LineCoherent c.backing) c

theorem coherent_new {m : MemoryModel 32 Dev} (words : WholeWords m) {capacity : Nat}
    (room : 1 ≤ capacity) : Coherent (new m capacity) :=
  ⟨words, room, lines_new _ m capacity⟩

theorem findMmio_block {m : MemoryModel 32 Dev}
    (mmio : ∀ r ∈ m.mmio, LowClear 2 r.base ∧ LowClear 2 r.endAddr) (a : BitVec 32) :
    m.findMmio (block a) = m.findMmio a := by
  simp only [findMmio]
  apply List.find?_congr
  intro r member
  obtain ⟨base, stop⟩ := mmio r member
  have hb := clear_mod base
  have hs := clear_mod stop
  simp only [BitVec.le_def, BitVec.lt_def, block_toNat]
  congr 1
  apply propext
  omega

theorem coherent_touch {c : CacheModel 32 Dev} (h : Coherent c) (it : Nat) :
    Coherent (c.touch it) :=
  ⟨h.words, h.room, lines_touch h.lines it⟩

/-- A fetch answers as the backing memory does, in hits and in misses. -/
theorem fetchWord_coherent {c : CacheModel 32 Dev} (h : Coherent c) {a : BitVec 32}
    (aligned : LowClear 2 a) (ram : c.backing.findMmio a = none) :
    (c.fetchWord a).1 = c.backing.readWord a ∧ (c.fetchWord a).2.backing = c.backing ∧
      Coherent (c.fetchWord a).2 := by
  have back := fetchWord_backing c a
  refine ⟨?_, back, ?_⟩
  · rw [fetchWord_answer h.lines]
    cases found : c.index.lookup a with
    | none => rfl
    | some it =>
      have line := h.lines.of_lookup found
      simp only
      rw [c.backing.readWord_ram ram, if_pos line.inside]
      exact congrArg Except.ok line.value
  · refine ⟨back ▸ h.words, ?_, ?_⟩
    · rw [fetchWord_capacity]
      exact h.room
    · rw [back]
      apply lines_fetchWord h.lines
      intro v _ word
      rw [c.backing.readWord_ram ram] at word
      split at word
      · rename_i inside
        simp only [Except.ok.injEq] at word
        exact ⟨aligned, ram, inside, word.symm⟩
      · simp at word

/-- A backing memory m' that differs from m in the aligned word wa alone. -/
structure WordUpdate (m m' : MemoryModel 32 Dev) (wa : BitVec 32) : Prop where
  size : m'.size = m.size
  mmio : m'.mmio = m.mmio
  others : ∀ t, LowClear 2 t → t ≠ wa → m'.wordAt t = m.wordAt t

theorem WordUpdate.wholeWords {m m' : MemoryModel 32 Dev} {wa : BitVec 32}
    (up : WordUpdate m m' wa) (words : WholeWords m) : WholeWords m' where
  size := up.size ▸ words.size
  mmio := up.mmio ▸ words.mmio

theorem WordUpdate.lineCoherent {m m' : MemoryModel 32 Dev} {wa : BitVec 32}
    (up : WordUpdate m m' wa) (line : Line 32) (other : line.tag ≠ wa)
    (old : LineCoherent m line) : LineCoherent m' line where
  aligned := old.aligned
  ram := (findMmio_congr up.mmio _).trans old.ram
  inside := up.size ▸ old.inside
  value := old.value.trans (up.others _ old.aligned other).symm

theorem WordUpdate.newLine {m m' : MemoryModel 32 Dev} {wa : BitVec 32} {w v : WordT}
    (up : WordUpdate m m' wa) (old : LineCoherent m ⟨wa, w⟩) (new : v = m'.wordAt wa) :
    LineCoherent m' ⟨wa, v⟩ where
  aligned := old.aligned
  ram := (findMmio_congr up.mmio _).trans old.ram
  inside := up.size ▸ old.inside
  value := new

theorem coherent_write_absent {c : CacheModel 32 Dev} (h : Coherent c) {m' : MemoryModel 32 Dev}
    {wa : BitVec 32} (up : WordUpdate c.backing m' wa) (absent : c.index.lookup wa = none) :
    Coherent (c.withBacking m') :=
  ⟨up.wholeWords h.words, h.room,
    lines_write_absent (lines_withBacking h.lines m') absent up.lineCoherent⟩

theorem coherent_write_resident {c : CacheModel 32 Dev} (h : Coherent c)
    {m' : MemoryModel 32 Dev} {wa : BitVec 32} (up : WordUpdate c.backing m' wa) {it : Nat}
    (found : c.index.lookup wa = some it) {v : WordT} (new : m'.wordAt wa = v) :
    Coherent ((c.withBacking m').setValue it v) :=
  ⟨up.wholeWords h.words, h.room,
    lines_setValue (lines_withBacking h.lines m') found v up.lineCoherent
      (up.newLine (h.lines.of_lookup found) new.symm)⟩

theorem coherent_withBacking {c : CacheModel 32 Dev} (h : Coherent c) {m' : MemoryModel 32 Dev}
    (size : m'.size = c.backing.size) (mmio : m'.mmio = c.backing.mmio)
    (data : ∀ t, m'.wordAt t = c.backing.wordAt t) : Coherent (c.withBacking m') :=
  ⟨⟨size ▸ h.words.size, mmio ▸ h.words.mmio⟩, h.room,
    (lines_withBacking h.lines m').imp fun _ old =>
      ⟨old.aligned, (findMmio_congr mmio _).trans old.ram, size ▸ old.inside,
        old.value.trans (data _).symm⟩⟩

@[simp] theorem patchCached_capacity (c : CacheModel 32 Dev) (wa off : BitVec 32) (width : Nat)
    (val : WordT) : (c.patchCached wa off width val).capacity = c.capacity := by
  unfold patchCached
  split
  · rfl
  · rfl

/-- patchCached writes into the line what the store wrote into memory. -/
theorem coherent_patch {c : CacheModel 32 Dev} (h : Coherent c) {m' : MemoryModel 32 Dev}
    {wa off : BitVec 32} {width : Nat} {val : WordT} (up : WordUpdate c.backing m' wa)
    (new : m'.wordAt wa = (c.backing.wordAt wa &&&
        ~~~((if width = 1 then 0xFF#32 else 0xFFFF#32) <<< (off * 8#32))) |||
      ((val &&& if width = 1 then 0xFF#32 else 0xFFFF#32) <<< (off * 8#32))) :
    ((c.withBacking m').patchCached wa off width val).backing = m' ∧
      Coherent ((c.withBacking m').patchCached wa off width val) := by
  have back : ((c.withBacking m').patchCached wa off width val).backing = m' :=
    patchCached_backing _ _ _ _ _
  refine ⟨back, ?_, ?_, ?_⟩
  · rw [back]
    exact up.wholeWords h.words
  · rw [patchCached_capacity]
    exact h.room
  · rw [back]
    apply lines_patchCached (lines_withBacking h.lines m') up.lineCoherent
    intro w line
    apply up.newLine line
    have value : w = c.backing.wordAt wa := line.value
    rw [BitVec.setWidth_eq, new, value]

theorem writeWord_update {m m' : MemoryModel 32 Dev} {a : BitVec 32}
    (ram : m.findMmio a = none) (aligned : LowClear 2 a) {v : WordT}
    (wrote : m.writeWord a v = (.ok (), m')) : WordUpdate m m' a ∧ m'.wordAt a = v := by
  rw [writeWord_ram m ram] at wrote
  split at wrote
  · simp only [Prod.mk.injEq, true_and] at wrote
    subst wrote
    refine ⟨⟨rfl, rfl, ?_⟩, ?_⟩
    · intro t clear other
      rw [wordAt_setWord m clear aligned, if_neg other]
    · rw [wordAt_setWord m aligned aligned, if_pos rfl]
  · simp at wrote

theorem readByte_coherent {c : CacheModel 32 Dev} (h : Coherent c) {a : BitVec 32}
    (ram : c.backing.findMmio a = none) :
    (c.readByte a).1.toOption = (c.backing.readByte a).toOption ∧
      (c.readByte a).2.backing = c.backing ∧ Coherent (c.readByte a).2 := by
  have blockRam : c.backing.findMmio (block a) = none := (findMmio_block h.words.mmio a).trans ram
  obtain ⟨word, back, coh⟩ := fetchWord_coherent h (block_clear a) blockRam
  refine ⟨?_, back, coh⟩
  have whole := h.words.size
  have bounds : (block a).toNat + 4 ≤ c.backing.size ↔ a.toNat + 1 ≤ c.backing.size := by
    rw [block_toNat]
    omega
  simp only [readByte, Prod.map_fst, word, c.backing.readWord_ram blockRam,
    c.backing.readByte_ram ram, bounds]
  split
  · simp only [Except.map, Except.toOption, byteAt_of_word]
  · rfl

theorem readHalf_coherent {c : CacheModel 32 Dev} (h : Coherent c) {a : BitVec 32}
    (even : LowClear 1 a) (ram : c.backing.findMmio a = none) :
    (c.readHalf a).1.toOption = (c.backing.readHalf a).toOption ∧
      (c.readHalf a).2.backing = c.backing ∧ Coherent (c.readHalf a).2 := by
  have blockRam : c.backing.findMmio (block a) = none := (findMmio_block h.words.mmio a).trans ram
  obtain ⟨word, back, coh⟩ := fetchWord_coherent h (block_clear a) blockRam
  refine ⟨?_, back, coh⟩
  have whole := h.words.size
  have par : a.toNat % 2 = 0 := (lowClear_iff_mod 1 a).mp even
  have bounds : (block a).toNat + 4 ≤ c.backing.size ↔ a.toNat + 2 ≤ c.backing.size := by
    rw [block_toNat]
    omega
  simp only [readHalf, Prod.map_fst, word, c.backing.readWord_ram blockRam,
    c.backing.readHalf_ram ram, bounds]
  split
  · simp only [Except.map, Except.toOption, half_of_word _ even]
  · rfl

theorem writeByte_coherent {c : CacheModel 32 Dev} (h : Coherent c) {a : BitVec 32}
    (ram : c.backing.findMmio a = none) (v : ByteT) :
    (c.writeByte a v).1 = (c.backing.writeByte a v).1 ∧
      (c.writeByte a v).2.backing = (c.backing.writeByte a v).2 ∧
      Coherent (c.writeByte a v).2 := by
  simp only [writeByte, writeByte_ram _ ram]
  by_cases inside : a.toNat + 1 ≤ c.backing.size
  · simp only [inside, if_true, true_and]
    have mask : v.setWidth 32 &&& 0xFF#32 = v.setWidth 32 :=
      setWidth_and_mask (w := 32) (k := 8) (by omega) v
    have up : WordUpdate c.backing (c.backing.setByte a v) (block a) := ⟨rfl, rfl, by
      intro t clear other
      rw [wordAt_setByte _ clear, if_neg other]⟩
    have new := c.backing.wordAt_setByte_patch (block_clear a) a v
    rw [if_pos rfl] at new
    apply coherent_patch h up
    rw [if_pos rfl, mask, new]
  · simp only [inside, if_false, true_and]
    exact ⟨rfl, h⟩

theorem writeHalf_coherent {c : CacheModel 32 Dev} (h : Coherent c) {a : BitVec 32}
    (even : LowClear 1 a) (ram : c.backing.findMmio a = none) (v : HalfT) :
    (c.writeHalf a v).1 = (c.backing.writeHalf a v).1 ∧
      (c.writeHalf a v).2.backing = (c.backing.writeHalf a v).2 ∧
      Coherent (c.writeHalf a v).2 := by
  simp only [writeHalf, writeHalf_ram _ ram]
  by_cases inside : a.toNat + 2 ≤ c.backing.size
  · simp only [inside, if_true, true_and]
    have mask : v.setWidth 32 &&& 0xFFFF#32 = v.setWidth 32 :=
      setWidth_and_mask (w := 32) (k := 16) (by omega) v
    have up : WordUpdate c.backing ((c.backing.setByte a ((v &&& 0xFF#16).setWidth 8)).setByte
        (a + 1#32) (((v >>> 8) &&& 0xFF#16).setWidth 8)) (block a) := ⟨rfl, rfl, by
      intro t clear other
      rw [wordAt_setHalf_patch _ clear even, if_neg other]⟩
    have new := c.backing.wordAt_setHalf_patch (block_clear a) even v
    rw [if_pos rfl] at new
    apply coherent_patch h up
    rw [if_neg (by omega), mask, new]
  · simp only [inside, if_false, true_and]
    exact ⟨rfl, h⟩

theorem writeWord_coherent {c : CacheModel 32 Dev} (h : Coherent c) {a : BitVec 32}
    (aligned : LowClear 2 a) (ram : c.backing.findMmio a = none) (v : WordT) :
    (c.writeWord a v).1 = (c.backing.writeWord a v).1 ∧
      (c.writeWord a v).2.backing = (c.backing.writeWord a v).2 ∧
      Coherent (c.writeWord a v).2 := by
  unfold writeWord
  cases wrote : c.backing.writeWord a v with
  | mk result m' =>
    cases result with
    | error e =>
      have unchanged := writeWord_error wrote
      subst unchanged
      exact ⟨rfl, rfl, h⟩
    | ok =>
      obtain ⟨up, new⟩ := writeWord_update ram aligned wrote
      cases found : c.index.lookup a with
      | none => exact ⟨rfl, rfl, coherent_write_absent h up found⟩
      | some it =>
        exact ⟨rfl, rfl, coherent_touch (coherent_write_resident h up found new) it⟩

theorem reserveLoad_coherent {c : CacheModel 32 Dev} (h : Coherent c) (a : BitVec 32) :
    Coherent (c.reserveLoad a) :=
  coherent_withBacking h rfl rfl fun _ => rfl

theorem invalidateReservation_coherent {c : CacheModel 32 Dev} (h : Coherent c) :
    Coherent c.invalidateReservation :=
  coherent_withBacking h rfl rfl fun _ => rfl

theorem storeConditional_coherent {c : CacheModel 32 Dev} (h : Coherent c) {a : BitVec 32}
    (aligned : LowClear 2 a) (ram : c.backing.findMmio a = none) (v : WordT) :
    (c.storeConditional a v).1 = (c.backing.storeConditional a v).1 ∧
      (c.storeConditional a v).2.backing = (c.backing.storeConditional a v).2 ∧
      Coherent (c.storeConditional a v).2 := by
  have same : a &&& ~~~3#32 = a := block_eq_self aligned
  unfold storeConditional
  rw [same]
  by_cases refused : !c.backing.lrValid ∨ c.backing.lrAddr ≠ a
  · have result : c.backing.storeConditional a v = (.ok false, c.backing) := by
      rw [MemoryModel.storeConditional, if_pos refused]
    rw [result]
    exact ⟨rfl, rfl, h⟩
  · let cleared : MemoryModel 32 Dev := { c.backing with lrValid := false }
    have base : Coherent (c.withBacking cleared) := coherent_withBacking h rfl rfl fun _ => rfl
    cases wrote : cleared.writeWord a v with
    | mk result m' =>
      cases result with
      | error e =>
        have unchanged := writeWord_error wrote
        have result : c.backing.storeConditional a v = (.error e, m') := by
          rw [MemoryModel.storeConditional, if_neg refused, wrote]
        rw [result, unchanged]
        exact ⟨rfl, rfl, base⟩
      | ok =>
        obtain ⟨up, new⟩ := writeWord_update (m := cleared) ram aligned wrote
        have result : c.backing.storeConditional a v = (.ok true, m') := by
          rw [MemoryModel.storeConditional, if_neg refused, wrote]
        rw [result]
        cases found : c.index.lookup a with
        | none => exact ⟨rfl, rfl, coherent_write_absent base up found⟩
        | some it => exact ⟨rfl, rfl, coherent_write_resident base up found new⟩

end XorOS.CacheModel
