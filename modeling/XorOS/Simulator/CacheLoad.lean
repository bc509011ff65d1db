import XorOS.Simulator.CacheCoherence
import XorOS.Simulator.CacheReplacement

/- A program loaded through CacheModel<32>: loadProgram writes the backing memory and leaves the
   lines alone, whatever words they hold. -/
namespace XorOS
open Bits Runs MemoryModel

def CacheCall.Access : CacheCall 32 → Prop
  | .readHalf a | .writeHalf a _ => LowClear 1 a
  | .readWord a | .writeWord a _ | .storeConditional a _ => LowClear 2 a
  | .loadProgram .. => False
  | _ => True

instance : DecidablePred CacheCall.Access
  | .readHalf a | .writeHalf a _ => inferInstanceAs (Decidable (LowClear 1 a))
  | .readWord a | .writeWord a _ | .storeConditional a _ =>
    inferInstanceAs (Decidable (LowClear 2 a))
  | .loadProgram .. => .isFalse id
  | .readByte _ | .writeByte _ _ | .reserveLoad _ | .invalidateReservation => .isTrue trivial

namespace CacheModel
variable {Dev : Type}

/-- No byte of the aligned word t belongs to a device. -/
def RamWord (m : MemoryModel 32 Dev) (t : BitVec 32) : Prop :=
  ∀ i < 4, m.findMmio (t + BitVec.ofNat 32 i) = none

theorem RamWord.first {m : MemoryModel 32 Dev} {t : BitVec 32} (ram : RamWord m t) :
    m.findMmio t = none := by
  have first := ram 0 (by omega)
  rwa [BitVec.add_zero] at first

theorem block_offset (a : BitVec 32) : block a + BitVec.ofNat 32 (a.toNat % 4) = a := by
  apply BitVec.eq_of_toNat_eq
  rw [toNat_add_small (block_clear a) (Nat.mod_lt _ (by omega)), block_toNat]
  omega

theorem block_add {t : BitVec 32} (clear : LowClear 2 t) {i : Nat} (small : i < 4) :
    block (t + BitVec.ofNat 32 i) = t := by
  apply BitVec.eq_of_toNat_eq
  have := clear_mod clear
  rw [block_toNat, toNat_add_small clear small]
  omega

theorem RamWord.byte {m : MemoryModel 32 Dev} {a : BitVec 32} (ram : RamWord m (block a)) :
    m.findMmio a = none := by
  have here := ram (a.toNat % 4) (Nat.mod_lt _ (by omega))
  rwa [block_offset] at here

theorem ramWord_congr {m m' : MemoryModel 32 Dev} (same : m'.mmio = m.mmio) (t : BitVec 32) :
    RamWord m' t ↔ RamWord m t := by
  simp only [RamWord, findMmio_congr same]

/-- A line of an aligned word that, in RAM, holds the word of the memory. -/
structure LineOfRam (m : MemoryModel 32 Dev) (line : Line 32) : Prop where
  aligned : LowClear 2 line.tag
  inside : RamWord m line.tag → line.tag.toNat + 4 ≤ m.size
  value : RamWord m line.tag → line.value = m.wordAt line.tag

theorem LineOfRam.untouched {m m' : MemoryModel 32 Dev} {wa : BitVec 32}
    (up : WordUpdate m m' wa) (line : Line 32) (other : line.tag ≠ wa) (old : LineOfRam m line) :
    LineOfRam m' line where
  aligned := old.aligned
  inside ram := up.size.symm ▸ old.inside ((ramWord_congr up.mmio _).mp ram)
  value ram := (old.value ((ramWord_congr up.mmio _).mp ram)).trans
    (up.others _ old.aligned other).symm

theorem LineOfRam.rewritten {m m' : MemoryModel 32 Dev} {wa : BitVec 32}
    (up : WordUpdate m m' wa) {w v : WordT} (old : LineOfRam m ⟨wa, w⟩)
    (new : RamWord m wa → w = m.wordAt wa → v = m'.wordAt wa) : LineOfRam m' ⟨wa, v⟩ where
  aligned := old.aligned
  inside ram := up.size.symm ▸ old.inside ((ramWord_congr up.mmio _).mp ram)
  value ram := by
    have ram' := (ramWord_congr up.mmio wa).mp ram
    exact new ram' (old.value ram')

theorem LineOfRam.same_data {m m' : MemoryModel 32 Dev} (layout : m'.layout = m.layout)
    (data : m'.data = m.data) {line : Line 32} (old : LineOfRam m line) : LineOfRam m' line := by
  have size : m'.size = m.size := congrArg Prod.fst layout
  have mmio : m'.mmio = m.mmio := congrArg Prod.snd layout
  constructor
  · exact old.aligned
  · intro ram
    exact size.symm ▸ old.inside ((ramWord_congr mmio _).mp ram)
  · intro ram
    rw [old.value ((ramWord_congr mmio _).mp ram)]
    simp only [wordAt, byteAt, data]

theorem writeByte_update {m m' : MemoryModel 32 Dev} {a : BitVec 32} {v : ByteT}
    (wrote : m.writeByte a v = (.ok (), m')) : WordUpdate m m' (block a) ∧
      (m.findMmio a = none → m'.wordAt (block a) =
        (m.wordAt (block a) &&& ~~~(0xFF#32 <<< ((a &&& 3#32) * 8#32))) |||
          (v.setWidth 32 <<< ((a &&& 3#32) * 8#32))) := by
  cases found : m.findMmio a with
  | some r =>
    simp only [MemoryModel.writeByte, found, Prod.mk.injEq, true_and] at wrote
    subst wrote
    exact ⟨⟨rfl, rfl, fun _ _ _ => rfl⟩, fun ram => by simp at ram⟩
  | none =>
    rw [m.writeByte_ram found] at wrote
    split at wrote
    · simp only [Prod.mk.injEq, true_and] at wrote
      subst wrote
      refine ⟨⟨rfl, rfl, ?_⟩, fun _ => ?_⟩
      · intro t clear other
        rw [wordAt_setByte _ clear, if_neg other]
      · rw [wordAt_setByte_patch _ (block_clear a), if_pos rfl]
    · simp at wrote

theorem writeHalf_update {m m' : MemoryModel 32 Dev} {a : BitVec 32} (even : LowClear 1 a)
    {v : HalfT} (wrote : m.writeHalf a v = (.ok (), m')) : WordUpdate m m' (block a) ∧
      (m.findMmio a = none → m'.wordAt (block a) =
        (m.wordAt (block a) &&& ~~~(0xFFFF#32 <<< ((a &&& 3#32) * 8#32))) |||
          (v.setWidth 32 <<< ((a &&& 3#32) * 8#32))) := by
  cases found : m.findMmio a with
  | some r =>
    simp only [MemoryModel.writeHalf, found, Prod.mk.injEq, true_and] at wrote
    subst wrote
    exact ⟨⟨rfl, rfl, fun _ _ _ => rfl⟩, fun ram => by simp at ram⟩
  | none =>
    rw [m.writeHalf_ram found] at wrote
    split at wrote
    · simp only [Prod.mk.injEq, true_and] at wrote
      subst wrote
      refine ⟨⟨rfl, rfl, ?_⟩, fun _ => ?_⟩
      · intro t clear other
        rw [wordAt_setHalf_patch _ clear even, if_neg other]
      · rw [wordAt_setHalf_patch _ (block_clear a) even, if_pos rfl]
    · simp at wrote

theorem writeWord_updates {m m' : MemoryModel 32 Dev} {a : BitVec 32} (aligned : LowClear 2 a)
    {v : WordT} (wrote : m.writeWord a v = (.ok (), m')) :
    WordUpdate m m' a ∧ (m.findMmio a = none → m'.wordAt a = v) := by
  cases found : m.findMmio a with
  | some r =>
    simp only [MemoryModel.writeWord, found, Prod.mk.injEq, true_and] at wrote
    subst wrote
    exact ⟨⟨rfl, rfl, fun _ _ _ => rfl⟩, fun ram => by simp at ram⟩
  | none =>
    obtain ⟨up, new⟩ := writeWord_update found aligned wrote
    exact ⟨up, fun _ => new⟩

abbrev OfRam (c : CacheModel 32 Dev) : Prop := Lines (LineOfRam c.backing) c

theorem ofRam_fetchWord {c : CacheModel 32 Dev} (h : OfRam c) {a : BitVec 32}
    (clear : LowClear 2 a) : OfRam (c.fetchWord a).2 := by
  unfold OfRam
  rw [fetchWord_backing]
  apply lines_fetchWord h
  intro v _ word
  have read (ram : RamWord c.backing a) :
      a.toNat + 4 ≤ c.backing.size ∧ v = c.backing.wordAt a := by
    rw [c.backing.readWord_ram ram.first] at word
    split at word
    · rename_i inside
      exact ⟨inside, (Except.ok.inj word).symm⟩
    · simp at word
  exact ⟨clear, fun ram => (read ram).1, fun ram => (read ram).2⟩

theorem ofRam_patch {c : CacheModel 32 Dev} (h : OfRam c) {m' : MemoryModel 32 Dev}
    {wa off : BitVec 32} {width : Nat} {val : WordT} (up : WordUpdate c.backing m' wa)
    (new : RamWord c.backing wa → m'.wordAt wa = (c.backing.wordAt wa &&&
        ~~~((if width = 1 then 0xFF#32 else 0xFFFF#32) <<< (off * 8#32))) |||
      ((val &&& if width = 1 then 0xFF#32 else 0xFFFF#32) <<< (off * 8#32))) :
    OfRam ((c.withBacking m').patchCached wa off width val) := by
  unfold OfRam
  rw [patchCached_backing]
  apply lines_patchCached (lines_withBacking h m') fun line other old =>
    .untouched up line other old
  intro w old
  apply LineOfRam.rewritten up old
  intro ram value
  rw [BitVec.setWidth_eq, new ram, value]

theorem ofRam_withBacking {c : CacheModel 32 Dev} (h : OfRam c) {m' : MemoryModel 32 Dev}
    (layout : m'.layout = c.backing.layout) (data : m'.data = c.backing.data) :
    OfRam (c.withBacking m') :=
  (lines_withBacking h m').imp fun _ old => old.same_data layout data

theorem ofRam_written {c : CacheModel 32 Dev} (h : OfRam c) {m' : MemoryModel 32 Dev}
    {a : BitVec 32} {v : WordT} (up : WordUpdate c.backing m' a)
    (new : c.backing.findMmio a = none → m'.wordAt a = v) :
    (∀ it, c.index.lookup a = some it → OfRam ((c.withBacking m').setValue it v)) ∧
      (c.index.lookup a = none → OfRam (c.withBacking m')) := by
  have others : ∀ line : Line 32, line.tag ≠ a → LineOfRam c.backing line → LineOfRam m' line :=
    fun line other old => .untouched up line other old
  constructor
  · intro it found
    refine lines_setValue (lines_withBacking h m') found v others ?_
    apply LineOfRam.rewritten up (h.of_lookup found)
    intro ram _
    exact (new ram.first).symm
  · intro absent
    exact lines_write_absent (lines_withBacking h m') absent others

theorem ofRam_storeConditional {c : CacheModel 32 Dev} (h : OfRam c) {a : BitVec 32}
    (aligned : LowClear 2 a) (v : WordT) : OfRam (c.storeConditional a v).2 := by
  have same : a &&& ~~~3#32 = a := block_eq_self aligned
  unfold CacheModel.storeConditional
  rw [same]
  unfold MemoryModel.storeConditional
  by_cases refused : !c.backing.lrValid ∨ c.backing.lrAddr ≠ a
  · rw [if_pos refused]
    exact h
  rw [if_neg refused]
  have cleared : OfRam (c.withBacking { c.backing with lrValid := false }) :=
    ofRam_withBacking h rfl rfl
  rcases wrote : MemoryModel.writeWord { c.backing with lrValid := false } a v with ⟨result, m'⟩
  cases result with
  | error e =>
    rw [writeWord_error wrote]
    exact cleared
  | ok =>
    obtain ⟨up, new⟩ := writeWord_updates aligned wrote
    obtain ⟨resident, absent⟩ := ofRam_written cleared up new
    cases found : c.index.lookup a with
    | none => exact absent found
    | some it => exact resident it found

theorem ofRam_perform {c : CacheModel 32 Dev} (h : OfRam c) {call : CacheCall 32}
    (access : call.Access) : OfRam (c.perform call).2 := by
  cases call with
  | readByte a => exact ofRam_fetchWord h (block_clear a)
  | readHalf a => exact ofRam_fetchWord h (block_clear a)
  | readWord a => exact ofRam_fetchWord h access
  | writeByte a v =>
    simp only [perform, returned, CacheModel.writeByte]
    rcases wrote : c.backing.writeByte a v with ⟨result, m'⟩
    cases result with
    | error e =>
      rw [writeByte_error wrote]
      exact h
    | ok =>
      obtain ⟨up, new⟩ := writeByte_update wrote
      have mask : v.setWidth 32 &&& 0xFF#32 = v.setWidth 32 :=
        setWidth_and_mask (w := 32) (k := 8) (by omega) v
      apply ofRam_patch h up
      intro ram
      rw [if_pos rfl, mask, new ram.byte]
  | writeHalf a v =>
    simp only [perform, returned, CacheModel.writeHalf]
    rcases wrote : c.backing.writeHalf a v with ⟨result, m'⟩
    cases result with
    | error e =>
      rw [writeHalf_error wrote]
      exact h
    | ok =>
      obtain ⟨up, new⟩ := writeHalf_update access wrote
      have mask : v.setWidth 32 &&& 0xFFFF#32 = v.setWidth 32 :=
        setWidth_and_mask (w := 32) (k := 16) (by omega) v
      apply ofRam_patch h up
      intro ram
      rw [if_neg (by omega), mask, new ram.byte]
  | writeWord a v =>
    simp only [perform, returned, CacheModel.writeWord]
    rcases wrote : c.backing.writeWord a v with ⟨result, m'⟩
    cases result with
    | error e =>
      rw [writeWord_error wrote]
      exact h
    | ok =>
      obtain ⟨up, new⟩ := writeWord_updates access wrote
      obtain ⟨resident, absent⟩ := ofRam_written h up new
      cases found : c.index.lookup a with
      | none => exact absent found
      | some it => exact lines_touch (resident it found) it
  | loadProgram p base => exact access.elim
  | reserveLoad a => exact ofRam_withBacking h rfl rfl
  | storeConditional a v => exact ofRam_storeConditional h access v
  | invalidateReservation => exact ofRam_withBacking h rfl rfl

theorem ofRam_performAll (calls : List (CacheCall 32)) (accesses : ∀ call ∈ calls, call.Access)
    (c : CacheModel 32 Dev) (h : OfRam c) : OfRam (c.performAll calls) := by
  induction calls generalizing c with
  | nil => exact h
  | cons call rest ih =>
    exact ih (fun next member => accesses next (List.mem_cons_of_mem call member)) _
      (ofRam_perform h (accesses call List.mem_cons_self))

theorem backing_performAll (calls : List (CacheCall 32)) (c : CacheModel 32 Dev) :
    (c.performAll calls).backing = calls.foldl beyond c.backing := by
  induction calls generalizing c with
  | nil => rfl
  | cons call rest ih =>
    change ((c.perform call).2.performAll rest).backing = _
    rw [ih, (perform_effect c call).backing]
    rfl

theorem layout_foldl (calls : List (CacheCall 32)) (m : MemoryModel 32 Dev) :
    (calls.foldl beyond m).layout = m.layout := by
  induction calls generalizing m with
  | nil => rfl
  | cons call rest ih => exact (ih _).trans (beyond_layout m call)

def Loaded (p : Program) (base a : BitVec 32) : Prop :=
  base.toNat ≤ a.toNat ∧ a.toNat < base.toNat + p.bytes.length

theorem load_memory {m : MemoryModel 32 Dev} {p : Program} {base : BitVec 32}
    (inRange : base.toNat + p.bytes.length ≤ m.size) :
    beyond m (.loadProgram p base) = { m with
      data := fun i =>
        if base.toNat ≤ i ∧ i < base.toNat + p.bytes.length then
          p.bytes.getD (i - base.toNat) 0#8
        else m.data i } := by
  have short := p.fits
  have low := base.isLt
  have fits : ¬(base.toNat + p.bytes.length) % 2 ^ 64 > m.size := by omega
  simp only [beyond, MemoryModel.loadProgram, if_neg p.nonempty, if_neg fits, Option.elim_some]

theorem load_byteAt {m : MemoryModel 32 Dev} {p : Program} {base a : BitVec 32}
    (inRange : base.toNat + p.bytes.length ≤ m.size) :
    (Loaded p base a → (beyond m (.loadProgram p base)).byteAt a =
        p.bytes.getD (a.toNat - base.toNat) 0#8) ∧
      (¬Loaded p base a → (beyond m (.loadProgram p base)).byteAt a = m.byteAt a) := by
  rw [load_memory inRange]
  exact ⟨fun loaded => if_pos loaded, fun other => if_neg other⟩

theorem perform_load (c : CacheModel 32 Dev) (p : Program) (base : BitVec 32) :
    (c.perform (.loadProgram p base)).2 =
      c.withBacking (beyond c.backing (.loadProgram p base)) := by
  simp only [perform, beyond, CacheModel.loadProgram]
  cases c.backing.loadProgram p.bytes base with
  | none => rfl
  | some r => rfl

/-- No byte of a resident word of RAM is changed by the load, and no byte is loaded into a last
    word of RAM that the memory ends in the middle of. -/
structure LoadVisible (c : CacheModel 32 Dev) (p : Program) (base : BitVec 32) : Prop where
  unchanged : ∀ a, Loaded p base a → RamWord c.backing (block a) → block a ∈ tags c →
    p.bytes.getD (a.toNat - base.toNat) 0#8 = c.backing.byteAt a
  whole : ∀ a, Loaded p base a → RamWord c.backing (block a) →
    (block a).toNat + 4 ≤ c.backing.size

/-- Aligned reads at an address answer as those of the memory d. -/
structure ReadsAs (c : CacheModel 32 Dev) (d : MemoryModel 32 Dev) (a : BitVec 32) : Prop where
  byte : (c.readByte a).1 = d.readByte a
  half : LowClear 1 a → (c.readHalf a).1 = d.readHalf a
  word : LowClear 2 a → (c.readWord a).1 = d.readWord a

theorem ofRam_load {c : CacheModel 32 Dev} (h : OfRam c) {p : Program} {base : BitVec 32}
    (inRange : base.toNat + p.bytes.length ≤ c.backing.size) (visible : LoadVisible c p base) :
    OfRam (c.perform (.loadProgram p base)).2 := by
  rw [perform_load]
  have layout := beyond_layout c.backing (.loadProgram p base)
  have size : (beyond c.backing (.loadProgram p base)).size = c.backing.size :=
    congrArg Prod.fst layout
  have mmio : (beyond c.backing (.loadProgram p base)).mmio = c.backing.mmio :=
    congrArg Prod.snd layout
  refine ⟨h.indexed, fun it line member => ?_⟩
  have old := h.each it line member
  have resident : line.tag ∈ tags c := List.mem_map.mpr ⟨(it, line), member, rfl⟩
  constructor
  · exact old.aligned
  · intro ram
    exact size.symm ▸ old.inside ((ramWord_congr mmio _).mp ram)
  · intro ram
    have ram' := (ramWord_congr mmio _).mp ram
    rw [old.value ram']
    apply leWord_congr
    intro i small
    have here := block_add old.aligned small
    obtain ⟨there, away⟩ := load_byteAt (a := line.tag + BitVec.ofNat 32 i) inRange
    by_cases loaded : Loaded p base (line.tag + BitVec.ofNat 32 i)
    · have same := visible.unchanged _ loaded (here.symm ▸ ram') (here.symm ▸ resident)
      exact (same.symm.trans (there loaded).symm)
    · exact (away loaded).symm

theorem fetch_ofRam {c : CacheModel 32 Dev} (h : OfRam c) {t : BitVec 32}
    (ram : RamWord c.backing t) (inside : t.toNat + 4 ≤ c.backing.size) :
    (c.fetchWord t).1 = .ok (c.backing.wordAt t) := by
  rw [fetchWord_answer h]
  cases found : c.index.lookup t with
  | some it => exact congrArg Except.ok ((h.of_lookup found).value ram)
  | none => exact (c.backing.readWord_ram ram.first).trans (if_pos inside)

theorem readsAs_of_ofRam {c : CacheModel 32 Dev} (h : OfRam c) {a : BitVec 32}
    (ram : RamWord c.backing (block a)) (inside : (block a).toNat + 4 ≤ c.backing.size) :
    ReadsAs c c.backing a where
  byte := by
    have fits : a.toNat + 1 ≤ c.backing.size := by
      rw [block_toNat] at inside
      omega
    simp only [CacheModel.readByte, Prod.map_fst, fetch_ofRam h ram inside,
      c.backing.readByte_ram ram.byte, if_pos fits, Except.map, byteAt_of_word]
  half := by
    intro even
    have fits : a.toNat + 2 ≤ c.backing.size := by
      have par : a.toNat % 2 = 0 := (lowClear_iff_mod 1 a).mp even
      rw [block_toNat] at inside
      omega
    simp only [CacheModel.readHalf, Prod.map_fst, fetch_ofRam h ram inside,
      c.backing.readHalf_ram ram.byte, if_pos fits, Except.map, half_of_word _ even]
  word := by
    intro clear
    rw [block_eq_self clear] at ram inside
    exact (fetch_ofRam h ram inside).trans
      ((c.backing.readWord_ram ram.first).trans (if_pos inside)).symm

/-- A cached byte read of a word that the memory ends in the middle of throws, the memory's own
    does not. -/
theorem whole_of_readByte {c : CacheModel 32 Dev} (h : OfRam c) {m : MemoryModel 32 Dev}
    (layout : m.layout = c.backing.layout) {a : BitVec 32} (ram : RamWord c.backing (block a))
    (inside : a.toNat + 1 ≤ m.size)
    (same : ((c.withBacking m).readByte a).1 = m.readByte a) : (block a).toNat + 4 ≤ m.size := by
  have size : m.size = c.backing.size := congrArg Prod.fst layout
  have ram' := (ramWord_congr (congrArg Prod.snd layout) _).mpr ram
  rw [m.readByte_ram ram'.byte, if_pos inside] at same
  have word : ∃ w, ((c.withBacking m).fetchWord (block a)).1 = .ok w := by
    simp only [CacheModel.readByte, Prod.map_fst] at same
    cases fetched : ((c.withBacking m).fetchWord (block a)).1 with
    | error e =>
      have threw : ((c.withBacking m).fetchWord (a &&& ~~~0b11#32)).1 = .error e := fetched
      rw [threw] at same
      simp [Except.map] at same
    | ok w => exact ⟨w, rfl⟩
  obtain ⟨w, word⟩ := word
  rw [fetchWord_answer (lines_withBacking h m)] at word
  cases found : c.index.lookup (block a) with
  | some it => exact size.symm ▸ (h.of_lookup found).inside ram
  | none =>
    simp only [withBacking, found, m.readWord_ram ram'.first] at word
    split at word
    · rename_i fits
      exact fits
    · simp at word

theorem readByte_stale {c : CacheModel 32 Dev} (h : OfRam c) {a : BitVec 32}
    (ram : RamWord c.backing (block a)) (resident : block a ∈ tags c) (m : MemoryModel 32 Dev) :
    ((c.withBacking m).readByte a).1 = .ok (c.backing.byteAt a) := by
  obtain ⟨it, found⟩ := (mem_tags_iff h.indexed _).mp resident
  have value := (h.of_lookup found).value ram
  have line : ((c.withBacking m).fetchWord (block a)).1 = .ok (c.value it) := by
    rw [fetchWord_answer (lines_withBacking h m)]
    simp only [withBacking, found]
    rfl
  have line : ((c.withBacking m).fetchWord (a &&& ~~~0b11#32)).1 =
      .ok (c.backing.wordAt (block a)) := line.trans (congrArg Except.ok value)
  simp only [CacheModel.readByte, Prod.map_fst, line, Except.map, byteAt_of_word]

/-- The byte reads right after the load already tell whether it is visible. -/
theorem visible_of_readByte {c : CacheModel 32 Dev} (h : OfRam c) {p : Program}
    {base : BitVec 32} (inRange : base.toNat + p.bytes.length ≤ c.backing.size)
    (reads : ∀ a, Loaded p base a → RamWord c.backing (block a) →
      ((c.withBacking (beyond c.backing (.loadProgram p base))).readByte a).1 =
        (beyond c.backing (.loadProgram p base)).readByte a) : LoadVisible c p base := by
  have layout := beyond_layout c.backing (.loadProgram p base)
  have size : (beyond c.backing (.loadProgram p base)).size = c.backing.size :=
    congrArg Prod.fst layout
  have within (a : BitVec 32) (loaded : Loaded p base a) :
      a.toNat + 1 ≤ (beyond c.backing (.loadProgram p base)).size := by
    have := loaded.2
    omega
  constructor
  · intro a loaded ram resident
    have stale := readByte_stale h ram resident (beyond c.backing (.loadProgram p base))
    have ram' := (ramWord_congr (congrArg Prod.snd layout) (block a)).mpr ram
    rw [reads a loaded ram, readByte_ram _ ram'.byte, if_pos (within a loaded),
      (load_byteAt inRange).1 loaded] at stale
    exact Except.ok.inj stale
  · intro a loaded ram
    exact size ▸ whole_of_readByte h layout ram (within a loaded) (reads a loaded ram)

theorem LoadVisible.readsAs {c : CacheModel 32 Dev} {p : Program} {base : BitVec 32}
    (visible : LoadVisible c p base) (h : OfRam c)
    (inRange : base.toNat + p.bytes.length ≤ c.backing.size) {later : List (CacheCall 32)}
    (accesses : ∀ call ∈ later, call.Access) {a : BitVec 32} (loaded : Loaded p base a)
    (ram : RamWord c.backing (block a)) :
    ReadsAs ((c.perform (.loadProgram p base)).2.performAll later)
      (later.foldl beyond (beyond c.backing (.loadProgram p base))) a := by
  have after := ofRam_performAll later accesses _ (ofRam_load h inRange visible)
  have backing : ((c.perform (.loadProgram p base)).2.performAll later).backing =
      later.foldl beyond (beyond c.backing (.loadProgram p base)) := by
    rw [backing_performAll, perform_load]
    rfl
  have layout : ((c.perform (.loadProgram p base)).2.performAll later).backing.layout =
      c.backing.layout := by
    rw [backing, layout_foldl, beyond_layout]
  have size : ((c.perform (.loadProgram p base)).2.performAll later).backing.size =
      c.backing.size := congrArg Prod.fst layout
  have ram' := (ramWord_congr (congrArg Prod.snd layout) (block a)).mpr ram
  rw [← backing]
  exact readsAs_of_ofRam after ram' (size.symm ▸ visible.whole a loaded ram)

/-- Every later read of a loaded word of RAM answers as the memory alone would, whatever aligned
    accesses come between, exactly if the load is visible to the cache. -/
theorem load_visible_iff (m : MemoryModel 32 Dev) (capacity : Nat) (prior : List (CacheCall 32))
    (accesses : ∀ call ∈ prior, call.Access) (p : Program) (base : BitVec 32)
    (inRange : base.toNat + p.bytes.length ≤ m.size) :
    (∀ later : List (CacheCall 32), (∀ call ∈ later, call.Access) →
      ∀ a, Loaded p base a → RamWord m (block a) →
        ReadsAs ((new m capacity).performAll (prior ++ .loadProgram p base :: later))
          ((prior ++ .loadProgram p base :: later).foldl beyond m) a) ↔
    LoadVisible ((new m capacity).performAll prior) p base := by
  have before : OfRam ((new m capacity).performAll prior) :=
    ofRam_performAll prior accesses _ (lines_new _ m capacity)
  have backing : ((new m capacity).performAll prior).backing = prior.foldl beyond m :=
    backing_performAll prior _
  have kept : ((new m capacity).performAll prior).backing.layout = m.layout :=
    backing ▸ layout_foldl prior m
  have split (later : List (CacheCall 32)) :
      (new m capacity).performAll (prior ++ .loadProgram p base :: later) =
        ((((new m capacity).performAll prior).perform (.loadProgram p base)).2).performAll later :=
    List.foldl_append
  have splitMemory (later : List (CacheCall 32)) :
      (prior ++ .loadProgram p base :: later).foldl beyond m =
        later.foldl beyond
          (beyond ((new m capacity).performAll prior).backing (.loadProgram p base)) := by
    rw [backing, List.foldl_append]
    rfl
  simp only [split, splitMemory]
  generalize (new m capacity).performAll prior = c at before kept
  have size : c.backing.size = m.size := congrArg Prod.fst kept
  have routed (t : BitVec 32) : RamWord c.backing t ↔ RamWord m t :=
    ramWord_congr (congrArg Prod.snd kept) t
  rw [← size] at inRange
  constructor
  · intro reads
    refine visible_of_readByte before inRange ?_
    intro a loaded ram
    have read := (reads [] (fun _ member => absurd member List.not_mem_nil) a loaded
      ((routed _).mp ram)).byte
    rwa [perform_load] at read
  · intro visible later accesses a loaded ram
    exact visible.readsAs before inRange accesses loaded ((routed _).mpr ram)

def oneByte : Program := ⟨[1#8], by decide, by decide⟩

def evicting : List (CacheCall 32) :=
  [.readWord 0#32, .readHalf 4#32, .writeByte 4#32 3#8, .readWord 8#32]

def turningOver : List (CacheCall 32) := [.writeWord 4#32 7#32, .readHalf 0#32, .readByte 12#32]

/-- A load over the evicted word, with two other words resident, is seen at once and later. -/
theorem load_visible_iff_evicted :
    (((new (MemoryModel.new 16 () : MemoryModel 32 Unit) 2).performAll
      (evicting ++ .loadProgram oneByte 0#32 :: [])).readWord 0#32).1 = .ok 1#32 ∧
    (((new (MemoryModel.new 16 () : MemoryModel 32 Unit) 2).performAll
      (evicting ++ .loadProgram oneByte 0#32 :: turningOver)).readWord 0#32).1 = .ok 1#32 := by
  have evicted : 0#32 ∉ tags ((new (MemoryModel.new 16 () : MemoryModel 32 Unit) 2).performAll
      evicting) := by decide
  have zero {a : BitVec 32} (loaded : Loaded oneByte 0#32 a) : a = 0#32 :=
    BitVec.eq_of_toNat_eq (Nat.lt_one_iff.mp loaded.2)
  have visible : LoadVisible ((new (MemoryModel.new 16 () : MemoryModel 32 Unit) 2).performAll
      evicting) oneByte 0#32 := by
    constructor
    · intro a loaded _ resident
      rw [zero loaded] at resident
      exact absurd resident evicted
    · intro a loaded _
      rw [zero loaded]
      decide
  have reads := (load_visible_iff (MemoryModel.new 16 () : MemoryModel 32 Unit) 2 evicting
    (by decide) oneByte 0#32 (by decide)).mpr visible
  have loaded : Loaded oneByte 0#32 0#32 := ⟨by decide, by decide⟩
  constructor
  · rw [(reads [] (by decide) 0#32 loaded fun _ _ => rfl).word (by decide)]
    decide
  · rw [(reads turningOver (by decide) 0#32 loaded fun _ _ => rfl).word (by decide)]
    decide

/-- The word at 0 is read before the load: a read after it still answers the old byte. -/
theorem load_stale :
    ((((new (MemoryModel.new 4 () : MemoryModel 32 Unit) 1).performAll
        [.readWord 0#32, .loadProgram oneByte 0#32]).readByte 0#32).1 = .ok 0#8) ∧
      ([CacheCall.readWord 0#32, .loadProgram oneByte 0#32].foldl beyond
        (MemoryModel.new 4 () : MemoryModel 32 Unit)).readByte 0#32 = .ok 1#8 := by
  constructor
  · decide
  · decide

end CacheModel

end XorOS
