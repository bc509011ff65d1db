import XorOS.Kernel.Clint
import XorOS.System.RunOs

/- What the guest of run_os reads through the cache. mtimecmp changes by stores only, which patch
   the lines, so it is never stale; mtime ticks behind them. -/
namespace XorOS
open Bits Runs MemoryModel

namespace CacheModel
variable {Dev : Type} {m : MemoryModel 32 Dev} {c : CacheModel 32 Dev} {op : CacheOp Dev}
  {target : BitVec 32 → Prop} {P : Line 32 → Prop} {t : BitVec 32}

inductive LineAfter (m : MemoryModel 32 Dev) (op : CacheOp Dev) (P : Line 32 → Prop) :
    Line 32 → Prop
  | kept {tag : BitVec 32} {w : WordT} (old : P ⟨tag, w⟩) :
      LineAfter m op P ⟨tag, written m op tag w⟩
  | fetched {tag : BitVec 32} {w : WordT} (unchanged : direct m op = m)
      (read : m.readWord tag = .ok w) : LineAfter m op P ⟨tag, w⟩

theorem LineAfter.untouched {line : Line 32} (old : P line)
    (same : ∀ w, written m op line.tag w = w) : LineAfter m op P line := by
  have kept : LineAfter m op P ⟨line.tag, written m op line.tag line.value⟩ := .kept old
  rwa [same] at kept

theorem lines_after_read (h : Lines P c) (a : BitVec 32)
    (unchanged : direct c.backing op = c.backing)
    (nothing : ∀ t w, written c.backing op t w = w) :
    Lines (LineAfter c.backing op P) (c.fetchWord a).2 := by
  apply lines_fetchWord (h.imp fun line old => LineAfter.untouched old (nothing line.tag))
  exact fun v _ read => .fetched unchanged read

theorem lines_after_narrow (h : Lines P c) {a : BitVec 32} {width : Nat} {val : WordT}
    (m' : MemoryModel 32 Dev) (others : ∀ t w, t ≠ block a → written c.backing op t w = w)
    (here : ∀ w, written c.backing op (block a) w = (w &&&
        ~~~((if width = 1 then 0xFF#32 else 0xFFFF#32) <<< ((a &&& 3#32).setWidth 32 * 8#32))) |||
      ((val &&& if width = 1 then 0xFF#32 else 0xFFFF#32) <<< ((a &&& 3#32).setWidth 32 * 8#32))) :
    Lines (LineAfter c.backing op P)
      ((c.withBacking m').patchCached (block a) (a &&& 3#32) width val) := by
  apply lines_patchCached (lines_withBacking h m')
  · intro line other old
    exact LineAfter.untouched old fun w => others line.tag w other
  · intro w old
    rw [← here]
    exact .kept old

theorem lines_after_word (h : Lines P c) {a : BitVec 32} {v : WordT} (m' : MemoryModel 32 Dev)
    (others : ∀ t w, t ≠ a → written c.backing op t w = w)
    (here : ∀ w, written c.backing op a w = v) :
    (∀ it, c.index.lookup a = some it →
        Lines (LineAfter c.backing op P) ((c.withBacking m').setValue it v)) ∧
      (c.index.lookup a = none → Lines (LineAfter c.backing op P) (c.withBacking m')) := by
  have untouched : ∀ line : Line 32, line.tag ≠ a → P line → LineAfter c.backing op P line :=
    fun line other old => LineAfter.untouched old fun w => others line.tag w other
  constructor
  · intro it found
    apply lines_setValue (lines_withBacking h m') found v untouched
    rw [← here (c.value it)]
    exact .kept (h.of_lookup found)
  · exact fun absent => lines_write_absent (lines_withBacking h m') absent untouched

theorem lines_after (h : Lines P c) (guest : RunOs.Guest target op) :
    Lines (LineAfter c.backing op P) (c.apply op) := by
  have unwritten (m' : MemoryModel 32 Dev) (nothing : ∀ t w, written c.backing op t w = w) :
      Lines (LineAfter c.backing op P) (c.withBacking m') :=
    (lines_withBacking h m').imp fun line old => LineAfter.untouched old (nothing line.tag)
  cases op with
  | readByte a => exact lines_after_read h _ rfl fun _ _ => rfl
  | readHalf a => exact lines_after_read h _ rfl fun _ _ => rfl
  | readWord a => exact lines_after_read h _ rfl fun _ _ => rfl
  | reserveLoad a => exact unwritten _ fun _ _ => rfl
  | invalidateReservation => exact unwritten _ fun _ _ => rfl
  | device d => exact guest.elim
  | writeByte a v =>
    change Lines _ (c.writeByte a v).2
    unfold writeByte
    rcases wrote : c.backing.writeByte a v with ⟨_ | _, m'⟩
    · refine unwritten m' fun t w => if_neg fun done => ?_
      rw [wrote] at done
      cases done.1
    · have mask : v.setWidth 32 &&& 0xFF#32 = v.setWidth 32 :=
        setWidth_and_mask (w := 32) (k := 8) (by omega) v
      have others (t : BitVec 32) (w : WordT) (other : t ≠ block a) :
          written c.backing (.writeByte a v) t w = w := if_neg fun done => other done.2
      apply lines_after_narrow h m' others
      intro w
      rw [if_pos rfl, mask, BitVec.setWidth_eq]
      exact if_pos ⟨by rw [wrote]; rfl, rfl⟩
  | writeHalf a v =>
    change Lines _ (c.writeHalf a v).2
    unfold writeHalf
    rcases wrote : c.backing.writeHalf a v with ⟨_ | _, m'⟩
    · refine unwritten m' fun t w => if_neg fun done => ?_
      rw [wrote] at done
      cases done.1
    · have mask : v.setWidth 32 &&& 0xFFFF#32 = v.setWidth 32 :=
        setWidth_and_mask (w := 32) (k := 16) (by omega) v
      have others (t : BitVec 32) (w : WordT) (other : t ≠ block a) :
          written c.backing (.writeHalf a v) t w = w := if_neg fun done => other done.2
      apply lines_after_narrow h m' others
      intro w
      rw [if_neg (by omega), mask, BitVec.setWidth_eq]
      exact if_pos ⟨by rw [wrote]; rfl, rfl⟩
  | writeWord a v =>
    change Lines _ (c.writeWord a v).2
    unfold writeWord
    rcases wrote : c.backing.writeWord a v with ⟨_ | _, m'⟩
    · refine unwritten m' fun t w => if_neg fun done => ?_
      rw [wrote] at done
      cases done.1
    · have others (t : BitVec 32) (w : WordT) (other : t ≠ a) :
          written c.backing (.writeWord a v) t w = w := if_neg fun done => other done.2
      have here (w : WordT) : written c.backing (.writeWord a v) a w = v :=
        if_pos ⟨by rw [wrote]; rfl, rfl⟩
      obtain ⟨resident, absent⟩ := lines_after_word h m' others here
      cases found : c.index.lookup a with
      | none => exact absent found
      | some it => exact lines_touch (resident it found) it
  | storeConditional a v =>
    have same : a &&& ~~~3#32 = a := block_eq_self guest.1
    change Lines _ (c.storeConditional a v).2
    unfold storeConditional
    rw [same]
    rcases wrote : c.backing.storeConditional a v with ⟨_ | _ | _, m'⟩
    · refine unwritten m' fun t w => if_neg fun done => ?_
      rw [wrote] at done
      cases done.1
    · refine unwritten m' fun t w => if_neg fun done => ?_
      rw [wrote] at done
      cases done.1
    · have others (t : BitVec 32) (w : WordT) (other : t ≠ a) :
          written c.backing (.storeConditional a v) t w = w := if_neg fun done => other done.2
      have here (w : WordT) : written c.backing (.storeConditional a v) a w = v :=
        if_pos ⟨by rw [wrote], rfl⟩
      obtain ⟨resident, absent⟩ := lines_after_word h m' others here
      cases found : c.index.lookup a with
      | none => exact absent found
      | some it => exact resident it found

abbrev ByWord (m : MemoryModel 32 Dev) : Prop :=
  ∀ r ∈ m.mmio, LowClear 2 r.base ∧ LowClear 2 r.endAddr

theorem ne_block (mmio : ByWord m) {a : BitVec 32} (elsewhere : m.findMmio a ≠ m.findMmio t) :
    t ≠ block a := by
  rintro rfl
  exact elsewhere (findMmio_block mmio a).symm

section Ram
variable (mmio : ByWord m) (clear : LowClear 2 t) (ram : m.findMmio t = none)
include mmio clear ram

theorem wordAt_writeByte (a : BitVec 32) (v : ByteT) :
    (m.writeByte a v).2.wordAt t = written m (.writeByte a v) t (m.wordAt t) := by
  cases routed : m.findMmio a with
  | some r =>
    have other : t ≠ block a := ne_block mmio (by rw [routed, ram]; exact Option.some_ne_none r)
    refine Eq.trans ?_ (if_neg fun done => other done.2).symm
    unfold MemoryModel.writeByte
    rw [routed]
    rfl
  | none =>
    unfold written
    simp only [writeByte_ram m routed]
    by_cases inside : a.toNat + 1 ≤ m.size
    · simp only [if_pos inside, Except.isOk, Except.toBool, true_and]
      exact m.wordAt_setByte_patch clear a v
    · simp only [if_neg inside, Except.isOk, Except.toBool, Bool.false_eq_true, false_and, if_false]

theorem wordAt_writeHalf {a : BitVec 32} (even : LowClear 1 a) (v : HalfT) :
    (m.writeHalf a v).2.wordAt t = written m (.writeHalf a v) t (m.wordAt t) := by
  cases routed : m.findMmio a with
  | some r =>
    have other : t ≠ block a := ne_block mmio (by rw [routed, ram]; exact Option.some_ne_none r)
    refine Eq.trans ?_ (if_neg fun done => other done.2).symm
    unfold MemoryModel.writeHalf
    rw [routed]
    rfl
  | none =>
    unfold written
    simp only [writeHalf_ram m routed]
    by_cases inside : a.toNat + 2 ≤ m.size
    · simp only [if_pos inside, Except.isOk, Except.toBool, true_and]
      exact m.wordAt_setHalf_patch clear even v
    · simp only [if_neg inside, Except.isOk, Except.toBool, Bool.false_eq_true, false_and, if_false]

theorem wordAt_writeWord {a : BitVec 32} (aligned : LowClear 2 a) (v : WordT) :
    (m.writeWord a v).2.wordAt t = written m (.writeWord a v) t (m.wordAt t) := by
  cases routed : m.findMmio a with
  | some r =>
    have other : t ≠ a := by
      rw [← block_eq_self aligned]
      exact ne_block mmio (by rw [routed, ram]; exact Option.some_ne_none r)
    refine Eq.trans ?_ (if_neg fun done => other done.2).symm
    unfold MemoryModel.writeWord
    rw [routed]
    rfl
  | none =>
    unfold written
    simp only [writeWord_ram m routed]
    by_cases inside : a.toNat + 4 ≤ m.size
    · simp only [if_pos inside, Except.isOk, Except.toBool, true_and]
      exact m.wordAt_setWord clear aligned v
    · simp only [if_neg inside, Except.isOk, Except.toBool, Bool.false_eq_true, false_and, if_false]

end Ram

/-- The word t of a region that holds what was last stored there, whatever else is stored. -/
structure Register (m : MemoryModel 32 Dev) (t : BitVec 32) (r : MmioRegion 32 Dev) : Prop where
  routed : m.findMmio t = some r
  store : ∀ a r', LowClear 2 a → m.findMmio a = some r' → ∀ w d,
    r.onRead t (r'.onWrite a w d) = if t = a then w else r.onRead t d

section Mmio
variable {r : MmioRegion 32 Dev} (mmio : ByWord m) (register : Register m t r)
include mmio register

theorem onRead_writeByte (a : BitVec 32) (v : ByteT) :
    r.onRead t (m.writeByte a v).2.dev =
      written m (.writeByte a v) t (r.onRead t m.dev) := by
  cases routed : m.findMmio a with
  | none =>
    have other : t ≠ block a :=
      ne_block mmio (by rw [routed, register.routed]; exact (Option.some_ne_none r).symm)
    refine Eq.trans ?_ (if_neg fun done => other done.2).symm
    rw [writeByte_ram m routed]
    split
    · rfl
    · rfl
  | some r' =>
    have here := (findMmio_block mmio a).trans routed
    unfold written MemoryModel.writeByte
    simp only [routed, Except.isOk, Except.toBool, true_and]
    rw [register.store (block a) r' (block_clear a) here]
    split
    · rename_i same
      have own : r' = r := by
        rw [← same, register.routed] at here
        exact (Option.some.inj here).symm
      rw [own, same]
    · rfl

theorem onRead_writeHalf {a : BitVec 32} (even : LowClear 1 a) (v : HalfT) :
    r.onRead t (m.writeHalf a v).2.dev =
      written m (.writeHalf a v) t (r.onRead t m.dev) := by
  cases routed : m.findMmio a with
  | none =>
    have other : t ≠ block a :=
      ne_block mmio (by rw [routed, register.routed]; exact (Option.some_ne_none r).symm)
    refine Eq.trans ?_ (if_neg fun done => other done.2).symm
    rw [writeHalf_ram m routed]
    split
    · rfl
    · rfl
  | some r' =>
    have here := (findMmio_block mmio a).trans routed
    unfold written MemoryModel.writeHalf
    simp only [routed, Except.isOk, Except.toBool, true_and, even_offset even]
    rw [register.store (block a) r' (block_clear a) here]
    split
    · rename_i same
      have own : r' = r := by
        rw [← same, register.routed] at here
        exact (Option.some.inj here).symm
      rw [own, same]
    · rfl

theorem onRead_writeWord {a : BitVec 32} (aligned : LowClear 2 a) (v : WordT) :
    r.onRead t (m.writeWord a v).2.dev =
      written m (.writeWord a v) t (r.onRead t m.dev) := by
  cases routed : m.findMmio a with
  | none =>
    have other : t ≠ a := by
      rw [← block_eq_self aligned]
      exact ne_block mmio (by rw [routed, register.routed]; exact (Option.some_ne_none r).symm)
    refine Eq.trans ?_ (if_neg fun done => other done.2).symm
    rw [writeWord_ram m routed]
    split
    · rfl
    · rfl
  | some r' =>
    unfold written MemoryModel.writeWord
    simp only [routed, Except.isOk, Except.toBool, true_and]
    exact register.store a r' aligned routed v m.dev

end Mmio

inductive Conditional (m : MemoryModel 32 Dev) (a : BitVec 32) (v : WordT) : Prop
  | refused (nothing : direct m (.storeConditional a v) = m)
      (unwritten : ∀ t w, written m (.storeConditional a v) t w = w)
  | stored (word : direct m (.storeConditional a v) =
        (MemoryModel.writeWord { m with lrValid := false } a v).2)
      (same : ∀ t w, written m (.storeConditional a v) t w =
        written { m with lrValid := false } (.writeWord a v) t w)

theorem conditional (m : MemoryModel 32 Dev) (a : BitVec 32) (v : WordT) : Conditional m a v := by
  by_cases reserved : !m.lrValid ∨ m.lrAddr ≠ a
  · have refused : m.storeConditional a v = (.ok false, m) := if_pos reserved
    refine .refused (congrArg Prod.snd refused) fun t w => if_neg fun done => ?_
    rw [refused] at done
    cases done.1
  · rcases wrote : MemoryModel.writeWord { m with lrValid := false } a v with ⟨_ | _, m'⟩
    · rename_i e
      have failed : m.storeConditional a v = (.error e, m') := by
        rw [MemoryModel.storeConditional, if_neg reserved, wrote]
      refine .stored (by rw [wrote]; exact congrArg Prod.snd failed) fun t w => ?_
      simp only [written, failed, wrote, Except.isOk, Except.toBool, Bool.false_eq_true, false_and,
        reduceCtorEq, if_false]
    · have stored : m.storeConditional a v = (.ok true, m') := by
        rw [MemoryModel.storeConditional, if_neg reserved, wrote]
      refine .stored (by rw [wrote]; exact congrArg Prod.snd stored) fun t w => ?_
      simp only [written, stored, wrote, Except.isOk, Except.toBool, true_and]

theorem wordAt_direct (mmio : ByWord m) (clear : LowClear 2 t) (ram : m.findMmio t = none)
    (guest : RunOs.Guest target op) :
    (direct m op).wordAt t = written m op t (m.wordAt t) := by
  cases op with
  | writeByte a v => exact wordAt_writeByte mmio clear ram a v
  | writeHalf a v => exact wordAt_writeHalf mmio clear ram guest.1 v
  | writeWord a v => exact wordAt_writeWord mmio clear ram guest.1 v
  | storeConditional a v =>
    cases conditional m a v with
    | refused nothing unwritten => rw [nothing, unwritten]
    | stored word same =>
      rw [word, same]
      exact wordAt_writeWord (m := { m with lrValid := false }) mmio clear ram guest.1 v
  | device d => exact guest.elim
  | _ => rfl

theorem onRead_direct {r : MmioRegion 32 Dev} (mmio : ByWord m) (register : Register m t r)
    (guest : RunOs.Guest target op) :
    r.onRead t (direct m op).dev = written m op t (r.onRead t m.dev) := by
  cases op with
  | writeByte a v => exact onRead_writeByte mmio register a v
  | writeHalf a v => exact onRead_writeHalf mmio register guest.1 v
  | writeWord a v => exact onRead_writeWord mmio register guest.1 v
  | storeConditional a v =>
    cases conditional m a v with
    | refused nothing unwritten => rw [nothing, unwritten]
    | stored word same =>
      rw [word, same]
      exact onRead_writeWord (m := { m with lrValid := false }) mmio
        ⟨register.routed, register.store⟩ guest.1 v
  | device d => exact guest.elim
  | _ => rfl

def Settled (m : MemoryModel 32 Dev) (t : BitVec 32) : Prop :=
  LowClear 2 t ∧ (m.findMmio t = none ∨ ∃ r, Register m t r)

theorem settled_store (mmio : ByWord m) (settled : Settled m t) (guest : RunOs.Guest target op)
    {w : WordT} (read : m.readWord t = .ok w) :
    (direct m op).readWord t = .ok (written m op t w) := by
  have layout := direct_layout m op
  have routed := findMmio_of_layout layout t
  have sized : (direct m op).size = m.size := congrArg Prod.fst layout
  obtain ⟨clear, ram | ⟨r, register⟩⟩ := settled
  · rw [readWord_ram m ram] at read
    rw [readWord_ram _ (routed.trans ram), sized, wordAt_direct mmio clear ram guest]
    by_cases inside : t.toNat + 4 ≤ m.size
    · rw [if_pos inside] at read ⊢
      rw [Except.ok.inj read]
    · rw [if_neg inside] at read
      cases read
  · rw [readWord_mmio register.routed] at read
    rw [readWord_mmio (routed.trans register.routed), onRead_direct mmio register guest,
      Except.ok.inj read]

def Exact (words : BitVec 32 → Prop) (m : MemoryModel 32 Dev) (line : Line 32) : Prop :=
  words line.tag → m.readWord line.tag = .ok line.value

theorem exact_apply {words : BitVec 32 → Prop} (mmio : ByWord c.backing)
    (settled : ∀ t, words t → Settled c.backing t) (h : Lines (Exact words c.backing) c)
    (guest : RunOs.Guest target op) : Lines (Exact words (c.apply op).backing) (c.apply op) := by
  rw [apply_backing]
  apply (lines_after h guest).imp
  intro line after listed
  cases after with
  | kept old => exact settled_store mmio (settled _ listed) guest (old listed)
  | fetched unchanged read =>
    rw [unchanged]
    exact read

/-- A fetch of one of the words. -/
theorem fetchWord_exact {words : BitVec 32 → Prop} (h : Lines (Exact words c.backing) c)
    (listed : words t) : (c.fetchWord t).1 = c.backing.readWord t := by
  rw [fetchWord_answer h]
  cases found : c.index.lookup t with
  | none => rfl
  | some it => exact (h.of_lookup found listed).symm

theorem readByte_eq (whole : WholeWords m) (a : BitVec 32) :
    (m.readByte a).toOption = ((m.readWord (block a)).map fun w =>
      ((w >>> ((a &&& 3#32) * 8#32)) &&& 0xFF#32).setWidth 8).toOption := by
  have routed := findMmio_block whole.mmio a
  cases found : m.findMmio a with
  | some r =>
    rw [readWord_mmio (routed.trans found)]
    unfold MemoryModel.readByte
    rw [found]
    rfl
  | none =>
    have size := whole.size
    have bounds : (block a).toNat + 4 ≤ m.size ↔ a.toNat + 1 ≤ m.size := by
      rw [block_toNat]
      omega
    rw [readWord_ram m (routed.trans found), readByte_ram m found]
    simp only [bounds]
    split
    · simp only [Except.map, Except.toOption, byteAt_of_word]
    · rfl

theorem readHalf_eq (whole : WholeWords m) {a : BitVec 32} (even : LowClear 1 a) :
    (m.readHalf a).toOption = ((m.readWord (block a)).map fun w =>
      ((w >>> ((a &&& 3#32) * 8#32)) &&& 0xFFFF#32).setWidth 16).toOption := by
  have routed := findMmio_block whole.mmio a
  cases found : m.findMmio a with
  | some r =>
    rw [readWord_mmio (routed.trans found)]
    unfold MemoryModel.readHalf
    simp only [found, even_offset even]
    rfl
  | none =>
    have size := whole.size
    have par : a.toNat % 2 = 0 := (lowClear_iff_mod 1 a).mp even
    have bounds : (block a).toNat + 4 ≤ m.size ↔ a.toNat + 2 ≤ m.size := by
      rw [block_toNat]
      omega
    rw [readWord_ram m (routed.trans found), readHalf_ram m found]
    simp only [bounds]
    split
    · simp only [Except.map, Except.toOption, half_of_word _ even]
    · rfl

end CacheModel

namespace RunOs
open CacheModel Kernel.Clint RVModel

/-- RAM and mtimecmp: the words outside the UART and mtime. -/
def Followed (t : BitVec 32) : Prop := LowClear 2 t ∧ (t.toNat < 0xF000 ∨ 0xF00C ≤ t.toNat)

section Wiring
variable {m : MemoryModel 32 OsDevice} (wired : m.layout = (osMemory 0#64).layout)
include wired

theorem byWord_os : ByWord m := by
  have mmio : m.mmio = (osMemory 0#64).mmio := congrArg Prod.snd wired
  rw [ByWord, mmio]
  intro r listed
  simp only [osMemory, runOsMemory, mapMmio, MemoryModel.new, List.nil_append, List.cons_append,
    List.mem_cons, List.not_mem_nil, or_false] at listed
  simp only [lowClear_iff_mod]
  rcases listed with rfl | rfl | rfl
  · decide
  · decide
  · decide

theorem findMmio_followed {t : BitVec 32} (followed : Followed t) :
    m.findMmio t = none ∨ t = CLINT_MTIMECMP_LO ∨ t = CLINT_MTIMECMP_HI := by
  obtain ⟨clear, place⟩ := followed
  have rem := clear_mod clear
  by_cases away : t.toNat < 0xF000 ∨ 0xF014 ≤ t.toNat
  · exact Or.inl (findMmio_away (congrArg Prod.snd wired) rfl away)
  · right
    have two : t.toNat = 0xF00C ∨ t.toNat = 0xF010 := by omega
    exact two.imp BitVec.eq_of_toNat_eq BitVec.eq_of_toNat_eq

def mtimecmpWord (t : BitVec 32) (mtimecmp : BitVec 64) : WordT :=
  if t = CLINT_MTIMECMP_LO then mtimecmp.setWidth 32 else (mtimecmp >>> 32).setWidth 32

omit wired in
theorem mtimecmpWord_lo (t : BitVec 32) (v : WordT) (x : BitVec 64) :
    mtimecmpWord t ((x &&& 0xFFFFFFFF00000000#64) ||| v.setWidth 64) =
      if t = CLINT_MTIMECMP_LO then v else mtimecmpWord t x := by
  have value := toNat_writeLo v x
  have bound := v.isLt
  unfold mtimecmpWord
  split
  · apply BitVec.eq_of_toNat_eq
    rw [BitVec.toNat_setWidth, value]
    omega
  · apply BitVec.eq_of_toNat_eq
    rw [toNat_hi, toNat_hi, value]
    omega

omit wired in
theorem mtimecmpWord_hi (t : BitVec 32) (v : WordT) (x : BitVec 64) :
    mtimecmpWord t ((v.setWidth 64 <<< 32) ||| (x &&& 0xFFFFFFFF#64)) =
      if t = CLINT_MTIMECMP_LO then mtimecmpWord t x else v := by
  have value := toNat_writeHi v x
  have bound := v.isLt
  unfold mtimecmpWord
  split
  · apply BitVec.eq_of_toNat_eq
    rw [BitVec.toNat_setWidth, BitVec.toNat_setWidth, value]
    omega
  · apply BitVec.eq_of_toNat_eq
    rw [toNat_hi, value]
    omega

theorem register_mtimecmp {t : BitVec 32} (word : t = CLINT_MTIMECMP_LO ∨ t = CLINT_MTIMECMP_HI) :
    ∃ r, Register m t r := by
  have apart : CLINT_MTIMECMP_HI ≠ CLINT_MTIMECMP_LO := by decide
  have region {a : BitVec 32} (here : a = CLINT_MTIMECMP_LO ∨ a = CLINT_MTIMECMP_HI) :
      ∃ r, m.findMmio a = some r ∧ (∀ t d, r.onRead t d = mtimecmpWord t d.mtimecmp) ∧
        ∀ w d, (r.onWrite a w d).mtimecmp = if a = CLINT_MTIMECMP_LO then
          (d.mtimecmp &&& 0xFFFFFFFF00000000#64) ||| w.setWidth 64
          else (w.setWidth 64 <<< 32) ||| (d.mtimecmp &&& 0xFFFFFFFF#64) := by
    rw [findMmio_of_layout wired]
    rcases here with rfl | rfl
    · exact ⟨_, rfl, fun _ _ => rfl, fun _ _ => rfl⟩
    · exact ⟨_, rfl, fun _ _ => rfl, fun _ _ => rfl⟩
  obtain ⟨r, routed, reads, -⟩ := region word
  refine ⟨r, routed, fun a r' clear there w d => ?_⟩
  rw [reads, reads]
  by_cases away : a < 0xF00C#32 ∨ 0xF014#32 ≤ a
  · rw [(region_elsewhere wired away there a w d).2]
    refine (if_neg ?_).symm
    rintro rfl
    rcases word with rfl | rfl
    · revert away
      decide
    · revert away
      decide
  · have rem := clear_mod clear
    have here : a = CLINT_MTIMECMP_LO ∨ a = CLINT_MTIMECMP_HI := by
      have two : a.toNat = 0xF00C ∨ a.toNat = 0xF010 := by
        rw [not_or, BitVec.lt_def, BitVec.le_def] at away
        change ¬a.toNat < 0xF00C ∧ ¬0xF014 ≤ a.toNat at away
        omega
      exact two.imp BitVec.eq_of_toNat_eq BitVec.eq_of_toNat_eq
    obtain ⟨r'', found, -, writes⟩ := region here
    rw [there] at found
    obtain rfl := Option.some.inj found
    rw [writes]
    rcases here with rfl | rfl
    · rw [if_pos rfl, mtimecmpWord_lo]
    · rw [if_neg apart, mtimecmpWord_hi]
      rcases word with rfl | rfl
      · rw [if_pos rfl, if_neg apart.symm]
      · rw [if_neg apart, if_pos rfl]

theorem settled_followed {t : BitVec 32} (followed : Followed t) : Settled m t := by
  refine ⟨followed.1, ?_⟩
  rcases findMmio_followed wired followed with ram | word
  · exact Or.inl ram
  · exact Or.inr (register_mtimecmp wired word)

theorem readWord_ticked {t : BitVec 32} (followed : Followed t) (mtime : BitVec 64) :
    MemoryModel.readWord { m with dev := { m.dev with mtime := mtime } } t = m.readWord t := by
  have routed : MemoryModel.findMmio { m with dev := { m.dev with mtime := mtime } } t =
      m.findMmio t := rfl
  unfold MemoryModel.readWord
  rw [routed]
  rcases findMmio_followed wired followed with ram | word
  · rw [ram]
    rfl
  · rw [findMmio_of_layout wired]
    rcases word with rfl | rfl
    · rfl
    · rfl

end Wiring

/-- The lines of RAM and mtimecmp are what the memory and the device hold. -/
structure Fresh (c : CacheModel 32 OsDevice) : Prop where
  wired : c.backing.layout = (osMemory 0#64).layout
  lines : Lines (Exact Followed c.backing) c

theorem fresh_step {c : CacheModel 32 OsDevice} (fresh : Fresh c) (cpu : RVModel 32) :
    Fresh (cpu.step c).2.2 := by
  apply (step_calls cpu c).preserves (P := Fresh) ?_ fresh
  intro c c' call fresh
  obtain ⟨op, guest, rfl⟩ := memberCall_op call
  refine ⟨?_, ?_⟩
  · rw [apply_backing, direct_layout, fresh.wired]
  · exact exact_apply (byWord_os fresh.wired) (fun t => settled_followed fresh.wired) fresh.lines
      guest

theorem fresh_tick {c : CacheModel 32 OsDevice} (fresh : Fresh c) : Fresh (tick c) := by
  refine ⟨fresh.wired, (lines_withBacking fresh.lines _).imp fun line exact' followed => ?_⟩
  exact (readWord_ticked fresh.wired followed _).trans (exact' followed)

theorem fresh_of_reachable {bin : List ByteT} {options : Options} {s : OsRun}
    (reached : (loop bin options).Reachable s) : Fresh s.cache := by
  refine reached.invariant (fun s => Fresh s.cache) ?_ ?_
  · intro s booted
    have clocked := clocked_boot booted
    refine ⟨clocked.layout, ?_⟩
    unfold loop boot at booted
    obtain ⟨mem, -, rfl⟩ := Option.map_eq_some_iff.mp booted
    exact lines_new _ _ _
  · intro s taken s' fresh step
    obtain ⟨cpu, cache, stepped, ticked, -⟩ := turn_cases step.2
    have after := fresh_step fresh s.cpu
    rw [stepped] at after
    rw [ticked]
    exact fresh_tick after

/-- Whatever the guest of run_os executes and stores, and through any turns of the loop: reads
    through the cache outside the UART and mtime answer as the memory and the device would. -/
theorem guest_reads_exact {bin : List ByteT} {options : Options} {s : OsRun}
    (reached : (loop bin options).Reachable s) {a : BitVec 32}
    (followed : a.toNat < 0xF000 ∨ 0xF00C ≤ a.toNat) :
    (s.cache.readByte a).1.toOption = (s.cache.backing.readByte a).toOption ∧
      (LowClear 1 a → (s.cache.readHalf a).1.toOption = (s.cache.backing.readHalf a).toOption) ∧
      (LowClear 2 a → (s.cache.readWord a).1 = s.cache.backing.readWord a) := by
  obtain ⟨wired, lines⟩ := fresh_of_reachable reached
  have whole : WholeWords s.cache.backing := by
    refine ⟨?_, byWord_os wired⟩
    have sized : s.cache.backing.size = 0x10000 := congrArg Prod.fst wired
    rw [sized]
  have place : Followed (block a) := by
    refine ⟨block_clear a, ?_⟩
    rw [block_toNat]
    omega
  have word := fetchWord_exact lines place
  refine ⟨?_, fun even => ?_, fun aligned => ?_⟩
  · rw [readByte_eq whole, ← word]
    rfl
  · rw [readHalf_eq whole even, ← word]
    rfl
  · rw [block_eq_self aligned] at word
    exact word

theorem guest_reads_exact_addi :
    ((turn addiRun).2.cache.readWord CLINT_MTIMECMP_LO).1 = .ok 0xFFFFFFFF#32 := by
  have booted : boot addiBinary ⟨false, false⟩ = some addiRun := rfl
  have reached : (loop addiBinary ⟨false, false⟩).Reachable (turn addiRun).2 :=
    .next (.of_init booted) ⟨rfl, Prod.ext (by rfl) rfl⟩
  have aligned : LowClear 2 CLINT_MTIMECMP_LO := (lowClear_iff_mod 2 _).mpr (by decide)
  rw [(guest_reads_exact reached (Or.inr (by decide))).2.2 aligned]
  rfl

/-- The words of mtime, which the guest can overwrite in the cache and not in the device. -/
def IsMtime (a : BitVec 32) : Prop := 0xF004 ≤ a.toNat ∧ a.toNat < 0xF00C

def mtimeWord (t : BitVec 32) (k : Nat) : WordT :=
  if t = CLINT_MTIME_LO then (BitVec.ofNat 64 k).setWidth 32
  else (BitVec.ofNat 64 k >>> 32).setWidth 32

def quietLoop (bin : List ByteT) (options : Options) : System OsRun Bool :=
  (loop bin options).restrict fun s _ =>
    MemberCalls (fun a => ¬IsMtime a) s.cache (s.cpu.step s.cache).2.2

/-- After n turns a line of mtime holds what the word was after k of them. -/
def Past (n : Nat) (line : Line 32) : Prop :=
  (line.tag = CLINT_MTIME_LO ∨ line.tag = CLINT_MTIME_HI) →
    ∃ k ≤ n, line.value = mtimeWord line.tag k

structure Lagging (n : Nat) (c : CacheModel 32 OsDevice) : Prop where
  wired : c.backing.layout = (osMemory 0#64).layout
  now : c.backing.dev.mtime = BitVec.ofNat 64 n
  lines : Lines (Past n) c

theorem readWord_mtime {m : MemoryModel 32 OsDevice} {n : Nat}
    (wired : m.layout = (osMemory 0#64).layout) (now : m.dev.mtime = BitVec.ofNat 64 n)
    {t : BitVec 32} (word : t = CLINT_MTIME_LO ∨ t = CLINT_MTIME_HI) :
    m.readWord t = .ok (mtimeWord t n) := by
  rcases word with rfl | rfl
  · rw [readWord_mtimeLo wired, now]
    rfl
  · rw [readWord_mtimeHi wired, now]
    rfl

theorem written_elsewhere {m : MemoryModel 32 OsDevice} {op : CacheOp OsDevice} {t : BitVec 32}
    (guest : Guest (fun a => ¬IsMtime a) op) (word : t = CLINT_MTIME_LO ∨ t = CLINT_MTIME_HI)
    (w : WordT) : written m op t w = w := by
  have place : t.toNat = 0xF004 ∨ t.toNat = 0xF008 :=
    word.imp (congrArg BitVec.toNat) (congrArg BitVec.toNat)
  have byte {a : BitVec 32} (stores : ¬IsMtime a) : t ≠ block a := by
    rintro rfl
    rw [block_toNat] at place
    unfold IsMtime at stores
    omega
  have whole {a : BitVec 32} (stores : ¬IsMtime a) : t ≠ a := by
    rintro rfl
    unfold IsMtime at stores
    omega
  cases op with
  | writeByte a v => exact if_neg fun done => byte guest done.2
  | writeHalf a v => exact if_neg fun done => byte guest.2 done.2
  | writeWord a v => exact if_neg fun done => whole guest.2 done.2
  | storeConditional a v => exact if_neg fun done => whole guest.2 done.2
  | _ => rfl

theorem lagging_step {n : Nat} {c c' : CacheModel 32 OsDevice} (lagging : Lagging n c)
    (calls : MemberCalls (fun a => ¬IsMtime a) c c') : Lagging n c' := by
  apply calls.preserves (P := Lagging n) ?_ lagging
  intro c c' call lagging
  obtain ⟨op, guest, rfl⟩ := memberCall_op call
  obtain ⟨wired, now, lines⟩ := lagging
  refine ⟨?_, ?_, ?_⟩
  · rw [apply_backing, direct_layout, wired]
  · rw [(served_apply wired guest).mtime, now]
  · apply (lines_after lines guest).imp
    intro line after word
    cases after with
    | kept old =>
      obtain ⟨k, early, value⟩ := old word
      exact ⟨k, early, (written_elsewhere guest word _).trans value⟩
    | fetched unchanged read =>
      rw [readWord_mtime wired now word] at read
      exact ⟨n, Nat.le_refl n, (Except.ok.inj read).symm⟩

theorem lagging_of_path {bin : List ByteT} {options : Options} {start s : OsRun}
    {labels : List Bool} (booted : boot bin options = some start)
    (path : (quietLoop bin options).Path start labels s) : Lagging labels.length s.cache := by
  induction path with
  | nil =>
    have clocked := clocked_boot booted
    unfold boot readBinary at booted
    split at booted
    · simp only [Option.map_some, Option.some.injEq] at booted
      subst booted
      exact ⟨clocked.layout, rfl, lines_new _ _ _⟩
    · cases booted
  | snoc before last ih =>
    obtain ⟨⟨-, turned⟩, calls⟩ := last
    obtain ⟨cpu, cache, stepped, ticked, -⟩ := turn_cases turned
    rw [stepped] at calls
    obtain ⟨wired, now, lines⟩ := lagging_step ih calls
    rw [ticked, List.length_append, List.length_singleton]
    refine ⟨wired, ?_, (lines_withBacking lines _).imp fun line past word => ?_⟩
    · change cache.backing.dev.mtime + 1#64 = _
      rw [now, BitVec.ofNat_add]
    · obtain ⟨k, early, value⟩ := past word
      exact ⟨k, Nat.le_succ_of_le early, value⟩

end RunOs

end XorOS
