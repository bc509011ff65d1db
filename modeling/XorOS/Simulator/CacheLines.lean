import XorOS.Simulator.CacheModel

/- The representation of the cache: index_ and lru_ hold the same lines, each tag once. A
   property of single lines is kept by an operation if it holds of the lines that the
   operation changes or inserts. -/
namespace XorOS.CacheModel
variable {xlen : Nat} {Dev : Type} {P Q : Line xlen → Prop}

/-- The iterators of index_ are those of the nodes of lru_ with their own tag. -/
def Indexed (c : CacheModel xlen Dev) : Prop :=
  ∀ tag it, c.index.lookup tag = some it ↔ ∃ v, (it, Line.mk tag v) ∈ c.lru.nodes

structure Lines (P : Line xlen → Prop) (c : CacheModel xlen Dev) : Prop where
  indexed : Indexed c
  each : ∀ it line, (it, line) ∈ c.lru.nodes → P line

theorem lines_new (P : Line xlen → Prop) (m : MemoryModel xlen Dev) (capacity : Nat) :
    Lines P (new m capacity) where
  indexed := by
    intro tag it
    simp [new, IterList.empty]
  each := by
    intro it line member
    simp [new, IterList.empty] at member

theorem Lines.imp {c : CacheModel xlen Dev} (h : Lines P c) (weaken : ∀ line, P line → Q line) :
    Lines Q c where
  indexed := h.indexed
  each it line member := weaken line (h.each it line member)

theorem Indexed.unique {c : CacheModel xlen Dev} (indexed : Indexed c) {i j : Nat}
    {l k : Line xlen} (hl : (i, l) ∈ c.lru.nodes) (hk : (j, k) ∈ c.lru.nodes)
    (same : l.tag = k.tag) : i = j ∧ l = k := by
  obtain ⟨t, v⟩ := l
  obtain ⟨u, w⟩ := k
  simp only at same
  subst same
  have hi := (indexed t i).mpr ⟨v, hl⟩
  have hj := (indexed t j).mpr ⟨w, hk⟩
  have ids : i = j := Option.some.inj (hi.symm.trans hj)
  subst ids
  have := IterList.eq_of_mem hl hk rfl
  simp_all

theorem Indexed.line_of_lookup {c : CacheModel xlen Dev} (indexed : Indexed c)
    {tag : BitVec xlen} {it : Nat} (found : c.index.lookup tag = some it) :
    (it, Line.mk tag (c.value it)) ∈ c.lru.nodes := by
  obtain ⟨v, member⟩ := (indexed tag it).mp found
  have got : c.lru.get? it = some ⟨tag, v⟩ := (IterList.get?_eq_some_iff _ _ _).mpr member
  have val : c.value it = v := by simp [value, got]
  rw [val]
  exact member

theorem Lines.of_lookup {c : CacheModel xlen Dev} (h : Lines P c) {tag : BitVec xlen} {it : Nat}
    (found : c.index.lookup tag = some it) : P ⟨tag, c.value it⟩ :=
  h.each it _ (h.indexed.line_of_lookup found)

theorem Indexed.evict_defined {c : CacheModel xlen Dev} (indexed : Indexed c)
    (room : 1 ≤ c.capacity) (full : c.index.keys.length ≥ c.capacity) :
    ∃ line, c.lru.back? = some line := by
  obtain ⟨tag, member⟩ : ∃ tag, tag ∈ c.index.keys := List.exists_mem_of_length_pos (by omega)
  obtain ⟨it, found⟩ := Option.isSome_iff_exists.mp (AList.lookup_isSome.mpr member)
  have here := indexed.line_of_lookup found
  cases last : c.lru.back? with
  | some line => exact ⟨line, rfl⟩
  | none =>
    rw [IterList.back?_eq_none_iff] at last
    rw [last] at here
    simp at here

theorem Lines.of_same_lines {c c' : CacheModel xlen Dev} (h : Lines P c)
    (index : c'.index = c.index) (nodes : ∀ p, p ∈ c'.lru.nodes ↔ p ∈ c.lru.nodes) :
    Lines P c' where
  indexed := by
    intro tag it
    simp only [index, nodes]
    exact h.indexed tag it
  each := by
    intro it line member
    exact h.each it line ((nodes _).mp member)

theorem lines_touch {c : CacheModel xlen Dev} (h : Lines P c) (it : Nat) :
    Lines P (c.touch it) :=
  h.of_same_lines rfl (c.lru.mem_spliceFront it)

theorem lines_withBacking {c : CacheModel xlen Dev} (h : Lines P c) (m : MemoryModel xlen Dev) :
    Lines P (c.withBacking m) :=
  ⟨h.indexed, h.each⟩

theorem lines_evict {c : CacheModel xlen Dev} (h : Lines P c) : Lines P c.evict := by
  unfold evict
  cases last : c.lru.back? with
  | none => exact h
  | some line =>
    obtain ⟨id, isLast⟩ := IterList.back?_eq_some last
    have here : (id, line) ∈ c.lru.nodes := List.mem_of_getLast? isLast
    refine ⟨?_, ?_⟩
    · intro tag it
      simp only [IterList.mem_popBack isLast]
      by_cases evicted : tag = line.tag
      · subst evicted
        rw [AList.lookup_erase]
        simp only [reduceCtorEq, false_iff, not_exists, not_and, not_not]
        intro v member
        exact (h.indexed.unique member here rfl).1
      · rw [AList.lookup_erase_ne evicted, h.indexed]
        constructor
        · rintro ⟨v, member⟩
          refine ⟨v, member, ?_⟩
          intro same
          have eq := IterList.eq_of_mem member here same
          simp only [Prod.mk.injEq] at eq
          exact evicted (congrArg Line.tag eq.2)
        · rintro ⟨v, member, _⟩
          exact ⟨v, member⟩
    · intro it l member
      exact h.each it l ((IterList.mem_popBack isLast _).mp member).1

@[simp] theorem evict_backing (c : CacheModel xlen Dev) : c.evict.backing = c.backing := by
  unfold evict
  split <;> rfl

@[simp] theorem evict_capacity (c : CacheModel xlen Dev) : c.evict.capacity = c.capacity := by
  unfold evict
  split <;> rfl

theorem lookup_evict_none {c : CacheModel xlen Dev} {tag : BitVec xlen}
    (absent : c.index.lookup tag = none) : c.evict.index.lookup tag = none := by
  unfold evict
  split
  · rename_i line last
    simp only
    by_cases same : tag = line.tag
    · rw [same, AList.lookup_erase]
    · rw [AList.lookup_erase_ne same, absent]
  · exact absent

@[simp] theorem makeRoom_backing (c : CacheModel xlen Dev) : c.makeRoom.backing = c.backing := by
  unfold makeRoom
  split
  · exact evict_backing c
  · rfl

@[simp] theorem makeRoom_capacity (c : CacheModel xlen Dev) :
    c.makeRoom.capacity = c.capacity := by
  unfold makeRoom
  split
  · exact evict_capacity c
  · rfl

theorem lines_makeRoom {c : CacheModel xlen Dev} (h : Lines P c) : Lines P c.makeRoom := by
  unfold makeRoom
  split
  · exact lines_evict h
  · exact h

theorem lookup_makeRoom_none {c : CacheModel xlen Dev} {tag : BitVec xlen}
    (absent : c.index.lookup tag = none) : c.makeRoom.index.lookup tag = none := by
  unfold makeRoom
  split
  · exact lookup_evict_none absent
  · exact absent

theorem lines_insertLine {c : CacheModel xlen Dev} (h : Lines P c) {a : BitVec xlen} {v : WordT}
    (absent : c.index.lookup a = none) (line : P ⟨a, v⟩) : Lines P (c.insertLine a v) where
  indexed := by
    intro tag it
    simp only [insertLine, IterList.nodes_pushFront, List.mem_cons,
      Prod.mk.injEq, Line.mk.injEq]
    by_cases same : tag = a
    · subst same
      rw [AList.lookup_insert]
      constructor
      · intro eq
        exact ⟨v, Or.inl ⟨(Option.some.inj eq).symm, rfl, rfl⟩⟩
      · rintro ⟨w, ⟨rfl, _⟩ | member⟩
        · rfl
        · have old := (h.indexed tag it).mpr ⟨w, member⟩
          rw [absent] at old
          simp at old
    · rw [AList.lookup_insert_ne same, h.indexed]
      simp [same]
  each := by
    intro it l member
    simp only [insertLine, IterList.nodes_pushFront, List.mem_cons, Prod.mk.injEq] at member
    rcases member with ⟨_, rfl⟩ | old
    · exact line
    · exact h.each it l old

theorem lines_fetchWord {c : CacheModel xlen Dev} (h : Lines P c) {a : BitVec xlen}
    (fetched : ∀ v, c.index.lookup a = none → c.backing.readWord a = .ok v → P ⟨a, v⟩) :
    Lines P (c.fetchWord a).2 := by
  unfold fetchWord
  cases found : c.index.lookup a with
  | some it => exact (lines_touch h it).of_same_lines rfl fun _ => Iff.rfl
  | none =>
    have counted : Lines P c.countMiss := h.of_same_lines rfl fun _ => Iff.rfl
    have room := lines_makeRoom counted
    have absent : c.countMiss.makeRoom.index.lookup a = none := lookup_makeRoom_none found
    have back : c.countMiss.makeRoom.backing = c.backing := makeRoom_backing _
    simp only [back]
    cases word : c.backing.readWord a with
    | error e => exact room
    | ok v => exact lines_insertLine room absent (fetched v found word)

@[simp] theorem fetchWord_backing (c : CacheModel xlen Dev) (a : BitVec xlen) :
    (c.fetchWord a).2.backing = c.backing := by
  unfold fetchWord
  have back : c.countMiss.makeRoom.backing = c.backing := makeRoom_backing _
  split
  · rfl
  · simp only
    split
    · exact back
    · exact back

@[simp] theorem fetchWord_capacity (c : CacheModel xlen Dev) (a : BitVec xlen) :
    (c.fetchWord a).2.capacity = c.capacity := by
  unfold fetchWord
  have room : c.countMiss.makeRoom.capacity = c.capacity := makeRoom_capacity _
  split
  · rfl
  · simp only
    split
    · exact room
    · exact room

/-- What a read answers: the line when the word is resident, the backing memory otherwise. -/
theorem fetchWord_answer {c : CacheModel xlen Dev} (h : Lines P c) (a : BitVec xlen) :
    (c.fetchWord a).1 = match c.index.lookup a with
      | some it => .ok (c.value it)
      | none => c.backing.readWord a := by
  unfold fetchWord
  cases found : c.index.lookup a with
  | some it =>
    have here := h.indexed.line_of_lookup found
    have moved : (it, Line.mk a (c.value it)) ∈ (c.lru.spliceFront it).nodes :=
      (c.lru.mem_spliceFront it _).mpr here
    have got := (IterList.get?_eq_some_iff _ _ _).mpr moved
    have val : ((c.touch it).countHit).value it = c.value it := by
      simp [value, touch, countHit, got]
    exact congrArg Except.ok val
  | none =>
    have back : c.countMiss.makeRoom.backing = c.backing := makeRoom_backing _
    simp only [back]
    split
    · rename_i e threw
      exact threw.symm
    · rename_i v word
      exact word.symm

theorem lines_write_absent {c : CacheModel xlen Dev} (h : Lines P c) {wa : BitVec xlen}
    (absent : c.index.lookup wa = none) (others : ∀ line, line.tag ≠ wa → P line → Q line) :
    Lines Q c where
  indexed := h.indexed
  each := by
    intro it line member
    refine others line ?_ (h.each it line member)
    rintro rfl
    have found := (h.indexed line.tag it).mpr ⟨line.value, member⟩
    rw [absent] at found
    simp at found

theorem lines_setValue {c : CacheModel xlen Dev} (h : Lines P c) {wa : BitVec xlen} {it : Nat}
    (found : c.index.lookup wa = some it) (v : WordT)
    (others : ∀ line, line.tag ≠ wa → P line → Q line) (here : Q ⟨wa, v⟩) :
    Lines Q (c.setValue it v) where
  indexed := by
    intro tag j
    change c.index.lookup tag = some j ↔ _
    rw [h.indexed]
    simp only [setValue, IterList.mem_modify]
    constructor
    · rintro ⟨w, member⟩
      by_cases same : j = it
      · exact ⟨v, ⟨tag, w⟩, member, by simp [same]⟩
      · exact ⟨w, ⟨tag, w⟩, member, by simp [same]⟩
    · rintro ⟨w, ⟨t, u⟩, member, eq⟩
      split at eq
      · simp only [Line.mk.injEq] at eq
        exact ⟨u, eq.1 ▸ member⟩
      · simp only [Line.mk.injEq] at eq
        exact ⟨u, eq.1 ▸ member⟩
  each := by
    intro j line member
    simp only [setValue, IterList.mem_modify] at member
    obtain ⟨old, was, eq⟩ := member
    have present := h.indexed.line_of_lookup found
    split at eq
    · rename_i same
      subst same
      have tag : old.tag = wa := congrArg (fun p => p.2.tag) (IterList.eq_of_mem was present rfl)
      subst eq
      rw [tag]
      exact here
    · rename_i other
      subst eq
      refine others line ?_ (h.each j line was)
      intro tag
      exact other (h.indexed.unique was present tag).1

theorem lines_patchCached {c : CacheModel xlen Dev} (h : Lines P c) {wa off : BitVec xlen}
    {width : Nat} {val : WordT} (others : ∀ line, line.tag ≠ wa → P line → Q line)
    (here : ∀ w, P ⟨wa, w⟩ → Q ⟨wa, (w &&&
        ~~~((if width = 1 then 0xFF#32 else 0xFFFF#32) <<< (off.setWidth 32 * 8#32))) |||
      ((val &&& if width = 1 then 0xFF#32 else 0xFFFF#32) <<< (off.setWidth 32 * 8#32))⟩) :
    Lines Q (c.patchCached wa off width val) := by
  unfold patchCached
  cases found : c.index.lookup wa with
  | none => exact lines_write_absent h found others
  | some it => exact lines_touch (lines_setValue h found _ others (here _ (h.of_lookup found))) it

@[simp] theorem patchCached_backing (c : CacheModel xlen Dev) (wa off : BitVec xlen) (width : Nat)
    (val : WordT) : (c.patchCached wa off width val).backing = c.backing := by
  unfold patchCached
  split
  · rfl
  · rfl

theorem patchCached_lookup (c : CacheModel xlen Dev) (wa off : BitVec xlen) (width : Nat)
    (val : WordT) (t : BitVec xlen) :
    (c.patchCached wa off width val).index.lookup t = c.index.lookup t := by
  unfold patchCached
  split
  · rfl
  · rfl

theorem writeByte_backing (c : CacheModel xlen Dev) (a : BitVec xlen) (v : ByteT) :
    (c.writeByte a v).2.backing = (c.backing.writeByte a v).2 := by
  unfold writeByte
  rcases c.backing.writeByte a v with ⟨result, m'⟩
  cases result with
  | error e => rfl
  | ok => exact patchCached_backing _ _ _ _ _

theorem writeByte_lookup (c : CacheModel xlen Dev) (a : BitVec xlen) (v : ByteT) (t : BitVec xlen) :
    (c.writeByte a v).2.index.lookup t = c.index.lookup t := by
  unfold writeByte
  rcases c.backing.writeByte a v with ⟨result, m'⟩
  cases result with
  | error e => rfl
  | ok => exact patchCached_lookup _ _ _ _ _ t

theorem writeHalf_backing (c : CacheModel xlen Dev) (a : BitVec xlen) (v : HalfT) :
    (c.writeHalf a v).2.backing = (c.backing.writeHalf a v).2 := by
  unfold writeHalf
  rcases c.backing.writeHalf a v with ⟨result, m'⟩
  cases result with
  | error e => rfl
  | ok => exact patchCached_backing _ _ _ _ _

theorem writeHalf_lookup (c : CacheModel xlen Dev) (a : BitVec xlen) (v : HalfT) (t : BitVec xlen) :
    (c.writeHalf a v).2.index.lookup t = c.index.lookup t := by
  unfold writeHalf
  rcases c.backing.writeHalf a v with ⟨result, m'⟩
  cases result with
  | error e => rfl
  | ok => exact patchCached_lookup _ _ _ _ _ t

theorem writeWord_backing (c : CacheModel xlen Dev) (a : BitVec xlen) (v : WordT) :
    (c.writeWord a v).2.backing = (c.backing.writeWord a v).2 := by
  unfold writeWord
  rcases c.backing.writeWord a v with ⟨result, m'⟩
  cases result with
  | error e => rfl
  | ok =>
    cases c.index.lookup a with
    | none => rfl
    | some it => rfl

theorem writeWord_lookup (c : CacheModel xlen Dev) (a : BitVec xlen) (v : WordT) (t : BitVec xlen) :
    (c.writeWord a v).2.index.lookup t = c.index.lookup t := by
  unfold writeWord
  rcases c.backing.writeWord a v with ⟨result, m'⟩
  cases result with
  | error e => rfl
  | ok =>
    cases found : c.index.lookup a with
    | none => rfl
    | some it => rfl

theorem storeConditional_backing (c : CacheModel xlen Dev) (a : BitVec xlen) (v : WordT) :
    (c.storeConditional a v).2.backing = (c.backing.storeConditional a v).2 := by
  unfold storeConditional
  rcases c.backing.storeConditional a v with ⟨result, m'⟩
  match result with
  | .error e => rfl
  | .ok false => rfl
  | .ok true =>
    cases c.index.lookup (a &&& ~~~0b11#(xlen)) with
    | none => rfl
    | some it => rfl

theorem storeConditional_lookup (c : CacheModel xlen Dev) (a : BitVec xlen) (v : WordT)
    (t : BitVec xlen) : (c.storeConditional a v).2.index.lookup t = c.index.lookup t := by
  unfold storeConditional
  rcases c.backing.storeConditional a v with ⟨result, m'⟩
  match result with
  | .error e => rfl
  | .ok false => rfl
  | .ok true =>
    cases found : c.index.lookup (a &&& ~~~0b11#(xlen)) with
    | none => rfl
    | some it => rfl

end XorOS.CacheModel
