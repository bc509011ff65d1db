import XorOS.Library.Recency
import XorOS.Simulator.ByteMap
import XorOS.Simulator.CacheLines

/- The tags of lru_ under the calls of CacheModel<XLEN>: a list of keys in the order of use,
   index_ beside it, and what leaves it when. -/
namespace XorOS
open Recency Runs

inductive CacheCall (xlen : Nat) where
  | readByte (addr : BitVec xlen)
  | readHalf (addr : BitVec xlen)
  | readWord (addr : BitVec xlen)
  | writeByte (addr : BitVec xlen) (val : ByteT)
  | writeHalf (addr : BitVec xlen) (val : HalfT)
  | writeWord (addr : BitVec xlen) (val : WordT)
  | loadProgram (program : Program) (base : BitVec xlen)
  | reserveLoad (addr : BitVec xlen)
  | storeConditional (addr : BitVec xlen) (val : WordT)
  | invalidateReservation

def CacheCall.fetches {xlen : Nat} : CacheCall xlen → Option (BitVec xlen)
  | .readByte a | .readHalf a => some (a &&& ~~~0b11#(xlen))
  | .readWord a => some a
  | _ => none

namespace CacheModel
variable {xlen : Nat} {Dev : Type}

def returned {ε α : Type} (r : Except ε α × CacheModel xlen Dev) : Bool × CacheModel xlen Dev :=
  (r.1.isOk, r.2)

def perform (c : CacheModel xlen Dev) : CacheCall xlen → Bool × CacheModel xlen Dev
  | .readByte a => returned (c.readByte a)
  | .readHalf a => returned (c.readHalf a)
  | .readWord a => returned (c.readWord a)
  | .writeByte a v => returned (c.writeByte a v)
  | .writeHalf a v => returned (c.writeHalf a v)
  | .writeWord a v => returned (c.writeWord a v)
  | .loadProgram p base => (c.loadProgram p.bytes base).elim (true, c) returned
  | .reserveLoad a => (true, c.reserveLoad a)
  | .storeConditional a v => returned (c.storeConditional a v)
  | .invalidateReservation => (true, c.invalidateReservation)

def beyond (m : MemoryModel xlen Dev) : CacheCall xlen → MemoryModel xlen Dev
  | .readByte _ | .readHalf _ | .readWord _ => m
  | .writeByte a v => (m.writeByte a v).2
  | .writeHalf a v => (m.writeHalf a v).2
  | .writeWord a v => (m.writeWord a v).2
  | .loadProgram p base => (m.loadProgram p.bytes base).elim m Prod.snd
  | .reserveLoad a => m.reserveLoad a
  | .storeConditional a v => (m.storeConditional a v).2
  | .invalidateReservation => m.invalidateReservation

def tags (c : CacheModel xlen Dev) : List (BitVec xlen) := c.lru.nodes.map fun p => p.2.tag

/-- What a call asks of the tags. A store-conditional moves no line. -/
def request (c : CacheModel xlen Dev) : CacheCall xlen → Request (BitVec xlen)
  | .readByte a | .readHalf a =>
      .read (a &&& ~~~0b11#(xlen)) (c.backing.readWord (a &&& ~~~0b11#(xlen))).isOk
  | .readWord a => .read a (c.backing.readWord a).isOk
  | .writeByte a v =>
      if (c.backing.writeByte a v).1.isOk then .write (a &&& ~~~0b11#(xlen)) else .other
  | .writeHalf a v =>
      if (c.backing.writeHalf a v).1.isOk then .write (a &&& ~~~0b11#(xlen)) else .other
  | .writeWord a v => if (c.backing.writeWord a v).1.isOk then .write a else .other
  | .loadProgram .. | .reserveLoad _ | .storeConditional .. | .invalidateReservation => .other

/-- What a call can make of the cache, with the memory behind it afterwards. -/
inductive Effect (c : CacheModel xlen Dev) (m : MemoryModel xlen Dev) :
    Request (BitVec xlen) → CacheModel xlen Dev → Prop
  | fetch (a : BitVec xlen) (same : m = c.backing) :
      Effect c m (.read a (c.backing.readWord a).isOk) (c.fetchWord a).2
  | hit (a : BitVec xlen) (it : Nat) (v : WordT) (found : c.index.lookup a = some it) :
      Effect c m (.write a) (((c.withBacking m).setValue it v).touch it)
  | miss (a : BitVec xlen) (absent : c.index.lookup a = none) :
      Effect c m (.write a) (c.withBacking m)
  | store (a : BitVec xlen) (it : Nat) (v : WordT) (found : c.index.lookup a = some it) :
      Effect c m .other ((c.withBacking m).setValue it v)
  | pass : Effect c m .other (c.withBacking m)

theorem patchCached_effect (c : CacheModel xlen Dev) (m : MemoryModel xlen Dev)
    (wa off : BitVec xlen) (width : Nat) (val : WordT) :
    Effect c m (.write wa) ((c.withBacking m).patchCached wa off width val) := by
  unfold patchCached
  cases found : (c.withBacking m).index.lookup wa with
  | none => exact .miss wa found
  | some it => exact .hit wa it _ found

theorem perform_effect (c : CacheModel xlen Dev) (call : CacheCall xlen) :
    Effect c (beyond c.backing call) (c.request call) (c.perform call).2 := by
  cases call with
  | readByte a => exact .fetch (a &&& ~~~0b11#(xlen)) rfl
  | readHalf a => exact .fetch (a &&& ~~~0b11#(xlen)) rfl
  | readWord a => exact .fetch a rfl
  | writeByte a v =>
    simp only [perform, returned, beyond, request, writeByte]
    rcases c.backing.writeByte a v with ⟨result, m⟩
    cases result with
    | error e => exact .pass
    | ok => exact patchCached_effect c m _ _ _ _
  | writeHalf a v =>
    simp only [perform, returned, beyond, request, writeHalf]
    rcases c.backing.writeHalf a v with ⟨result, m⟩
    cases result with
    | error e => exact .pass
    | ok => exact patchCached_effect c m _ _ _ _
  | writeWord a v =>
    simp only [perform, returned, beyond, request, writeWord]
    rcases c.backing.writeWord a v with ⟨result, m⟩
    cases result with
    | error e => exact .pass
    | ok =>
      cases found : c.index.lookup a with
      | none => exact .miss a found
      | some it => exact .hit a it v found
  | loadProgram p base =>
    simp only [perform, beyond, request, loadProgram]
    cases c.backing.loadProgram p.bytes base with
    | none => exact .pass
    | some r => exact .pass
  | reserveLoad a => exact .pass
  | storeConditional a v =>
    simp only [perform, returned, beyond, request, storeConditional]
    rcases c.backing.storeConditional a v with ⟨result, m⟩
    cases result with
    | error e => exact .pass
    | ok stored =>
      cases stored with
      | false => exact .pass
      | true =>
        cases found : c.index.lookup (a &&& ~~~0b11#(xlen)) with
        | none => exact .pass
        | some it => exact .store _ it v found
  | invalidateReservation => exact .pass

section Effects
variable {c c' : CacheModel xlen Dev} {m : MemoryModel xlen Dev} {r : Request (BitVec xlen)}

theorem Effect.backing (effect : Effect c m r c') : c'.backing = m := by
  cases effect with
  | fetch a same => rw [same, fetchWord_backing]
  | hit a it v found => rfl
  | miss a absent => rfl
  | store a it v found => rfl
  | pass => rfl

theorem Effect.capacity (effect : Effect c m r c') : c'.capacity = c.capacity := by
  cases effect with
  | fetch a same => exact fetchWord_capacity c a
  | hit a it v found => rfl
  | miss a absent => rfl
  | store a it v found => rfl
  | pass => rfl

theorem Effect.lines {P : BitVec xlen → Prop} (effect : Effect c m r c')
    (h : Lines (fun line => P line.tag) c) (fetched : ∀ a, r = .read a true → P a) :
    Lines (fun line => P line.tag) c' := by
  cases effect with
  | fetch a same =>
    refine lines_fetchWord h fun v _ word => fetched a ?_
    rw [word]
    rfl
  | hit a it v found =>
    exact lines_touch (lines_setValue (lines_withBacking h m) found v (fun _ _ p => p)
      (h.of_lookup found)) it
  | miss a absent => exact lines_withBacking h m
  | store a it v found =>
    exact lines_setValue (lines_withBacking h m) found v (fun _ _ p => p) (h.of_lookup found)
  | pass => exact lines_withBacking h m

theorem Effect.indexed (effect : Effect c m r c') (indexed : Indexed c) : Indexed c' :=
  (effect.lines (P := fun _ => True) ⟨indexed, fun _ _ _ => trivial⟩ fun _ _ => trivial).indexed

end Effects

theorem mem_tags_iff {c : CacheModel xlen Dev} (indexed : Indexed c) (a : BitVec xlen) :
    a ∈ tags c ↔ ∃ it, c.index.lookup a = some it := by
  simp only [tags, List.mem_map]
  constructor
  · rintro ⟨⟨it, tag, v⟩, member, rfl⟩
    exact ⟨it, (indexed tag it).mpr ⟨v, member⟩⟩
  · rintro ⟨it, found⟩
    exact ⟨_, indexed.line_of_lookup found, rfl⟩

theorem not_mem_tags_iff {c : CacheModel xlen Dev} (indexed : Indexed c) (a : BitVec xlen) :
    a ∉ tags c ↔ c.index.lookup a = none := by
  rw [mem_tags_iff indexed, ← Option.isSome_iff_exists, Option.not_isSome_iff_eq_none]

theorem nodup_tags {c : CacheModel xlen Dev} (indexed : Indexed c) : (tags c).Nodup := by
  refine (List.Nodup.of_map _ c.lru.nodup).map_on ?_
  intro p hp q hq same
  exact IterList.eq_of_mem hp hq (indexed.unique hp hq same).1

theorem length_keys {c : CacheModel xlen Dev} (indexed : Indexed c) :
    c.index.keys.length = (tags c).length := by
  apply List.Perm.length_eq
  refine (List.perm_ext_iff_of_nodup c.index.keys_nodup (nodup_tags indexed)).mpr ?_
  intro a
  rw [mem_tags_iff indexed, ← Option.isSome_iff_exists, AList.lookup_isSome]
  exact Iff.rfl

theorem tags_touch {c : CacheModel xlen Dev} (indexed : Indexed c) {a : BitVec xlen} {it : Nat}
    (found : c.index.lookup a = some it) : tags (c.touch it) = promote a (tags c) := by
  have here := indexed.line_of_lookup found
  have node : c.lru.find? it = some (it, ⟨a, c.value it⟩) := IterList.find?_of_mem here
  rw [promote, (nodup_tags indexed).erase_eq_filter]
  simp only [tags, touch, IterList.spliceFront, node, List.map_cons, List.filter_map,
    List.cons.injEq, true_and]
  congr 1
  apply List.filter_congr
  intro p member
  have ids : p.1 = it ↔ p.2.tag = a := by
    constructor
    · intro same
      exact congrArg (fun q => q.2.tag) (IterList.eq_of_mem member here same)
    · intro same
      exact (indexed.unique member here same).1
  simp only [Function.comp_apply, ids, bne, decide_not]
  rfl

theorem tags_setValue (c : CacheModel xlen Dev) (it : Nat) (v : WordT) :
    tags (c.setValue it v) = tags c := by
  simp only [tags, setValue, IterList.modify, List.map_map]
  apply List.map_congr_left
  intro p _
  simp only [Function.comp_apply]
  split <;> rfl

theorem tags_evict (c : CacheModel xlen Dev) : tags c.evict = (tags c).dropLast := by
  unfold evict
  cases last : c.lru.back? with
  | none =>
    rw [IterList.back?_eq_none_iff] at last
    simp [tags, last]
  | some line => simp [tags, IterList.popBack, List.map_dropLast]

theorem tags_makeRoom {c : CacheModel xlen Dev} (indexed : Indexed c) :
    tags c.makeRoom = room c.capacity (tags c) := by
  unfold makeRoom room
  rw [length_keys indexed]
  split
  · exact tags_evict c
  · rfl

theorem tags_fetchWord {c : CacheModel xlen Dev} (indexed : Indexed c) (a : BitVec xlen) :
    tags (c.fetchWord a).2 =
      serve c.capacity (tags c) (.read a (c.backing.readWord a).isOk) := by
  unfold fetchWord
  cases found : c.index.lookup a with
  | some it =>
    have member : a ∈ tags c := (mem_tags_iff indexed a).mpr ⟨it, found⟩
    simp only [serve, if_pos member]
    exact tags_touch indexed found
  | none =>
    have absent : a ∉ tags c := (not_mem_tags_iff indexed a).mpr found
    have counted : Indexed c.countMiss := indexed
    have roomy : tags c.countMiss.makeRoom = room c.capacity (tags c) := tags_makeRoom counted
    have back : c.countMiss.makeRoom.backing = c.backing := makeRoom_backing _
    simp only [serve, if_neg absent, back]
    cases c.backing.readWord a with
    | error e => exact roomy
    | ok v => exact congrArg (a :: ·) roomy

/-- The tags follow the list of the keys in use. -/
theorem Effect.tags {c c' : CacheModel xlen Dev} {m : MemoryModel xlen Dev}
    {r : Request (BitVec xlen)} (effect : Effect c m r c') (indexed : Indexed c) :
    tags c' = serve c.capacity (tags c) r := by
  cases effect with
  | fetch a same => exact tags_fetchWord indexed a
  | hit a it v found =>
    have written : Indexed ((c.withBacking m).setValue it v) :=
      (Effect.store (m := m) a it v found).indexed indexed
    have member : a ∈ CacheModel.tags c := (mem_tags_iff indexed a).mpr ⟨it, found⟩
    rw [tags_touch written found, tags_setValue]
    simp only [serve, if_pos member]
    rfl
  | miss a absent =>
    have outside : a ∉ CacheModel.tags c := (not_mem_tags_iff indexed a).mpr absent
    simp only [serve, if_neg outside]
    rfl
  | store a it v found => exact tags_setValue (c.withBacking m) it v
  | pass => rfl

theorem request_read {c : CacheModel xlen Dev} {call : CacheCall xlen} {a : BitVec xlen}
    {served : Bool} (asked : c.request call = .read a served) :
    call.fetches = some a ∧ served = (c.backing.readWord a).isOk := by
  cases call with
  | readByte b | readHalf b | readWord b =>
    simp only [request, Request.read.injEq] at asked
    obtain ⟨rfl, rfl⟩ := asked
    exact ⟨rfl, rfl⟩
  | writeByte b v | writeHalf b v | writeWord b v =>
    simp only [request] at asked
    split at asked
    · simp at asked
    · simp at asked
  | _ => simp [request] at asked

theorem request_of_fetches {c : CacheModel xlen Dev} {call : CacheCall xlen} {a : BitVec xlen}
    (fetches : call.fetches = some a) :
    c.request call = .read a (c.backing.readWord a).isOk ∧
      (c.perform call).2 = (c.fetchWord a).2 := by
  cases call with
  | readByte b | readHalf b | readWord b =>
    simp only [CacheCall.fetches, Option.some.injEq] at fetches
    subst fetches
    exact ⟨rfl, rfl⟩
  | _ => simp [CacheCall.fetches] at fetches

/-- back() and pop_back() of fetchWord meet no empty list. -/
def fetchDefined (c : CacheModel xlen Dev) (wordAddr : BitVec xlen) : Bool :=
  match c.index.lookup wordAddr with
  | some _ => true
  | none => if c.index.keys.length ≥ c.capacity then c.lru.back?.isSome else true

def checked (c : CacheModel xlen Dev) (call : CacheCall xlen) : Option (CacheModel xlen Dev) :=
  if call.fetches.all c.fetchDefined then some (c.perform call).2 else none

/-- What index_ and lru_ are to each other. -/
structure Consistent (c : CacheModel xlen Dev) : Prop where
  keys : ∀ tag, tag ∈ c.index.keys ↔ tag ∈ tags c
  once : (tags c).Nodup
  iterators : ∀ tag it, c.index.lookup tag = some it →
    ∃ line, c.lru.get? it = some line ∧ line.tag = tag
  bounded : c.lru.size ≤ c.capacity

structure Kept (capacity : Nat) (c : CacheModel xlen Dev) : Prop where
  places : c.capacity = capacity
  indexed : Indexed c
  sound : Sound capacity (tags c)

theorem kept_new (m : MemoryModel xlen Dev) (capacity : Nat) : Kept capacity (new m capacity) where
  places := rfl
  indexed := (lines_new (fun _ => True) m capacity).indexed
  sound := ⟨List.nodup_nil, Nat.zero_le _⟩

theorem Kept.consistent {capacity : Nat} {c : CacheModel xlen Dev} (h : Kept capacity c) :
    Consistent c where
  keys tag := by
    rw [mem_tags_iff h.indexed, ← Option.isSome_iff_exists, AList.lookup_isSome]
    exact Iff.rfl
  once := h.sound.distinct
  iterators tag it found := by
    have here := h.indexed.line_of_lookup found
    exact ⟨_, (IterList.get?_eq_some_iff _ _ _).mpr here, rfl⟩
  bounded := by
    have few := h.sound.bounded
    rw [tags, List.length_map] at few
    rw [h.places]
    exact few

theorem kept_perform {capacity : Nat} {c : CacheModel xlen Dev} (h : Kept capacity c)
    {call : CacheCall xlen} (holds : ∀ a, call.fetches = some a → 1 ≤ capacity) :
    Kept capacity (c.perform call).2 where
  places := (perform_effect c call).capacity.trans h.places
  indexed := (perform_effect c call).indexed h.indexed
  sound := by
    rw [(perform_effect c call).tags h.indexed, h.places]
    exact sound_serve h.sound fun a asked => holds a (request_read asked).1

theorem checked_of_kept {capacity : Nat} {c : CacheModel xlen Dev} (h : Kept capacity c)
    {call : CacheCall xlen} (holds : ∀ a, call.fetches = some a → 1 ≤ capacity) :
    checked c call = some (c.perform call).2 := by
  refine if_pos ?_
  cases fetches : call.fetches with
  | none => rfl
  | some a =>
    simp only [Option.all_some, fetchDefined]
    split
    · rfl
    split
    · rename_i full
      have roomy : 1 ≤ c.capacity := h.places.symm ▸ holds a fetches
      obtain ⟨line, last⟩ := h.indexed.evict_defined roomy full
      rw [last]
      rfl
    · rfl

theorem follow_kept {capacity : Nat} (calls : List (CacheCall xlen)) (c : CacheModel xlen Dev)
    (h : Kept capacity c)
    (holds : ∀ call ∈ calls, ∀ a, call.fetches = some a → 1 ≤ capacity) :
    ∃ c', System.follow checked calls c = some c' ∧ Kept capacity c' := by
  induction calls generalizing c with
  | nil => exact ⟨c, rfl, h⟩
  | cons call rest ih =>
    have first := holds call List.mem_cons_self
    obtain ⟨c', done, kept⟩ := ih (c.perform call).2 (kept_perform h first)
      fun next member => holds next (List.mem_cons_of_mem call member)
    refine ⟨c', ?_, kept⟩
    simp only [System.follow, checked_of_kept h first, Option.bind_some]
    exact done

theorem follow_capacity (calls : List (CacheCall xlen)) (c c' : CacheModel xlen Dev)
    (done : System.follow checked calls c = some c') : c'.capacity = c.capacity := by
  induction calls generalizing c with
  | nil => rw [← Option.some.inj done]
  | cons call rest ih =>
    obtain ⟨d, first, done⟩ := Option.bind_eq_some_iff.mp done
    rw [ih d done]
    unfold checked at first
    split at first
    · rw [← Option.some.inj first]
      exact (perform_effect c call).capacity
    · simp at first

theorem checked_of_capacity_zero {c : CacheModel xlen Dev} (h : Consistent c)
    (zero : c.capacity = 0) {call : CacheCall xlen} {a : BitVec xlen}
    (fetches : call.fetches = some a) : checked c call = none := by
  have empty : c.lru.nodes = [] := List.length_eq_zero_iff.mp (by
    have := h.bounded
    rw [IterList.size] at this
    omega)
  have absent : c.index.lookup a = none := by
    rw [AList.lookup_eq_none]
    intro member
    have there := (h.keys a).mp member
    simp [tags, empty] at there
  refine if_neg ?_
  simp [fetches, fetchDefined, absent, zero, IterList.back?, empty]

/-- In every sequence of calls the representation is consistent after each of them and no call
    is undefined, exactly if there is room for a line or nothing is read. -/
theorem representation_consistent_iff (m : MemoryModel xlen Dev) (capacity : Nat)
    (calls : List (CacheCall xlen)) :
    (∀ done, done <+: calls →
      ∃ c, System.follow checked done (new m capacity) = some c ∧ Consistent c) ↔
    1 ≤ capacity ∨ ∀ call ∈ calls, call.fetches = none := by
  constructor
  · intro always
    by_contra neither
    rw [not_or] at neither
    obtain ⟨small, reads⟩ := neither
    push Not at reads
    obtain ⟨call, member, fetches⟩ := reads
    obtain ⟨a, fetches⟩ := Option.ne_none_iff_exists'.mp fetches
    obtain ⟨first, rest, rfl⟩ := List.append_of_mem member
    obtain ⟨c, done, consistent⟩ := always first ⟨call :: rest, rfl⟩
    obtain ⟨d, more, _⟩ := always (first ++ [call]) ⟨rest, by simp⟩
    have zero : c.capacity = 0 := by
      rw [follow_capacity first _ c done]
      exact Nat.lt_one_iff.mp (Nat.lt_of_not_le small)
    rw [System.follow_append, done] at more
    simp [System.follow, checked_of_capacity_zero consistent zero fetches] at more
  · intro condition done before
    have holds : ∀ call ∈ done, ∀ a, call.fetches = some a → 1 ≤ capacity := by
      intro call member a fetches
      rcases condition with room | quiet
      · exact room
      · rw [quiet call (before.subset member)] at fetches
        simp at fetches
    obtain ⟨c, led, kept⟩ := follow_kept done _ (kept_new m capacity) holds
    exact ⟨c, led, kept.consistent⟩

/-- The first read of a cache of capacity 0 takes back() of the empty lru_. -/
theorem representation_capacity_zero :
    ¬∃ c, System.follow checked [.readWord 0#32]
      (new (MemoryModel.new 4 () : MemoryModel 32 Unit) 0) = some c ∧ Consistent c := by
  rintro ⟨c, led, _⟩
  have undefined : System.follow checked [.readWord 0#32]
      (new (MemoryModel.new 4 () : MemoryModel 32 Unit) 0) = none := rfl
  rw [undefined] at led
  simp at led

end CacheModel

end XorOS
