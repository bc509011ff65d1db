import XorOS.Simulator.CacheRecency

/- What the order of lru_ is for: which line leaves the cache, against the times of the last
   accesses, and what a larger cache is worth. -/
namespace XorOS
open Recency Runs
namespace CacheModel
variable {xlen : Nat} {Dev : Type}

theorem fetchWord_threw {c : CacheModel xlen Dev} {a : BitVec xlen}
    (threw : (c.fetchWord a).1.isOk = false) :
    c.index.lookup a = none ∧ (c.backing.readWord a).isOk = false := by
  unfold fetchWord at threw
  have back : c.countMiss.makeRoom.backing = c.backing := makeRoom_backing _
  cases found : c.index.lookup a with
  | some it =>
    rw [found] at threw
    simp at threw
  | none =>
    refine ⟨rfl, ?_⟩
    simp only [found, back] at threw
    cases word : c.backing.readWord a with
    | error e => rfl
    | ok v =>
      rw [word] at threw
      simp at threw

theorem thrown_cases {c : CacheModel xlen Dev} {call : CacheCall xlen}
    (threw : (c.perform call).1 = false) :
    (c.perform call).2 = c.withBacking (beyond c.backing call) ∨
      ∃ a, call.fetches = some a ∧ c.index.lookup a = none ∧
        (c.backing.readWord a).isOk = false := by
  cases call with
  | readByte a | readHalf a =>
    simp only [perform, returned, readByte, readHalf, Prod.map_fst, isOk_map] at threw
    exact Or.inr ⟨_, rfl, fetchWord_threw threw⟩
  | readWord a => exact Or.inr ⟨a, rfl, fetchWord_threw threw⟩
  | writeByte a v =>
    left
    simp only [perform, returned, beyond, writeByte] at threw ⊢
    rcases wrote : c.backing.writeByte a v with ⟨result, m⟩
    cases result with
    | error e => rfl
    | ok => simp [wrote] at threw
  | writeHalf a v =>
    left
    simp only [perform, returned, beyond, writeHalf] at threw ⊢
    rcases wrote : c.backing.writeHalf a v with ⟨result, m⟩
    cases result with
    | error e => rfl
    | ok => simp [wrote] at threw
  | writeWord a v =>
    left
    simp only [perform, returned, beyond, writeWord] at threw ⊢
    rcases wrote : c.backing.writeWord a v with ⟨result, m⟩
    cases result with
    | error e => rfl
    | ok =>
      cases found : c.index.lookup a <;>
        simp [wrote, found] at threw
  | loadProgram p base =>
    left
    simp only [perform, beyond, loadProgram]
    cases c.backing.loadProgram p.bytes base with
    | none => rfl
    | some r => rfl
  | reserveLoad a => simp [perform] at threw
  | storeConditional a v =>
    left
    simp only [perform, returned, beyond, storeConditional] at threw ⊢
    rcases wrote : c.backing.storeConditional a v with ⟨result, m⟩
    cases result with
    | error e => rfl
    | ok stored =>
      cases stored with
      | false => rfl
      | true =>
        cases found : c.index.lookup (a &&& ~~~0b11#(xlen)) <;>
          simp [wrote, found] at threw
  | invalidateReservation => simp [perform] at threw

theorem fetchWord_error_lru {c : CacheModel xlen Dev} {a : BitVec xlen}
    (absent : c.index.lookup a = none) (threw : (c.backing.readWord a).isOk = false)
    (roomy : c.index.keys.length < c.capacity) : (c.fetchWord a).2.lru = c.lru := by
  have still : c.countMiss.makeRoom = c.countMiss :=
    if_neg (Nat.not_le_of_lt (show c.countMiss.index.keys.length < c.countMiss.capacity from roomy))
  unfold fetchWord
  rw [absent]
  simp only [still]
  have back : c.countMiss.backing = c.backing := rfl
  rw [back]
  cases word : c.backing.readWord a with
  | error e => rfl
  | ok v =>
    rw [word] at threw
    simp at threw

/-- A cache with its past: when each word was last read, or hit by a write, and when a
    store-conditional last wrote it. -/
structure History (xlen : Nat) (Dev : Type) where
  cache : CacheModel xlen Dev
  now : Nat
  moved : BitVec xlen → Nat
  stored : BitVec xlen → Nat

def stores (c : CacheModel xlen Dev) : CacheCall xlen → Option (BitVec xlen)
  | .storeConditional a v =>
      match (c.backing.storeConditional a v).1 with
      | .ok true => some (a &&& ~~~0b11#(xlen))
      | _ => none
  | _ => none

def History.next (h : History xlen Dev) (call : CacheCall xlen) : History xlen Dev where
  cache := (h.cache.perform call).2
  now := h.now + 1
  moved := stamped h.moved ((h.cache.request call).uses (tags h.cache)) (h.now + 1)
  stored := stamped h.stored (h.cache.stores call) (h.now + 1)

def History.used (h : History xlen Dev) (w : BitVec xlen) : Nat := max (h.moved w) (h.stored w)

def History.start (m : MemoryModel xlen Dev) (capacity : Nat) : History xlen Dev :=
  ⟨new m capacity, 0, fun _ => 0, fun _ => 0⟩

def histories (m : MemoryModel xlen Dev) (capacity : Nat) :
    System (History xlen Dev) (CacheCall xlen) where
  init h := h = .start m capacity
  step h call h' := h' = h.next call

def Resident (c : CacheModel xlen Dev) (line : Line xlen) : Prop := ∃ it, (it, line) ∈ c.lru.nodes

/-- A line leaves only when its place in a full cache goes to a word that was fetched, the least
    recently accessed line leaves, and a call that throws changes no line. -/
structure ExactLru (h : History xlen Dev) (call : CacheCall xlen) : Prop where
  fetched : ∀ w ∈ tags h.cache, w ∉ tags (h.next call).cache →
    ∃ a v, call.fetches = some a ∧ h.cache.backing.readWord a = .ok v ∧ a ∉ tags h.cache ∧
      a ∈ tags (h.next call).cache ∧ h.cache.capacity ≤ (tags h.cache).length
  oldest : ∀ w ∈ tags h.cache, w ∉ tags (h.next call).cache →
    ∀ x ∈ tags h.cache, x ≠ w → h.used w < h.used x
  thrown : (h.cache.perform call).1 = false →
    ∀ line, Resident (h.next call).cache line ↔ Resident h.cache line

/-- A read that finds a full cache without its word is in range, and no store-conditional to the
    word that was least recently read or written is newer than an access to another one. -/
def KeepsOrder (h : History xlen Dev) (call : CacheCall xlen) : Prop :=
  ∀ a, call.fetches = some a → a ∉ tags h.cache → h.cache.capacity ≤ (tags h.cache).length →
    (h.cache.backing.readWord a).isOk = true ∧
    ∀ w ∈ tags h.cache, (∀ x ∈ tags h.cache, h.moved w ≤ h.moved x) →
      ∀ x ∈ tags h.cache, x ≠ w → h.stored w < h.used x

structure Ordered (capacity : Nat) (h : History xlen Dev) : Prop where
  kept : Kept capacity h.cache
  dated : Dated h.moved h.now (tags h.cache)

theorem ordered_next {capacity : Nat} (holds : 1 ≤ capacity) {h : History xlen Dev}
    (ordered : Ordered capacity h) (call : CacheCall xlen) : Ordered capacity (h.next call) where
  kept := kept_perform ordered.kept fun _ _ => holds
  dated := by
    have served := dated_serve ordered.dated ordered.kept.sound.distinct h.cache.capacity
      (h.cache.request call)
    rwa [← (perform_effect h.cache call).tags ordered.kept.indexed] at served

theorem ordered_of_reachable {m : MemoryModel xlen Dev} {capacity : Nat} (holds : 1 ≤ capacity)
    {h : History xlen Dev} (reached : (histories m capacity).Reachable h) :
    Ordered capacity h := by
  refine reached.invariant (Ordered capacity) ?_ ?_
  · rintro _ rfl
    refine ⟨kept_new m capacity, List.Pairwise.nil, ?_⟩
    intro a member
    exact absurd member List.not_mem_nil
  · rintro h call _ ordered rfl
    exact ordered_next holds ordered call

theorem tags_next {capacity : Nat} {h : History xlen Dev} (ordered : Ordered capacity h)
    (call : CacheCall xlen) : tags (h.next call).cache =
      serve h.cache.capacity (tags h.cache) (h.cache.request call) :=
  (perform_effect h.cache call).tags ordered.kept.indexed

theorem leaving {capacity : Nat} {h : History xlen Dev} (ordered : Ordered capacity h)
    {call : CacheCall xlen} {w : BitVec xlen} (member : w ∈ tags h.cache)
    (gone : w ∉ tags (h.next call).cache) :
    ∃ a, call.fetches = some a ∧ a ∉ tags h.cache ∧ h.cache.capacity ≤ (tags h.cache).length ∧
      (tags h.cache).getLast? = some w := by
  rw [tags_next ordered] at gone
  obtain ⟨a, served, asked, absent, full, isLast⟩ :=
    leaves_serve ordered.kept.sound.distinct member gone
  exact ⟨a, (request_read asked).1, absent, full, isLast⟩

theorem last_gone {capacity : Nat} {h : History xlen Dev} (ordered : Ordered capacity h)
    {call : CacheCall xlen} {a : BitVec xlen} (fetches : call.fetches = some a)
    (absent : a ∉ tags h.cache) (full : h.cache.capacity ≤ (tags h.cache).length)
    {w : BitVec xlen} (isLast : (tags h.cache).getLast? = some w) :
    w ∉ tags (h.next call).cache := by
  rw [tags_next ordered, (request_of_fetches fetches).1]
  exact last_leaves ordered.kept.sound.distinct _ absent full isLast

theorem brought {capacity : Nat} {h : History xlen Dev} (ordered : Ordered capacity h)
    {call : CacheCall xlen} {a : BitVec xlen} (fetches : call.fetches = some a)
    (absent : a ∉ tags h.cache) (inRange : (h.cache.backing.readWord a).isOk = true) :
    a ∈ tags (h.next call).cache := by
  rw [tags_next ordered, (request_of_fetches fetches).1, inRange]
  simp only [serve, if_neg absent, if_true]
  exact List.mem_cons_self

theorem least_moved {capacity : Nat} {h : History xlen Dev} (ordered : Ordered capacity h)
    {w w' : BitVec xlen} (isLast : (tags h.cache).getLast? = some w) (member : w' ∈ tags h.cache)
    (least : ∀ x ∈ tags h.cache, h.moved w' ≤ h.moved x) : w' = w := by
  by_contra other
  have older := ordered.dated.oldest isLast w' member other
  have := least w (List.mem_of_getLast? isLast)
  omega

theorem moved_last_le {capacity : Nat} {h : History xlen Dev} (ordered : Ordered capacity h)
    {w : BitVec xlen} (isLast : (tags h.cache).getLast? = some w) :
    ∀ x ∈ tags h.cache, h.moved w ≤ h.moved x := by
  intro x member
  by_cases same : x = w
  · rw [same]
  · exact (ordered.dated.oldest isLast x member same).le

/-- Where a read of a full cache is in range, a call that throws leaves the lines as they are. -/
theorem resident_of_threw {capacity : Nat} {h : History xlen Dev} (ordered : Ordered capacity h)
    {call : CacheCall xlen}
    (inRange : ∀ a, call.fetches = some a → a ∉ tags h.cache →
      h.cache.capacity ≤ (tags h.cache).length → (h.cache.backing.readWord a).isOk = true)
    (threw : (h.cache.perform call).1 = false) (line : Line xlen) :
    Resident (h.next call).cache line ↔ Resident h.cache line := by
  rcases thrown_cases threw with same | ⟨a, fetches, absent, outside⟩
  · simp only [Resident, History.next, same]
    exact Iff.rfl
  · have roomy : h.cache.index.keys.length < h.cache.capacity := by
      by_contra full
      rw [length_keys ordered.kept.indexed, Nat.not_lt] at full
      have absent' := (not_mem_tags_iff ordered.kept.indexed a).mpr absent
      rw [inRange a fetches absent' full] at outside
      simp at outside
    have still := fetchWord_error_lru absent outside roomy
    simp only [Resident, History.next, (request_of_fetches fetches).2, still]

/-- In every state of every sequence of calls, what a call does to the lines is exact LRU
    replacement exactly if the call keeps the order. -/
theorem exact_lru_iff (m : MemoryModel xlen Dev) (capacity : Nat) (holds : 1 ≤ capacity)
    (h : History xlen Dev) (reached : (histories m capacity).Reachable h)
    (call : CacheCall xlen) : ExactLru h call ↔ KeepsOrder h call := by
  have ordered := ordered_of_reachable holds reached
  constructor
  · intro exact' a fetches absent full
    have nonempty : 0 < (tags h.cache).length := by
      have := ordered.kept.places
      omega
    obtain ⟨w, isLast⟩ := List.getLast?_isSome.mpr (List.ne_nil_of_length_pos nonempty)
      |> Option.isSome_iff_exists.mp
    have member := List.mem_of_getLast? isLast
    have gone := last_gone ordered fetches absent full isLast
    constructor
    · obtain ⟨b, v, again, word, _⟩ := exact'.fetched w member gone
      rw [fetches, Option.some.injEq] at again
      rw [again]
      exact (isOk_iff _).mpr ⟨v, word⟩
    · intro w' there least x present other
      obtain rfl := least_moved ordered isLast there least
      exact (le_max_right _ _).trans_lt (exact'.oldest w' member gone x present other)
  · intro keeps
    constructor
    · intro w member gone
      obtain ⟨a, fetches, absent, full, _⟩ := leaving ordered member gone
      obtain ⟨inRange, _⟩ := keeps a fetches absent full
      obtain ⟨v, word⟩ := (isOk_iff _).mp inRange
      exact ⟨a, v, fetches, word, absent, brought ordered fetches absent inRange, full⟩
    · intro w member gone x present other
      obtain ⟨a, fetches, absent, full, isLast⟩ := leaving ordered member gone
      have stored := (keeps a fetches absent full).2 w member (moved_last_le ordered isLast) x
        present other
      have moved : h.moved w < h.used x :=
        (ordered.dated.oldest isLast x present other).trans_le (le_max_left _ _)
      exact max_lt moved stored
    · exact resident_of_threw ordered fun a fetches absent full =>
        (keeps a fetches absent full).1

def History.after (m : MemoryModel xlen Dev) (capacity : Nat) (calls : List (CacheCall xlen)) :
    History xlen Dev :=
  calls.foldl History.next (.start m capacity)

theorem reached_after (m : MemoryModel xlen Dev) (capacity : Nat)
    (calls : List (CacheCall xlen)) :
    (histories m capacity).Reachable (.after m capacity calls) := by
  induction calls using List.reverseRecOn with
  | nil => exact System.Reachable.of_init rfl
  | append_singleton calls call ih =>
    refine ih.next (a := call) ?_
    exact List.foldl_append

def readAgain : List (CacheCall 32) :=
  [.readWord 0#32, .readWord 4#32, .readByte 1#32, .reserveLoad 0#32, .storeConditional 0#32 1#32]

/-- The read of a third word takes the line of the second. -/
theorem exact_lru_iff_turnover :
    ExactLru (.after (MemoryModel.new 12 () : MemoryModel 32 Unit) 2 readAgain)
        (.readWord 8#32) ∧
      4#32 ∉ tags ((History.after (MemoryModel.new 12 () : MemoryModel 32 Unit) 2
        readAgain).next (.readWord 8#32)).cache := by
  refine ⟨(exact_lru_iff _ 2 (by decide) _ (reached_after _ 2 _) _).mpr ?_, by decide⟩
  intro a fetches _ _
  obtain rfl := Option.some.inj fetches
  refine ⟨by decide, ?_⟩
  have lines : tags (History.after (MemoryModel.new 12 () : MemoryModel 32 Unit) 2
      readAgain).cache = [0#32, 4#32] := by decide
  simp only [lines, List.mem_pair]
  rintro w (rfl | rfl) least
  · exact absurd (least 4#32 (.inr rfl)) (by decide)
  · rintro x (rfl | rfl) other
    · decide
    · exact absurd rfl other

def storedSinceRead : List (CacheCall 32) :=
  [.readWord 0#32, .readWord 4#32, .reserveLoad 0#32, .storeConditional 0#32 1#32]

/-- The read of a third word takes the line just written. A read past the end of the memory
    takes a line, too, and brings none. -/
theorem exact_lru_broken :
    ¬ExactLru (.after (MemoryModel.new 12 () : MemoryModel 32 Unit) 2 storedSinceRead)
        (.readWord 8#32) ∧
      ¬ExactLru (.after (MemoryModel.new 4 () : MemoryModel 32 Unit) 1 [.readWord 0#32])
        (.readWord 8#32) := by
  constructor
  · intro exact'
    have older := exact'.oldest 0#32 (by decide) (by decide) 4#32 (by decide) (by decide)
    have newer : ¬(History.after (MemoryModel.new 12 () : MemoryModel 32 Unit) 2
        storedSinceRead).used 0#32 < (History.after (MemoryModel.new 12 () : MemoryModel 32 Unit) 2
          storedSinceRead).used 4#32 := by decide
    exact newer older
  · intro exact'
    obtain ⟨a, v, fetches, word, _⟩ := exact'.fetched 0#32 (by decide) (by decide)
    obtain rfl := Option.some.inj fetches
    have outside : ((History.after (MemoryModel.new 4 () : MemoryModel 32 Unit) 1
        [.readWord 0#32]).cache.backing.readWord 8#32).isOk = false := by decide
    rw [word] at outside
    simp at outside

section Capacities

theorem beyond_layout (m : MemoryModel xlen Dev) (call : CacheCall xlen) :
    (beyond m call).layout = m.layout := by
  cases call with
  | readByte a => rfl
  | readHalf a => rfl
  | readWord a => rfl
  | writeByte a v => exact MemoryModel.writeByte_layout m a v
  | writeHalf a v => exact MemoryModel.writeHalf_layout m a v
  | writeWord a v => exact MemoryModel.writeWord_layout m a v
  | loadProgram p base => exact MemoryModel.loadProgram_layout m p.bytes base
  | reserveLoad a => rfl
  | storeConditional a v => exact MemoryModel.storeConditional_layout m a v
  | invalidateReservation => rfl

theorem request_congr {c d : CacheModel xlen Dev} (same : c.backing = d.backing)
    (call : CacheCall xlen) : c.request call = d.request call := by
  unfold request
  rw [same]

def performAll (c : CacheModel xlen Dev) (calls : List (CacheCall xlen)) : CacheModel xlen Dev :=
  calls.foldl (fun c call => (c.perform call).2) c

def hitCount (c : CacheModel xlen Dev) : List (CacheCall xlen) → Nat
  | [] => 0
  | call :: rest =>
      (if (c.request call).hit (tags c) then 1 else 0) + hitCount (c.perform call).2 rest

theorem evict_hits (c : CacheModel xlen Dev) : c.evict.hits = c.hits := by
  unfold evict
  split <;> rfl

theorem makeRoom_hits (c : CacheModel xlen Dev) : c.makeRoom.hits = c.hits := by
  unfold makeRoom
  split
  · exact evict_hits c
  · rfl

theorem fetchWord_hits {c : CacheModel xlen Dev} (indexed : Indexed c) (a : BitVec xlen) :
    (c.fetchWord a).2.hits = if a ∈ tags c then c.hits + 1#64 else c.hits := by
  unfold fetchWord
  cases found : c.index.lookup a with
  | some it =>
    rw [if_pos ((mem_tags_iff indexed a).mpr ⟨it, found⟩)]
    rfl
  | none =>
    rw [if_neg ((not_mem_tags_iff indexed a).mpr found)]
    have room : c.countMiss.makeRoom.hits = c.hits := makeRoom_hits _
    simp only
    split
    · exact room
    · exact room

theorem Effect.hits {c c' : CacheModel xlen Dev} {m : MemoryModel xlen Dev}
    {r : Request (BitVec xlen)} (effect : Effect c m r c') (indexed : Indexed c) :
    c'.hits = if r.hit (CacheModel.tags c) then c.hits + 1#64 else c.hits := by
  cases effect with
  | fetch a same =>
    simp only [Request.hit, decide_eq_true_eq]
    exact fetchWord_hits indexed a
  | hit a it v found => rfl
  | miss a absent => rfl
  | store a it v found => rfl
  | pass => rfl

theorem performAll_hits {capacity : Nat} (holds : 1 ≤ capacity) (calls : List (CacheCall xlen))
    (c : CacheModel xlen Dev) (h : Kept capacity c) :
    (c.performAll calls).hits = c.hits + BitVec.ofNat 64 (hitCount c calls) := by
  induction calls generalizing c with
  | nil => exact (BitVec.add_zero _).symm
  | cons call rest ih =>
    have first := (perform_effect c call).hits h.indexed
    have later := ih (c.perform call).2 (kept_perform h fun _ _ => holds)
    change ((c.perform call).2.performAll rest).hits = _
    rw [later, first, hitCount]
    split
    · rw [BitVec.ofNat_add, BitVec.add_assoc]
    · rw [Nat.zero_add]

theorem hitCount_le_reads (calls : List (CacheCall xlen)) (c : CacheModel xlen Dev) :
    hitCount c calls ≤ calls.countP fun call => call.fetches.isSome := by
  induction calls generalizing c with
  | nil => exact Nat.le_refl 0
  | cons call rest ih =>
    have later := ih (c.perform call).2
    rw [hitCount, List.countP_cons]
    by_cases hit : (c.request call).hit (tags c) = true
    · have reads : call.fetches.isSome = true := by
        cases asked : c.request call with
        | read a served =>
          rw [(request_read asked).1]
          rfl
        | write a => simp [asked, Request.hit] at hit
        | other => simp [asked, Request.hit] at hit
      rw [if_pos hit, if_pos reads]
      omega
    · rw [if_neg hit]
      omega

/-- Two caches over one memory, the second one larger: all resident words can be read, and the
    lines of the first are lines of the second in the same order. -/
structure Compared (m : MemoryModel xlen Dev) (c₁ c₂ : Nat) (s₁ s₂ : CacheModel xlen Dev) :
    Prop where
  small : Kept c₁ s₁
  large : Kept c₂ s₂
  backing : s₁.backing = s₂.backing
  layout : s₂.backing.layout = m.layout
  readable : Lines (fun line => (m.readWord line.tag).isOk = true) s₂
  within : Within c₁ c₂ (tags s₁) (tags s₂)

theorem compared_new (m : MemoryModel xlen Dev) {c₁ c₂ : Nat} (le : c₁ ≤ c₂) :
    Compared m c₁ c₂ (new m c₁) (new m c₂) where
  small := kept_new m c₁
  large := kept_new m c₂
  backing := rfl
  layout := rfl
  readable := lines_new _ m c₂
  within := ⟨List.Sublist.refl _, by simpa [tags, new, IterList.empty] using le⟩

theorem compared_perform {m : MemoryModel xlen Dev} {c₁ c₂ : Nat} (holds : 1 ≤ c₁)
    {s₁ s₂ : CacheModel xlen Dev} (h : Compared m c₁ c₂ s₁ s₂) (call : CacheCall xlen) :
    Compared m c₁ c₂ (s₁.perform call).2 (s₂.perform call).2 := by
  have room : 1 ≤ c₂ := by
    have gap := h.within.gap
    have fewer := h.within.sub.length_le
    omega
  have effect₁ := perform_effect s₁ call
  have effect₂ := perform_effect s₂ call
  have served : ∀ a, (s₂.request call) = .read a true → (m.readWord a).isOk = true := by
    intro a asked
    rw [← MemoryModel.readWord_isOk_congr h.layout a]
    exact (request_read asked).2.symm
  refine ⟨kept_perform h.small fun _ _ => holds, kept_perform h.large fun _ _ => room, ?_, ?_,
    effect₂.lines h.readable served, ?_⟩
  · rw [effect₁.backing, effect₂.backing, h.backing]
  · rw [effect₂.backing, beyond_layout, h.layout]
  · rw [effect₁.tags h.small.indexed, effect₂.tags h.large.indexed, h.small.places,
      h.large.places, request_congr h.backing]
    refine within_serve h.within h.large.sound holds ?_
    intro a asked present
    obtain ⟨it, found⟩ := (mem_tags_iff h.large.indexed a).mp present
    have there := h.readable.of_lookup found
    simp only at there
    rw [← MemoryModel.readWord_isOk_congr h.layout a, ← (request_read asked).2] at there
    simp at there

theorem compared_performAll {m : MemoryModel xlen Dev} {c₁ c₂ : Nat} (holds : 1 ≤ c₁)
    (calls : List (CacheCall xlen)) (s₁ s₂ : CacheModel xlen Dev)
    (h : Compared m c₁ c₂ s₁ s₂) :
    Compared m c₁ c₂ (s₁.performAll calls) (s₂.performAll calls) ∧
      hitCount s₁ calls ≤ hitCount s₂ calls := by
  induction calls generalizing s₁ s₂ with
  | nil => exact ⟨h, Nat.le_refl 0⟩
  | cons call rest ih =>
    obtain ⟨final, counts⟩ := ih _ _ (compared_perform holds h call)
    refine ⟨final, ?_⟩
    have hit : (s₁.request call).hit (tags s₁) = true → (s₂.request call).hit (tags s₂) = true := by
      rw [request_congr h.backing]
      exact h.within.hit _
    simp only [hitCount]
    by_cases small : (s₁.request call).hit (tags s₁) = true
    · rw [if_pos small, if_pos (hit small)]
      omega
    · rw [if_neg small]
      omega

/-- After any calls the words of the smaller cache are resident in the larger one as well, and
    hits() of the larger one is no less, as long as there were not 2 ^ 64 reads to count. -/
theorem larger_cache_includes (m : MemoryModel xlen Dev) (c₁ c₂ : Nat) (holds : 1 ≤ c₁)
    (le : c₁ ≤ c₂) (calls : List (CacheCall xlen)) :
    (∀ w, w ∈ tags ((new m c₁).performAll calls) → w ∈ tags ((new m c₂).performAll calls)) ∧
      ((calls.countP fun call => call.fetches.isSome) < 2 ^ 64 →
        ((new m c₁).performAll calls).hits ≤ ((new m c₂).performAll calls).hits) := by
  obtain ⟨final, counts⟩ := compared_performAll holds calls _ _ (compared_new m le)
  refine ⟨fun w member => final.within.sub.subset member, ?_⟩
  intro few
  have reads := hitCount_le_reads calls (new m c₂)
  rw [performAll_hits holds calls _ (kept_new m c₁),
    performAll_hits (holds.trans le) calls _ (kept_new m c₂)]
  have zero (capacity : Nat) : (new m capacity).hits = 0#64 := rfl
  simp only [zero, BitVec.zero_add, BitVec.le_def, BitVec.toNat_ofNat]
  rw [Nat.mod_eq_of_lt (by omega), Nat.mod_eq_of_lt (by omega)]
  exact counts

theorem larger_cache_includes_hit :
    ((new (MemoryModel.new 8 () : MemoryModel 32 Unit) 1).performAll
        [.readWord 0#32, .readWord 4#32, .readWord 0#32]).hits ≤
      ((new (MemoryModel.new 8 () : MemoryModel 32 Unit) 2).performAll
        [.readWord 0#32, .readWord 4#32, .readWord 0#32]).hits :=
  (larger_cache_includes (MemoryModel.new 8 () : MemoryModel 32 Unit) 1 2 (by decide) (by decide)
    [.readWord 0#32, .readWord 4#32, .readWord 0#32]).2 (by decide)

theorem hitCount_append (first rest : List (CacheCall xlen)) (c : CacheModel xlen Dev) :
    hitCount c (first ++ rest) = hitCount c first + hitCount (c.performAll first) rest := by
  induction first generalizing c with
  | nil => exact (Nat.zero_add _).symm
  | cons call first ih =>
    simp only [List.cons_append, hitCount]
    rw [ih, Nat.add_assoc]
    rfl

theorem hitCount_replicate {capacity : Nat} (holds : 1 ≤ capacity) (a : BitVec xlen) (n : Nat)
    (c : CacheModel xlen Dev) (h : Kept capacity c) (resident : a ∈ tags c) :
    hitCount c (List.replicate n (.readWord a)) = n := by
  induction n generalizing c with
  | zero => rfl
  | succ n ih =>
    have after : Kept capacity (c.perform (.readWord a)).2 := kept_perform h fun _ _ => holds
    have stays : a ∈ tags (c.perform (.readWord a)).2 := by
      rw [(perform_effect c (.readWord a)).tags h.indexed]
      simp only [request, serve, if_pos resident]
      exact List.mem_cons_self
    have hit : (c.request (.readWord a)).hit (tags c) = true := decide_eq_true resident
    rw [List.replicate_succ, hitCount, if_pos hit, ih _ after stays, Nat.add_comm]

def rereads (n : Nat) : List (CacheCall 32) :=
  [.readWord 0#32, .readWord 4#32, .readWord 0#32] ++ List.replicate n (.readWord 0#32)

theorem hits_rereads (capacity first : Nat) (holds : 1 ≤ capacity) (n : Nat)
    (counted : hitCount (new (MemoryModel.new 8 () : MemoryModel 32 Unit) capacity)
      [.readWord 0#32, .readWord 4#32, .readWord 0#32] = first)
    (resident : 0#32 ∈ tags ((new (MemoryModel.new 8 () : MemoryModel 32 Unit) capacity).performAll
      [.readWord 0#32, .readWord 4#32, .readWord 0#32])) :
    ((new (MemoryModel.new 8 () : MemoryModel 32 Unit) capacity).performAll (rereads n)).hits =
      BitVec.ofNat 64 (first + n) := by
  have new_kept := kept_new (MemoryModel.new 8 () : MemoryModel 32 Unit) capacity
  obtain ⟨c, led, kept⟩ : ∃ c, c = (new (MemoryModel.new 8 () : MemoryModel 32 Unit)
      capacity).performAll [.readWord 0#32, .readWord 4#32, .readWord 0#32] ∧ Kept capacity c :=
    ⟨_, rfl, kept_perform (kept_perform (kept_perform new_kept fun _ _ => holds)
      fun _ _ => holds) fun _ _ => holds⟩
  rw [performAll_hits holds _ _ new_kept, rereads, hitCount_append, counted, ← led,
    hitCount_replicate holds 0#32 n c kept (led ▸ resident)]
  exact BitVec.zero_add _

/-- With 2 ^ 64 reads that hit, hits() of the larger cache is back at 0. -/
theorem larger_cache_wraps :
    ¬((new (MemoryModel.new 8 () : MemoryModel 32 Unit) 1).performAll
        (rereads (2 ^ 64 - 1))).hits ≤
      ((new (MemoryModel.new 8 () : MemoryModel 32 Unit) 2).performAll
        (rereads (2 ^ 64 - 1))).hits := by
  rw [hits_rereads 1 0 (by decide) _ (by decide) (by decide),
    hits_rereads 2 1 (by decide) _ (by decide) (by decide)]
  decide

end Capacities

end CacheModel

end XorOS
