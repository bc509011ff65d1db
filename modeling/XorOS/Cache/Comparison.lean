import XorOS.Cache.IdealInvariants
import XorOS.Cache.LfuInvariants
import XorOS.Library.OnlinePaging
import XorOS.Simulator.CacheReplacement

/- The caches against each other on one trace: RunLfu and RunIdeal on the same input, and the
   CacheModel of the simulator against an IdealCache that has its reads loaded. -/
namespace XorOS

namespace LfuCache
variable {Key : Type} [DecidableEq Key]

def access (c : LfuCache Key Key) (element : Key) : LfuCache Key Key :=
  match c.get element with
  | (some _, c) => c
  | (none, c) => c.put element element

def hitCount : LfuCache Key Key → List Key → Nat
  | _, [] => 0
  | c, element :: rest =>
      (if (c.get element).1 ≠ none then 1 else 0) + hitCount (c.access element) rest

/-- RunLfu on cache_size and the elements that it has read; it takes them as int. -/
def runLfu (cacheSize : Nat) (elements : List Key) : Nat := hitCount (new cacheSize) elements

def driven (Key : Type) [DecidableEq Key] : Paging.Driven (LfuCache Key Key) Key Key where
  pages c := c.data.keys.toFinset
  next := access
  asks := some

theorem get_isSome (c : LfuCache Key Key) (element : Key) :
    (c.get element).1 ≠ none ↔ element ∈ c.data := by
  unfold get
  cases found : c.data.lookup element with
  | none => simpa using AList.lookup_eq_none.mp found
  | some v => simpa using AList.lookup_isSome.mp (found ▸ rfl)

theorem get_absent {c : LfuCache Key Key} {element : Key} (absent : element ∉ c.data) :
    c.get element = (none, c) := by
  unfold get
  rw [AList.lookup_eq_none.mpr absent]

theorem get_data (c : LfuCache Key Key) (element : Key) : (c.get element).2.data = c.data := by
  unfold get
  split
  · rfl
  · exact (promote_data c element).1

theorem access_eq (c : LfuCache Key Key) (element : Key) :
    c.access element =
      if element ∈ c.data then (c.get element).2 else c.put element element := by
  unfold access
  split
  · rename_i v c' got
    rw [if_pos ((get_isSome c element).mp (by rw [got]; simp)), got]
  · rename_i c' got
    have absent : element ∉ c.data := fun there => (get_isSome c element).mpr there (by rw [got])
    rw [get_absent absent] at got
    rw [if_neg absent, (Prod.mk.inj got).2]

theorem sound_access {capacity : Nat} {c : LfuCache Key Key}
    (sound : ∃ cs, Sound capacity cs c) (element : Key) :
    ∃ cs, Sound capacity cs (c.access element) := by
  obtain ⟨cs, sound⟩ := sound
  rw [access_eq]
  split
  · exact ⟨_, sound_step sound (.get element)⟩
  · exact ⟨_, sound_step sound (.put element element)⟩

theorem mem_put {c : LfuCache Key Key} {element k : Key}
    (there : k ∈ (c.put element element).data) : k = element ∨ k ∈ c.data := by
  rcases put_cases c element element with ⟨_, put⟩ | ⟨positive, _⟩
  · rw [put] at there
    exact Or.inr there
  · rcases data_put (Nat.pos_of_ne_zero positive) element element with put | put
    · rw [put] at there
      exact (AList.mem_insert _).mp there
    · rw [put] at there
      rcases (AList.mem_insert _).mp there with same | before
      · exact Or.inl same
      · refine Or.inr ?_
        unfold makeRoom at before
        split at before
        · obtain ⟨v, found⟩ := Option.isSome_iff_exists.mp (AList.lookup_isSome.mpr before)
          exact AList.lookup_isSome.mp (by rw [lookup_remove found]; rfl)
        · exact before

theorem driven_onDemand (capacity : Nat) :
    (driven Key).OnDemand capacity fun c => ∃ cs, Sound capacity cs c where
  keeps c element sound := sound_access sound element
  size c sound := by
    obtain ⟨cs, sound⟩ := sound
    have few := sound.bounded
    rw [sound.consistent.size] at few
    exact (List.toFinset_card_le _).trans few
  brings c element _ k there := by
    have there : k ∈ (c.access element).data := AList.mem_keys.mpr (List.mem_toFinset.mp there)
    have old : k ∈ c.data → k ∈ (driven Key).pages c := fun before =>
      List.mem_toFinset.mpr (AList.mem_keys.mp before)
    rw [access_eq] at there
    split at there
    · have same : k ∈ (c.get element).2.data ↔ k ∈ c.data := by rw [get_data]
      exact Or.inr (old (same.mp there))
    · rcases mem_put there with rfl | before
      · exact Or.inl rfl
      · exact Or.inr (old before)

theorem hitCount_eq (c : LfuCache Key Key) (elements : List Key) :
    hitCount c elements = (driven Key).hits c elements := by
  induction elements generalizing c with
  | nil => rfl
  | cons element rest ih =>
    have hit : (c.get element).1 ≠ none ↔
        ((driven Key).asks element).any (fun x => x ∈ (driven Key).pages c) = true := by
      rw [get_isSome]
      simp [driven, AList.mem_keys]
    simp only [hitCount, Paging.Driven.hits, ih, hit]
    rfl

end LfuCache

namespace IdealCache
variable {Key : Type} [DecidableEq Key]

theorem residents_step {scan : Iteration (Σ _ : Key, CacheEntry Key Key)} :
    ∀ {elements : List Key} {i : Nat} {c : IdealCache Key Key} (j : Nat) (x : Key),
      elements[j]? = some x →
        residents scan i elements c (j + 1) ⊆ insert x (residents scan i elements c j) := by
  intro elements
  induction elements with
  | nil =>
    intro i c j x found
    simp at found
  | cons element rest ih =>
    intro i c j x found
    cases j with
    | zero =>
      obtain rfl : element = x := by simpa using found
      simp only [residents, residents_zero]
      exact resident_put scan c element element i
    | succ j => exact ih j x (by simpa using found)

theorem card_residents {capacity : Nat} {scan : Iteration (Σ _ : Key, CacheEntry Key Key)} :
    ∀ {elements : List Key} {i : Nat} {c : IdealCache Key Key}, Current capacity i elements c →
      ∀ j, (residents scan i elements c j).card ≤ capacity := by
  intro elements
  induction elements with
  | nil =>
    intro i c current j
    have same : residents scan i [] c j = resident c.data := by cases j <;> rfl
    rw [same]
    exact current.size_eq.symm.le.trans current.size_le
  | cons element rest ih =>
    intro i c current j
    cases j with
    | zero => exact current.size_eq.symm.le.trans current.size_le
    | succ j => exact ih (current.put scan element).1 j

/-- RunIdeal is itself a demand policy, and the best one. -/
theorem runIdeal_best (loading : Iteration (Σ _ : Key, List Nat))
    (scan : Iteration (Σ _ : Key, CacheEntry Key Key)) (capacity : Nat) {elements : List Key}
    (fits : elements.length < 2 ^ 64) :
    ∃ S, Paging.DemandPolicy capacity elements S ∧
      runIdeal loading scan capacity elements = Paging.hits elements S ∧
      ∀ T, Paging.DemandPolicy capacity elements T →
        Paging.hits elements T ≤ Paging.hits elements S := by
  have current : Current capacity 0 elements (load
      (loading.visit 0 (accessMap 0 elements ∅).entries) (new capacity : IdealCache Key Key)) :=
    current_load loading capacity fits
  have start : residents scan 0 elements (load (loading.visit 0 (accessMap 0 elements ∅).entries)
      (new capacity : IdealCache Key Key)) 0 = ∅ := by
    rw [residents_zero, (load_fields _ _).1]
    rfl
  refine ⟨_, ⟨start, card_residents current, residents_step⟩, hitCount_eq_hits scan _ _ _, ?_⟩
  intro T policy
  exact Paging.hits_le_of_keepsNearest start (residents_keepsNearest scan current) policy

end IdealCache

namespace LfuCache
variable {Key : Type} [DecidableEq Key]

/-- On the same input RunIdeal counts at least the hits that RunLfu does. -/
theorem lfu_never_beats_ideal (loading : Iteration (Σ _ : Key, List Nat))
    (scan : Iteration (Σ _ : Key, IdealCache.CacheEntry Key Key)) (cacheSize : Nat)
    (elements : List Key) (fits : elements.length < 2 ^ 64) :
    runLfu cacheSize elements ≤ IdealCache.runIdeal loading scan cacheSize elements := by
  obtain ⟨S, _, counted, best⟩ := IdealCache.runIdeal_best loading scan cacheSize fits
  have policy := (driven_onDemand cacheSize).policy ⟨[], sound_new cacheSize⟩ rfl elements
  have trace : (driven Key).trace elements = elements := List.filterMap_some
  have hits := Paging.Driven.hits_eq (d := driven Key) (new cacheSize) elements
  rw [trace] at policy hits
  rw [counted, runLfu, hitCount_eq, ← hits]
  exact best _ policy

/-- With room for two keys. -/
theorem lfu_never_beats_ideal_two :
    runLfu 2 [(1 : Int), 2, 3, 1, 2] ≤
      IdealCache.runIdeal ⟨fun _ entries => entries, fun _ _ => List.Perm.refl _⟩
        ⟨fun _ entries => entries, fun _ _ => List.Perm.refl _⟩ 2 [(1 : Int), 2, 3, 1, 2] :=
  lfu_never_beats_ideal _ _ 2 [(1 : Int), 2, 3, 1, 2] (by decide)

end LfuCache

namespace CacheModel
open Recency
variable {xlen : Nat} {Dev : Type}

def driven (xlen : Nat) (Dev : Type) :
    Paging.Driven (CacheModel xlen Dev) (CacheCall xlen) (BitVec xlen) where
  pages c := (tags c).toFinset
  next c call := (c.perform call).2
  asks := CacheCall.fetches

theorem mem_serve {α : Type*} [DecidableEq α] {capacity : Nat} {l : List α} {r : Request α} {x : α}
    (there : x ∈ serve capacity l r) : r = .read x true ∨ x ∈ l := by
  cases r with
  | read a served =>
    simp only [serve] at there
    split at there
    · rename_i present
      rcases List.mem_cons.mp there with rfl | before
      · exact Or.inr present
      · exact Or.inr (List.mem_of_mem_erase before)
    · split at there
      · rename_i answered
        subst answered
        rcases List.mem_cons.mp there with rfl | before
        · exact Or.inl rfl
        · exact Or.inr ((room_sublist capacity l).subset before)
      · exact Or.inr ((room_sublist capacity l).subset there)
  | write a =>
    simp only [serve] at there
    split at there
    · rename_i present
      rcases List.mem_cons.mp there with rfl | before
      · exact Or.inr present
      · exact Or.inr (List.mem_of_mem_erase before)
    · exact Or.inr there
  | other => exact Or.inr there

theorem driven_onDemand {capacity : Nat} (holds : 1 ≤ capacity) :
    (driven xlen Dev).OnDemand capacity (Kept capacity) where
  keeps c call kept := kept_perform kept fun _ _ => holds
  size c kept := (List.toFinset_card_le _).trans kept.sound.bounded
  brings c call kept x there := by
    have there : x ∈ tags (c.perform call).2 := List.mem_toFinset.mp there
    rw [(perform_effect c call).tags kept.indexed] at there
    rcases mem_serve there with asked | before
    · exact Or.inl (request_read asked).1
    · exact Or.inr (List.mem_toFinset.mpr before)

theorem hit_eq (c : CacheModel xlen Dev) (call : CacheCall xlen) :
    (c.request call).hit (tags c) = call.fetches.any fun x => x ∈ tags c := by
  cases fetches : call.fetches with
  | some a =>
    rw [(request_of_fetches fetches).1]
    rfl
  | none =>
    cases asked : c.request call with
    | read a served =>
      rw [(request_read asked).1] at fetches
      cases fetches
    | write a => rfl
    | other => rfl

theorem hitCount_eq (c : CacheModel xlen Dev) (calls : List (CacheCall xlen)) :
    hitCount c calls = (driven xlen Dev).hits c calls := by
  induction calls generalizing c with
  | nil => rfl
  | cons call rest ih =>
    have hit : (c.request call).hit (tags c) =
        ((driven xlen Dev).asks call).any fun x => x ∈ (driven xlen Dev).pages c := by
      rw [hit_eq]
      simp [driven]
    simp only [hitCount, Paging.Driven.hits, ih, hit]
    rfl

theorem evict_misses (c : CacheModel xlen Dev) : c.evict.misses = c.misses := by
  unfold evict
  split <;> rfl

theorem makeRoom_misses (c : CacheModel xlen Dev) : c.makeRoom.misses = c.misses := by
  unfold makeRoom
  split
  · exact evict_misses c
  · rfl

theorem fetchWord_counts (c : CacheModel xlen Dev) (a : BitVec xlen) :
    (c.fetchWord a).2.hits + (c.fetchWord a).2.misses = c.hits + c.misses + 1#64 := by
  have hits : c.countMiss.makeRoom.hits = c.hits := makeRoom_hits _
  have misses : c.countMiss.makeRoom.misses = c.misses + 1#64 := makeRoom_misses _
  unfold fetchWord
  cases c.index.lookup a with
  | some it =>
    change c.hits + 1#64 + c.misses = _
    rw [BitVec.add_assoc, BitVec.add_comm 1#64, BitVec.add_assoc]
  | none =>
    simp only
    split
    · change c.countMiss.makeRoom.hits + c.countMiss.makeRoom.misses = _
      rw [hits, misses, BitVec.add_assoc]
    · change c.countMiss.makeRoom.hits + c.countMiss.makeRoom.misses = _
      rw [hits, misses, BitVec.add_assoc]

theorem perform_counts (c : CacheModel xlen Dev) (call : CacheCall xlen) :
    (c.perform call).2.hits + (c.perform call).2.misses =
      c.hits + c.misses + if call.fetches.isSome then 1#64 else 0#64 := by
  cases fetches : call.fetches with
  | some a =>
    rw [(request_of_fetches fetches).2, fetchWord_counts]
    rfl
  | none =>
    have effect := perform_effect c call
    cases asked : c.request call with
    | read a served =>
      rw [(request_read asked).1] at fetches
      cases fetches
    | write a =>
      rw [asked] at effect
      generalize (c.perform call).2 = c' at effect
      cases effect with
      | hit a it v found => exact (BitVec.add_zero _).symm
      | miss a absent => exact (BitVec.add_zero _).symm
    | other =>
      rw [asked] at effect
      generalize (c.perform call).2 = c' at effect
      cases effect with
      | store a it v found => exact (BitVec.add_zero _).symm
      | pass => exact (BitVec.add_zero _).symm

def readTrace (calls : List (CacheCall xlen)) : List (BitVec xlen) :=
  calls.filterMap CacheCall.fetches

theorem performAll_counts (c : CacheModel xlen Dev) (calls : List (CacheCall xlen)) :
    (c.performAll calls).hits + (c.performAll calls).misses =
      c.hits + c.misses + BitVec.ofNat 64 (readTrace calls).length := by
  induction calls generalizing c with
  | nil => exact (BitVec.add_zero _).symm
  | cons call rest ih =>
    have later := ih (c.perform call).2
    rw [perform_counts, BitVec.add_assoc] at later
    change ((c.perform call).2.performAll rest).hits + ((c.perform call).2.performAll rest).misses
      = _
    rw [later]
    congr 1
    cases fetches : call.fetches with
    | none => simp [readTrace, fetches]
    | some a =>
      simp only [readTrace, List.filterMap_cons, fetches, List.length_cons, Option.isSome_some,
        if_true]
      rw [BitVec.ofNat_add, BitVec.add_comm]

theorem lruMisses_eq {capacity : Nat} (holds : 1 ≤ capacity) {m : MemoryModel xlen Dev}
    {calls : List (CacheCall xlen)} :
    ∀ {c : CacheModel xlen Dev}, Kept capacity c → c.backing.layout = m.layout →
      (∀ call ∈ calls, ∃ a, call.fetches = some a ∧ (m.readWord a).isOk = true) →
      hitCount c calls + Paging.lruMisses capacity (tags c) (readTrace calls) =
        (readTrace calls).length := by
  induction calls with
  | nil =>
    intro c _ _ _
    rfl
  | cons call rest ih =>
    intro c kept layout reads
    obtain ⟨a, fetches, inRange⟩ := reads call List.mem_cons_self
    have served : (c.backing.readWord a).isOk = true := by
      rw [MemoryModel.readWord_isOk_congr layout, inRange]
    have asked := (request_of_fetches fetches (c := c)).1
    rw [served] at asked
    have effect := perform_effect c call
    have later := ih (kept_perform kept fun _ _ => holds)
      (by rw [effect.backing, beyond_layout, layout])
      fun next member => reads next (List.mem_cons_of_mem call member)
    rw [effect.tags kept.indexed, kept.places, asked] at later
    simp only [readTrace, List.filterMap_cons, fetches] at later ⊢
    simp only [hitCount, Paging.lruMisses, List.length_cons, asked, Request.hit,
      decide_eq_true_eq]
    split <;> omega

/-- CacheModel against an IdealCache of its capacity that has its reads loaded: never more hits,
    and, where every call is a read in range, at most capacity + 1 misses to each of its misses
    and capacity more. -/
theorem lru_against_ideal (m : MemoryModel xlen Dev) {capacity : Nat} (holds : 1 ≤ capacity)
    (calls : List (CacheCall xlen)) (loading : Iteration (Σ _ : BitVec xlen, List Nat))
    (scan : Iteration (Σ _ : BitVec xlen, IdealCache.CacheEntry (BitVec xlen) (BitVec xlen)))
    (few : (readTrace calls).length < 2 ^ 64) :
    let c := (new m capacity).performAll calls
    let ideal := IdealCache.runIdeal loading scan capacity (readTrace calls)
    c.hits.toNat + c.misses.toNat = (readTrace calls).length ∧ c.hits.toNat ≤ ideal ∧
      ((∀ call ∈ calls, ∃ a, call.fetches = some a ∧ (m.readWord a).isOk = true) →
        c.misses.toNat ≤ (capacity + 1) * ((readTrace calls).length - ideal) + capacity) := by
  obtain ⟨S, policy, counted, best⟩ := IdealCache.runIdeal_best loading scan capacity few
  have kept := kept_new m capacity
  have hits := Paging.Driven.hits_eq (d := driven xlen Dev) (new m capacity) calls
  rw [← hitCount_eq, show (driven xlen Dev).trace calls = readTrace calls from rfl] at hits
  have lru := best _ ((driven_onDemand holds).policy kept rfl calls)
  change Paging.hits (readTrace calls) _ ≤ _ at lru
  rw [hits] at lru
  have total := Paging.hits_add_misses (readTrace calls) S
  have hit : ((new m capacity).performAll calls).hits.toNat = hitCount (new m capacity) calls := by
    rw [performAll_hits holds calls _ kept]
    change (0#64 + _).toNat = _
    rw [BitVec.zero_add, BitVec.toNat_ofNat, Nat.mod_eq_of_lt (by omega)]
  have both : ((new m capacity).performAll calls).hits.toNat +
      ((new m capacity).performAll calls).misses.toNat = (readTrace calls).length := by
    have counts := congrArg BitVec.toNat (performAll_counts (new m capacity) calls)
    have bound := ((new m capacity).performAll calls).misses.isLt
    change _ = (0#64 + 0#64 + _).toNat at counts
    rw [BitVec.add_zero, BitVec.zero_add, BitVec.toNat_add, BitVec.toNat_ofNat, hit] at counts
    omega
  refine ⟨both, by omega, ?_⟩
  intro reads
  have followed := lruMisses_eq holds kept rfl reads
  have competitive := Paging.lruMisses_le holds policy
  have missed : ((new m capacity).performAll calls).misses.toNat =
      Paging.lruMisses capacity [] (readTrace calls) := by
    change hitCount (new m capacity) calls + Paging.lruMisses capacity [] (readTrace calls) = _
      at followed
    omega
  have ideal : Paging.misses (readTrace calls) S =
      (readTrace calls).length - IdealCache.runIdeal loading scan capacity (readTrace calls) := by
    omega
  rw [missed, ← ideal]
  exact competitive

/-- A cache of one line that goes back and forth between two words. -/
theorem lru_against_ideal_turns :
    ((new (MemoryModel.new 8 () : MemoryModel 32 Unit) 1).performAll
        [.readWord 0#32, .readWord 4#32, .readWord 0#32]).misses.toNat ≤
      2 * (3 - IdealCache.runIdeal ⟨fun _ entries => entries, fun _ _ => List.Perm.refl _⟩
        ⟨fun _ entries => entries, fun _ _ => List.Perm.refl _⟩ 1 [0#32, 4#32, 0#32]) + 1 := by
  refine (lru_against_ideal (MemoryModel.new 8 () : MemoryModel 32 Unit) (Nat.le_refl 1)
    [.readWord 0#32, .readWord 4#32, .readWord 0#32] _ _ (by decide)).2.2 ?_
  intro call member
  simp only [List.mem_cons, List.not_mem_nil, or_false] at member
  rcases member with rfl | rfl | rfl
  · exact ⟨0#32, rfl, by decide⟩
  · exact ⟨4#32, rfl, by decide⟩
  · exact ⟨0#32, rfl, by decide⟩

end CacheModel
end XorOS
