import XorOS.Cache.IdealCache

/- Get and UpdateNextUses of ideal_cache.hpp: what the next uses and the cursors are after each
   access, whether it was a Put or, on a resident key, a Get. -/
namespace XorOS

namespace IdealCache
variable {Key Val : Type} [DecidableEq Key]

def refresh (c : IdealCache Key Val) (key : Key) (entry : CacheEntry Key Val) :
    IdealCache Key Val :=
  match c.accessSequence.lookup key with
  | none => { c with data := c.data.insert key { entry with nextUse := maxUse } }
  | some access =>
      let access := access.advance c.currentAccessIndex
      { c with
        accessSequence := c.accessSequence.insert key access
        data := c.data.insert key { entry with nextUse := access.nextUse } }

def updateNextUses (scan : Iteration (Σ _ : Key, CacheEntry Key Val)) (c : IdealCache Key Val) :
    IdealCache Key Val :=
  (scan.visit c.currentAccessIndex c.data.entries).foldl
    (fun c ⟨key, entry⟩ => c.refresh key entry) c

def get (scan : Iteration (Σ _ : Key, CacheEntry Key Val)) (c : IdealCache Key Val) (key : Key) :
    Option Val × IdealCache Key Val :=
  match c.data.lookup key with
  | none => (none, c)
  | some _ =>
      let c := { c with currentAccessIndex := c.currentAccessIndex + 1 }.updateNextUses scan
      -- it still points to the entry, as the loop adds and removes none
      ((c.data.lookup key).map CacheEntry.data, c)

/-- Who accesses the cache: at each position a Put or, on a resident key only, a Get, in whatever
    order the loops over data_ see its entries. -/
structure Driver (Key : Type) where
  scan : Iteration (Σ _ : Key, CacheEntry Key Key)
  useGet : Nat → IdealCache Key Key → Bool

namespace Driver

def access (d : Driver Key) (c : IdealCache Key Key) (element : Key) (i : Nat) :
    IdealCache Key Key :=
  if d.useGet i c ∧ c.contains element then (c.get d.scan element).2
  else c.put d.scan element element i

def after (d : Driver Key) : Nat → List Key → IdealCache Key Key → Nat → IdealCache Key Key
  | i, element :: rest, c, n + 1 => d.after (i + 1) rest (d.access c element i) n
  | _, _, c, _ => c

def hits (d : Driver Key) : Nat → List Key → IdealCache Key Key → Nat
  | _, [], _ => 0
  | i, element :: rest, c =>
      (if c.contains element then 1 else 0) + d.hits (i + 1) rest (d.access c element i)

end Driver

/-- The calls of LoadAccessPattern before the first access: the positions of every element, and
    of no key any other positions. The order is free, and a call may come twice. -/
structure LoadsTrace (elements : List Key) (patterns : List (Σ _ : Key, List Nat)) : Prop where
  exact : ∀ pattern ∈ patterns, pattern.2 = positionsFrom pattern.1 0 elements
  all : ∀ key ∈ elements, key ∈ patterns.map Sigma.fst

def NextUseAfter (elements : List Key) (i : Nat) (key : Key) (nextUse : Nat) : Prop :=
  (i < nextUse ∧ elements[nextUse]? = some key ∧
      ∀ j, i < j → j < nextUse → elements[j]? ≠ some key) ∨
    nextUse = maxUse ∧ ∀ j, i < j → elements[j]? ≠ some key

structure Bookkept (capacity : Nat) (elements : List Key) (i : Nat) (c : IdealCache Key Val) :
    Prop where
  nextUse : ∀ key entry, c.data.lookup key = some entry →
    NextUseAfter elements i key entry.nextUse
  cursor : ∀ key j, i < j → elements[j]? = some key →
    ∃ access, c.accessSequence.lookup key = some access ∧
      j ∈ access.accesses.drop access.currentIndex
  size : c.size = c.data.keys.length
  size_le : c.size ≤ c.capacity
  capacity_eq : c.capacity = capacity
  index : 0 < c.capacity → c.currentAccessIndex = i

theorem nextUseAfter_nextFrom (elements : List Key) (i : Nat) (key : Key) :
    NextUseAfter elements i key (nextFrom key (i + 1) (elements.drop (i + 1))) := by
  have later : ∀ j, i < j → elements[j]? = (elements.drop (i + 1))[j - (i + 1)]? := by
    intro j after
    rw [List.getElem?_drop]
    congr 1
    omega
  unfold NextUseAfter nextFrom
  split
  · rename_i used
    left
    have before := List.idxOf_lt_length_of_mem used
    refine ⟨by omega, ?_, ?_⟩
    · rw [later _ (by omega), Nat.add_sub_cancel_left, List.getElem?_eq_getElem before,
        List.getElem_idxOf before]
    · intro j after earlier found
      rw [later j after] at found
      have member : key ∈ (elements.drop (i + 1)).take (j - (i + 1) + 1) := by
        apply List.mem_of_getElem? (i := j - (i + 1))
        rw [List.getElem?_take_of_lt (Nat.lt_succ_self _), found]
      have first := ((Paging.mem_take_iff_idxOf _ _ _).mp member).2
      omega
  · rename_i unused
    right
    refine ⟨rfl, ?_⟩
    intro j after found
    rw [later j after] at found
    exact unused (List.mem_of_getElem? found)

theorem mem_positionsFrom {key : Key} {i k : Nat} {rest : List Key} (listed : rest[k]? = some key) :
    i + k ∈ positionsFrom key i rest := by
  induction rest generalizing i k with
  | nil => simp at listed
  | cons element rest ih =>
    cases k with
    | zero =>
      obtain rfl : element = key := by simpa using listed
      simp [positionsFrom]
    | succ k =>
      have member := ih (i := i + 1) (k := k) (by simpa using listed)
      rw [Nat.add_right_comm] at member
      simp only [positionsFrom]
      split
      · exact List.mem_cons_of_mem i member
      · exact member

def Cursors (i : Nat) (rest : List Key) (accessSequence : AList (fun _ : Key => KeyAccess)) :
    Prop :=
  ∀ key access, accessSequence.lookup key = some access → Pending key i rest access

theorem Cursors.step {i : Nat} {element : Key} {rest : List Key}
    {accessSequence : AList (fun _ : Key => KeyAccess)}
    (cursors : Cursors i (element :: rest) accessSequence) :
    Cursors (i + 1) rest accessSequence := by
  intro key access found
  exact (cursors key access found).step

theorem Cursors.insert {i : Nat} {rest : List Key}
    {accessSequence : AList (fun _ : Key => KeyAccess)} (cursors : Cursors i rest accessSequence)
    {key : Key} {access : KeyAccess} (pending : Pending key i rest access) :
    Cursors i rest (accessSequence.insert key access) := by
  intro k a found
  by_cases same : k = key
  · subst same
    rw [AList.lookup_insert] at found
    rw [← Option.some.inj found]
    exact pending
  · rw [AList.lookup_insert_ne same] at found
    exact cursors k a found

/-- Between two accesses: position i comes next, and Get or Put has set the index before it. -/
structure Tracked (capacity i : Nat) (rest : List Key) (c : IdealCache Key Val) : Prop
    extends Current capacity i rest c where
  cursors : Cursors i rest c.accessSequence
  index : resident c.data = ∅ ∧ (capacity = 0 ∨ i = 0) ∨ c.currentAccessIndex + 1 = i

theorem resident_card (data : AList (fun _ : Key => CacheEntry Key Val)) :
    (resident data).card = data.keys.length :=
  List.toFinset_card_of_nodup data.keys_nodup

theorem Tracked.bookkept {capacity i : Nat} {elements : List Key} {c : IdealCache Key Val}
    (tracked : Tracked capacity (i + 1) (elements.drop (i + 1)) c) :
    Bookkept capacity elements i c where
  nextUse := by
    intro key entry found
    rw [tracked.entries key entry found]
    exact nextUseAfter_nextFrom elements i key
  cursor := by
    intro key j after found
    have listed : (elements.drop (i + 1))[j - (i + 1)]? = some key := by
      rw [List.getElem?_drop, ← found]
      congr 1
      omega
    obtain ⟨access, loaded, passed, pending, _⟩ :=
      tracked.patterns key (List.mem_of_getElem? listed)
    refine ⟨access, loaded, ?_⟩
    have member := mem_positionsFrom (i := i + 1) listed
    rw [Nat.add_sub_cancel' after] at member
    rw [pending]
    exact List.mem_append_right passed member
  size := by rw [tracked.size_eq, resident_card]
  size_le := by
    rw [tracked.capacity_eq]
    exact tracked.size_le
  capacity_eq := tracked.capacity_eq
  index := by
    intro positive
    rw [tracked.capacity_eq] at positive
    have index := tracked.index
    omega

theorem refresh_fields (c : IdealCache Key Val) (key : Key) (entry : CacheEntry Key Val) :
    (c.refresh key entry).capacity = c.capacity ∧ (c.refresh key entry).size = c.size ∧
      (c.refresh key entry).currentAccessIndex = c.currentAccessIndex := by
  unfold refresh
  split
  · exact ⟨rfl, rfl, rfl⟩
  · exact ⟨rfl, rfl, rfl⟩

theorem resident_refresh (c : IdealCache Key Val) {key : Key} (entry : CacheEntry Key Val)
    (inside : key ∈ resident c.data) :
    resident (c.refresh key entry).data = resident c.data := by
  unfold refresh
  split
  · simp only [resident_insert, Finset.insert_eq_of_mem inside]
  · simp only [resident_insert, Finset.insert_eq_of_mem inside]

theorem lookup_refresh {i : Nat} {rest : List Key} {c : IdealCache Key Val}
    (cursors : Cursors (i + 1) rest c.accessSequence)
    (loaded : Loaded (i + 1) rest c.accessSequence)
    (index : c.currentAccessIndex = i) (key : Key) (entry : CacheEntry Key Val) :
    ∀ k e, (c.refresh key entry).data.lookup k = some e →
      e.nextUse = nextFrom k (i + 1) rest ∨ k ≠ key ∧ c.data.lookup k = some e := by
  intro k e found
  unfold refresh at found
  by_cases same : k = key
  · subst same
    left
    cases pattern : c.accessSequence.lookup k with
    | none =>
      have unused : k ∉ rest := by
        intro used
        obtain ⟨access, known, _⟩ := loaded k used
        rw [pattern] at known
        cases known
      simp only [pattern, AList.lookup_insert, Option.some.injEq] at found
      rw [← found, nextFrom, if_neg unused]
    | some access =>
      simp only [pattern, AList.lookup_insert, Option.some.injEq, index] at found
      rw [← found]
      exact nextUse_advance (cursors k access pattern)
  · right
    refine ⟨same, ?_⟩
    split at found
    · rwa [AList.lookup_insert_ne same] at found
    · rwa [AList.lookup_insert_ne same] at found

theorem patterns_refresh {i : Nat} {rest : List Key} {c : IdealCache Key Val}
    (cursors : Cursors (i + 1) rest c.accessSequence)
    (loaded : Loaded (i + 1) rest c.accessSequence)
    (index : c.currentAccessIndex = i) (key : Key) (entry : CacheEntry Key Val) :
    Cursors (i + 1) rest (c.refresh key entry).accessSequence ∧
      Loaded (i + 1) rest (c.refresh key entry).accessSequence := by
  unfold refresh
  cases pattern : c.accessSequence.lookup key with
  | none => exact ⟨cursors, loaded⟩
  | some access =>
    have pending := pending_advance (cursors key access pattern)
    simp only [index]
    exact ⟨cursors.insert pending, loaded.insert pending⟩

/-- The loop of UpdateNextUses, where the entries still to be visited are those that may be out
    of date. -/
theorem refresh_all {capacity i : Nat} {rest : List Key} (fits : i + 1 + rest.length < 2 ^ 64) :
    ∀ (entries : List (Σ _ : Key, CacheEntry Key Val)) (c : IdealCache Key Val),
      c.capacity = capacity → c.size = (resident c.data).card → c.size ≤ capacity →
      c.currentAccessIndex = i → Cursors (i + 1) rest c.accessSequence →
      Loaded (i + 1) rest c.accessSequence → (∀ e ∈ entries, e.1 ∈ resident c.data) →
      (∀ k e, c.data.lookup k = some e →
        e.nextUse = nextFrom k (i + 1) rest ∨ k ∈ entries.map Sigma.fst) →
      Tracked capacity (i + 1) rest (entries.foldl (fun c ⟨key, entry⟩ => c.refresh key entry) c) ∧
        resident (entries.foldl (fun c ⟨key, entry⟩ => c.refresh key entry) c).data =
          resident c.data := by
  intro entries
  induction entries with
  | nil =>
    intro c capacity_eq size_eq size_le index cursors loaded _ stale
    have entries : ∀ k e, c.data.lookup k = some e → e.nextUse = nextFrom k (i + 1) rest := by
      intro k e found
      simpa using stale k e found
    exact ⟨⟨⟨fits, capacity_eq, size_eq, size_le, entries, loaded⟩, cursors,
      Or.inr (by rw [List.foldl_nil, index])⟩, rfl⟩
  | cons first later ih =>
    obtain ⟨key, entry⟩ := first
    intro c capacity_eq size_eq size_le index cursors loaded inside stale
    obtain ⟨sameCapacity, sameSize, sameIndex⟩ := refresh_fields c key entry
    have same := resident_refresh c entry (inside ⟨key, entry⟩ List.mem_cons_self)
    obtain ⟨cursorsNow, loadedNow⟩ := patterns_refresh cursors loaded index key entry
    have fewer : ∀ k e, (c.refresh key entry).data.lookup k = some e →
        e.nextUse = nextFrom k (i + 1) rest ∨ k ∈ later.map Sigma.fst := by
      intro k e found
      rcases lookup_refresh cursors loaded index key entry k e found with now | ⟨other, before⟩
      · exact Or.inl now
      · rcases stale k e before with current | listed
        · exact Or.inl current
        · right
          simpa [other] using listed
    obtain ⟨tracked, kept⟩ := ih (c.refresh key entry) (sameCapacity.trans capacity_eq)
      (by rw [sameSize, same, size_eq]) (sameSize.le.trans size_le) (sameIndex.trans index)
      cursorsNow loadedNow
      (fun e listed => same ▸ inside e (List.mem_cons_of_mem _ listed)) fewer
    exact ⟨tracked, kept.trans same⟩

theorem Tracked.get {capacity i : Nat} {element : Key} {rest : List Key} {c : IdealCache Key Val}
    (tracked : Tracked capacity i (element :: rest) c)
    (scan : Iteration (Σ _ : Key, CacheEntry Key Val)) (held : c.contains element = true) :
    Tracked capacity (i + 1) rest (c.get scan element).2 ∧
      resident (c.get scan element).2.data = resident c.data := by
  obtain ⟨entry, found⟩ := Option.isSome_iff_exists.mp held
  have inside : element ∈ resident c.data := mem_resident.mpr held
  have index : c.currentAccessIndex + 1 = i := by
    rcases tracked.index with ⟨empty, _⟩ | now
    · rw [empty] at inside
      exact absurd inside (Finset.notMem_empty element)
    · exact now
  have visited := scan.perm (c.currentAccessIndex + 1) c.data.entries
  unfold IdealCache.get updateNextUses
  simp only [found]
  have all := refresh_all (c := { c with currentAccessIndex := c.currentAccessIndex + 1 })
    tracked.of_cons (scan.visit (c.currentAccessIndex + 1) c.data.entries)
    tracked.capacity_eq tracked.size_eq tracked.size_le index tracked.cursors.step
    tracked.patterns.step
  apply all
  · intro e listed
    rw [mem_resident, AList.mem_lookup_iff.mpr (visited.mem_iff.mp listed)]
    rfl
  · intro k e known
    right
    have listed := visited.mem_iff.mpr (AList.mem_lookup_iff.mp known)
    exact List.mem_map_of_mem (f := Sigma.fst) listed

theorem fill_fields (scan : Iteration (Σ _ : Key, CacheEntry Key Val)) (c : IdealCache Key Val)
    (key : Key) (value : Val) (nextUse : Nat) :
    (c.fill scan key value nextUse).accessSequence = c.accessSequence ∧
      (c.fill scan key value nextUse).currentAccessIndex = c.currentAccessIndex ∧
      resident (c.fill scan key value nextUse).data ⊆ insert key (resident c.data) := by
  have keep : resident c.data ⊆ insert key (resident c.data) := Finset.subset_insert _ _
  unfold fill
  split
  · exact ⟨rfl, rfl, keep⟩
  split
  · exact ⟨rfl, rfl, (resident_insert _ _ _).le⟩
  cases found : farthest (scan.visit c.currentAccessIndex c.data.entries) with
  | none => exact ⟨rfl, rfl, keep⟩
  | some best =>
    dsimp only
    split
    · refine ⟨rfl, rfl, ?_⟩
      rw [resident_insert, resident_erase]
      exact Finset.insert_subset_insert _ (Finset.erase_subset _ _)
    · exact ⟨rfl, rfl, keep⟩

theorem resident_put (scan : Iteration (Σ _ : Key, CacheEntry Key Val)) (c : IdealCache Key Val)
    (key : Key) (value : Val) (i : Nat) :
    resident (c.put scan key value i).data ⊆ insert key (resident c.data) := by
  have keep : resident c.data ⊆ insert key (resident c.data) := Finset.subset_insert _ _
  unfold put
  split
  · exact keep
  cases held : c.data.lookup key with
  | some entry =>
    simp only [held]
    exact (resident_insert _ _ _).le
  | none =>
    simp only [held]
    cases pattern : c.accessSequence.lookup key with
    | none => exact (fill_fields _ _ _ _ _).2.2
    | some access => exact (fill_fields _ _ _ _ _).2.2

theorem cursors_put {i : Nat} {element : Key} {rest : List Key} {c : IdealCache Key Val}
    (cursors : Cursors i (element :: rest) c.accessSequence)
    (loaded : Loaded i (element :: rest) c.accessSequence)
    (scan : Iteration (Σ _ : Key, CacheEntry Key Val)) (value : Val) :
    Cursors (i + 1) rest (c.put scan element value i).accessSequence := by
  obtain ⟨access, known, pending⟩ := loaded element List.mem_cons_self
  have passed := cursors.step.insert (pending_advance pending.step)
  unfold put
  split
  · exact cursors.step
  cases held : c.data.lookup element with
  | some entry =>
    simp only [held, known, Option.getD_some]
    exact passed
  | none =>
    simp only [held, known, (fill_fields _ _ _ _ _).1]
    exact passed

theorem index_put (scan : Iteration (Σ _ : Key, CacheEntry Key Val)) {c : IdealCache Key Val}
    (positive : c.capacity ≠ 0) (key : Key) (value : Val) (i : Nat) :
    (c.put scan key value i).currentAccessIndex = i := by
  unfold put
  rw [if_neg positive]
  cases held : c.data.lookup key with
  | some entry => simp only [held]
  | none =>
    simp only [held]
    cases pattern : c.accessSequence.lookup key with
    | none => exact (fill_fields _ _ _ _ _).2.1
    | some access => exact (fill_fields _ _ _ _ _).2.1

theorem Tracked.put {capacity i : Nat} {element : Key} {rest : List Key} {c : IdealCache Key Val}
    (tracked : Tracked capacity i (element :: rest) c)
    (scan : Iteration (Σ _ : Key, CacheEntry Key Val)) (value : Val) :
    Tracked capacity (i + 1) rest (c.put scan element value i) where
  toCurrent := (tracked.toCurrent.put scan value).1
  cursors := cursors_put tracked.cursors tracked.patterns scan value
  index := by
    by_cases zero : capacity = 0
    · have current := (tracked.toCurrent.put scan value).1
      have none : (resident (c.put scan element value i).data).card = 0 := by
        have size := current.size_eq
        have size_le := current.size_le
        omega
      exact Or.inl ⟨Finset.card_eq_zero.mp none, Or.inl zero⟩
    · right
      rw [index_put scan (by rw [tracked.capacity_eq]; exact zero)]

namespace Driver

theorem access_tracked (d : Driver Key) {capacity i : Nat} {element : Key} {rest : List Key}
    {c : IdealCache Key Key} (tracked : Tracked capacity i (element :: rest) c) :
    Tracked capacity (i + 1) rest (d.access c element i) ∧
      Paging.KeepsNearest capacity element (resident c.data) rest
        (resident (d.access c element i).data) ∧
      resident (d.access c element i).data ⊆ insert element (resident c.data) := by
  unfold access
  split
  · rename_i got
    obtain ⟨next, same⟩ := tracked.get d.scan got.2
    have inside : element ∈ resident c.data := mem_resident.mpr got.2
    rw [same]
    refine ⟨next, ?_, Finset.subset_insert _ _⟩
    have nearest := Paging.keepsNearest_insert capacity element (resident c.data) rest
    rwa [Finset.insert_eq_of_mem inside] at nearest
  · refine ⟨tracked.put d.scan element, (tracked.toCurrent.put d.scan element).2, ?_⟩
    exact resident_put d.scan c element element i

theorem after_zero (d : Driver Key) (i : Nat) (elements : List Key) (c : IdealCache Key Key) :
    d.after i elements c 0 = c := by
  cases elements with
  | nil => rfl
  | cons element rest => rfl

theorem after_tracked (d : Driver Key) {capacity : Nat} :
    ∀ {elements : List Key} {i : Nat} {c : IdealCache Key Key}, Tracked capacity i elements c →
      ∀ n, n ≤ elements.length →
        Tracked capacity (i + n) (elements.drop n) (d.after i elements c n) := by
  intro elements
  induction elements with
  | nil =>
    intro i c tracked n before
    obtain rfl : n = 0 := Nat.le_zero.mp before
    exact tracked
  | cons element rest ih =>
    intro i c tracked n before
    cases n with
    | zero => exact tracked
    | succ n =>
      have later := ih (d.access_tracked tracked).1 n (Nat.le_of_succ_le_succ before)
      rw [Nat.add_right_comm] at later
      exact later

theorem hits_eq (d : Driver Key) :
    ∀ (elements : List Key) (i : Nat) (c : IdealCache Key Key),
      d.hits i elements c =
        Paging.hits elements fun n => resident (d.after i elements c n).data := by
  intro elements
  induction elements with
  | nil =>
    intro i c
    rfl
  | cons element rest ih =>
    intro i c
    have hit : c.contains element = decide (element ∈ resident c.data) := by
      rw [contains, Bool.eq_iff_iff, decide_eq_true_iff, mem_resident]
    simp only [hits, Paging.hits, ih, hit, decide_eq_true_eq]
    rfl

/-- What the optimality of the pages used soonest asks of a run, from an access on. -/
theorem after_nearest (d : Driver Key) {capacity : Nat} :
    ∀ {elements : List Key} {i : Nat} {c : IdealCache Key Key}, Tracked capacity i elements c →
      ∀ j x, elements[j]? = some x →
        Paging.KeepsNearest capacity x (resident (d.after i elements c j).data)
            (elements.drop (j + 1)) (resident (d.after i elements c (j + 1)).data) ∧
          resident (d.after i elements c (j + 1)).data ⊆
            insert x (resident (d.after i elements c j).data) := by
  intro elements
  induction elements with
  | nil =>
    intro i c _ j x found
    simp at found
  | cons element rest ih =>
    intro i c tracked j x found
    obtain ⟨next, step⟩ := d.access_tracked tracked
    cases j with
    | zero =>
      obtain rfl : element = x := by simpa using found
      simpa only [after, after_zero, List.drop_succ_cons, List.drop_zero, Nat.zero_add] using step
    | succ j => exact ih next j x (by simpa using found)

theorem after_end (d : Driver Key) :
    ∀ (elements : List Key) (i : Nat) (c : IdealCache Key Key) (n : Nat), elements.length ≤ n →
      d.after i elements c n = d.after i elements c elements.length := by
  intro elements
  induction elements with
  | nil =>
    intro i c n _
    cases n with
    | zero => rfl
    | succ n => rfl
  | cons element rest ih =>
    intro i c n past
    cases n with
    | zero => exact absurd past (Nat.not_succ_le_zero _)
    | succ n => exact ih (i + 1) (d.access c element i) n (Nat.le_of_succ_le_succ past)

theorem demandPolicy (d : Driver Key) {capacity : Nat} {elements : List Key}
    {c : IdealCache Key Key} (tracked : Tracked capacity 0 elements c)
    (empty : resident c.data = ∅) :
    Paging.DemandPolicy capacity elements fun n => resident (d.after 0 elements c n).data where
  start := by
    rw [after_zero]
    exact empty
  size := by
    intro n
    have bounded : ∀ m, m ≤ elements.length →
        (resident (d.after 0 elements c m).data).card ≤ capacity := by
      intro m before
      have current := d.after_tracked tracked m before
      rw [← current.size_eq]
      exact current.size_le
    rcases Nat.le_total n elements.length with before | past
    · exact bounded n before
    · rw [d.after_end elements 0 c n past]
      exact bounded _ (Nat.le_refl _)
  step := by
    intro i x found
    exact (d.after_nearest tracked i x found).2

/-- Two runs over the same trace: each is optimal, so neither has more hits. -/
theorem hits_unique {capacity : Nat} {elements : List Key} {c e : IdealCache Key Key}
    (tracked : Tracked capacity 0 elements c) (empty : resident c.data = ∅)
    (tracked2 : Tracked capacity 0 elements e) (empty2 : resident e.data = ∅)
    (d d2 : Driver Key) : d.hits 0 elements c = d2.hits 0 elements e := by
  rw [hits_eq, hits_eq]
  apply Nat.le_antisymm
  · apply Paging.hits_le_of_keepsNearest
    · simpa only [after_zero] using empty2
    · exact fun i x found => (d2.after_nearest tracked2 i x found).1
    · exact d.demandPolicy tracked empty
  · apply Paging.hits_le_of_keepsNearest
    · simpa only [after_zero] using empty
    · exact fun i x found => (d.after_nearest tracked i x found).1
    · exact d2.demandPolicy tracked2 empty2

theorem hits_of_puts (d : Driver Key) (puts : ∀ i c, d.useGet i c = false) :
    ∀ (elements : List Key) (i : Nat) (c : IdealCache Key Key),
      d.hits i elements c = hitCount d.scan i elements c := by
  intro elements
  induction elements with
  | nil =>
    intro i c
    rfl
  | cons element rest ih =>
    intro i c
    simp [hits, hitCount, access, puts, ih]

end Driver

theorem lookup_load_pattern {elements : List Key} {key : Key} :
    ∀ {patterns : List (Σ _ : Key, List Nat)} {c : IdealCache Key Val},
      (∀ pattern ∈ patterns, pattern.2 = positionsFrom pattern.1 0 elements) →
      (load patterns c).accessSequence.lookup key =
        if key ∈ patterns.map Sigma.fst then some ⟨positionsFrom key 0 elements, 0⟩
        else c.accessSequence.lookup key := by
  intro patterns
  induction patterns with
  | nil =>
    intro c _
    rfl
  | cons first later ih =>
    intro c exact
    have rest := ih (c := c.loadAccessPattern first.1 first.2)
      fun pattern listed => exact pattern (List.mem_cons_of_mem _ listed)
    have unfold : load (first :: later) c = load later (c.loadAccessPattern first.1 first.2) := rfl
    rw [unfold, rest]
    by_cases again : key ∈ later.map Sigma.fst
    · simp [again]
    · by_cases same : key = first.1
      · subst same
        simp [loadAccessPattern, exact first List.mem_cons_self]
      · simp [again, same, loadAccessPattern, AList.lookup_insert_ne same]

theorem tracked_load {elements : List Key} {patterns : List (Σ _ : Key, List Nat)}
    (loads : LoadsTrace elements patterns) (capacity : Nat) (fits : elements.length < 2 ^ 64) :
    Tracked capacity 0 elements (load patterns (new capacity : IdealCache Key Val)) ∧
      resident (load patterns (new capacity : IdealCache Key Val)).data = ∅ := by
  obtain ⟨data, capacityEq, size⟩ := load_fields patterns (new capacity : IdealCache Key Val)
  have empty : resident (load patterns (new capacity : IdealCache Key Val)).data = ∅ := by
    rw [data]
    rfl
  have found : ∀ key access,
      (load patterns (new capacity : IdealCache Key Val)).accessSequence.lookup key = some access →
        access = ⟨positionsFrom key 0 elements, 0⟩ := by
    intro key access known
    rw [lookup_load_pattern loads.exact] at known
    split at known
    · exact (Option.some.inj known).symm
    · simp [new] at known
  have pending : ∀ key : Key, Pending key 0 elements ⟨positionsFrom key 0 elements, 0⟩ := by
    intro key
    exact ⟨[], by simp, by simp⟩
  refine ⟨⟨⟨by omega, capacityEq, ?_, ?_, ?_, ?_⟩, ?_, Or.inl ⟨empty, Or.inr rfl⟩⟩, empty⟩
  · rw [size, empty]
    rfl
  · rw [size]
    exact Nat.zero_le _
  · intro key entry known
    rw [data] at known
    simp [new] at known
  · intro key used
    refine ⟨_, ?_, pending key⟩
    rw [lookup_load_pattern loads.exact, if_pos (loads.all key used)]
  · intro key access known
    rw [found key access known]
    exact pending key

theorem loadsTrace_runIdeal (loading : Iteration (Σ _ : Key, List Nat)) (elements : List Key) :
    LoadsTrace elements (loading.visit 0 (accessMap 0 elements ∅).entries) where
  exact := by
    intro pattern listed
    have visited := (loading.perm 0 (accessMap 0 elements ∅).entries).mem_iff.mp listed
    have found : (accessMap 0 elements ∅).lookup pattern.1 = some pattern.2 :=
      AList.mem_lookup_iff.mpr visited
    have positions := (lookup_accessMap pattern.1 elements 0 ∅).1
    rw [found] at positions
    simpa using positions
  all := by
    intro key used
    have known := (lookup_accessMap key elements 0 ∅).2.mpr (Or.inl used)
    obtain ⟨positions, found⟩ := Option.isSome_iff_exists.mp known
    have listed := (loading.perm 0 (accessMap 0 elements ∅).entries).mem_iff.mpr
      (AList.mem_lookup_iff.mp found)
    exact List.mem_map_of_mem (f := Sigma.fst) listed

/-- Every run keeps its books after each access, and all have the hits that RunIdeal counts. -/
theorem belady_bookkeeping {elements : List Key} {patterns : List (Σ _ : Key, List Nat)}
    (capacity : Nat) (fits : elements.length < 2 ^ 64) (loads : LoadsTrace elements patterns) :
    (∀ (d : Driver Key) (i : Nat), i < elements.length →
        Bookkept capacity elements i
          (d.after 0 elements (load patterns (new capacity)) (i + 1))) ∧
      (∀ d d2 : Driver Key, d.hits 0 elements (load patterns (new capacity)) =
        d2.hits 0 elements (load patterns (new capacity))) ∧
      ∀ (d : Driver Key) (loading : Iteration (Σ _ : Key, List Nat))
        (scan : Iteration (Σ _ : Key, CacheEntry Key Key)),
        d.hits 0 elements (load patterns (new capacity)) =
          runIdeal loading scan capacity elements := by
  have start : Tracked capacity 0 elements (load patterns (new capacity : IdealCache Key Key)) ∧
      resident (load patterns (new capacity : IdealCache Key Key)).data = ∅ :=
    tracked_load loads capacity fits
  obtain ⟨tracked, empty⟩ := start
  refine ⟨?_, ?_, ?_⟩
  · intro d i before
    have after := d.after_tracked tracked (i + 1) before
    rw [Nat.zero_add] at after
    exact after.bookkept
  · intro d d2
    exact Driver.hits_unique tracked empty tracked empty d d2
  · intro d loading scan
    obtain ⟨started, none⟩ := tracked_load (loadsTrace_runIdeal loading elements) capacity fits
    have puts := Driver.hits_of_puts ⟨scan, fun _ _ => false⟩ (fun _ _ => rfl) elements 0
      (load (loading.visit 0 (accessMap 0 elements ∅).entries) (new capacity))
    unfold runIdeal
    rw [← puts]
    exact Driver.hits_unique tracked empty started none d _

/-- The trace 1 2 1 with room for one key, loaded in the order 2 1. -/
theorem belady_bookkeeping_three :
    Bookkept 1 [(1 : Int), 2, 1] 2
      (Driver.after ⟨⟨fun _ entries => entries, fun _ _ => List.Perm.refl _⟩, fun _ _ => true⟩ 0
        [1, 2, 1] (load [⟨2, [1]⟩, ⟨1, [0, 2]⟩] (new 1)) 3) := by
  have loads : LoadsTrace [(1 : Int), 2, 1] [⟨2, [1]⟩, ⟨1, [0, 2]⟩] := by
    constructor
    · decide
    · decide
  exact (belady_bookkeeping 1 (by decide) loads).1 _ 2 (by decide)

end IdealCache

end XorOS
