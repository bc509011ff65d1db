import Mathlib.Data.List.AList
import Mathlib.Tactic
import XorOS.Library.Paging

/- ideal_cache.hpp as RunIdeal of ideal_cache.cpp drives it. A size_t is a Nat below 2^64. -/
namespace XorOS

/-- What range-for over an unordered_map sees: all entries, in an order of its own for each loop. -/
structure Iteration (Entry : Type) where
  visit : Nat → List Entry → List Entry
  perm : ∀ loop entries, (visit loop entries).Perm entries

namespace IdealCache
variable {Key Val : Type}

structure CacheEntry (Key Val : Type) where
  data : Val
  nextUse : Nat
  key : Key

structure KeyAccess where
  accesses : List Nat
  currentIndex : Nat

def maxUse : Nat := 2 ^ 64 - 1

namespace KeyAccess

def advance (access : KeyAccess) (currentPosition : Nat) : KeyAccess :=
  let passed := (access.accesses.drop access.currentIndex).takeWhile (· ≤ currentPosition)
  { access with currentIndex := access.currentIndex + passed.length }

def nextUse (access : KeyAccess) : Nat := (access.accesses[access.currentIndex]?).getD maxUse

end KeyAccess

end IdealCache

open IdealCache in
structure IdealCache (Key Val : Type) where
  accessSequence : AList (fun _ : Key => KeyAccess)
  data : AList (fun _ : Key => CacheEntry Key Val)
  capacity : Nat
  size : Nat
  currentAccessIndex : Nat

namespace IdealCache
variable {Key Val : Type}

def new (capacity : Nat) : IdealCache Key Val where
  accessSequence := ∅
  data := ∅
  capacity := capacity
  size := 0
  currentAccessIndex := 0

def farthest (entries : List (Σ _ : Key, CacheEntry Key Val)) : Option (Key × Nat) :=
  entries.foldl (fun found ⟨k, entry⟩ =>
    match found with
    | none => some (k, entry.nextUse)
    | some (toRemove, maxNextUse) =>
        if entry.nextUse > maxNextUse then some (k, entry.nextUse) else some (toRemove, maxNextUse))
    none

/-- A result of the loop over data_: an entry with the largest next use. -/
def Farthest (entries : List (Σ _ : Key, CacheEntry Key Val)) : Option (Key × Nat) → Prop
  | none => entries = []
  | some (toRemove, maxNextUse) =>
      (∃ entry, ⟨toRemove, entry⟩ ∈ entries ∧ entry.nextUse = maxNextUse) ∧
        ∀ e ∈ entries, e.2.nextUse ≤ maxNextUse

theorem farthest_spec (entries : List (Σ _ : Key, CacheEntry Key Val)) :
    Farthest entries (farthest entries) := by
  induction entries using List.reverseRecOn with
  | nil => rfl
  | append_singleton entries last ih =>
    simp only [farthest, List.foldl_append, List.foldl_cons, List.foldl_nil] at ih ⊢
    revert ih
    generalize List.foldl _ none entries = best
    intro ih
    rcases best with _ | ⟨toRemove, maxNextUse⟩
    · rw [show entries = [] from ih]
      exact ⟨⟨last.2, by simp, rfl⟩, by simp⟩
    · obtain ⟨⟨entry, member, attained⟩, largest⟩ := ih
      by_cases farther : last.2.nextUse > maxNextUse
      · simp only [if_pos farther]
        refine ⟨⟨last.2, by simp, rfl⟩, fun e listed => ?_⟩
        rcases List.mem_append.mp listed with old | now
        · exact (largest e old).trans (Nat.le_of_lt farther)
        · rw [List.mem_singleton.mp now]
      · simp only [if_neg farther]
        refine ⟨⟨entry, by simp [member], attained⟩, fun e listed => ?_⟩
        rcases List.mem_append.mp listed with old | now
        · exact largest e old
        · rw [List.mem_singleton.mp now]
          exact Nat.not_lt.mp farther

variable [DecidableEq Key]

def loadAccessPattern (c : IdealCache Key Val) (key : Key) (accessPositions : List Nat) :
    IdealCache Key Val :=
  { c with accessSequence := c.accessSequence.insert key ⟨accessPositions, 0⟩ }

def contains (c : IdealCache Key Val) (key : Key) : Bool := (c.data.lookup key).isSome

def fill (scan : Iteration (Σ _ : Key, CacheEntry Key Val)) (c : IdealCache Key Val) (key : Key)
    (value : Val) (nextUse : Nat) : IdealCache Key Val :=
  if nextUse = maxUse then c
  else if c.size < c.capacity then
    { c with data := c.data.insert key ⟨value, nextUse, key⟩, size := c.size + 1 }
  else
    match farthest (scan.visit c.currentAccessIndex c.data.entries) with
    | none => c
    | some (toRemove, maxNextUse) =>
        if nextUse < maxNextUse then
          { c with data := (c.data.erase toRemove).insert key ⟨value, nextUse, key⟩ }
        else c

def put (scan : Iteration (Σ _ : Key, CacheEntry Key Val)) (c : IdealCache Key Val) (key : Key)
    (value : Val) (currentPosition : Nat) : IdealCache Key Val :=
  if c.capacity = 0 then c
  else
    let c := { c with currentAccessIndex := currentPosition }
    match c.data.lookup key with
    | some entry =>
        -- operator[] makes an empty KeyAccess where there is none
        let access := ((c.accessSequence.lookup key).getD ⟨[], 0⟩).advance currentPosition
        { c with
          accessSequence := c.accessSequence.insert key access
          data := c.data.insert key { entry with data := value, nextUse := access.nextUse } }
    | none =>
        match c.accessSequence.lookup key with
        | none => c.fill scan key value maxUse
        | some access =>
            let access := access.advance currentPosition
            { c with accessSequence := c.accessSequence.insert key access }.fill scan key value
              access.nextUse

def accessMap : Nat → List Key → AList (fun _ : Key => List Nat) → AList (fun _ : Key => List Nat)
  | _, [], positions => positions
  | i, element :: rest, positions =>
      accessMap (i + 1) rest
        (positions.insert element ((positions.lookup element).getD [] ++ [i]))

def load (entries : List (Σ _ : Key, List Nat)) (c : IdealCache Key Val) : IdealCache Key Val :=
  entries.foldl (fun c ⟨key, positions⟩ => c.loadAccessPattern key positions) c

def hitCount (scan : Iteration (Σ _ : Key, CacheEntry Key Key)) :
    Nat → List Key → IdealCache Key Key → Nat
  | _, [], _ => 0
  | i, element :: rest, c =>
      (if c.contains element then 1 else 0) +
        hitCount scan (i + 1) rest (c.put scan element element i)

/-- RunIdeal on cache_size and the elements that it has read; it takes them as int. -/
def runIdeal (loading : Iteration (Σ _ : Key, List Nat))
    (scan : Iteration (Σ _ : Key, CacheEntry Key Key)) (cacheSize : Nat) (elements : List Key) :
    Nat :=
  let patterns := loading.visit 0 (accessMap 0 elements ∅).entries
  hitCount scan 0 elements (load patterns (new cacheSize))

def positionsFrom (key : Key) : Nat → List Key → List Nat
  | _, [] => []
  | i, element :: rest =>
      if element = key then i :: positionsFrom key (i + 1) rest
      else positionsFrom key (i + 1) rest

theorem le_of_mem_positionsFrom {key : Key} : ∀ {i j : Nat} {rest : List Key},
    j ∈ positionsFrom key i rest → i ≤ j := by
  intro i j rest member
  induction rest generalizing i with
  | nil => simp [positionsFrom] at member
  | cons element rest ih =>
    simp only [positionsFrom] at member
    split at member
    · rcases List.mem_cons.mp member with rfl | later
      · exact Nat.le_refl _
      · exact Nat.le_of_succ_le (ih later)
    · exact Nat.le_of_succ_le (ih member)

def nextFrom (key : Key) (i : Nat) (rest : List Key) : Nat :=
  if key ∈ rest then i + rest.idxOf key else maxUse

theorem head_positionsFrom (key : Key) (i : Nat) (rest : List Key) :
    (positionsFrom key i rest).head?.getD maxUse = nextFrom key i rest := by
  unfold nextFrom
  induction rest generalizing i with
  | nil => simp [positionsFrom]
  | cons element rest ih =>
    by_cases same : element = key
    · simp [positionsFrom, same]
    · have other : key ≠ element := Ne.symm same
      simp only [positionsFrom, if_neg same, ih, List.mem_cons, other, false_or,
        List.idxOf_cons_ne rest same]
      split
      · omega
      · rfl

theorem nextFrom_cons {key element : Key} (i : Nat) (rest : List Key) (other : key ≠ element) :
    nextFrom key i (element :: rest) = nextFrom key (i + 1) rest := by
  unfold nextFrom
  simp only [List.mem_cons, other, false_or, List.idxOf_cons_ne rest (Ne.symm other)]
  split
  · omega
  · rfl

theorem nextFrom_eq_maxUse {key : Key} {i : Nat} {rest : List Key}
    (fits : i + rest.length < 2 ^ 64) : nextFrom key i rest = maxUse ↔ key ∉ rest := by
  unfold nextFrom maxUse
  split
  · rename_i used
    have before := List.idxOf_lt_length_of_mem used
    exact ⟨fun same => by omega, fun unused => absurd used unused⟩
  · rename_i unused
    exact ⟨fun _ => unused, fun _ => rfl⟩

theorem idxOf_le_of_nextFrom_le {p q : Key} {i : Nat} {rest : List Key}
    (fits : i + rest.length < 2 ^ 64) (le : nextFrom p i rest ≤ nextFrom q i rest) :
    rest.idxOf p ≤ rest.idxOf q := by
  by_cases used : q ∈ rest
  · have before := List.idxOf_lt_length_of_mem used
    by_cases usedP : p ∈ rest
    · simp only [nextFrom, if_pos used, if_pos usedP] at le
      omega
    · simp only [nextFrom, if_pos used, if_neg usedP, maxUse] at le
      omega
  · rw [List.idxOf_eq_length used]
    exact List.idxOf_le_length

def Pending (key : Key) (i : Nat) (rest : List Key) (access : KeyAccess) : Prop :=
  ∃ passed, access.accesses.drop access.currentIndex = passed ++ positionsFrom key i rest ∧
    ∀ j ∈ passed, j < i

theorem Pending.step {key element : Key} {i : Nat} {rest : List Key} {access : KeyAccess}
    (pending : Pending key i (element :: rest) access) : Pending key (i + 1) rest access := by
  obtain ⟨passed, ahead, before⟩ := pending
  simp only [positionsFrom] at ahead
  split at ahead
  · refine ⟨passed ++ [i], by simpa using ahead, fun j member => ?_⟩
    rcases List.mem_append.mp member with old | now
    · exact Nat.lt_succ_of_lt (before j old)
    · rw [List.mem_singleton.mp now]
      exact Nat.lt_succ_self i
  · exact ⟨passed, ahead, fun j member => Nat.lt_succ_of_lt (before j member)⟩

/-- The loop of Put passes exactly the uses up to the current position. -/
theorem drop_advance {key : Key} {i : Nat} {rest : List Key} {access : KeyAccess}
    (pending : Pending key (i + 1) rest access) :
    (access.advance i).accesses.drop (access.advance i).currentIndex =
      positionsFrom key (i + 1) rest := by
  obtain ⟨passed, ahead, before⟩ := pending
  have stop : (positionsFrom key (i + 1) rest).takeWhile (· ≤ i) = [] := by
    cases next : positionsFrom key (i + 1) rest with
    | nil => rfl
    | cons j later =>
      have member : j ∈ positionsFrom key (i + 1) rest := by simp [next]
      have after : i + 1 ≤ j := le_of_mem_positionsFrom member
      simp [show ¬ j ≤ i by omega]
  have all : ∀ j ∈ passed, decide (j ≤ i) = true := by
    intro j member
    exact decide_eq_true (Nat.le_of_lt_succ (before j member))
  simp only [KeyAccess.advance, ahead, List.takeWhile_append_of_pos all, stop, List.append_nil]
  rw [← List.drop_drop, ahead, List.drop_left]

theorem pending_advance {key : Key} {i : Nat} {rest : List Key} {access : KeyAccess}
    (pending : Pending key (i + 1) rest access) :
    Pending key (i + 1) rest (access.advance i) :=
  ⟨[], drop_advance pending, fun _ member => absurd member List.not_mem_nil⟩

theorem nextUse_advance {key : Key} {i : Nat} {rest : List Key} {access : KeyAccess}
    (pending : Pending key (i + 1) rest access) :
    (access.advance i).nextUse = nextFrom key (i + 1) rest := by
  rw [← head_positionsFrom, ← drop_advance pending, List.head?_drop]
  rfl

def resident (data : AList (fun _ : Key => CacheEntry Key Val)) : Finset Key :=
  data.keys.toFinset

theorem mem_resident {data : AList (fun _ : Key => CacheEntry Key Val)} {key : Key} :
    key ∈ resident data ↔ (data.lookup key).isSome := by
  rw [resident, List.mem_toFinset, ← AList.mem_keys, AList.lookup_isSome]

theorem resident_insert (data : AList (fun _ : Key => CacheEntry Key Val)) (key : Key)
    (entry : CacheEntry Key Val) :
    resident (data.insert key entry) = insert key (resident data) := by
  ext k
  simp only [resident, List.mem_toFinset, ← AList.mem_keys, AList.mem_insert, Finset.mem_insert]

theorem resident_erase (data : AList (fun _ : Key => CacheEntry Key Val)) (key : Key) :
    resident (data.erase key) = (resident data).erase key := by
  ext k
  simp only [resident, List.mem_toFinset, ← AList.mem_keys, AList.mem_erase, Finset.mem_erase]

/-- Every key still to come has a pattern that goes on with its uses to come. -/
def Loaded (i : Nat) (rest : List Key) (accessSequence : AList (fun _ : Key => KeyAccess)) : Prop :=
  ∀ key ∈ rest, ∃ access, accessSequence.lookup key = some access ∧ Pending key i rest access

theorem Loaded.step {i : Nat} {element : Key} {rest : List Key}
    {accessSequence : AList (fun _ : Key => KeyAccess)}
    (loaded : Loaded i (element :: rest) accessSequence) : Loaded (i + 1) rest accessSequence := by
  intro key used
  obtain ⟨access, found, ahead⟩ := loaded key (List.mem_cons_of_mem element used)
  exact ⟨access, found, ahead.step⟩

theorem Loaded.insert {i : Nat} {rest : List Key}
    {accessSequence : AList (fun _ : Key => KeyAccess)}
    (loaded : Loaded i rest accessSequence) {key : Key} {access : KeyAccess}
    (pending : Pending key i rest access) : Loaded i rest (accessSequence.insert key access) := by
  intro k used
  by_cases same : k = key
  · subst same
    exact ⟨access, AList.lookup_insert _, pending⟩
  · obtain ⟨old, found, ahead⟩ := loaded k used
    exact ⟨old, (AList.lookup_insert_ne same).trans found, ahead⟩

/-- At position i, with the accesses rest still to come: every entry knows its next use. -/
structure Current (capacity i : Nat) (rest : List Key) (c : IdealCache Key Val) : Prop where
  fits : i + rest.length < 2 ^ 64
  capacity_eq : c.capacity = capacity
  size_eq : c.size = (resident c.data).card
  size_le : c.size ≤ capacity
  entries : ∀ key entry, c.data.lookup key = some entry → entry.nextUse = nextFrom key i rest
  patterns : Loaded i rest c.accessSequence

theorem Current.of_cons {capacity i : Nat} {element : Key} {rest : List Key}
    {c : IdealCache Key Val} (current : Current capacity i (element :: rest) c) :
    i + 1 + rest.length < 2 ^ 64 := by
  have fits := current.fits
  rw [List.length_cons] at fits
  omega

theorem Current.entries_pass {capacity i : Nat} {element : Key} {rest : List Key}
    {c : IdealCache Key Val} (current : Current capacity i (element :: rest) c) :
    ∀ key entry, key ≠ element → c.data.lookup key = some entry →
      entry.nextUse = nextFrom key (i + 1) rest := by
  intro key entry other found
  rw [current.entries key entry found, nextFrom_cons i rest other]

theorem Current.pass {capacity i : Nat} {element : Key} {rest : List Key} {c : IdealCache Key Val}
    (current : Current capacity i (element :: rest) c) (absent : c.data.lookup element = none) :
    Current capacity (i + 1) rest c where
  fits := current.of_cons
  capacity_eq := current.capacity_eq
  size_eq := current.size_eq
  size_le := current.size_le
  entries := by
    intro key entry found
    refine current.entries_pass key entry ?_ found
    rintro rfl
    rw [absent] at found
    cases found
  patterns := current.patterns.step

theorem Current.setData {capacity i : Nat} {rest : List Key} {c : IdealCache Key Val}
    (current : Current capacity i rest c)
    {data : AList (fun _ : Key => CacheEntry Key Val)} {size : Nat}
    (size_eq : size = (resident data).card) (size_le : size ≤ capacity)
    (entries : ∀ key entry, data.lookup key = some entry → entry.nextUse = nextFrom key i rest) :
    Current capacity i rest { c with data := data, size := size } where
  fits := current.fits
  capacity_eq := current.capacity_eq
  size_eq := size_eq
  size_le := size_le
  entries := entries
  patterns := current.patterns

theorem entries_insert {data : AList (fun _ : Key => CacheEntry Key Val)} {i : Nat}
    {rest : List Key} {key : Key} {entry : CacheEntry Key Val}
    (entries : ∀ k e, k ≠ key → data.lookup k = some e → e.nextUse = nextFrom k i rest)
    (now : entry.nextUse = nextFrom key i rest) :
    ∀ k e, (data.insert key entry).lookup k = some e → e.nextUse = nextFrom k i rest := by
  intro k e found
  by_cases same : k = key
  · subst same
    rw [AList.lookup_insert] at found
    rw [← Option.some.inj found]
    exact now
  · rw [AList.lookup_insert_ne same] at found
    exact entries k e same found

theorem keepsNearest_bypass {capacity : Nat} {rest : List Key} {C : Finset Key} {key : Key}
    (fresh : key ∉ C) (last : ∀ p ∈ C, rest.idxOf p ≤ rest.idxOf key)
    (full : key ∈ rest → capacity ≤ C.card) : Paging.KeepsNearest capacity key C rest C := by
  have same : (insert key C).erase key = C := Finset.erase_insert fresh
  have nearest : Paging.KeepsNearest capacity key C rest ((insert key C).erase key) := by
    refine Paging.keepsNearest_erase (fun p member => ?_) fun used => ?_
    · rcases Finset.mem_insert.mp member with rfl | old
      · exact Nat.le_refl _
      · exact last p old
    · rw [same]
      exact full used
  rwa [same] at nearest

theorem Current.replace {capacity i : Nat} {rest : List Key} {c : IdealCache Key Val}
    (current : Current capacity i rest c) {key toRemove : Key} (value : Val)
    (fresh : key ∉ resident c.data) (inside : toRemove ∈ resident c.data)
    (full : capacity ≤ (resident c.data).card)
    (last : ∀ p ∈ insert key (resident c.data), rest.idxOf p ≤ rest.idxOf toRemove) :
    Current capacity i rest
        { c with
          data := (c.data.erase toRemove).insert key ⟨value, nextFrom key i rest, key⟩ } ∧
      Paging.KeepsNearest capacity key (resident c.data) rest
        (resident ((c.data.erase toRemove).insert key ⟨value, nextFrom key i rest, key⟩)) := by
  have other : key ≠ toRemove := by
    rintro rfl
    exact fresh inside
  have card : (insert key ((resident c.data).erase toRemove)).card = (resident c.data).card := by
    have positive := Finset.card_pos.mpr ⟨toRemove, inside⟩
    rw [Finset.card_insert_of_notMem (by simp [fresh]), Finset.card_erase_of_mem inside]
    omega
  refine ⟨current.setData ?_ current.size_le ?_, ?_⟩
  · rw [resident_insert, resident_erase, card, current.size_eq]
  · refine entries_insert (fun k e _ found => ?_) rfl
    by_cases gone : k = toRemove
    · rw [gone, AList.lookup_erase] at found
      cases found
    · rw [AList.lookup_erase_ne gone] at found
      exact current.entries k e found
  · rw [resident_insert, resident_erase, ← Finset.erase_insert_of_ne other]
    refine Paging.keepsNearest_erase last fun _ => ?_
    rw [Finset.erase_insert_of_ne other, card]
    exact full

theorem Current.fill {capacity i : Nat} {rest : List Key} {c : IdealCache Key Val}
    (current : Current capacity i rest c) (positive : 0 < capacity)
    (scan : Iteration (Σ _ : Key, CacheEntry Key Val)) {key : Key} (value : Val)
    (absent : c.data.lookup key = none) :
    Current capacity i rest (c.fill scan key value (nextFrom key i rest)) ∧
      Paging.KeepsNearest capacity key (resident c.data) rest
        (resident (c.fill scan key value (nextFrom key i rest)).data) := by
  have fresh : key ∉ resident c.data := by simp [mem_resident, absent]
  unfold IdealCache.fill
  by_cases never : nextFrom key i rest = maxUse
  · rw [if_pos never]
    have unused : key ∉ rest := (nextFrom_eq_maxUse current.fits).mp never
    refine ⟨current, keepsNearest_bypass fresh (fun p _ => ?_) fun used => absurd used unused⟩
    rw [List.idxOf_eq_length unused]
    exact List.idxOf_le_length
  rw [if_neg never]
  by_cases room : c.size < c.capacity
  · rw [if_pos room]
    have below := current.capacity_eq
    refine ⟨current.setData ?_ (by omega) ?_, ?_⟩
    · rw [resident_insert, Finset.card_insert_of_notMem fresh, current.size_eq]
    · exact entries_insert (fun k e _ found => current.entries k e found) rfl
    · rw [resident_insert]
      exact Paging.keepsNearest_insert _ _ _ _
  · rw [if_neg room]
    have full : capacity ≤ (resident c.data).card := by
      rw [← current.size_eq, ← current.capacity_eq]
      exact Nat.not_lt.mp room
    have visited := scan.perm c.currentAccessIndex c.data.entries
    have spec := farthest_spec (scan.visit c.currentAccessIndex c.data.entries)
    revert spec
    generalize farthest (scan.visit c.currentAccessIndex c.data.entries) = found
    intro spec
    rcases found with _ | ⟨toRemove, maxNextUse⟩
    · have none : c.data.entries = [] := List.nil_perm.mp (spec ▸ visited)
      have empty : (resident c.data).card = 0 := by simp [resident, AList.keys, none]
      omega
    · obtain ⟨⟨entry, member, attained⟩, largest⟩ := spec
      have out : c.data.lookup toRemove = some entry :=
        AList.mem_lookup_iff.mpr (visited.mem_iff.mp member)
      have inside : toRemove ∈ resident c.data := by simp [mem_resident, out]
      have most : ∀ p ∈ resident c.data, nextFrom p i rest ≤ maxNextUse := by
        intro p old
        obtain ⟨e, found⟩ := Option.isSome_iff_exists.mp (mem_resident.mp old)
        rw [← current.entries p e found]
        exact largest ⟨p, e⟩ (visited.mem_iff.mpr (AList.mem_lookup_iff.mp found))
      have best : nextFrom toRemove i rest = maxNextUse :=
        (current.entries toRemove entry out).symm.trans attained
      by_cases nearer : nextFrom key i rest < maxNextUse
      · simp only [if_pos nearer]
        refine current.replace value fresh inside full fun p member => ?_
        refine idxOf_le_of_nextFrom_le current.fits ?_
        rw [best]
        rcases Finset.mem_insert.mp member with rfl | old
        · exact Nat.le_of_lt nearer
        · exact most p old
      · simp only [if_neg nearer]
        refine ⟨current, keepsNearest_bypass fresh (fun p old => ?_) fun _ => full⟩
        exact idxOf_le_of_nextFrom_le current.fits ((most p old).trans (Nat.not_lt.mp nearer))

theorem Current.put {capacity i : Nat} {element : Key} {rest : List Key} {c : IdealCache Key Val}
    (current : Current capacity i (element :: rest) c)
    (scan : Iteration (Σ _ : Key, CacheEntry Key Val)) (value : Val) :
    Current capacity (i + 1) rest (c.put scan element value i) ∧
      Paging.KeepsNearest capacity element (resident c.data) rest
        (resident (c.put scan element value i).data) := by
  obtain ⟨access, loaded, pending⟩ := current.patterns element List.mem_cons_self
  have ahead := pending.step
  have patterns := current.patterns.step.insert (pending_advance ahead)
  obtain rfl := current.capacity_eq
  unfold IdealCache.put
  by_cases zero : c.capacity = 0
  · rw [if_pos zero]
    have empty : c.data.lookup element = none := by
      have card : (resident c.data).card = 0 := by
        have below := current.size_le
        have size := current.size_eq
        omega
      have out : element ∉ resident c.data := by simp [Finset.card_eq_zero.mp card]
      simpa [mem_resident] using out
    exact ⟨current.pass empty, fun t => by simp [zero]⟩
  rw [if_neg zero]
  cases held : c.data.lookup element with
  | some entry =>
    have inside : element ∈ resident c.data := by simp [mem_resident, held]
    have same : insert element (resident c.data) = resident c.data := Finset.insert_eq_of_mem inside
    simp only [held, loaded, Option.getD_some]
    refine ⟨⟨current.of_cons, current.capacity_eq, ?_, current.size_le, ?_, patterns⟩, ?_⟩
    · rw [resident_insert, same, current.size_eq]
    · exact entries_insert current.entries_pass (nextUse_advance ahead)
    · simp only [resident_insert]
      exact Paging.keepsNearest_insert _ _ _ _
  | none =>
    simp only [held, loaded]
    rw [nextUse_advance ahead]
    have passed := current.pass held
    have ready : Current c.capacity (i + 1) rest
        { c with
          currentAccessIndex := i
          accessSequence := c.accessSequence.insert element (access.advance i) } :=
      ⟨passed.fits, passed.capacity_eq, passed.size_eq, passed.size_le, passed.entries, patterns⟩
    exact ready.fill (Nat.pos_of_ne_zero zero) scan value held

def residents (scan : Iteration (Σ _ : Key, CacheEntry Key Key)) :
    Nat → List Key → IdealCache Key Key → Nat → Finset Key
  | i, element :: rest, c, n + 1 => residents scan (i + 1) rest (c.put scan element element i) n
  | _, _, c, _ => resident c.data

theorem residents_zero (scan : Iteration (Σ _ : Key, CacheEntry Key Key)) (i : Nat)
    (elements : List Key) (c : IdealCache Key Key) :
    residents scan i elements c 0 = resident c.data := by
  cases elements <;> rfl

theorem hitCount_eq_hits (scan : Iteration (Σ _ : Key, CacheEntry Key Key)) :
    ∀ (elements : List Key) (i : Nat) (c : IdealCache Key Key),
      hitCount scan i elements c = Paging.hits elements (residents scan i elements c) := by
  intro elements
  induction elements with
  | nil =>
    intro i c
    rfl
  | cons element rest ih =>
    intro i c
    have hit : c.contains element = decide (element ∈ residents scan i (element :: rest) c 0) := by
      rw [residents_zero, contains, Bool.eq_iff_iff, decide_eq_true_iff, mem_resident]
    simp only [hitCount, Paging.hits, ih, hit, decide_eq_true_eq]
    rfl

theorem residents_keepsNearest {capacity : Nat}
    (scan : Iteration (Σ _ : Key, CacheEntry Key Key)) :
    ∀ {elements : List Key} {i : Nat} {c : IdealCache Key Key}, Current capacity i elements c →
      ∀ j x, elements[j]? = some x →
        Paging.KeepsNearest capacity x (residents scan i elements c j) (elements.drop (j + 1))
          (residents scan i elements c (j + 1)) := by
  intro elements
  induction elements with
  | nil =>
    intro i c _ j x found
    simp at found
  | cons element rest ih =>
    intro i c current j x found
    obtain ⟨next, nearest⟩ := current.put scan element
    cases j with
    | zero =>
      obtain rfl : element = x := by simpa using found
      simpa only [residents, residents_zero, List.drop_succ_cons, List.drop_zero, Nat.zero_add]
        using nearest
    | succ j => exact ih next j x (by simpa using found)

theorem lookup_accessMap (key : Key) : ∀ (elements : List Key) (i : Nat)
    (positions : AList (fun _ : Key => List Nat)),
    ((accessMap i elements positions).lookup key).getD [] =
        (positions.lookup key).getD [] ++ positionsFrom key i elements ∧
      (((accessMap i elements positions).lookup key).isSome ↔
        key ∈ elements ∨ (positions.lookup key).isSome) := by
  intro elements
  induction elements with
  | nil =>
    intro i positions
    simp [accessMap, positionsFrom]
  | cons element rest ih =>
    intro i positions
    obtain ⟨listed, known⟩ :=
      ih (i + 1) (positions.insert element ((positions.lookup element).getD [] ++ [i]))
    rw [accessMap, listed, known]
    by_cases same : key = element
    · subst same
      simp [positionsFrom]
    · have other : element ≠ key := Ne.symm same
      simp [positionsFrom, same, other, AList.lookup_insert_ne same]

theorem lookup_load {key : Key} {positions : List Nat} :
    ∀ {entries : List (Σ _ : Key, List Nat)} {c : IdealCache Key Val}, entries.NodupKeys →
      ⟨key, positions⟩ ∈ entries →
        (load entries c).accessSequence.lookup key = some ⟨positions, 0⟩ := by
  intro entries
  induction entries using List.reverseRecOn with
  | nil =>
    intro c _ member
    exact absurd member List.not_mem_nil
  | append_singleton entries last ih =>
    intro c distinct member
    have keys : entries.NodupKeys ∧ last.1 ∉ entries.keys := by
      rw [List.NodupKeys, List.keys, List.map_append, List.nodup_append] at distinct
      obtain ⟨before, _, apart⟩ := distinct
      exact ⟨before, fun listed => apart _ listed _ (by simp) rfl⟩
    have loaded :
        load (entries ++ [last]) c = (load entries c).loadAccessPattern last.1 last.2 := by
      simp only [load, List.foldl_append, List.foldl_cons, List.foldl_nil]
    rw [loaded, loadAccessPattern]
    rcases List.mem_append.mp member with old | now
    · have listed : key ∈ entries.keys := List.mem_keys_of_mem old
      have other : key ≠ last.1 := fun same => keys.2 (same ▸ listed)
      exact (AList.lookup_insert_ne other).trans (ih keys.1 old)
    · obtain rfl := List.mem_singleton.mp now
      exact AList.lookup_insert _

theorem load_fields (entries : List (Σ _ : Key, List Nat)) (c : IdealCache Key Val) :
    (load entries c).data = c.data ∧ (load entries c).capacity = c.capacity ∧
      (load entries c).size = c.size := by
  induction entries using List.reverseRecOn with
  | nil => exact ⟨rfl, rfl, rfl⟩
  | append_singleton entries last ih =>
    simp only [load, List.foldl_append, List.foldl_cons, List.foldl_nil] at ih ⊢
    exact ih

theorem current_load (loading : Iteration (Σ _ : Key, List Nat)) (cacheSize : Nat)
    {elements : List Key} (fits : elements.length < 2 ^ 64) :
    Current cacheSize 0 elements (load (loading.visit 0 (accessMap 0 elements ∅).entries)
      (new cacheSize : IdealCache Key Val)) := by
  have visited := loading.perm 0 (accessMap 0 elements ∅).entries
  obtain ⟨data, capacity, size⟩ := load_fields
    (loading.visit 0 (accessMap 0 elements ∅).entries) (new cacheSize : IdealCache Key Val)
  refine ⟨by omega, capacity, ?_, ?_, ?_, ?_⟩
  · rw [size, data]
    rfl
  · rw [size]
    exact Nat.zero_le _
  · intro key entry found
    rw [data] at found
    simp [new] at found
  · intro key used
    obtain ⟨listed, known⟩ := lookup_accessMap key elements 0 ∅
    obtain ⟨positions, found⟩ := Option.isSome_iff_exists.mp (known.mpr (Or.inl used))
    rw [found] at listed
    refine ⟨⟨positions, 0⟩, lookup_load ?_ ?_, [], ?_, by simp⟩
    · exact (List.perm_nodupKeys visited).mpr (accessMap 0 elements ∅).nodupKeys
    · exact visited.mem_iff.mpr (AList.mem_lookup_iff.mp found)
    · simpa using listed

/-- RunIdeal has at least as many hits as any demand policy of the same capacity. -/
theorem runIdeal_optimal (loading : Iteration (Σ _ : Key, List Nat))
    (scan : Iteration (Σ _ : Key, CacheEntry Key Key)) {capacity : Nat} {elements : List Key}
    {S : Nat → Finset Key} (fits : elements.length < 2 ^ 64)
    (policy : Paging.DemandPolicy capacity elements S) :
    Paging.hits elements S ≤ runIdeal loading scan capacity elements := by
  have current : Current capacity 0 elements (load
      (loading.visit 0 (accessMap 0 elements ∅).entries) (new capacity : IdealCache Key Key)) :=
    current_load loading capacity fits
  unfold runIdeal
  rw [hitCount_eq_hits]
  refine Paging.hits_le_of_keepsNearest ?_ (residents_keepsNearest scan current) policy
  rw [residents_zero, (load_fields _ _).1]
  rfl

/-- With room for one key, a policy that keeps the first key over 1 2 1. -/
theorem runIdeal_optimal_keep :
    Paging.hits [(1 : Int), 2, 1] (fun i => if i = 0 then ∅ else {1}) ≤
      runIdeal ⟨fun _ entries => entries, fun _ _ => List.Perm.refl _⟩
        ⟨fun _ entries => entries, fun _ _ => List.Perm.refl _⟩ 1 [(1 : Int), 2, 1] := by
  have policy : Paging.DemandPolicy 1 [(1 : Int), 2, 1] (fun i => if i = 0 then ∅ else {1}) := by
    refine ⟨rfl, fun i => ?_, fun i x found => ?_⟩
    · split
      · exact Nat.zero_le _
      · exact Nat.le_refl _
    · rcases i with _ | i
      · obtain rfl : (1 : Int) = x := by simpa using found
        decide
      · simp
  exact runIdeal_optimal _ _ (by decide) policy

end IdealCache

end XorOS
