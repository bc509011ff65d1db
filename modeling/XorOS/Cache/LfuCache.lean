import Mathlib.Data.List.AList
import XorOS.Library.IterList
import XorOS.Library.Runs

/- lfu_cache.hpp: least frequently used eviction. frequency_buckets_ maps a frequency to the
   std::list of its keys, the latest first; iterator_map_ points into these lists. A size_t is a
   Nat below 2^64. -/
namespace XorOS

structure LfuCache (Key Val : Type) where
  data : AList (fun _ : Key => Val)
  frequency : AList (fun _ : Key => Nat)
  iteratorMap : AList (fun _ : Key => Nat)
  buckets : AList (fun _ : Nat => IterList Key)
  capacity : Nat
  size : Nat
  minFrequency : Nat

namespace LfuCache
variable {Key Val : Type}

def new (capacity : Nat) : LfuCache Key Val where
  data := ∅
  frequency := ∅
  iteratorMap := ∅
  buckets := ∅
  capacity := capacity
  size := 0
  minFrequency := 0

/-- min_frequency_ = frequency_buckets_.begin()->first, and the loop over all buckets after it. -/
def scanMin (buckets : AList (fun _ : Nat => IterList Key)) : Nat :=
  buckets.keys.foldl (fun least f => if f < least then f else least) (buckets.keys.headD 0)

def shrink (buckets : AList (fun _ : Nat => IterList Key)) (f : Nat) (rest : IterList Key) :
    AList (fun _ : Nat => IterList Key) :=
  if rest.nodes = [] then buckets.erase f else buckets.insert f rest

theorem lookup_shrink (buckets : AList (fun _ : Nat => IterList Key)) (f g : Nat)
    (rest : IterList Key) : (shrink buckets f rest).lookup g =
      if g = f then (if rest.nodes = [] then none else some rest) else buckets.lookup g := by
  unfold shrink
  by_cases same : g = f
  · subst same
    split
    · simp
    · simp
  · rw [if_neg same]
    split
    · rw [AList.lookup_erase_ne same]
    · rw [AList.lookup_insert_ne same]

theorem foldl_least (fs : List Nat) : ∀ start : Nat,
    fs.foldl (fun least f => if f < least then f else least) start ≤ start ∧
      (∀ f ∈ fs, fs.foldl (fun least f => if f < least then f else least) start ≤ f) ∧
      (fs.foldl (fun least f => if f < least then f else least) start = start ∨
        fs.foldl (fun least f => if f < least then f else least) start ∈ fs) := by
  induction fs with
  | nil =>
    intro start
    exact ⟨Nat.le_refl _, fun f member => absurd member List.not_mem_nil, Or.inl rfl⟩
  | cons g fs ih =>
    intro start
    simp only [List.foldl_cons]
    obtain ⟨below, least, attained⟩ := ih (if g < start then g else start)
    have step :
      (if g < start then g else start) ≤ g ∧ (if g < start then g else start) ≤ start := by
      split
      · omega
      · omega
    refine ⟨by omega, ?_, ?_⟩
    · intro f member
      rcases List.mem_cons.mp member with rfl | later
      · omega
      · exact least f later
    · rcases attained with same | later
      · rw [same]
        split
        · exact Or.inr List.mem_cons_self
        · exact Or.inl rfl
      · exact Or.inr (List.mem_cons_of_mem g later)

theorem scanMin_spec {buckets : AList (fun _ : Nat => IterList Key)} (some : buckets.keys ≠ []) :
    scanMin buckets ∈ buckets ∧ ∀ f ∈ buckets, scanMin buckets ≤ f := by
  obtain ⟨_, least, attained⟩ := foldl_least buckets.keys (buckets.keys.headD 0)
  refine ⟨?_, fun f member => least f (AList.mem_keys.mp member)⟩
  rw [AList.mem_keys]
  rcases attained with start | member
  · unfold scanMin
    rw [start]
    cases keys : buckets.keys with
    | nil => exact absurd keys some
    | cons f fs => exact List.mem_cons_self
  · exact member

def victimBucket (c : LfuCache Key Val) : Nat :=
  if (c.buckets.lookup c.minFrequency).isSome then c.minFrequency else scanMin c.buckets

theorem victimBucket_spec {c : LfuCache Key Val} {f : Nat} (some : f ∈ c.buckets) :
    c.victimBucket ∈ c.buckets := by
  have keys : c.buckets.keys ≠ [] := List.ne_nil_of_mem (AList.mem_keys.mp some)
  unfold victimBucket
  split
  · rename_i found
    exact AList.lookup_isSome.mp found
  · exact (scanMin_spec keys).1

/-- min_frequency_ names no bucket, or the lowest one. -/
def MinCurrent (c : LfuCache Key Val) : Prop :=
  c.minFrequency ∈ c.buckets → ∀ f ∈ c.buckets, c.minFrequency ≤ f

theorem victimBucket_least_iff {c : LfuCache Key Val} {f : Nat} (some : f ∈ c.buckets) :
    (∀ f ∈ c.buckets, c.victimBucket ≤ f) ↔ MinCurrent c := by
  have keys : c.buckets.keys ≠ [] := List.ne_nil_of_mem (AList.mem_keys.mp some)
  unfold victimBucket MinCurrent
  by_cases found : (c.buckets.lookup c.minFrequency).isSome
  · rw [if_pos found]
    exact ⟨fun least _ => least, fun current => current (AList.lookup_isSome.mp found)⟩
  · rw [if_neg found]
    refine ⟨fun _ member => absurd (AList.lookup_isSome.mpr member) found, fun _ => ?_⟩
    exact (scanMin_spec keys).2

variable [DecidableEq Key]

def place (c : LfuCache Key Val) (key : Key) (f : Nat) : LfuCache Key Val :=
  let bucket := ((c.buckets.lookup f).getD .empty).pushFront key
  { c with
    frequency := c.frequency.insert key f
    buckets := c.buckets.insert f bucket
    iteratorMap := c.iteratorMap.insert key bucket.begin }

def leave (c : LfuCache Key Val) (key : Key) (oldFreq : Nat) : LfuCache Key Val :=
  match c.buckets.lookup oldFreq with
  | none => c
  | some bucket =>
      let rest := bucket.erase ((c.iteratorMap.lookup key).getD 0)
      let buckets := shrink c.buckets oldFreq rest
      let least := if buckets.keys = [] then 1 else scanMin buckets
      { c with
        buckets := buckets
        minFrequency :=
          if rest.nodes = [] ∧ oldFreq = c.minFrequency then least else c.minFrequency }

def promote (c : LfuCache Key Val) (key : Key) : LfuCache Key Val :=
  let oldFreq := (c.frequency.lookup key).getD 0
  (c.leave key oldFreq).place key ((oldFreq + 1) % 2 ^ 64)

def forget (c : LfuCache Key Val) (key : Key) : LfuCache Key Val :=
  { c with
    data := c.data.erase key
    frequency := c.frequency.erase key
    iteratorMap := c.iteratorMap.erase key
    size := c.size - 1 }

def remove (c : LfuCache Key Val) : LfuCache Key Val :=
  if c.buckets.keys = [] then c
  else
    let c := { c with minFrequency := c.victimBucket }
    match c.buckets.lookup c.minFrequency with
    | none => c
    | some bucket =>
        match bucket.back? with
        | none => c
        | some key =>
            { c with buckets := shrink c.buckets c.minFrequency bucket.popBack }.forget key

def get (c : LfuCache Key Val) (key : Key) : Option Val × LfuCache Key Val :=
  match c.data.lookup key with
  | none => (none, c)
  | some val => (some val, c.promote key)

def put (c : LfuCache Key Val) (key : Key) (value : Val) : LfuCache Key Val :=
  if c.capacity = 0 then c
  else
    match c.data.lookup key with
    | some _ => { c with data := c.data.insert key value }.promote key
    | none =>
        let c := if c.size ≥ c.capacity then c.remove else c
        let c := { c with data := c.data.insert key value }.place key 1
        { c with minFrequency := 1, size := c.size + 1 }

end LfuCache

end XorOS
