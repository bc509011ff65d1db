import XorOS.Cache.LfuEviction

/- The four containers of an LfuCache name the same keys after any sequence of calls. -/
namespace XorOS
open Runs

namespace LfuCache
variable {Key Val : Type} [DecidableEq Key]

def perform (c : LfuCache Key Val) : LfuCall Key Val → Option Val × LfuCache Key Val
  | .get key => c.get key
  | .put key value => (none, c.put key value)

def run (capacity : Nat) (cs : List (LfuCall Key Val)) : LfuCache Key Val :=
  cs.foldl (fun c call => (c.perform call).2) (.new capacity)

def lastPut (cs : List (LfuCall Key Val)) (key : Key) : Option Val :=
  cs.foldl
    (fun last call =>
      match call with
      | .get _ => last
      | .put k value => if k = key then some value else last) none

theorem lastPut_get (cs : List (LfuCall Key Val)) (k key : Key) :
    lastPut (cs ++ [.get k]) key = lastPut cs key := by
  unfold lastPut
  rw [List.foldl_append]
  rfl

theorem lastPut_put (cs : List (LfuCall Key Val)) (k key : Key) (value : Val) :
    lastPut (cs ++ [.put k value]) key = if k = key then some value else lastPut cs key := by
  unfold lastPut
  rw [List.foldl_append]
  rfl

def KeysAre (c : LfuCache Key Val) (S : Key → Prop) : Prop :=
  ∀ k, (k ∈ c.frequency ↔ S k) ∧ (k ∈ c.iteratorMap ↔ S k)

theorem keys_place {c : LfuCache Key Val} {S : Key → Prop} (keys : KeysAre c S) (key : Key)
    (f : Nat) : KeysAre (c.place key f) fun k => k = key ∨ S k := by
  intro k
  obtain ⟨inFrequency, inIterators⟩ := keys k
  constructor
  · exact (AList.mem_insert c.frequency).trans (or_congr_right inFrequency)
  · exact (AList.mem_insert c.iteratorMap).trans (or_congr_right inIterators)

theorem keys_leave {c : LfuCache Key Val} {S : Key → Prop} (keys : KeysAre c S) (key : Key)
    (f : Nat) : KeysAre (c.leave key f) S := by
  unfold leave
  split
  · exact keys
  · exact keys

theorem keys_promote {c : LfuCache Key Val} {S : Key → Prop} (keys : KeysAre c S) {key : Key}
    (inS : S key) : KeysAre (c.promote key) S := by
  intro k
  have same : k = key ∨ S k ↔ S k :=
    ⟨fun either => either.elim (fun here => here ▸ inS) id, Or.inr⟩
  obtain ⟨inFrequency, inIterators⟩ := keys_place
    (keys_leave keys key ((c.frequency.lookup key).getD 0)) key
    ((((c.frequency.lookup key).getD 0) + 1) % 2 ^ 64) k
  exact ⟨inFrequency.trans same, inIterators.trans same⟩

theorem remove_cases (c : LfuCache Key Val) :
    (∃ least, c.remove = { c with minFrequency := least }) ∨
      ∃ least buckets victim,
        c.remove = { c with minFrequency := least, buckets := buckets }.forget victim := by
  unfold remove
  split
  · exact Or.inl ⟨c.minFrequency, rfl⟩
  simp only
  split
  · exact Or.inl ⟨c.victimBucket, rfl⟩
  split
  · exact Or.inl ⟨c.victimBucket, rfl⟩
  · rename_i victim _
    exact Or.inr ⟨c.victimBucket, _, victim, rfl⟩

theorem keys_remove {c : LfuCache Key Val} (keys : KeysAre c (· ∈ c.data)) :
    KeysAre c.remove (· ∈ c.remove.data) := by
  rcases remove_cases c with ⟨least, removed⟩ | ⟨least, buckets, victim, removed⟩
  · rw [removed]
    exact keys
  · rw [removed]
    intro k
    obtain ⟨inFrequency, inIterators⟩ := keys k
    change (k ∈ c.frequency.erase victim ↔ k ∈ c.data.erase victim) ∧
      (k ∈ c.iteratorMap.erase victim ↔ k ∈ c.data.erase victim)
    rw [AList.mem_erase, AList.mem_erase, AList.mem_erase, inFrequency, inIterators]
    exact ⟨Iff.rfl, Iff.rfl⟩

theorem lookup_remove {c : LfuCache Key Val} {key : Key} {value : Val}
    (found : c.remove.data.lookup key = some value) : c.data.lookup key = some value := by
  rcases remove_cases c with ⟨least, removed⟩ | ⟨least, buckets, victim, removed⟩
  · rw [removed] at found
    exact found
  · rw [removed] at found
    change (c.data.erase victim).lookup key = some value at found
    by_cases same : key = victim
    · rw [same, AList.lookup_erase] at found
      cases found
    · rw [AList.lookup_erase_ne same] at found
      exact found

def makeRoom (c : LfuCache Key Val) : LfuCache Key Val :=
  if c.size ≥ c.capacity then c.remove else c

theorem put_cases (c : LfuCache Key Val) (key : Key) (value : Val) :
    c.capacity = 0 ∧ c.put key value = c ∨
      c.capacity ≠ 0 ∧ (key ∈ c.data ∧
          c.put key value = promote { c with data := c.data.insert key value } key ∨
        key ∉ c.data ∧
          c.put key value = { place { c.makeRoom with data := c.makeRoom.data.insert key value }
            key 1 with minFrequency := 1, size := c.makeRoom.size + 1 }) := by
  unfold put
  split
  · rename_i zero
    exact Or.inl ⟨zero, rfl⟩
  rename_i positive
  refine Or.inr ⟨positive, ?_⟩
  by_cases hit : key ∈ c.data
  · obtain ⟨old, found⟩ := Option.isSome_iff_exists.mp (AList.lookup_isSome.mpr hit)
    rw [found]
    exact Or.inl ⟨hit, rfl⟩
  · rw [AList.lookup_eq_none.mpr hit]
    exact Or.inr ⟨hit, rfl⟩

theorem data_put {c : LfuCache Key Val} (positive : 0 < c.capacity) (key : Key) (value : Val) :
    (c.put key value).data = c.data.insert key value ∨
      (c.put key value).data = c.makeRoom.data.insert key value := by
  rcases put_cases c key value with ⟨zero, _⟩ | ⟨_, ⟨_, put⟩ | ⟨_, put⟩⟩
  · omega
  · rw [put, (promote_data _ key).1]
    exact Or.inl rfl
  · rw [put]
    exact Or.inr rfl

structure Consistent (c : LfuCache Key Val) : Prop where
  frequencyKeys : ∀ k, k ∈ c.frequency ↔ k ∈ c.data
  iteratorKeys : ∀ k, k ∈ c.iteratorMap ↔ k ∈ c.data
  size : c.size = c.data.keys.length
  bounded : c.size ≤ c.capacity
  filed : ∀ k ∈ c.data, ∃ f bucket it, c.frequency.lookup k = some f ∧
    c.buckets.lookup f = some bucket ∧ c.iteratorMap.lookup k = some it ∧
    bucket.get? it = some k
  once : ∀ f bucket, c.buckets.lookup f = some bucket → ∀ k,
    (bucket.nodes.map Prod.snd).count k =
      if k ∈ c.data ∧ c.frequency.lookup k = some f then 1 else 0
  occupied : ∀ f bucket, c.buckets.lookup f = some bucket → bucket.back? ≠ none
  victim : c.buckets.keys ≠ [] → ∃ bucket, c.buckets.lookup c.victimBucket = some bucket

end LfuCache

namespace Tracked
variable {Key Val : Type} [DecidableEq Key]

theorem count_bucket {capacity : Nat} {t : Tracked Key Val} (inv : Inv capacity t) {f : Nat}
    {bucket : IterList Key} (found : t.cache.buckets.lookup f = some bucket) (k : Key) :
    (bucket.nodes.map Prod.snd).count k =
      if k ∈ t.cache.data ∧ t.cache.frequency.lookup k = some f then 1 else 0 := by
  have distinct : (bucket.nodes.map Prod.snd).Nodup := by
    refine List.Nodup.map_on ?_ (List.Nodup.of_map Prod.fst bucket.nodup)
    intro p here q there same
    have pointP := (inv.filed.member f bucket found p here).2.2
    have pointQ := (inv.filed.member f bucket found q there).2.2
    rw [same, pointQ] at pointP
    exact Prod.ext (Option.some.inj pointP).symm same
  have member : k ∈ bucket.nodes.map Prod.snd ↔
      k ∈ t.cache.data ∧ t.cache.frequency.lookup k = some f := by
    rw [List.mem_map]
    constructor
    · rintro ⟨p, here, rfl⟩
      obtain ⟨resident, counted, _⟩ := inv.filed.member f bucket found p here
      exact ⟨resident, by rw [inv.filed.frequency _ resident, counted]⟩
    · rintro ⟨resident, frequency⟩
      obtain ⟨bucket', it, found', _, here⟩ := inv.filed.filed k resident
      rw [inv.filed.frequency k resident] at frequency
      rw [Option.some.inj frequency, found] at found'
      rw [← Option.some.inj found'] at here
      exact ⟨(it, k), here, rfl⟩
  split
  · rename_i resident
    exact List.count_eq_one_of_mem distinct (member.mpr resident)
  · rename_i absent
    exact List.count_eq_zero_of_not_mem (mt member.mp absent)

end Tracked

namespace LfuCache
variable {Key Val : Type} [DecidableEq Key]

structure Sound (capacity : Nat) (cs : List (LfuCall Key Val)) (c : LfuCache Key Val) : Prop where
  tracked : ∃ t : Tracked Key Val, t.cache = c ∧ Tracked.Inv capacity t
  keys : KeysAre c (· ∈ c.data)
  bounded : c.size ≤ capacity
  stored : ∀ k v, c.data.lookup k = some v → lastPut cs k = some v

theorem Sound.capacity {capacity : Nat} {cs : List (LfuCall Key Val)} {c : LfuCache Key Val}
    (sound : Sound capacity cs c) : c.capacity = capacity := by
  obtain ⟨t, rfl, inv⟩ := sound.tracked
  exact inv.capacity

theorem Sound.consistent {capacity : Nat} {cs : List (LfuCall Key Val)} {c : LfuCache Key Val}
    (sound : Sound capacity cs c) : Consistent c := by
  have bounded := sound.bounded
  have keys := sound.keys
  obtain ⟨t, rfl, inv⟩ := sound.tracked
  refine ⟨fun k => (keys k).1, fun k => (keys k).2, inv.size, ?_, ?_, ?_, ?_, ?_⟩
  · rw [inv.capacity]
    exact bounded
  · intro k resident
    obtain ⟨bucket, it, found, pointed, here⟩ := inv.filed.filed k resident
    exact ⟨t.count k, bucket, it, inv.filed.frequency k resident, found, pointed,
      (IterList.get?_eq_some_iff bucket it k).mpr here⟩
  · intro f bucket found
    exact Tracked.count_bucket inv found
  · intro f bucket found
    rw [Ne, IterList.back?_eq_none_iff]
    exact inv.filed.occupied f bucket found
  · intro some
    obtain ⟨f, member⟩ := List.exists_mem_of_ne_nil _ some
    have found := victimBucket_spec (AList.mem_keys.mpr member)
    exact Option.isSome_iff_exists.mp (AList.lookup_isSome.mpr found)

theorem makeRoom_spec {capacity : Nat} (room : 1 ≤ capacity) {cs : List (LfuCall Key Val)}
    {c : LfuCache Key Val} (sound : Sound capacity cs c) :
    c.makeRoom.size < capacity ∧
      ∀ i j, i ∈ c.data → j ∈ c.data → i ∉ c.makeRoom.data → j ∉ c.makeRoom.data → i = j := by
  have bounded := sound.bounded
  obtain ⟨t, rfl, inv⟩ := sound.tracked
  unfold makeRoom
  by_cases full : t.cache.size ≥ t.cache.capacity
  · obtain ⟨victim, removed, _, _⟩ := Tracked.inv_remove room inv full
    rw [if_pos full, removed.size, removed.data]
    rw [inv.capacity] at full
    refine ⟨by omega, ?_⟩
    have isVictim : ∀ k ∈ t.cache.data, k ∉ t.cache.data.erase victim → k = victim := by
      intro k resident gone
      by_contra other
      exact gone (AList.mem_erase.mpr ⟨other, resident⟩)
    intro i j hi hj goneI goneJ
    rw [isVictim i hi goneI, isVictim j hj goneJ]
  · rw [if_neg full]
    rw [inv.capacity] at full
    exact ⟨by omega, fun i j hi _ goneI _ => absurd hi goneI⟩

theorem sound_new (capacity : Nat) : Sound capacity [] (new capacity : LfuCache Key Val) := by
  refine ⟨⟨_, rfl, Tracked.inv_new capacity⟩, ?_, Nat.zero_le _, ?_⟩
  · intro k
    exact ⟨Iff.rfl, Iff.rfl⟩
  · intro k v found
    simp [new] at found

theorem stored_put {c : LfuCache Key Val} {cs : List (LfuCall Key Val)}
    (stored : ∀ k v, c.data.lookup k = some v → lastPut cs k = some v)
    {key : Key} {value : Val} {data : AList fun _ : Key => Val}
    (inserted : data = c.data.insert key value ∨ data = c.makeRoom.data.insert key value) :
    ∀ k v, data.lookup k = some v → lastPut (cs ++ [.put key value]) k = some v := by
  have kept : ∀ k v, c.makeRoom.data.lookup k = some v → c.data.lookup k = some v := by
    intro k v found
    unfold makeRoom at found
    split at found
    · exact lookup_remove found
    · exact found
  intro k v found
  rw [lastPut_put]
  by_cases same : k = key
  · subst same
    rw [if_pos rfl]
    rcases inserted with rfl | rfl
    · rw [AList.lookup_insert] at found
      exact found
    · rw [AList.lookup_insert] at found
      exact found
  · rw [if_neg (Ne.symm same)]
    rcases inserted with rfl | rfl
    · rw [AList.lookup_insert_ne same] at found
      exact stored k v found
    · rw [AList.lookup_insert_ne same] at found
      exact stored k v (kept k v found)

theorem keys_makeRoom {c : LfuCache Key Val} (keys : KeysAre c (· ∈ c.data)) :
    KeysAre c.makeRoom (· ∈ c.makeRoom.data) := by
  unfold makeRoom
  split
  · exact keys_remove keys
  · exact keys

theorem keys_put {c : LfuCache Key Val} (keys : KeysAre c (· ∈ c.data)) (key : Key) (value : Val) :
    KeysAre (c.put key value) (· ∈ (c.put key value).data) := by
  rcases put_cases c key value with ⟨_, put⟩ | ⟨_, ⟨hit, put⟩ | ⟨_, put⟩⟩
  · rw [put]
    exact keys
  · have same (k : Key) : k ∈ c.data.insert key value ↔ k ∈ c.data :=
      (AList.mem_insert c.data).trans
        ⟨fun either => either.elim (fun here => here ▸ hit) id, Or.inr⟩
    have stored : KeysAre { c with data := c.data.insert key value } (· ∈ c.data) := keys
    rw [put]
    intro k
    rw [(promote_data _ key).1]
    obtain ⟨inFrequency, inIterators⟩ := keys_promote stored hit k
    exact ⟨inFrequency.trans (same k).symm, inIterators.trans (same k).symm⟩
  · have stored : KeysAre { c.makeRoom with data := c.makeRoom.data.insert key value }
        (· ∈ c.makeRoom.data) := keys_makeRoom keys
    rw [put]
    intro k
    obtain ⟨inFrequency, inIterators⟩ := keys_place stored key 1 k
    have inserted : k ∈ c.makeRoom.data.insert key value ↔ k = key ∨ k ∈ c.makeRoom.data :=
      AList.mem_insert c.makeRoom.data
    exact ⟨inFrequency.trans inserted.symm, inIterators.trans inserted.symm⟩

theorem size_put {capacity : Nat} (room : 1 ≤ capacity) {cs : List (LfuCall Key Val)}
    {c : LfuCache Key Val} (sound : Sound capacity cs c) (key : Key) (value : Val) :
    (c.put key value).size ≤ capacity := by
  have bounded := sound.bounded
  rcases put_cases c key value with ⟨_, put⟩ | ⟨_, ⟨_, put⟩ | ⟨_, put⟩⟩
  · rw [put]
    exact bounded
  · rw [put, (promote_data _ key).2.1]
    exact bounded
  · rw [put]
    exact (makeRoom_spec room sound).1

/-- Every call keeps the cache in step with a history that tells its accesses. -/
theorem sound_step {capacity : Nat} {cs : List (LfuCall Key Val)} {c : LfuCache Key Val}
    (sound : Sound capacity cs c) (call : LfuCall Key Val) :
    Sound capacity (cs ++ [call]) (c.perform call).2 := by
  obtain ⟨t, same, inv⟩ := sound.tracked
  by_cases room : 1 ≤ capacity
  · have tracked : ∃ t' : Tracked Key Val, t'.cache = (c.perform call).2 ∧
        Tracked.Inv capacity t' := by
      obtain ⟨count, kept, _⟩ := Tracked.inv_call room inv call
      refine ⟨_, ?_, kept⟩
      rw [← same]
      cases call with
      | get key =>
        change (t.after (.get key)).cache = (t.cache.get key).2
        unfold Tracked.after
        simp only
        split
        · rfl
        · rfl
      | put key value => rfl
    cases call with
    | get key =>
      have data : (c.get key).2.data = c.data ∧ (c.get key).2.size = c.size := by
        unfold get
        split
        · exact ⟨rfl, rfl⟩
        · exact ⟨(promote_data c key).1, (promote_data c key).2.1⟩
      refine ⟨tracked, ?_, ?_, ?_⟩
      · change KeysAre (c.get key).2 (· ∈ (c.get key).2.data)
        rw [data.1]
        unfold get
        split
        · exact sound.keys
        · rename_i found
          exact keys_promote sound.keys (AList.lookup_isSome.mp (by rw [found]; rfl))
      · exact Nat.le_trans (Nat.le_of_eq data.2) sound.bounded
      · intro k v found
        change (c.get key).2.data.lookup k = some v at found
        rw [data.1] at found
        rw [lastPut_get]
        exact sound.stored k v found
    | put key value =>
      have positive : 0 < c.capacity := by
        rw [sound.capacity]
        omega
      exact ⟨tracked, keys_put sound.keys key value, size_put room sound key value,
        stored_put sound.stored (data_put positive key value)⟩
  · -- a cache of capacity 0 stays empty
    have empty : c.capacity = 0 := by
      rw [sound.capacity]
      omega
    have none (k : Key) : c.data.lookup k = none := by
      rw [AList.lookup_eq_none]
      intro member
      have bounded := sound.bounded
      have length := List.length_pos_of_mem (AList.mem_keys.mp member)
      rw [sound.consistent.size] at bounded
      omega
    have unchanged : (c.perform call).2 = c := by
      cases call with
      | get key =>
        change (c.get key).2 = c
        unfold get
        rw [none key]
      | put key value =>
        change c.put key value = c
        unfold put
        rw [if_pos empty]
    rw [unchanged]
    refine ⟨sound.tracked, sound.keys, sound.bounded, ?_⟩
    intro k v found
    rw [none k] at found
    cases found

theorem sound_run (capacity : Nat) (cs : List (LfuCall Key Val)) :
    Sound capacity cs (run capacity cs) := by
  induction cs using List.reverseRecOn with
  | nil => exact sound_new capacity
  | append_singleton cs call ih =>
    have last := sound_step ih call
    unfold run at last ⊢
    rw [List.foldl_append]
    exact last

/-- What a cache answers after the calls cs. -/
structure BoundedMap (cs : List (LfuCall Key Val)) (c : LfuCache Key Val) : Prop where
  consistent : Consistent c
  get : ∀ k, (c.get k).1 = if k ∈ c.data then lastPut cs k else none
  put : 0 < c.capacity → ∀ k v, (c.put k v).data.lookup k = some v
  leaves : ∀ k v i j, i ∈ c.data → j ∈ c.data → i ∉ (c.put k v).data → j ∉ (c.put k v).data → i = j

theorem get_stored {cs : List (LfuCall Key Val)} {c : LfuCache Key Val}
    (stored : ∀ k v, c.data.lookup k = some v → lastPut cs k = some v) (key : Key) :
    (c.get key).1 = if key ∈ c.data then lastPut cs key else none := by
  unfold get
  by_cases hit : key ∈ c.data
  · obtain ⟨value, found⟩ := Option.isSome_iff_exists.mp (AList.lookup_isSome.mpr hit)
    rw [if_pos hit, stored key value found, found]
  · rw [if_neg hit, AList.lookup_eq_none.mpr hit]

/-- For every capacity and every sequence of Get and Put, the cache is a bounded map with
    consistent indices. -/
theorem lfu_bounded_map (capacity : Nat) (cs : List (LfuCall Key Val)) :
    (run capacity cs).capacity = capacity ∧ BoundedMap cs (run capacity cs) := by
  have sound := sound_run capacity cs
  refine ⟨sound.capacity, sound.consistent, get_stored sound.stored, ?_, ?_⟩
  · intro positive k v
    rcases data_put positive k v with put | put
    · rw [put, AList.lookup_insert]
    · rw [put, AList.lookup_insert]
  · intro k v i j hi hj goneI goneJ
    rcases put_cases (run capacity cs) k v with ⟨_, put⟩ | ⟨positive, ⟨_, put⟩ | ⟨_, put⟩⟩
    · rw [put] at goneI
      exact absurd hi goneI
    · rw [put, (promote_data _ k).1] at goneI
      exact absurd ((AList.mem_insert _).mpr (Or.inr hi)) goneI
    · rw [sound.capacity] at positive
      rw [put] at goneI goneJ
      refine (makeRoom_spec (by omega) sound).2 i j hi hj ?_ ?_
      · exact fun stays => goneI ((AList.mem_insert _).mpr (Or.inr stays))
      · exact fun stays => goneJ ((AList.mem_insert _).mpr (Or.inr stays))

/-- Key 0 leaves for key 2, and its bucket with it. -/
example : (run 2 [.put 0 5, .put 1 6, .get 1, .put 2 7] : LfuCache Nat Nat).data.keys = [2, 1] := by
  decide

end LfuCache
end XorOS
