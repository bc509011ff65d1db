import XorOS.Cache.LfuCache

/- Which key a full LfuCache evicts, against the counts and times of the accesses made of it. -/
namespace XorOS
open Runs

inductive LfuCall (Key Val : Type) where
  | get (key : Key)
  | put (key : Key) (value : Val)

def LfuCall.key {Key Val : Type} : LfuCall Key Val → Key
  | .get key => key
  | .put key _ => key

/-- A cache with the history of its keys: how often each resident key was accessed since its
    insertion, and which call gave it that count. -/
structure Tracked (Key Val : Type) where
  cache : LfuCache Key Val
  count : Key → Nat
  reached : Key → Nat
  clock : Nat

namespace LfuCache
variable {Key Val : Type}

structure Filed (c : LfuCache Key Val) (count reached : Key → Nat) (S : Key → Prop)
    [DecidableEq Key] : Prop where
  frequency : ∀ k, S k → c.frequency.lookup k = some (count k)
  filed : ∀ k, S k → ∃ l it, c.buckets.lookup (count k) = some l ∧
    c.iteratorMap.lookup k = some it ∧ (it, k) ∈ l.nodes
  member : ∀ f l, c.buckets.lookup f = some l → ∀ p ∈ l.nodes,
    S p.2 ∧ count p.2 = f ∧ c.iteratorMap.lookup p.2 = some p.1
  occupied : ∀ f l, c.buckets.lookup f = some l → l.nodes ≠ []
  recent : ∀ f l, c.buckets.lookup f = some l →
    l.nodes.Pairwise fun p q => reached q.2 < reached p.2

variable [DecidableEq Key] {c c' : LfuCache Key Val} {count reached : Key → Nat}
  {S : Key → Prop}

theorem filed_without (h : Filed c count reached S) {key : Key} {l rest : IterList Key} {it : Nat}
    (found : c.buckets.lookup (count key) = some l) (here : (it, key) ∈ l.nodes)
    (kept : ∀ p, p ∈ rest.nodes ↔ p ∈ l.nodes ∧ p.1 ≠ it) (sub : rest.nodes.Sublist l.nodes)
    (buckets : c'.buckets = shrink c.buckets (count key) rest)
    (frequency : ∀ k, k ≠ key → c'.frequency.lookup k = c.frequency.lookup k)
    (iterators : ∀ k, k ≠ key → c'.iteratorMap.lookup k = c.iteratorMap.lookup k) :
    Filed c' count reached fun k => S k ∧ k ≠ key := by
  have point : c.iteratorMap.lookup key = some it := (h.member _ l found _ here).2.2
  have survives {k : Key} {i : Nat} (old : (i, k) ∈ l.nodes) (other : k ≠ key) :
      (i, k) ∈ rest.nodes := by
    refine (kept _).mpr ⟨old, ?_⟩
    rintro rfl
    have same := IterList.eq_of_mem old here rfl
    exact other (congrArg Prod.snd same)
  refine ⟨?_, ?_, ?_, ?_, ?_⟩
  · rintro k ⟨inS, other⟩
    rw [frequency k other]
    exact h.frequency k inS
  · rintro k ⟨inS, other⟩
    obtain ⟨l', i, bucket, iterator, old⟩ := h.filed k inS
    rw [buckets, iterators k other, lookup_shrink]
    by_cases same : count k = count key
    · rw [same, found] at bucket
      rw [← Option.some.inj bucket] at old
      have stays := survives old other
      rw [if_pos same, if_neg (List.ne_nil_of_mem stays)]
      exact ⟨rest, i, rfl, iterator, stays⟩
    · rw [if_neg same]
      exact ⟨l', i, bucket, iterator, old⟩
  · intro f l' bucket p here'
    rw [buckets, lookup_shrink] at bucket
    have old : ∃ l₀, c.buckets.lookup f = some l₀ ∧ p ∈ l₀.nodes ∧ (f = count key → p.1 ≠ it) := by
      split at bucket
      · rename_i same
        split at bucket
        · simp at bucket
        rw [← Option.some.inj bucket] at here'
        obtain ⟨old, ne⟩ := (kept p).mp here'
        exact ⟨l, same ▸ found, old, fun _ => ne⟩
      · rename_i other
        exact ⟨l', bucket, here', fun same => absurd same other⟩
    obtain ⟨l₀, bucket₀, old, ne⟩ := old
    obtain ⟨inS, counted, iterator⟩ := h.member f l₀ bucket₀ p old
    have other : p.2 ≠ key := by
      intro same
      rw [same, point] at iterator
      rw [same] at counted
      exact ne counted.symm (Option.some.inj iterator).symm
    exact ⟨⟨inS, other⟩, counted, (iterators _ other).trans iterator⟩
  · intro f l' bucket
    rw [buckets, lookup_shrink] at bucket
    split at bucket
    · split at bucket
      · simp at bucket
      · rename_i some
        rw [← Option.some.inj bucket]
        exact some
    · exact h.occupied f l' bucket
  · intro f l' bucket
    rw [buckets, lookup_shrink] at bucket
    split at bucket
    · split at bucket
      · simp at bucket
      · rw [← Option.some.inj bucket]
        exact (h.recent _ l found).sublist sub
    · exact h.recent f l' bucket

theorem filed_leave (h : Filed c count reached S) {key : Key} (inS : S key) :
    Filed (c.leave key (count key)) count reached fun k => S k ∧ k ≠ key := by
  obtain ⟨l, it, bucket, iterator, here⟩ := h.filed key inS
  have pointed : (c.iteratorMap.lookup key).getD 0 = it := by
    rw [iterator]
    rfl
  unfold leave
  simp only [bucket, pointed]
  exact filed_without h bucket here (IterList.mem_erase l it) List.filter_sublist rfl
    (fun k _ => rfl) fun k _ => rfl

theorem filed_place (h : Filed c count reached S) {key : Key} (absent : ¬S key) {now : Nat}
    (past : ∀ k, S k → reached k < now) (f : Nat) :
    Filed (c.place key f) (Function.update count key f) (Function.update reached key now)
      fun k => k = key ∨ S k := by
  have other {k : Key} (inS : S k) : k ≠ key := by
    rintro rfl
    exact absent inS
  have buckets (g : Nat) : (c.place key f).buckets.lookup g =
      if g = f then some (((c.buckets.lookup f).getD .empty).pushFront key)
      else c.buckets.lookup g := by
    unfold place
    by_cases same : g = f
    · rw [if_pos same, same]
      exact AList.lookup_insert _
    · rw [if_neg same]
      exact AList.lookup_insert_ne same
  have frequency {k : Key} (ne : k ≠ key) :
      (c.place key f).frequency.lookup k = c.frequency.lookup k := AList.lookup_insert_ne ne
  have iterators {k : Key} (ne : k ≠ key) :
      (c.place key f).iteratorMap.lookup k = c.iteratorMap.lookup k := AList.lookup_insert_ne ne
  have iterator : (c.place key f).iteratorMap.lookup key =
      some ((c.buckets.lookup f).getD .empty).fresh := AList.lookup_insert _
  -- what the bucket of f held before
  have old {p : Nat × Key} (before : p ∈ ((c.buckets.lookup f).getD .empty).nodes) :
      S p.2 ∧ count p.2 = f ∧ c.iteratorMap.lookup p.2 = some p.1 := by
    cases bucket : c.buckets.lookup f with
    | none =>
      rw [bucket] at before
      exact absurd before List.not_mem_nil
    | some l =>
      rw [bucket] at before
      exact h.member f l bucket p before
  refine ⟨?_, ?_, ?_, ?_, ?_⟩
  · rintro k (rfl | inS)
    · rw [Function.update_self]
      exact AList.lookup_insert _
    · rw [Function.update_of_ne (other inS), frequency (other inS)]
      exact h.frequency k inS
  · rintro k (rfl | inS)
    · rw [Function.update_self, buckets, if_pos rfl]
      exact ⟨_, _, rfl, iterator, List.mem_cons_self⟩
    · obtain ⟨l, i, bucket, pointed, here⟩ := h.filed k inS
      rw [Function.update_of_ne (other inS), buckets, iterators (other inS)]
      by_cases same : count k = f
      · rw [if_pos same]
        rw [same] at bucket
        refine ⟨_, i, rfl, pointed, List.mem_cons_of_mem _ ?_⟩
        rw [bucket]
        exact here
      · rw [if_neg same]
        exact ⟨l, i, bucket, pointed, here⟩
  · intro g l bucket p here
    rw [buckets] at bucket
    split at bucket
    · rename_i same
      rw [← Option.some.inj bucket, IterList.nodes_pushFront] at here
      rcases List.mem_cons.mp here with rfl | before
      · exact ⟨Or.inl rfl, by rw [Function.update_self, same], iterator⟩
      · obtain ⟨inS, counted, pointed⟩ := old before
        refine ⟨Or.inr inS, ?_, ?_⟩
        · rw [Function.update_of_ne (other inS), counted, same]
        · rw [iterators (other inS)]
          exact pointed
    · obtain ⟨inS, counted, pointed⟩ := h.member g l bucket p here
      refine ⟨Or.inr inS, ?_, ?_⟩
      · rw [Function.update_of_ne (other inS)]
        exact counted
      · rw [iterators (other inS)]
        exact pointed
  · intro g l bucket
    rw [buckets] at bucket
    split at bucket
    · rw [← Option.some.inj bucket]
      exact List.cons_ne_nil _ _
    · exact h.occupied g l bucket
  · have unmoved {l : List (Nat × Key)} (inS : ∀ p ∈ l, S p.2)
        (sorted : l.Pairwise fun p q => reached q.2 < reached p.2) :
        l.Pairwise fun p q => Function.update reached key now q.2 <
          Function.update reached key now p.2 := by
      refine sorted.imp_of_mem fun hp hq lt => ?_
      rw [Function.update_of_ne (other (inS _ hp)), Function.update_of_ne (other (inS _ hq))]
      exact lt
    intro g l bucket
    rw [buckets] at bucket
    split at bucket
    · rw [← Option.some.inj bucket, IterList.nodes_pushFront, List.pairwise_cons]
      constructor
      · intro p before
        rw [Function.update_self, Function.update_of_ne (other (old before).1)]
        exact past _ (old before).1
      · refine unmoved (fun p before => (old before).1) ?_
        cases bucket' : c.buckets.lookup f with
        | none => exact List.Pairwise.nil
        | some l' => exact h.recent f l' bucket'
    · exact unmoved (fun p here => (h.member g l bucket p here).1) (h.recent g l bucket)

theorem filed_congr {T : Key → Prop} (h : Filed c count reached S) (same : ∀ k, T k ↔ S k)
    (frequency : c'.frequency = c.frequency) (iterators : c'.iteratorMap = c.iteratorMap)
    (buckets : c'.buckets = c.buckets) : Filed c' count reached T := by
  have sets : T = S := funext fun k => propext (same k)
  subst sets
  refine ⟨?_, ?_, ?_, ?_, ?_⟩
  · rw [frequency]; exact h.frequency
  · rw [buckets, iterators]; exact h.filed
  · rw [buckets, iterators]; exact h.member
  · rw [buckets]; exact h.occupied
  · rw [buckets]; exact h.recent

theorem leave_data (c : LfuCache Key Val) (key : Key) (f : Nat) :
    (c.leave key f).data = c.data ∧ (c.leave key f).size = c.size ∧
      (c.leave key f).capacity = c.capacity := by
  unfold leave
  split
  · exact ⟨rfl, rfl, rfl⟩
  · exact ⟨rfl, rfl, rfl⟩

theorem promote_data (c : LfuCache Key Val) (key : Key) :
    (c.promote key).data = c.data ∧ (c.promote key).size = c.size ∧
      (c.promote key).capacity = c.capacity :=
  leave_data c key _

theorem filed_promote (h : Filed c count reached S) {key : Key} (inS : S key) {now : Nat}
    (past : ∀ k, S k → reached k < now) :
    Filed (c.promote key) (Function.update count key ((count key + 1) % 2 ^ 64))
      (Function.update reached key now) S := by
  have old : (c.frequency.lookup key).getD 0 = count key := by
    rw [h.frequency key inS]
    rfl
  have placed := filed_place (filed_leave h inS) (fun out => out.2 rfl)
    (fun k out => past k out.1) ((count key + 1) % 2 ^ 64)
  unfold promote
  simp only [old]
  refine filed_congr placed (fun k => ?_) rfl rfl rfl
  by_cases same : k = key
  · simp [same, inS]
  · simp [same]

structure Removed (c : LfuCache Key Val) (count reached : Key → Nat) (victim : Key) : Prop where
  resident : victim ∈ c.data
  bucket : count victim = c.victimBucket
  first : ∀ k ∈ c.data, count k = count victim → reached victim ≤ reached k
  data : c.remove.data = c.data.erase victim
  size : c.remove.size = c.size - 1
  capacity : c.remove.capacity = c.capacity
  rest : Filed c.remove count reached fun k => k ∈ c.data ∧ k ≠ victim

theorem removed_of_filed (h : Filed c count reached (· ∈ c.data)) {k : Key} (some : k ∈ c.data) :
    ∃ victim, Removed c count reached victim := by
  obtain ⟨_, _, bucket, _, _⟩ := h.filed k some
  have occupied : count k ∈ c.buckets := AList.lookup_isSome.mp (by rw [bucket]; rfl)
  have keys : c.buckets.keys ≠ [] := List.ne_nil_of_mem (AList.mem_keys.mp occupied)
  obtain ⟨l, found⟩ := Option.isSome_iff_exists.mp
    (AList.lookup_isSome.mpr (victimBucket_spec occupied))
  obtain ⟨victim, back⟩ := Option.ne_none_iff_exists'.mp
    (mt (IterList.back?_eq_none_iff l).mp (h.occupied _ l found))
  obtain ⟨it, last⟩ := IterList.back?_eq_some back
  have here : (it, victim) ∈ l.nodes := List.mem_of_getLast? last
  obtain ⟨resident, counted, _⟩ := h.member _ l found _ here
  have removed : c.remove = { c with
      minFrequency := c.victimBucket
      buckets := shrink c.buckets c.victimBucket l.popBack }.forget victim := by
    unfold remove
    simp only [keys, if_false, found, back]
  refine ⟨victim, resident, counted, ?_, ?_, ?_, ?_, ?_⟩
  · intro j inData same
    obtain ⟨l', i, bucket', _, here'⟩ := h.filed j inData
    rw [same, counted, found] at bucket'
    rw [← Option.some.inj bucket', ← List.dropLast_append_getLast? _ last, List.mem_append,
      List.mem_singleton] at here'
    have sorted := h.recent _ l found
    rw [← List.dropLast_append_getLast? _ last, List.pairwise_append] at sorted
    rcases here' with earlier | isLast
    · exact Nat.le_of_lt (sorted.2.2 _ earlier _ List.mem_cons_self)
    · rw [Prod.mk.injEq] at isLast
      rw [isLast.2]
  · rw [removed]
    rfl
  · rw [removed]
    rfl
  · rw [removed]
    rfl
  · rw [← counted] at found removed
    rw [removed]
    exact filed_without h found here (IterList.mem_popBack last) (List.dropLast_sublist _) rfl
      (fun j ne => AList.lookup_erase_ne ne) fun j ne => AList.lookup_erase_ne ne

end LfuCache

namespace Tracked
variable {Key Val : Type} [DecidableEq Key]

def after (t : Tracked Key Val) : LfuCall Key Val → Tracked Key Val
  | .get key =>
      if key ∈ t.cache.data then
        { cache := (t.cache.get key).2
          count := Function.update t.count key (t.count key + 1)
          reached := Function.update t.reached key t.clock
          clock := t.clock + 1 }
      else { t with cache := (t.cache.get key).2, clock := t.clock + 1 }
  | .put key value =>
      { cache := t.cache.put key value
        count := Function.update t.count key (if key ∈ t.cache.data then t.count key + 1 else 1)
        reached := Function.update t.reached key t.clock
        clock := t.clock + 1 }

def calls (Key Val : Type) [DecidableEq Key] (capacity : Nat) :
    System (Tracked Key Val) (LfuCall Key Val) where
  init t := t = ⟨.new capacity, fun _ => 0, fun _ => 0, 0⟩
  step t c t' := t' = t.after c

def NoWrap (t : Tracked Key Val) (c : LfuCall Key Val) : Prop :=
  c.key ∈ t.cache.data → t.count c.key + 1 < 2 ^ 64

structure Inv (capacity : Nat) (t : Tracked Key Val) : Prop where
  capacity : t.cache.capacity = capacity
  size : t.cache.size = t.cache.data.keys.length
  past : ∀ k ∈ t.cache.data, t.reached k < t.clock
  filed : LfuCache.Filed t.cache t.count t.reached (· ∈ t.cache.data)

theorem inv_new (capacity : Nat) :
    Inv capacity (⟨.new capacity, fun _ => 0, fun _ => 0, 0⟩ : Tracked Key Val) := by
  refine ⟨rfl, rfl, fun k member => absurd member (AList.notMem_empty k), ?_⟩
  refine ⟨fun k member => absurd member (AList.notMem_empty k),
    fun k member => absurd member (AList.notMem_empty k), ?_, ?_, ?_⟩
  · intro f l found
    exact absurd found (by simp [LfuCache.new])
  · intro f l found
    exact absurd found (by simp [LfuCache.new])
  · intro f l found
    exact absurd found (by simp [LfuCache.new])

theorem inv_hit {capacity : Nat} {t : Tracked Key Val} (inv : Inv capacity t) {key : Key}
    (hit : key ∈ t.cache.data) {c : LfuCache Key Val}
    (data : ∀ k, k ∈ c.data ↔ k ∈ t.cache.data) (keys : c.data.keys.length = c.size)
    (same : c.capacity = t.cache.capacity) (frequency : c.frequency = t.cache.frequency)
    (iterators : c.iteratorMap = t.cache.iteratorMap) (buckets : c.buckets = t.cache.buckets) :
    Inv capacity ⟨c.promote key, Function.update t.count key ((t.count key + 1) % 2 ^ 64),
      Function.update t.reached key t.clock, t.clock + 1⟩ := by
  obtain ⟨kept, size, cap⟩ := LfuCache.promote_data c key
  have filed : LfuCache.Filed c t.count t.reached (· ∈ c.data) :=
    LfuCache.filed_congr inv.filed data frequency iterators buckets
  refine ⟨?_, ?_, ?_, ?_⟩
  · exact cap.trans (same.trans inv.capacity)
  · change (c.promote key).size = (c.promote key).data.keys.length
    rw [kept, size, keys]
  · intro k member
    change k ∈ (c.promote key).data at member
    rw [kept, data] at member
    change Function.update t.reached key t.clock k < t.clock + 1
    have past := inv.past k member
    rw [Function.update_apply]
    split
    · omega
    · omega
  · change LfuCache.Filed (c.promote key) _ _ (· ∈ (c.promote key).data)
    rw [kept]
    exact LfuCache.filed_promote filed ((data key).mpr hit)
      (fun k member => inv.past k ((data k).mp member))

theorem inv_insert {capacity : Nat} {t : Tracked Key Val} {c : LfuCache Key Val} {key : Key}
    (absent : key ∉ c.data) (cap : c.capacity = capacity) (size : c.size = c.data.keys.length)
    (past : ∀ k ∈ c.data, t.reached k < t.clock)
    (filed : LfuCache.Filed c t.count t.reached (· ∈ c.data)) (value : Val) :
    Inv capacity
      ⟨{ { c with data := c.data.insert key value }.place key 1 with
          minFrequency := 1, size := c.size + 1 },
        Function.update t.count key 1, Function.update t.reached key t.clock, t.clock + 1⟩ := by
  refine ⟨cap, ?_, ?_, ?_⟩
  · change c.size + 1 = (c.data.insert key value).keys.length
    rw [AList.keys_insert, List.erase_of_not_mem (mt AList.mem_keys.mpr absent), size]
    rfl
  · intro k member
    change k ∈ c.data.insert key value at member
    change Function.update t.reached key t.clock k < t.clock + 1
    rw [Function.update_apply]
    split
    · omega
    · rename_i other
      have old := ((AList.mem_insert c.data).mp member).resolve_left other
      have before := past k old
      omega
  · have stored : LfuCache.Filed { c with data := c.data.insert key value } t.count t.reached
        (· ∈ c.data) := LfuCache.filed_congr filed (fun k => Iff.rfl) rfl rfl rfl
    have placed := LfuCache.filed_place stored absent past 1
    exact LfuCache.filed_congr placed (fun k => AList.mem_insert c.data) rfl rfl rfl

theorem inv_remove {capacity : Nat} (room : 1 ≤ capacity) {t : Tracked Key Val}
    (inv : Inv capacity t) (full : t.cache.size ≥ t.cache.capacity) :
    ∃ victim, LfuCache.Removed t.cache t.count t.reached victim ∧
      t.cache.remove.size = t.cache.remove.data.keys.length ∧
      LfuCache.Filed t.cache.remove t.count t.reached (· ∈ t.cache.remove.data) := by
  have some : t.cache.data.keys ≠ [] := by
    intro none
    have size := inv.size
    rw [none, List.length_nil] at size
    rw [inv.capacity, size] at full
    omega
  obtain ⟨k, member⟩ := List.exists_mem_of_ne_nil _ some
  obtain ⟨victim, removed⟩ := LfuCache.removed_of_filed inv.filed (AList.mem_keys.mpr member)
  refine ⟨victim, removed, ?_, ?_⟩
  · rw [removed.size, removed.data, AList.keys_erase, inv.size]
    exact (List.length_erase_of_mem (AList.mem_keys.mp removed.resident)).symm
  · refine LfuCache.filed_congr removed.rest (fun k => ?_) rfl rfl rfl
    rw [removed.data, AList.mem_erase]
    exact and_comm

theorem put_absent {capacity : Nat} (room : 1 ≤ capacity) {t : Tracked Key Val}
    (inv : Inv capacity t) {key : Key} (absent : key ∉ t.cache.data) (value : Val) :
    t.cache.put key value =
      let c := if t.cache.size ≥ t.cache.capacity then t.cache.remove else t.cache
      { { c with data := c.data.insert key value }.place key 1 with
        minFrequency := 1, size := c.size + 1 } := by
  have positive : t.cache.capacity ≠ 0 := by
    rw [inv.capacity]
    omega
  unfold LfuCache.put
  rw [if_neg positive, AList.lookup_eq_none.mpr absent]
  rfl

/-- A call keeps the invariant, with the counts as a size_t stores them. -/
theorem inv_call {capacity : Nat} (room : 1 ≤ capacity) {t : Tracked Key Val}
    (inv : Inv capacity t) (c : LfuCall Key Val) :
    ∃ count, Inv capacity { t.after c with count := count } ∧
      (NoWrap t c → count = (t.after c).count) := by
  have later : ∀ k ∈ t.cache.data, t.reached k < t.clock + 1 := by
    intro k member
    have before := inv.past k member
    omega
  cases c with
  | get key =>
    unfold after LfuCache.get
    simp only
    by_cases hit : key ∈ t.cache.data
    · obtain ⟨val, found⟩ := Option.isSome_iff_exists.mp (AList.lookup_isSome.mpr hit)
      simp only [hit, if_true, found]
      refine ⟨_, inv_hit inv hit (fun k => Iff.rfl) inv.size.symm rfl rfl rfl rfl, ?_⟩
      intro small
      have below : t.count key + 1 < 2 ^ 64 := small hit
      rw [Nat.mod_eq_of_lt below]
    · simp only [hit, if_false, AList.lookup_eq_none.mpr hit]
      exact ⟨t.count, ⟨inv.capacity, inv.size, later, inv.filed⟩, fun _ => rfl⟩
  | put key value =>
    unfold after
    simp only
    by_cases hit : key ∈ t.cache.data
    · obtain ⟨val, found⟩ := Option.isSome_iff_exists.mp (AList.lookup_isSome.mpr hit)
      have positive : t.cache.capacity ≠ 0 := by
        rw [inv.capacity]
        omega
      unfold LfuCache.put
      simp only [hit, if_true, if_neg positive, found]
      refine ⟨_, inv_hit inv hit (fun k => ?_) ?_ rfl rfl rfl rfl, ?_⟩
      · rw [AList.mem_insert]
        refine ⟨fun either => either.elim (fun same => same ▸ hit) id, Or.inr⟩
      · change (t.cache.data.insert key value).keys.length = t.cache.size
        have some := List.length_pos_of_mem (AList.mem_keys.mp hit)
        rw [AList.keys_insert, List.length_cons, inv.size,
          List.length_erase_of_mem (AList.mem_keys.mp hit)]
        omega
      · intro small
        have below : t.count key + 1 < 2 ^ 64 := small hit
        rw [Nat.mod_eq_of_lt below]
    · rw [put_absent room inv hit]
      simp only [hit, if_false]
      refine ⟨Function.update t.count key 1, ?_, fun _ => rfl⟩
      by_cases full : t.cache.size ≥ t.cache.capacity
      · obtain ⟨victim, removed, size, filed⟩ := inv_remove room inv full
        have subset : ∀ k ∈ t.cache.remove.data, k ∈ t.cache.data := by
          intro k member
          rw [removed.data, AList.mem_erase] at member
          exact member.2
        simp only [full, if_true]
        exact inv_insert (fun back => hit (subset key back)) (removed.capacity.trans inv.capacity)
          size (fun k member => inv.past k (subset k member)) filed value
      · simp only [full, if_false]
        exact inv_insert hit inv.capacity inv.size inv.past inv.filed value

theorem inv_after {capacity : Nat} (room : 1 ≤ capacity) {t : Tracked Key Val}
    (inv : Inv capacity t) {c : LfuCall Key Val} (small : NoWrap t c) :
    Inv capacity (t.after c) := by
  obtain ⟨count, kept, same⟩ := inv_call room inv c
  rw [same small] at kept
  exact kept

/-- The least frequently used key, and among those the one that reached its count first. -/
def LeastFrequent (t : Tracked Key Val) (victim : Key) : Prop :=
  victim ∈ t.cache.data ∧ ∀ k ∈ t.cache.data,
    t.count victim < t.count k ∨ t.count victim = t.count k ∧ t.reached victim ≤ t.reached k

/-- A Put of an absent key evicts that key and keeps the others. -/
def EvictionLaw (t : Tracked Key Val) (key : Key) (value : Val) : Prop :=
  ∃ victim, LeastFrequent t victim ∧
    ∀ k, k ∈ (t.cache.put key value).data ↔ k = key ∨ k ∈ t.cache.data ∧ k ≠ victim

/-- In every run of Get and Put in which no count wraps, a Put of an absent key into a full cache
    obeys the eviction law exactly if min_frequency_ is current. -/
theorem eviction_law_iff {capacity : Nat} (room : 1 ≤ capacity) {t : Tracked Key Val}
    (reached : ((calls Key Val capacity).restrict NoWrap).Reachable t) {key : Key}
    (absent : key ∉ t.cache.data) (full : t.cache.size ≥ t.cache.capacity) (value : Val) :
    EvictionLaw t key value ↔ t.cache.MinCurrent := by
  have inv : Inv capacity t := by
    refine reached.invariant (Inv capacity) ?_ ?_
    · rintro _ rfl
      exact inv_new capacity
    · rintro t c _ inv ⟨rfl, small⟩
      exact inv_after room inv small
  obtain ⟨victim, removed, _, _⟩ := inv_remove room inv full
  have evicted : ∀ k, k ∈ (t.cache.put key value).data ↔
      k = key ∨ k ∈ t.cache.data ∧ k ≠ victim := by
    intro k
    rw [put_absent room inv absent]
    simp only [full, if_true]
    change k ∈ t.cache.remove.data.insert key value ↔ _
    rw [AList.mem_insert, removed.data, AList.mem_erase, and_comm]
  have bucketOf {k : Key} (member : k ∈ t.cache.data) : t.count k ∈ t.cache.buckets := by
    obtain ⟨l, _, found, _, _⟩ := inv.filed.filed k member
    exact AList.lookup_isSome.mp (by rw [found]; rfl)
  rw [← LfuCache.victimBucket_least_iff (bucketOf removed.resident), ← removed.bucket]
  constructor
  · rintro ⟨victim', least, evicted'⟩ f member
    -- both victims are the one resident key that the put drops
    have same : victim' = victim := by
      by_contra other
      have stays := (evicted victim').mpr (Or.inr ⟨least.1, other⟩)
      rcases (evicted' victim').mp stays with isKey | ⟨_, ne⟩
      · exact absent (isKey ▸ least.1)
      · exact ne rfl
    subst same
    obtain ⟨l, found⟩ := Option.isSome_iff_exists.mp (AList.lookup_isSome.mpr member)
    obtain ⟨p, here⟩ := List.exists_mem_of_ne_nil _ (inv.filed.occupied f l found)
    obtain ⟨resident, counted, _⟩ := inv.filed.member f l found p here
    rcases least.2 p.2 resident with lt | ⟨eq, _⟩
    · omega
    · omega
  · intro least
    refine ⟨victim, ⟨removed.resident, fun k member => ?_⟩, evicted⟩
    rcases Nat.lt_or_eq_of_le (least _ (bucketOf member)) with lt | eq
    · exact Or.inl lt
    · exact Or.inr ⟨eq, removed.first k member eq.symm⟩

def run (capacity : Nat) (cs : List (LfuCall Key Val)) : Tracked Key Val :=
  cs.foldl after ⟨.new capacity, fun _ => 0, fun _ => 0, 0⟩

theorem run_snoc (capacity : Nat) (cs : List (LfuCall Key Val)) (c : LfuCall Key Val) :
    run capacity (cs ++ [c]) = (run capacity cs).after c := by
  unfold run
  rw [List.foldl_append]
  rfl

theorem count_after_le {t : Tracked Key Val} {bound : Nat} (small : ∀ k, t.count k ≤ bound)
    (c : LfuCall Key Val) (k : Key) : (t.after c).count k ≤ bound + 1 := by
  have before := small k
  cases c with
  | get key =>
    unfold after
    simp only
    split
    · simp only [Function.update_apply]
      split
      · rename_i same
        rw [← same]
        omega
      · omega
    · simp only
      omega
  | put key value =>
    unfold after
    simp only [Function.update_apply]
    split
    · rename_i same
      rw [← same]
      split
      · omega
      · omega
    · omega

theorem run_reachable {capacity : Nat} {cs : List (LfuCall Key Val)} (short : cs.length < 2 ^ 64) :
    ((calls Key Val capacity).restrict NoWrap).Reachable (run capacity cs) ∧
      ∀ k, (run capacity cs).count k ≤ cs.length := by
  induction cs using List.reverseRecOn with
  | nil => exact ⟨.of_init rfl, fun k => Nat.le_refl 0⟩
  | append_singleton cs c ih =>
    rw [List.length_append, List.length_singleton] at short ⊢
    obtain ⟨reached, small⟩ := ih (by omega)
    rw [run_snoc]
    refine ⟨reached.next ⟨rfl, fun _ => ?_⟩, count_after_le small c⟩
    have before := small c.key
    omega

def favourite : List (LfuCall Nat Nat) := [.put 0 0, .put 1 1, .get 1, .get 1, .get 1]

/-- Key 0, used once, leaves for key 2. -/
theorem eviction_law_iff_favourite : EvictionLaw (run 2 favourite) 2 2 := by
  have current : (run 2 favourite).cache.MinCurrent := by
    intro _ f member
    have bound : ∀ f ∈ (run 2 favourite).cache.buckets.keys,
        (run 2 favourite).cache.minFrequency ≤ f := by decide
    exact bound f member
  exact (eviction_law_iff (by decide) (run_reachable (by decide)).1 (by decide) (by decide) 2).mpr
    current

/-- One more access gives key 0 the count 2, against 4 for key 1, and key 1 leaves. -/
theorem frequent_key_evicted :
    let t := run 2 (favourite ++ [.get 0])
    (calls Nat Nat 2).Reachable t ∧ t.cache.size = 2 ∧ 2 ∉ t.cache.data ∧
      t.count 0 = 2 ∧ t.count 1 = 4 ∧ 1 ∉ (t.cache.put 2 2).data ∧ ¬EvictionLaw t 2 2 := by
  intro t
  have reached : (calls Nat Nat 2).Reachable t := (run_reachable (by decide)).1.of_restrict
  have gone : 1 ∉ (t.cache.put 2 2).data := by decide
  refine ⟨reached, by decide, by decide, by decide, by decide, gone, ?_⟩
  rintro ⟨victim, least, evicted⟩
  have isOne : victim = 1 := by
    by_contra other
    exact gone ((evicted 1).mpr (Or.inr ⟨by decide, Ne.symm other⟩))
  subst isOne
  have unfair := least.2 0 (by decide)
  revert unfair
  decide

end Tracked

end XorOS
