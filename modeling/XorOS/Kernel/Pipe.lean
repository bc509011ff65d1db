import Mathlib.Tactic
import XorOS.Library.Ring
import XorOS.Library.Runs

/- pipe.c: the ring buffer of a pipe. size is PIPE_SIZE, and an access past the end of buf is
   undefined. -/
namespace XorOS.Kernel
open Runs

structure Pipe (size : Nat) where
  buf : Fin size → BitVec 8
  readPos : BitVec 32
  writePos : BitVec 32
  count : BitVec 32

namespace Pipe
variable {size : Nat}

def init (p : Pipe size) : Pipe size :=
  { p with readPos := 0#32, writePos := 0#32, count := 0#32 }

def index (i : BitVec 32) : Option (Fin size) :=
  if inside : i.toNat < size then some ⟨i.toNat, inside⟩ else none

def write (p : Pipe size) (byte : BitVec 8) : Option (Int × Pipe size) :=
  if p.count = BitVec.ofNat 32 size then some (-1, p)
  else do
    let i ← index p.writePos
    some (0, { p with
      buf := Function.update p.buf i byte
      writePos := (p.writePos + 1#32) % BitVec.ofNat 32 size
      count := p.count + 1#32 })

def read (p : Pipe size) (out : BitVec 8) : Option (Int × BitVec 8 × Pipe size) :=
  if p.count = 0#32 then some (-1, out, p)
  else do
    let i ← index p.readPos
    some (0, p.buf i, { p with
      readPos := (p.readPos + 1#32) % BitVec.ofNat 32 size
      count := p.count - 1#32 })

/-- A call, with the byte that *out holds before a read. -/
inductive Call where
  | write (byte : BitVec 8)
  | read (out : BitVec 8)
deriving DecidableEq

/-- What a call returns, and the byte that *out holds after a read. -/
structure Answer where
  ret : Int
  out : BitVec 8
deriving DecidableEq

def perform (p : Pipe size) : Call → Option (Answer × Pipe size)
  | .write byte => (p.write byte).map fun done => (⟨done.1, byte⟩, done.2)
  | .read out => (p.read out).map fun done => (⟨done.1, done.2.1⟩, done.2.2)

def accepted : List (Call × Answer) → List (BitVec 8)
  | [] => []
  | (.write byte, a) :: rest => if a.ret = 0 then byte :: accepted rest else accepted rest
  | (.read _, _) :: rest => accepted rest

def taken : List (Call × Answer) → List (BitVec 8)
  | [] => []
  | (.write _, _) :: rest => taken rest
  | (.read _, a) :: rest => if a.ret = 0 then a.out :: taken rest else taken rest

theorem accepted_append (first rest : List (Call × Answer)) :
    accepted (first ++ rest) = accepted first ++ accepted rest := by
  induction first with
  | nil => rfl
  | cons entry first ih =>
    obtain ⟨call, a⟩ := entry
    cases call with
    | write byte =>
      simp only [List.cons_append, accepted, ih]
      split
      · rfl
      · rfl
    | read out => simpa only [List.cons_append, accepted] using ih

theorem taken_append (first rest : List (Call × Answer)) :
    taken (first ++ rest) = taken first ++ taken rest := by
  induction first with
  | nil => rfl
  | cons entry first ih =>
    obtain ⟨call, a⟩ := entry
    cases call with
    | write byte => simpa only [List.cons_append, taken] using ih
    | read out =>
      simp only [List.cons_append, taken, ih]
      split
      · rfl
      · rfl

section Ring
variable [NeZero size]

/-- The ring holds the bytes pending, oldest first. -/
structure Holds (p : Pipe size) (pending : List (BitVec 8)) : Prop where
  count : p.count.toNat = pending.length
  bounded : pending.length ≤ size
  readPos : p.readPos.toNat < size
  writePos : p.writePos.toNat = (p.readPos.toNat + pending.length) % size
  cells : Ring.segment p.buf p.readPos.toNat pending.length = pending

theorem Holds.writePos_lt {p : Pipe size} {pending : List (BitVec 8)} (holds : Holds p pending) :
    p.writePos.toNat < size := by
  rw [holds.writePos]
  exact Nat.mod_lt _ (Nat.pos_of_neZero size)

theorem index_of_lt {i : BitVec 32} (inside : i.toNat < size) :
    index i = some (Fin.ofNat size i.toNat) := by
  unfold index
  rw [dif_pos inside]
  congr 1
  apply Fin.ext
  simp [Nat.mod_eq_of_lt inside]

theorem holds_init (p : Pipe size) : Holds p.init [] := by
  have positive := Nat.pos_of_neZero size
  refine ⟨rfl, Nat.zero_le _, positive, ?_, rfl⟩
  change 0 = (0 + 0) % size
  rw [Nat.mod_eq_of_lt positive]

variable (fits : size < 2 ^ 32)
include fits

omit [NeZero size] in
theorem toNat_advance {i : BitVec 32} (inside : i.toNat < size) :
    ((i + 1#32) % BitVec.ofNat 32 size).toNat = (i.toNat + 1) % size := by
  have modulus : (BitVec.ofNat 32 size).toNat = size := by
    rw [BitVec.toNat_ofNat]
    exact Nat.mod_eq_of_lt fits
  have next : (i + 1#32).toNat = i.toNat + 1 := by
    rw [BitVec.toNat_add]
    exact Nat.mod_eq_of_lt (by change i.toNat + 1 < 2 ^ 32; omega)
  rw [BitVec.toNat_umod, modulus, next]

theorem full_iff {p : Pipe size} {pending : List (BitVec 8)} (holds : Holds p pending) :
    p.count = BitVec.ofNat 32 size ↔ pending.length = size := by
  rw [← BitVec.toNat_inj, BitVec.toNat_ofNat, Nat.mod_eq_of_lt fits, holds.count]

omit fits in
theorem empty_iff {p : Pipe size} {pending : List (BitVec 8)} (holds : Holds p pending) :
    p.count = 0#32 ↔ pending = [] := by
  rw [← BitVec.toNat_inj, holds.count]
  exact List.length_eq_zero_iff

theorem write_full {p : Pipe size} {pending : List (BitVec 8)} (holds : Holds p pending)
    (full : pending.length = size) (byte : BitVec 8) : p.write byte = some (-1, p) := by
  unfold write
  rw [if_pos ((full_iff fits holds).mpr full)]

theorem write_room {p : Pipe size} {pending : List (BitVec 8)} (holds : Holds p pending)
    (room : pending.length ≠ size) (byte : BitVec 8) :
    ∃ p', p.write byte = some (0, p') ∧ Holds p' (pending ++ [byte]) := by
  have bounded := holds.bounded
  have inside := holds.writePos_lt
  have cell : Fin.ofNat size p.writePos.toNat =
      Fin.ofNat size (p.readPos.toNat + pending.length) := by
    apply Fin.ext
    simp [holds.writePos]
  unfold write
  rw [if_neg (mt (full_iff fits holds).mp room), index_of_lt inside]
  refine ⟨_, rfl, ?_, ?_, holds.readPos, ?_, ?_⟩
  · change (p.count + 1#32).toNat = _
    rw [BitVec.toNat_add, holds.count, List.length_append]
    exact Nat.mod_eq_of_lt (by change pending.length + 1 < 2 ^ 32; omega)
  · rw [List.length_append]
    change pending.length + 1 ≤ size
    omega
  · rw [List.length_append]
    change ((p.writePos + 1#32) % BitVec.ofNat 32 size).toNat =
      (p.readPos.toNat + (pending.length + 1)) % size
    rw [toNat_advance fits inside, holds.writePos, Nat.mod_add_mod, Nat.add_assoc]
  · rw [List.length_append, cell]
    change Ring.segment (Function.update p.buf _ byte) p.readPos.toNat (pending.length + 1) = _
    rw [Ring.segment_push _ _ _ _ (by omega), holds.cells]

omit fits in
theorem read_empty {p : Pipe size} (holds : Holds p []) (out : BitVec 8) :
    p.read out = some (-1, out, p) := by
  unfold read
  rw [if_pos ((empty_iff holds).mpr rfl)]

theorem read_oldest {p : Pipe size} {oldest : BitVec 8} {rest : List (BitVec 8)}
    (holds : Holds p (oldest :: rest)) (out : BitVec 8) :
    ∃ p', p.read out = some (0, oldest, p') ∧ Holds p' rest := by
  have bounded := holds.bounded
  have cells := holds.cells
  rw [List.length_cons] at bounded
  rw [List.length_cons, Ring.segment_pop] at cells
  obtain ⟨first, others⟩ := List.cons.inj cells
  unfold read
  rw [if_neg (mt (empty_iff holds).mp (List.cons_ne_nil oldest rest)), index_of_lt holds.readPos]
  have advanced := toNat_advance fits holds.readPos
  refine ⟨_, by rw [← first]; rfl, ?_, by omega, ?_, ?_, ?_⟩
  · change (p.count - 1#32).toNat = _
    have count := holds.count
    rw [List.length_cons] at count
    rw [BitVec.toNat_sub_of_le (by rw [BitVec.le_def, count]; simp), count]
    rfl
  · change ((p.readPos + 1#32) % BitVec.ofNat 32 size).toNat < size
    rw [advanced]
    exact Nat.mod_lt _ (Nat.pos_of_neZero size)
  · change p.writePos.toNat =
      (((p.readPos + 1#32) % BitVec.ofNat 32 size).toNat + rest.length) % size
    rw [advanced, holds.writePos, List.length_cons, Nat.mod_add_mod]
    congr 1
    omega
  · change Ring.segment p.buf ((p.readPos + 1#32) % BitVec.ofNat 32 size).toNat rest.length = rest
    rw [advanced, Ring.segment_mod, others]

theorem holds_step {past : List (Call × Answer)} {p : Pipe size} {pending : List (BitVec 8)}
    (holds : Holds p pending) (fifo : accepted past = taken past ++ pending) (c : Call) :
    ∃ a p' pending', p.perform c = some (a, p') ∧ Holds p' pending' ∧
      accepted (past ++ [(c, a)]) = taken (past ++ [(c, a)]) ++ pending' := by
  have grow (a : Answer) (pending' : List (BitVec 8))
      (last : pending ++ accepted [(c, a)] = taken [(c, a)] ++ pending') :
      accepted (past ++ [(c, a)]) = taken (past ++ [(c, a)]) ++ pending' := by
    rw [accepted_append, taken_append, fifo, List.append_assoc, last, List.append_assoc]
  cases c with
  | write byte =>
    by_cases full : pending.length = size
    · refine ⟨⟨-1, byte⟩, p, pending, ?_, holds, grow _ _ (by simp [accepted, taken])⟩
      simp only [perform, write_full fits holds full, Option.map_some]
    · obtain ⟨p', done, holds'⟩ := write_room fits holds full byte
      refine ⟨⟨0, byte⟩, p', pending ++ [byte], ?_, holds', grow _ _ (by simp [accepted, taken])⟩
      simp only [perform, done, Option.map_some]
  | read out =>
    cases pending with
    | nil =>
      refine ⟨⟨-1, out⟩, p, [], ?_, holds, grow _ _ (by simp [accepted, taken])⟩
      simp only [perform, read_empty holds, Option.map_some]
    | cons oldest rest =>
      obtain ⟨p', done, holds'⟩ := read_oldest fits holds out
      refine ⟨⟨0, oldest⟩, p', rest, ?_, holds', grow _ _ (by simp [accepted, taken])⟩
      simp only [perform, done, Option.map_some]

end Ring

/-- What holds of a pipe after some calls: pending is what is accepted and not yet taken. -/
structure BoundedFifo (p : Pipe size) (history : List (Call × Answer))
    (pending : List (BitVec 8)) : Prop where
  fifo : accepted history = taken history ++ pending
  bounded : pending.length ≤ size
  readPos : p.readPos.toNat < size
  writePos : p.writePos.toNat < size
  full : pending.length = size → ∀ byte, p.write byte = some (-1, p)
  room : pending.length ≠ size → ∀ byte, ∃ p', p.write byte = some (0, p')
  empty : pending = [] → ∀ out, p.read out = some (-1, out, p)
  oldest : ∀ byte rest, pending = byte :: rest → ∀ out, ∃ p', p.read out = some (0, byte, p')

/-- After pipe_init, any calls run without an access outside buf and find a queue of capacity
    PIPE_SIZE. A pipe_t fits the 32-bit address space. -/
theorem pipe_bounded_fifo [NeZero size] (fits : size < 2 ^ 32) (before : Pipe size)
    (calls : List Call) :
    ∃ history p pending, attempt perform calls before.init = some (history, p) ∧
      BoundedFifo p history pending := by
  obtain ⟨history, p, done, _, pending, holds, fifo⟩ := attempt_invariant
    (fun past (p : Pipe size) => ∃ pending, Holds p pending ∧
      accepted past = taken past ++ pending) (fun _ => True)
    (fun past p c inv _ => by
      obtain ⟨pending, holds, fifo⟩ := inv
      obtain ⟨a, p', pending', done, holds', fifo'⟩ := holds_step fits holds fifo c
      exact ⟨a, p', done, pending', holds', fifo'⟩)
    calls [] before.init ⟨[], holds_init before, rfl⟩ fun _ _ => trivial
  refine ⟨history, p, pending, done, fifo, holds.bounded, holds.readPos, holds.writePos_lt,
    write_full fits holds, fun room byte => ?_, ?_, ?_⟩
  · obtain ⟨p', written, _⟩ := write_room fits holds room byte
    exact ⟨p', written⟩
  · rintro rfl out
    exact read_empty holds out
  · rintro byte rest rfl out
    obtain ⟨p', taken, _⟩ := read_oldest fits holds out
    exact ⟨p', taken⟩

def wrapCalls : List Call := [.write 1#8, .write 2#8, .write 3#8, .read 0#8, .write 4#8]

theorem pipe_bounded_fifo_wrap :
    let before : Pipe 2 := ⟨fun _ => 7#8, 9#32, 9#32, 9#32⟩
    ∃ history p pending, attempt perform wrapCalls before.init = some (history, p) ∧
      history.map (fun entry => entry.2.ret) = [0, 0, -1, 0, 0] ∧
      (p.buf 0, p.buf 1) = (4#8, 2#8) ∧ BoundedFifo p history pending := by
  intro before
  obtain ⟨history, p, pending, done, fifo⟩ := pipe_bounded_fifo (by decide) before wrapCalls
  have answers : (attempt perform wrapCalls before.init).map
      (fun left => (left.1.map fun entry => entry.2.ret, left.2.buf 0, left.2.buf 1)) =
      some ([0, 0, -1, 0, 0], 4#8, 2#8) := by decide
  rw [done, Option.map_some, Option.some.injEq, Prod.mk.injEq] at answers
  exact ⟨history, p, pending, done, answers.1, answers.2, fifo⟩

end Pipe
end XorOS.Kernel
