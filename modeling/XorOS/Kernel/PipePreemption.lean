import XorOS.Kernel.Pipe

/- pipe_write and pipe_read of two processes that preempt each other. Each turn makes one access
   that the other side can see: p->count++ and p->count-- are a load and a store, and what only
   the writer or only the reader touches is read and written in one turn. -/
namespace XorOS.Kernel
open Runs

namespace Pipe

inductive Writing where
  | idle
  | check (byte : BitVec 8)
  | store (byte : BitVec 8)
  | advance (byte : BitVec 8)
  | load (byte : BitVec 8)
  | bump (byte : BitVec 8) (count : BitVec 32)
deriving DecidableEq

inductive Reading where
  | idle
  | check (out : BitVec 8)
  | fetch (out : BitVec 8)
  | advance (out byte : BitVec 8)
  | load (out byte : BitVec 8)
  | drop (out byte : BitVec 8) (count : BitVec 32)
deriving DecidableEq

/-- The pipe, the two processes, and the calls that have returned. -/
structure Sharers (size : Nat) where
  pipe : Pipe size
  writing : Writing
  reading : Reading
  done : List (Call × Answer)

inductive Turn where
  | write (byte : BitVec 8)
  | writer
  | read (out : BitVec 8)
  | reader
deriving DecidableEq

namespace Sharers
variable {size : Nat}

def writer (s : Sharers size) : Option (Sharers size) :=
  match s.writing with
  | .idle => none
  | .check byte =>
      if s.pipe.count = BitVec.ofNat 32 size then
        some { s with writing := .idle, done := s.done ++ [(.write byte, ⟨-1, byte⟩)] }
      else some { s with writing := .store byte }
  | .store byte => do
      let i ← index s.pipe.writePos
      some { s with
        pipe := { s.pipe with buf := Function.update s.pipe.buf i byte }
        writing := .advance byte }
  | .advance byte =>
      some { s with
        pipe := { s.pipe with writePos := (s.pipe.writePos + 1#32) % BitVec.ofNat 32 size }
        writing := .load byte }
  | .load byte => some { s with writing := .bump byte s.pipe.count }
  | .bump byte count =>
      some { s with
        pipe := { s.pipe with count := count + 1#32 }
        writing := .idle
        done := s.done ++ [(.write byte, ⟨0, byte⟩)] }

def reader (s : Sharers size) : Option (Sharers size) :=
  match s.reading with
  | .idle => none
  | .check out =>
      if s.pipe.count = 0#32 then
        some { s with reading := .idle, done := s.done ++ [(.read out, ⟨-1, out⟩)] }
      else some { s with reading := .fetch out }
  | .fetch out => do
      let i ← index s.pipe.readPos
      some { s with reading := .advance out (s.pipe.buf i) }
  | .advance out byte =>
      some { s with
        pipe := { s.pipe with readPos := (s.pipe.readPos + 1#32) % BitVec.ofNat 32 size }
        reading := .load out byte }
  | .load out byte => some { s with reading := .drop out byte s.pipe.count }
  | .drop out byte count =>
      some { s with
        pipe := { s.pipe with count := count - 1#32 }
        reading := .idle
        done := s.done ++ [(.read out, ⟨0, byte⟩)] }

def turn (s : Sharers size) : Turn → Option (Sharers size)
  | .write byte => if s.writing = .idle then some { s with writing := .check byte } else none
  | .writer => s.writer
  | .read out => if s.reading = .idle then some { s with reading := .check out } else none
  | .reader => s.reader

def start (before : Pipe size) : Sharers size := ⟨before.init, .idle, .idle, []⟩

def sharing (before : Pipe size) : System (Sharers size) Turn :=
  .ofStep (· = start before) turn

/-- Both processes have loaded count and not stored it back. -/
def torn (s : Sharers size) : Bool :=
  match s.writing, s.reading with
  | .bump _ _, .drop _ _ _ => true
  | _, _ => false

/-- The runs in which no turn is taken while both are about to store count. -/
def untorn (before : Pipe size) : System (Sharers size) Turn :=
  (sharing before).restrict fun s _ => s.torn = false

def WriterAt (p q : Pipe size) : Writing → Prop
  | .idle | .check _ => q.writePos = p.writePos ∧ q.buf = p.buf
  | .store _ => p.count ≠ BitVec.ofNat 32 size ∧ q.writePos = p.writePos ∧ q.buf = p.buf
  | .advance byte => p.count ≠ BitVec.ofNat 32 size ∧ q.writePos = p.writePos ∧
      ∃ i, index p.writePos = some i ∧ q.buf = Function.update p.buf i byte
  | .load byte => p.count ≠ BitVec.ofNat 32 size ∧
      q.writePos = (p.writePos + 1#32) % BitVec.ofNat 32 size ∧
      ∃ i, index p.writePos = some i ∧ q.buf = Function.update p.buf i byte
  | .bump byte count => p.count ≠ BitVec.ofNat 32 size ∧
      q.writePos = (p.writePos + 1#32) % BitVec.ofNat 32 size ∧ count = p.count ∧
      ∃ i, index p.writePos = some i ∧ q.buf = Function.update p.buf i byte

def ReaderAt (p q : Pipe size) : Reading → Prop
  | .idle | .check _ => q.readPos = p.readPos
  | .fetch _ => p.count ≠ 0#32 ∧ q.readPos = p.readPos
  | .advance _ byte => p.count ≠ 0#32 ∧ q.readPos = p.readPos ∧
      ∃ i, index p.readPos = some i ∧ p.buf i = byte
  | .load _ byte => p.count ≠ 0#32 ∧ q.readPos = (p.readPos + 1#32) % BitVec.ofNat 32 size ∧
      ∃ i, index p.readPos = some i ∧ p.buf i = byte
  | .drop _ byte count => p.count ≠ 0#32 ∧
      q.readPos = (p.readPos + 1#32) % BitVec.ofNat 32 size ∧ count = p.count ∧
      ∃ i, index p.readPos = some i ∧ p.buf i = byte

/-- p is the pipe that the returned calls leave when they are made one after another. -/
structure Atomic (before : Pipe size) (s : Sharers size) (p : Pipe size) : Prop where
  calls : attempt perform (s.done.map Prod.fst) before.init = some (s.done, p)
  count : s.pipe.count = p.count
  writer : WriterAt p s.pipe s.writing
  reader : ReaderAt p s.pipe s.reading

section Ring
variable [NeZero size] {before p : Pipe size} {s s' : Sharers size}

theorem holds_of_calls (fits : size < 2 ^ 32) {calls : List Call} {history : List (Call × Answer)}
    (done : attempt perform calls before.init = some (history, p)) :
    ∃ pending, Holds p pending ∧ accepted history = taken history ++ pending := by
  obtain ⟨history', p', done', _, inv⟩ := attempt_invariant
    (fun past (p : Pipe size) => ∃ pending, Holds p pending ∧
      accepted past = taken past ++ pending) (fun _ => True)
    (fun past p c inv _ => by
      obtain ⟨pending, holds, fifo⟩ := inv
      obtain ⟨a, p', pending', done, holds', fifo'⟩ := holds_step fits holds fifo c
      exact ⟨a, p', done, pending', holds', fifo'⟩)
    calls [] before.init ⟨[], holds_init before, rfl⟩ fun _ _ => trivial
  rw [done, Option.some.injEq, Prod.mk.injEq] at done'
  obtain ⟨rfl, rfl⟩ := done'
  exact inv

theorem Atomic.holds (fits : size < 2 ^ 32) (atomic : Atomic before s p) :
    ∃ pending, Holds p pending ∧ accepted s.done = taken s.done ++ pending :=
  holds_of_calls fits atomic.calls

omit [NeZero size] in
theorem Atomic.extend (atomic : Atomic before s p) {call : Call} {answer : Answer} {p' : Pipe size}
    (made : p.perform call = some (answer, p')) :
    attempt perform ((s.done ++ [(call, answer)]).map Prod.fst) before.init =
      some (s.done ++ [(call, answer)], p') := by
  rw [List.map_append, List.map_singleton, attempt_append, atomic.calls, Option.bind_some, made]
  rfl

theorem cells_apart {pending : List (BitVec 8)} (fits : size < 2 ^ 32) (holds : Holds p pending)
    (room : p.count ≠ BitVec.ofNat 32 size) (occupied : p.count ≠ 0#32) {i j : Fin size}
    (writes : index p.writePos = some i) (reads : index p.readPos = some j) : j ≠ i := by
  rw [Ne, full_iff fits holds] at room
  rw [Ne, empty_iff holds] at occupied
  have bounded := holds.bounded
  have positive := List.length_pos_iff.mpr occupied
  rw [index_of_lt holds.writePos_lt] at writes
  rw [index_of_lt holds.readPos] at reads
  have cell : Fin.ofNat size p.writePos.toNat =
      Fin.ofNat size (p.readPos.toNat + pending.length) := by
    apply Fin.ext
    simp [holds.writePos]
  rw [← Option.some.inj writes, ← Option.some.inj reads, cell]
  exact Ring.apart_of_lt (i := 0) positive (by omega)

omit [NeZero size] in
theorem perform_write {i : Fin size} {byte : BitVec 8} (room : p.count ≠ BitVec.ofNat 32 size)
    (inside : index p.writePos = some i) :
    p.perform (.write byte) = some (⟨0, byte⟩,
      { p with
        buf := Function.update p.buf i byte
        writePos := (p.writePos + 1#32) % BitVec.ofNat 32 size
        count := p.count + 1#32 }) := by
  simp only [perform, write, if_neg room, inside, Option.bind_eq_bind, Option.bind_some,
    Option.map_some]

omit [NeZero size] in
theorem perform_read {j : Fin size} (out : BitVec 8) (occupied : p.count ≠ 0#32)
    (inside : index p.readPos = some j) :
    p.perform (.read out) = some (⟨0, p.buf j⟩,
      { p with
        readPos := (p.readPos + 1#32) % BitVec.ofNat 32 size
        count := p.count - 1#32 }) := by
  simp only [perform, read, if_neg occupied, inside, Option.bind_eq_bind, Option.bind_some,
    Option.map_some]

omit [NeZero size] in
theorem readerAt_written {q q' p' : Pipe size} {r : Reading} (at_ : ReaderAt p q r)
    (whole : ∀ out byte n, r ≠ .drop out byte n) (pos : q'.readPos = q.readPos)
    (pos' : p'.readPos = p.readPos) (occupied : p'.count ≠ 0#32)
    (cell : p.count ≠ 0#32 → ∀ j, index p.readPos = some j → p'.buf j = p.buf j) :
    ReaderAt p' q' r := by
  cases r with
  | idle | check =>
    have at_ : q.readPos = p.readPos := at_
    exact pos.trans (at_.trans pos'.symm)
  | fetch =>
    obtain ⟨_, at_⟩ := at_
    exact ⟨occupied, pos.trans (at_.trans pos'.symm)⟩
  | advance out byte =>
    obtain ⟨some, at_, j, inside, got⟩ := at_
    refine ⟨occupied, pos.trans (at_.trans pos'.symm), j, ?_, (cell some j inside).trans got⟩
    rw [pos', inside]
  | load out byte =>
    obtain ⟨some, at_, j, inside, got⟩ := at_
    refine ⟨occupied, by rw [pos, at_, pos'], j, ?_, (cell some j inside).trans got⟩
    rw [pos', inside]
  | drop out byte n => exact absurd rfl (whole out byte n)

omit [NeZero size] in
theorem writerAt_read {q q' p' : Pipe size} {w : Writing} (at_ : WriterAt p q w)
    (whole : ∀ byte n, w ≠ .bump byte n) (pos : q'.writePos = q.writePos) (buf : q'.buf = q.buf)
    (pos' : p'.writePos = p.writePos) (buf' : p'.buf = p.buf)
    (room : p'.count ≠ BitVec.ofNat 32 size) : WriterAt p' q' w := by
  cases w with
  | idle | check =>
    obtain ⟨at_, same⟩ := at_
    exact ⟨pos.trans (at_.trans pos'.symm), buf.trans (same.trans buf'.symm)⟩
  | store =>
    obtain ⟨_, at_, same⟩ := at_
    exact ⟨room, pos.trans (at_.trans pos'.symm), buf.trans (same.trans buf'.symm)⟩
  | advance byte =>
    obtain ⟨_, at_, i, inside, same⟩ := at_
    refine ⟨room, pos.trans (at_.trans pos'.symm), i, ?_, by rw [buf, same, buf']⟩
    rw [pos', inside]
  | load byte =>
    obtain ⟨_, at_, i, inside, same⟩ := at_
    refine ⟨room, by rw [pos, at_, pos'], i, ?_, by rw [buf, same, buf']⟩
    rw [pos', inside]
  | bump byte n => exact absurd rfl (whole byte n)

theorem count_bounds {pending : List (BitVec 8)} (fits : size < 2 ^ 32) (holds : Holds p pending) :
    (p.count ≠ BitVec.ofNat 32 size → p.count + 1#32 ≠ 0#32) ∧
      (p.count ≠ 0#32 → p.count - 1#32 ≠ BitVec.ofNat 32 size) := by
  have bounded := holds.bounded
  have counted := holds.count
  refine ⟨fun room zero => ?_, fun occupied full => ?_⟩
  · rw [Ne, full_iff fits holds] at room
    have zero := congrArg BitVec.toNat zero
    rw [BitVec.toNat_add, counted] at zero
    simp at zero
    omega
  · rw [Ne, empty_iff holds] at occupied
    have positive := List.length_pos_iff.mpr occupied
    have modulus : (BitVec.ofNat 32 size).toNat = size := by
      rw [BitVec.toNat_ofNat, Nat.mod_eq_of_lt fits]
    have full := congrArg BitVec.toNat full
    rw [modulus, BitVec.toNat_sub_of_le (by rw [BitVec.le_def, counted]; exact positive),
      counted] at full
    change pending.length - 1 = size at full
    omega

theorem buf_unseen {pending : List (BitVec 8)} {q : Pipe size} {w : Writing} (fits : size < 2 ^ 32)
    (holds : Holds p pending) (at_ : WriterAt p q w) (occupied : p.count ≠ 0#32) {j : Fin size}
    (reads : index p.readPos = some j) : q.buf j = p.buf j := by
  cases w with
  | idle | check => rw [at_.2]
  | store => rw [at_.2.2]
  | advance byte =>
    obtain ⟨room, _, i, inside, same⟩ := at_
    rw [same, Function.update_of_ne (cells_apart fits holds room occupied inside reads)]
  | load byte =>
    obtain ⟨room, _, i, inside, same⟩ := at_
    rw [same, Function.update_of_ne (cells_apart fits holds room occupied inside reads)]
  | bump byte n =>
    obtain ⟨room, _, _, i, inside, same⟩ := at_
    rw [same, Function.update_of_ne (cells_apart fits holds room occupied inside reads)]

/-- A turn of the writer, which also has its cell: the calls that have returned still explain the
    pipe. -/
theorem atomic_writer (fits : size < 2 ^ 32) (atomic : Atomic before s p) (whole : s.torn = false)
    (turn : s.writer = some s') : ∃ p', Atomic before s' p' := by
  obtain ⟨pending, holds, _⟩ := atomic.holds fits
  obtain ⟨calls, count, writer, reader⟩ := atomic
  obtain ⟨pipe, writing, reading, done⟩ := s
  unfold Sharers.writer at turn
  cases writing with
  | idle => cases turn
  | check byte =>
    simp only at turn
    split at turn
    · rename_i full
      obtain rfl := Option.some.inj turn
      have refused : p.perform (.write byte) = some (⟨-1, byte⟩, p) := by
        rw [count] at full
        simp only [perform, write, if_pos full, Option.map_some]
      exact ⟨p, Atomic.extend ⟨calls, count, writer, reader⟩ refused, count, writer, reader⟩
    · rename_i room
      obtain rfl := Option.some.inj turn
      rw [count] at room
      exact ⟨p, calls, count, ⟨room, writer⟩, reader⟩
  | store byte =>
    obtain ⟨room, pos, buf⟩ := writer
    obtain ⟨i, inside, turn⟩ := Option.bind_eq_some_iff.mp turn
    obtain rfl := Option.some.inj turn
    simp only at pos buf inside count
    rw [pos] at inside
    exact ⟨p, calls, count, ⟨room, pos, i, inside, by rw [buf]⟩, reader⟩
  | advance byte =>
    obtain ⟨room, pos, cell⟩ := writer
    obtain rfl := Option.some.inj turn
    simp only at pos
    exact ⟨p, calls, count, ⟨room, by rw [pos], cell⟩, reader⟩
  | load byte =>
    obtain ⟨room, pos, cell⟩ := writer
    obtain rfl := Option.some.inj turn
    exact ⟨p, calls, count, ⟨room, pos, count, cell⟩, reader⟩
  | bump byte n =>
    obtain ⟨room, pos, rfl, i, inside, buf⟩ := writer
    obtain rfl := Option.some.inj turn
    have quiet : ∀ out got n, reading ≠ .drop out got n := by
      rintro out got n rfl
      cases whole
    refine ⟨_, Atomic.extend ⟨calls, count, ⟨room, pos, rfl, i, inside, buf⟩, reader⟩
      (perform_write room inside), rfl, ⟨pos, buf⟩, ?_⟩
    refine readerAt_written reader quiet rfl rfl ((count_bounds fits holds).1 room) ?_
    intro occupied j reads
    exact Function.update_of_ne (cells_apart fits holds room occupied inside reads) byte p.buf

theorem atomic_reader (fits : size < 2 ^ 32) (atomic : Atomic before s p) (whole : s.torn = false)
    (turn : s.reader = some s') : ∃ p', Atomic before s' p' := by
  obtain ⟨pending, holds, _⟩ := atomic.holds fits
  obtain ⟨calls, count, writer, reader⟩ := atomic
  obtain ⟨pipe, writing, reading, done⟩ := s
  unfold Sharers.reader at turn
  cases reading with
  | idle => cases turn
  | check out =>
    simp only at turn
    split at turn
    · rename_i empty
      obtain rfl := Option.some.inj turn
      have refused : p.perform (.read out) = some (⟨-1, out⟩, p) := by
        rw [count] at empty
        simp only [perform, read, if_pos empty, Option.map_some]
      exact ⟨p, Atomic.extend ⟨calls, count, writer, reader⟩ refused, count, writer, reader⟩
    · rename_i occupied
      obtain rfl := Option.some.inj turn
      rw [count] at occupied
      exact ⟨p, calls, count, writer, occupied, reader⟩
  | fetch out =>
    obtain ⟨occupied, pos⟩ := reader
    obtain ⟨j, inside, turn⟩ := Option.bind_eq_some_iff.mp turn
    obtain rfl := Option.some.inj turn
    simp only at pos inside
    rw [pos] at inside
    have fetched : p.buf j = pipe.buf j := (buf_unseen fits holds writer occupied inside).symm
    exact ⟨p, calls, count, writer, occupied, pos, j, inside, fetched⟩
  | advance out byte =>
    obtain ⟨occupied, pos, cell⟩ := reader
    obtain rfl := Option.some.inj turn
    simp only at pos
    exact ⟨p, calls, count, writer, occupied, by rw [pos], cell⟩
  | load out byte =>
    obtain ⟨occupied, pos, cell⟩ := reader
    obtain rfl := Option.some.inj turn
    exact ⟨p, calls, count, writer, occupied, pos, count, cell⟩
  | drop out byte n =>
    obtain ⟨occupied, pos, rfl, j, inside, rfl⟩ := reader
    obtain rfl := Option.some.inj turn
    have quiet : ∀ byte n, writing ≠ .bump byte n := by
      rintro byte n rfl
      cases whole
    refine ⟨_, Atomic.extend ⟨calls, count, writer, ⟨occupied, pos, rfl, j, inside, rfl⟩⟩
      (perform_read out occupied inside), rfl, ?_, pos⟩
    exact writerAt_read writer quiet rfl rfl rfl rfl ((count_bounds fits holds).2 occupied)

theorem atomic_turn (fits : size < 2 ^ 32) (atomic : Atomic before s p) (whole : s.torn = false)
    {t : Turn} (taken : s.turn t = some s') : ∃ p', Atomic before s' p' := by
  cases t with
  | write byte =>
    simp only [turn] at taken
    split at taken
    · rename_i idle
      obtain rfl := Option.some.inj taken
      have writer := atomic.writer
      rw [idle] at writer
      exact ⟨p, atomic.calls, atomic.count, writer, atomic.reader⟩
    · cases taken
  | writer => exact atomic_writer fits atomic whole taken
  | read out =>
    simp only [turn] at taken
    split at taken
    · rename_i idle
      obtain rfl := Option.some.inj taken
      have reader := atomic.reader
      rw [idle] at reader
      exact ⟨p, atomic.calls, atomic.count, atomic.writer, reader⟩
    · cases taken
  | reader => exact atomic_reader fits atomic whole taken

omit [NeZero size] in
theorem atomic_start (before : Pipe size) : Atomic before (start before) before.init where
  calls := rfl
  count := rfl
  writer := ⟨rfl, rfl⟩
  reader := rfl

theorem atomic_reachable (fits : size < 2 ^ 32) (reached : (untorn before).Reachable s) :
    ∃ p, Atomic before s p := by
  refine reached.invariant (fun s => ∃ p, Atomic before s p) ?_ ?_
  · rintro _ rfl
    exact ⟨_, atomic_start before⟩
  · rintro s t s' ⟨p, atomic⟩ ⟨taken, whole⟩
    exact atomic_turn fits atomic whole taken

/-- What the calls that have returned say about the pipe: made one after another they give the same
    answers, and no unfinished call is about to leave buf. -/
structure Explained (before : Pipe size) (s : Sharers size) (p : Pipe size)
    (pending : List (BitVec 8)) : Prop where
  calls : attempt perform (s.done.map Prod.fst) before.init = some (s.done, p)
  fifo : accepted s.done = taken s.done ++ pending
  bounded : pending.length ≤ size
  settled : s.writing = .idle → s.reading = .idle → s.pipe = p
  writes : s.writing ≠ .idle → s.writer ≠ none
  reads : s.reading ≠ .idle → s.reader ≠ none

theorem Atomic.writes {pending : List (BitVec 8)} (atomic : Atomic before s p)
    (holds : Holds p pending) (busy : s.writing ≠ .idle) : s.writer ≠ none := by
  have writer := atomic.writer
  unfold Sharers.writer
  cases doing : s.writing with
  | idle => exact absurd doing busy
  | check byte =>
    simp only
    split <;> simp
  | store byte =>
    rw [doing] at writer
    simp [writer.2.1, index_of_lt holds.writePos_lt]
  | advance byte | load byte | bump byte n => simp

theorem Atomic.reads {pending : List (BitVec 8)} (atomic : Atomic before s p)
    (holds : Holds p pending) (busy : s.reading ≠ .idle) : s.reader ≠ none := by
  have reader := atomic.reader
  unfold Sharers.reader
  cases doing : s.reading with
  | idle => exact absurd doing busy
  | check out =>
    simp only
    split <;> simp
  | fetch out =>
    rw [doing] at reader
    simp [reader.2, index_of_lt holds.readPos]
  | advance out byte | load out byte | drop out byte n => simp

omit [NeZero size] in
theorem torn_eq_true (torn : s.torn = true) : ∃ byte n out got n',
    s.writing = .bump byte n ∧ s.reading = .drop out got n' := by
  unfold Sharers.torn at torn
  split at torn
  · rename_i byte n out got n' bumps drops
    exact ⟨byte, n, out, got, n', bumps, drops⟩
  · cases torn

/-- A pipe of two bytes; the read begins while the first write is stored but not counted, and the
    second write goes in between the read's check and its fetch. -/
def mingled : List Turn :=
  [.write 1#8, .writer, .writer, .read 0#8, .reader, .writer, .writer, .writer, .read 0#8, .reader,
    .write 2#8, .writer, .writer, .reader, .writer, .reader, .writer, .writer, .reader, .reader]

def mingle (before : Pipe size) (turns : List Turn) : Option (Sharers size) :=
  System.follow (System.allowing turn fun s _ => s.torn = false) turns (start before)

theorem fetched_oldest {pending : List (BitVec 8)} (fits : size < 2 ^ 32) (holds : Holds p pending)
    (occupied : p.count ≠ 0#32) {j : Fin size} (inside : index p.readPos = some j) :
    ∃ rest, pending = p.buf j :: rest := by
  cases pending with
  | nil => exact absurd ((empty_iff holds).mpr rfl) occupied
  | cons oldest rest =>
    obtain ⟨p', done, _⟩ := read_oldest fits holds 0#8
    have made := perform_read 0#8 occupied inside
    simp only [perform, done, Option.map_some, Option.some.injEq, Prod.mk.injEq,
      Answer.mk.injEq] at made
    exact ⟨rest, by rw [made.1.2]⟩

def tearing : List Turn :=
  .write 1#8 :: List.replicate 5 .writer ++ [.write 2#8, .read 0#8] ++ List.replicate 4 .writer ++
    List.replicate 4 .reader

/-- A read finds nothing only when all that was accepted has been taken. -/
theorem taken_all_of_empty (fits : size < 2 ^ 32) {calls : List Call} :
    ∀ {history : List (Call × Answer)} {p : Pipe size},
      attempt perform calls before.init = some (history, p) →
      ∀ past out (a : Answer) rest, history = past ++ (.read out, a) :: rest → a.ret ≠ 0 →
        accepted past = taken past := by
  induction calls using List.reverseRecOn with
  | nil =>
    intro history p done past out a rest split
    obtain ⟨rfl, _⟩ := Prod.mk.inj (Option.some.inj done)
    simp at split
  | append_singleton calls call ih =>
    intro history p done past out a rest split failed
    rw [attempt_append] at done
    obtain ⟨⟨early, q⟩, first, done⟩ := Option.bind_eq_some_iff.mp done
    obtain ⟨⟨answer, p'⟩, made, done⟩ := Option.map_eq_some_iff.mp done
    obtain ⟨rfl, rfl⟩ := Prod.mk.inj done
    rcases List.eq_nil_or_concat rest with rfl | ⟨rest', last, rfl⟩
    · -- the last call is that read
      obtain ⟨same, entry⟩ := List.append_inj' split rfl
      obtain ⟨rfl, rfl⟩ := Prod.mk.inj (List.cons.inj entry).1
      obtain ⟨pending, holds, fifo⟩ := holds_of_calls fits first
      cases pending with
      | nil =>
        rw [← same]
        simpa using fifo
      | cons oldest others =>
        obtain ⟨r, got, _⟩ := read_oldest fits holds out
        simp only [perform, got, Option.map_some, Option.some.injEq, Prod.mk.injEq] at made
        rw [← made.1] at failed
        exact absurd rfl failed
    · have split : early ++ [(call, answer)] = (past ++ (.read out, a) :: rest') ++ [last] := by
        rw [split]
        simp
      exact ih first past out a rest' (List.append_inj' split rfl).1 failed

end Ring

end Sharers

def Writing.carries : Writing → Option (BitVec 8)
  | .idle => none
  | .check byte | .store byte | .advance byte | .load byte | .bump byte _ => some byte

def written : List (Call × Answer) → List (BitVec 8)
  | [] => []
  | (.write byte, _) :: rest => byte :: written rest
  | (.read _, _) :: rest => written rest

theorem written_append (first rest : List (Call × Answer)) :
    written (first ++ rest) = written first ++ written rest := by
  induction first with
  | nil => rfl
  | cons entry first ih =>
    obtain ⟨call, a⟩ := entry
    cases call with
    | write byte => simp only [List.cons_append, written, ih]
    | read out => simpa only [List.cons_append, written] using ih

def AllAccepted (history : List (Call × Answer)) : Prop :=
  ∀ byte a, (.write byte, a) ∈ history → a.ret = 0

theorem AllAccepted.eq {history : List (Call × Answer)} (all : AllAccepted history) :
    accepted history = written history := by
  induction history with
  | nil => rfl
  | cons entry rest ih =>
    have later := ih fun byte a member => all byte a (List.mem_cons_of_mem entry member)
    obtain ⟨call, a⟩ := entry
    cases call with
    | write byte =>
      rw [accepted, if_pos (all byte a List.mem_cons_self), written, later]
    | read out => simpa only [accepted, written] using later

namespace Sharers
variable {size : Nat}

def sent (s : Sharers size) : List (BitVec 8) := written s.done ++ s.writing.carries.toList

def found : Call × Answer → Bool
  | (.write _, _) => true
  | (.read _, a) => a.ret = 0

/-- task_a writes the bytes of msg in order and looks at no answer, task_b reads until a read finds
    nothing. -/
def TaskTurn (msg : List (BitVec 8)) (s : Sharers size) : Turn → Prop
  | .write byte => s.sent ++ [byte] <+: msg
  | .read _ => s.done.all found
  | .writer | .reader => True

instance (msg : List (BitVec 8)) (s : Sharers size) : DecidablePred (s.TaskTurn msg)
  | .write byte => inferInstanceAs (Decidable (s.sent ++ [byte] <+: msg))
  | .read _ => inferInstanceAs (Decidable (s.done.all found = true))
  | .writer | .reader => inferInstanceAs (Decidable True)

def tasks (msg : List (BitVec 8)) (before : Pipe size) : System (Sharers size) Turn :=
  (sharing before).restrict fun s t => s.torn = false ∧ s.TaskTurn msg t

theorem writer_cases {s s' : Sharers size} (turn : s.writer = some s') :
    s'.done = s.done ∧ s'.writing.carries = s.writing.carries ∨
      ∃ byte a, s.writing.carries = some byte ∧ s'.writing = .idle ∧
        s'.done = s.done ++ [(.write byte, a)] ∧
        (a.ret = 0 ∨ s.pipe.count = BitVec.ofNat 32 size) := by
  unfold Sharers.writer at turn
  cases doing : s.writing with
  | idle =>
    rw [doing] at turn
    cases turn
  | check byte =>
    simp only [doing] at turn
    split at turn
    · rename_i full
      obtain rfl := Option.some.inj turn
      exact Or.inr ⟨byte, _, rfl, rfl, rfl, Or.inr full⟩
    · obtain rfl := Option.some.inj turn
      exact Or.inl ⟨rfl, rfl⟩
  | store byte =>
    simp only [doing] at turn
    obtain ⟨i, _, turn⟩ := Option.bind_eq_some_iff.mp turn
    obtain rfl := Option.some.inj turn
    exact Or.inl ⟨rfl, rfl⟩
  | advance byte | load byte =>
    simp only [doing] at turn
    obtain rfl := Option.some.inj turn
    exact Or.inl ⟨rfl, rfl⟩
  | bump byte n =>
    simp only [doing] at turn
    obtain rfl := Option.some.inj turn
    exact Or.inr ⟨byte, _, rfl, rfl, rfl, Or.inl rfl⟩

theorem reader_cases {s s' : Sharers size} (turn : s.reader = some s') :
    s'.writing = s.writing ∧
      (s'.done = s.done ∨ ∃ out a, s'.done = s.done ++ [(.read out, a)]) := by
  unfold Sharers.reader at turn
  split at turn
  · cases turn
  · split at turn
    · obtain rfl := Option.some.inj turn
      exact ⟨rfl, Or.inr ⟨_, _, rfl⟩⟩
    · obtain rfl := Option.some.inj turn
      exact ⟨rfl, Or.inl rfl⟩
  · obtain ⟨j, _, turn⟩ := Option.bind_eq_some_iff.mp turn
    obtain rfl := Option.some.inj turn
    exact ⟨rfl, Or.inl rfl⟩
  · obtain rfl := Option.some.inj turn
    exact ⟨rfl, Or.inl rfl⟩
  · obtain rfl := Option.some.inj turn
    exact ⟨rfl, Or.inl rfl⟩
  · obtain rfl := Option.some.inj turn
    exact ⟨rfl, Or.inr ⟨_, _, rfl⟩⟩

structure OnTask (msg : List (BitVec 8)) (before : Pipe size) (s : Sharers size) : Prop where
  atomic : ∃ p, Atomic before s p
  inOrder : s.sent <+: msg
  all : AllAccepted s.done

variable [NeZero size] {msg : List (BitVec 8)} {before : Pipe size} {s s' : Sharers size}

theorem OnTask.room (fits : size < 2 ^ 32) (short : msg.length ≤ size)
    (task : OnTask msg before s) {byte : BitVec 8} (carries : s.writing.carries = some byte) :
    s.pipe.count ≠ BitVec.ofNat 32 size := by
  obtain ⟨p, atomic⟩ := task.atomic
  obtain ⟨pending, holds, fifo⟩ := atomic.holds fits
  intro full
  rw [atomic.count, full_iff fits holds] at full
  have few := task.inOrder.length_le
  rw [task.all.eq] at fifo
  rw [sent, carries, fifo, List.length_append, List.length_append] at few
  simp at few
  omega

theorem onTask_turn (fits : size < 2 ^ 32) (short : msg.length ≤ size)
    (task : OnTask msg before s) {t : Turn} (taken : s.turn t = some s') (whole : s.torn = false)
    (allowed : s.TaskTurn msg t) : OnTask msg before s' := by
  obtain ⟨p, atomic⟩ := task.atomic
  have kept : s'.sent <+: msg ∧ AllAccepted s'.done := by
    cases t with
    | write byte =>
      simp only [turn] at taken
      split at taken
      · rename_i idle
        obtain rfl := Option.some.inj taken
        have began : s.sent = written s.done := by
          rw [sent, idle]
          exact List.append_nil _
        have allowed : s.sent ++ [byte] <+: msg := allowed
        rw [began] at allowed
        exact ⟨allowed, task.all⟩
      · cases taken
    | writer =>
      rcases writer_cases taken with ⟨same, carries⟩ | ⟨byte, a, carries, idle, done, returned⟩
      · rw [sent, same, carries]
        exact ⟨task.inOrder, task.all⟩
      · have order := task.inOrder
        rw [sent, carries] at order
        have accepted : a.ret = 0 := returned.resolve_right (task.room fits short carries)
        constructor
        · rw [sent, idle, done, written_append]
          simpa [written, Writing.carries] using order
        · intro byte' a' member
          rw [done] at member
          rcases List.mem_append.mp member with old | new
          · exact task.all byte' a' old
          · obtain ⟨_, rfl⟩ := Prod.mk.inj (List.mem_singleton.mp new)
            exact accepted
    | read out =>
      simp only [turn] at taken
      split at taken
      · obtain rfl := Option.some.inj taken
        exact ⟨task.inOrder, task.all⟩
      · cases taken
    | reader =>
      obtain ⟨same, done | ⟨out, a, done⟩⟩ := reader_cases taken
      · rw [sent, same, done]
        exact ⟨task.inOrder, task.all⟩
      · have order := task.inOrder
        rw [sent] at order
        constructor
        · rw [sent, same, done, written_append]
          simpa [written] using order
        · intro byte' a' member
          rw [done] at member
          rcases List.mem_append.mp member with old | new
          · exact task.all byte' a' old
          · simp at new
  exact ⟨atomic_turn fits atomic whole taken, kept.1, kept.2⟩

/-- What task_b prints is the beginning of what task_a writes, and all of it once task_b has found
    the pipe empty after the last write. -/
theorem tasks_print_in_order (fits : size < 2 ^ 32) (short : msg.length ≤ size) (before : Pipe size)
    (reached : (tasks msg before).Reachable s) :
    taken s.done <+: msg ∧
      ∀ past out (a : Answer) rest, s.done = past ++ (.read out, a) :: rest → a.ret ≠ 0 →
        written past = msg → taken s.done = msg := by
  have task : OnTask msg before s := by
    refine reached.invariant (OnTask msg before) ?_ ?_
    · rintro _ rfl
      exact ⟨⟨_, atomic_start before⟩, List.nil_prefix, fun _ _ member => by cases member⟩
    · rintro s t s' task ⟨taken, whole, allowed⟩
      exact onTask_turn fits short task taken whole allowed
  obtain ⟨p, atomic⟩ := task.atomic
  obtain ⟨pending, holds, fifo⟩ := atomic.holds fits
  have printed : taken s.done <+: msg := by
    have order : written s.done <+: msg := (List.prefix_append _ _).trans task.inOrder
    rw [← task.all.eq, fifo] at order
    exact (List.prefix_append _ _).trans order
  refine ⟨printed, ?_⟩
  intro past out a rest split failed all
  have drained := taken_all_of_empty fits atomic.calls past out a rest split failed
  have early : AllAccepted past := fun byte a member =>
    task.all byte a (by rw [split]; exact List.mem_append_left _ member)
  rw [early.eq, all] at drained
  have longer : msg <+: taken s.done := by
    rw [split, taken_append, ← drained]
    exact List.prefix_append _ _
  exact (longer.eq_of_length_le printed.length_le).symm

def inTurn : List Turn :=
  [104#8, 105#8, 10#8].flatMap (fun byte => .write byte :: List.replicate 5 .writer) ++
    (List.replicate 3 (.read 0#8 :: List.replicate 5 .reader)).flatten ++ [.read 0#8, .reader]

theorem tasks_print_in_order_hi :
    let before : Pipe 4 := ⟨fun _ => 7#8, 9#32, 9#32, 9#32⟩
    ∃ s, (tasks [104#8, 105#8, 10#8] before).Reachable s ∧
      taken s.done = [104#8, 105#8, 10#8] := by
  intro before
  obtain ⟨s, ran⟩ : ∃ s, System.follow (System.allowing turn fun s t =>
      s.torn = false ∧ s.TaskTurn [104#8, 105#8, 10#8] t) inTurn (start before) = some s :=
    Option.isSome_iff_exists.mp (by decide)
  have reached : (tasks [104#8, 105#8, 10#8] before).Reachable s :=
    System.Reachable.of_allowing rfl ran
  have done : (System.follow (System.allowing turn fun s t =>
      s.torn = false ∧ s.TaskTurn [104#8, 105#8, 10#8] t) inTurn (start before)).map Sharers.done =
      some ([(.write 104#8, ⟨0, 104#8⟩), (.write 105#8, ⟨0, 105#8⟩), (.write 10#8, ⟨0, 10#8⟩),
        (.read 0#8, ⟨0, 104#8⟩), (.read 0#8, ⟨0, 105#8⟩), (.read 0#8, ⟨0, 10#8⟩)] ++
        (.read 0#8, ⟨-1, 0#8⟩) :: []) := by decide
  rw [ran] at done
  exact ⟨s, reached, (tasks_print_in_order (by decide) (by decide) before reached).2 _ _ _ _
    (Option.some.inj done) (by decide) rfl⟩

end Sharers
end Pipe
end XorOS.Kernel
