import XorOS.Library.Runs
import XorOS.Simulator.Reservation

/- The LR/SC protocol over runs, against the history of the completed accesses. A failed SC.W
   leaves the reservation in place, so the protocol breaks for the SC.W that follows it. -/
namespace XorOS.RVModel
open ISA Bits MemoryModel Runs
variable {Dev : Type}

/-- A processor, its memory and the accesses completed so far, oldest first. -/
structure Recorded (Dev : Type) where
  cpu : RVModel 32
  mem : MemoryModel 32 Dev
  history : List Access

def Recorded.after (t : Recorded Dev) (c : Call 32) : Recorded Dev where
  cpu := (t.cpu.call t.mem c).1
  mem := (t.cpu.call t.mem c).2
  history :=
    match c with
    | .step => t.history ++ (access t.cpu t.mem).toList
    | .interrupt _ => t.history

/-- Runs of any processor over any memory that holds no reservation. -/
def recordedRuns (Dev : Type) : System (Recorded Dev) (Call 32) where
  init t := t.mem.lrValid = false ∧ t.history = []
  step t c t' := t' = t.after c

/-- The most recent completed LR.W was to a, and no store, AMO or SC.W completed since. -/
def Reserved (history : List Access) (a : BitVec 32) : Prop :=
  history.getLast? = some (.lr a)

/-- The most recent completed LR.W was to a, and what completed since are SC.W, at least one,
    all to other addresses. -/
def ForeignSc (history : List Access) (a : BitVec 32) : Prop :=
  ∃ before since, history = before ++ .lr a :: since ∧ since ≠ [] ∧
    ∀ x ∈ since, ∃ b, b ≠ a ∧ x = .sc b

def held (history : List Access) : Option (BitVec 32) := history.foldl heldAfter none

theorem held_append (history : List Access) (x : Access) :
    held (history ++ [x]) = heldAfter (held history) x := by
  unfold held
  rw [List.foldl_append]
  rfl

theorem reserved_append (history : List Access) (x : Access) (a : BitVec 32) :
    Reserved (history ++ [x]) a ↔ x = .lr a := by
  unfold Reserved
  rw [List.getLast?_concat]
  exact Option.some_inj

theorem foreignSc_append (history : List Access) (x : Access) (a : BitVec 32) :
    ForeignSc (history ++ [x]) a ↔
      (∃ b, b ≠ a ∧ x = .sc b) ∧ (Reserved history a ∨ ForeignSc history a) := by
  constructor
  · rintro ⟨before, since, split, nonempty, foreign⟩
    obtain ⟨since', last, rfl⟩ := List.eq_nil_or_concat since |>.resolve_left nonempty
    rw [List.concat_eq_append, ← List.cons_append, ← List.append_assoc] at split
    obtain ⟨rfl, same⟩ := List.append_inj' split rfl
    simp only [List.cons.injEq, and_true] at same
    subst same
    refine ⟨foreign x (by simp), ?_⟩
    rcases List.eq_nil_or_concat since' with rfl | ⟨_, _, eq⟩
    · refine Or.inl ?_
      unfold Reserved
      rw [List.getLast?_concat]
    · refine Or.inr ⟨before, since', rfl, by simp [eq], fun y mem => foreign y (by simp [mem])⟩
  · rintro ⟨last, reserved | ⟨before, since, rfl, _, foreign⟩⟩
    · obtain ⟨before, rfl⟩ := List.getLast?_eq_some_iff.mp reserved
      refine ⟨before, [x], by simp, by simp, fun y mem => ?_⟩
      rw [List.mem_singleton.mp mem]
      exact last
    · refine ⟨before, since ++ [x], by simp, by simp, fun y mem => ?_⟩
      rcases List.mem_append.mp mem with old | new
      · exact foreign y old
      · rw [List.mem_singleton.mp new]
        exact last

theorem held_iff (history : List Access) (a : BitVec 32) :
    held history = some a ↔ Reserved history a ∨ ForeignSc history a := by
  induction history using List.reverseRecOn with
  | nil => simp [held, Reserved, ForeignSc]
  | append_singleton history x ih =>
    rw [held_append, reserved_append, foreignSc_append, ← ih]
    cases x with
    | lr pa => simp [heldAfter]
    | sc pa =>
      simp only [heldAfter, reduceCtorEq, false_or, Access.sc.injEq]
      by_cases same : held history = some pa
      · simp only [same, if_true, reduceCtorEq, Option.some.injEq, false_iff]
        rintro ⟨⟨b, ne, rfl⟩, rfl⟩
        exact ne rfl
      · rw [if_neg same]
        constructor
        · intro here
          refine ⟨⟨pa, ?_, rfl⟩, here⟩
          rintro rfl
          exact same here
        · exact And.right
    | store => simp [heldAfter]
    | amo => simp [heldAfter]

theorem recordedRuns_invariant {t : Recorded Dev} (reached : (recordedRuns Dev).Reachable t) :
    reservation t.mem = held t.history ∧ HeldReadable t.mem := by
  refine reached.invariant
    (fun t => reservation t.mem = held t.history ∧ HeldReadable t.mem) ?_ ?_
  · rintro t ⟨free, empty⟩
    have none : reservation t.mem = none := by simp [reservation, free]
    refine ⟨by rw [none, empty]; rfl, fun pa held => ?_⟩
    rw [none] at held
    simp at held
  · rintro t c t' ⟨same, readable⟩ rfl
    cases c with
    | step =>
      refine ⟨?_, step_heldReadable t.cpu readable⟩
      have next := step_reservation t.cpu readable
      change reservation (t.cpu.step t.mem).2.2 =
        held (t.history ++ (access t.cpu t.mem).toList)
      rw [next, same]
      cases access t.cpu t.mem with
      | none => simp
      | some x => exact (held_append t.history x).symm
    | interrupt cause => exact ⟨same, readable⟩

/-- What the protocol asks of an SC.W to a that ends in s' and m'. -/
structure ScProtocol (t : Recorded Dev) (d : DecodedInstr 32) (a : BitVec 32) (s' : RVModel 32)
    (m' : MemoryModel 32 Dev) : Prop where
  succeeds : Reserved t.history a → ScSucceeds t.cpu d t.mem a s' m'
  fails : ¬Reserved t.history a → ScFails t.cpu d t.mem s' m'

/-- An SC.W that succeeds in vain: no register takes the result, and the write changes nothing. -/
def Unseen (t : Recorded Dev) (d : DecodedInstr 32) (a : BitVec 32) : Prop :=
  d.rd = 0#5 ∧ Untouched t.mem (t.mem.writeWord a (t.cpu.regs.get d.rs2)).2

theorem writeWord_invalidateReservation (m : MemoryModel 32 Dev) (a : BitVec 32) (v : WordT) :
    (m.invalidateReservation.writeWord a v).2 = (m.writeWord a v).2.invalidateReservation := by
  have mmio : m.invalidateReservation.findMmio a = m.findMmio a := rfl
  have bounds : m.invalidateReservation.checkBounds a 4 = m.checkBounds a 4 := rfl
  unfold writeWord
  rw [mmio, bounds]
  split
  · rfl
  split
  · rfl
  · rfl

theorem not_reserved_of_foreignSc {history : List Access} {a : BitVec 32}
    (foreign : ForeignSc history a) : ¬Reserved history a := by
  obtain ⟨before, since, split, nonempty, others⟩ := foreign
  obtain ⟨since', last, rfl⟩ := List.eq_nil_or_concat since |>.resolve_left nonempty
  obtain ⟨b, _, rfl⟩ := others last (by simp)
  rw [split, List.concat_eq_append, ← List.cons_append, ← List.append_assoc, reserved_append]
  simp

/-- A success where the protocol wants a failure: only an unseen one passes for it. -/
theorem scFails_iff_unseen {t : Recorded Dev} {d : DecodedInstr 32} {a : BitVec 32}
    {s' : RVModel 32} {m' : MemoryModel 32 Dev} (done : ScSucceeds t.cpu d t.mem a s' m') :
    ScFails t.cpu d t.mem s' m' ↔ Unseen t d a := by
  obtain ⟨regs, wrote⟩ := done
  have written : m' = (t.mem.writeWord a (t.cpu.regs.get d.rs2)).2.invalidateReservation := by
    rw [← writeWord_invalidateReservation, wrote]
  constructor
  · rintro ⟨failed, layout, data, dev⟩
    rw [written] at layout data dev
    refine ⟨?_, layout, data, dev⟩
    by_contra visible
    have zero : s'.regs.get d.rd = 0#32 := by
      rw [regs]
      exact RegisterFile.get_set_self _ _ visible
    rw [failed, RegisterFile.get_set_self _ _ visible] at zero
    exact absurd zero (by decide)
  · rintro ⟨hidden, layout, data, dev⟩
    refine ⟨?_, ?_⟩
    · rw [regs, hidden]
      simp [RegisterFile.set]
    · rw [written]
      exact ⟨layout, data, dev⟩

/-- In every run, an SC.W to a that is not stopped by a trap follows the protocol unless other
    SC.W have failed since the LR.W to a; after those it breaks it, in what can be seen. -/
theorem sc_protocol_iff_no_foreign_sc {t : Recorded Dev}
    (reached : (recordedRuns Dev).Reachable t) {raw : WordT} {a : BitVec 32}
    (word : t.cpu.fetched t.mem = some raw) (sc : access t.cpu t.mem = some (.sc a)) :
    let d := Decoder.decode 32 raw
    let r := t.cpu.step t.mem
    (r.1 = .ok () ∧ r.2.1.trapCount = t.cpu.trapCount) ∧
      (ScProtocol t d a r.2.1 r.2.2 ↔ ¬ForeignSc t.history a ∨ Unseen t d a) := by
  intro d r
  obtain ⟨same, readable⟩ := recordedRuns_invariant reached
  obtain ⟨ok, count, outcome⟩ := step_sc word sc readable
  rw [same] at outcome
  refine ⟨⟨ok, count⟩, ?_⟩
  by_cases foreign : ForeignSc t.history a
  · have notReserved := not_reserved_of_foreignSc foreign
    rw [if_pos ((held_iff t.history a).mpr (Or.inr foreign))] at outcome
    rw [or_iff_right (not_not.mpr foreign), ← scFails_iff_unseen outcome]
    exact ⟨fun protocol => protocol.fails notReserved,
      fun fails => ⟨fun yes => absurd yes notReserved, fun _ => fails⟩⟩
  · have reserved : held t.history = some a ↔ Reserved t.history a := by
      rw [held_iff]
      exact or_iff_left foreign
    refine iff_of_true ⟨fun yes => ?_, fun no => ?_⟩ (Or.inl foreign)
    · rwa [if_pos (reserved.mpr yes)] at outcome
    · rwa [if_neg (fun holds => no (reserved.mp holds))] at outcome

def scCpu : RVModel 32 :=
  { RVModel.new ⟨Config.EXT_A⟩ with
    regs := ((RegisterFile.new.set 1#5 0x100#32).set 2#5 0x104#32).set 5#5 7#32 }

def lrScImage : MemoryModel 32 Unit := .ofWords 0x108 [0x1000A1AF#32, 0x1850A32F#32] ()

def foreignScImage : MemoryModel 32 Unit :=
  .ofWords 0x108 [0x1000A1AF#32, 0x1851222F#32, 0x1850A32F#32] ()

theorem recorded_reachable (m : MemoryModel 32 Unit) (free : m.lrValid = false) :
    (recordedRuns Unit).Reachable ⟨scCpu, m, []⟩ :=
  System.Reachable.of_init ⟨free, rfl⟩

theorem sc_protocol_iff_no_foreign_sc_lr :
    let t := (Recorded.mk scCpu lrScImage []).after .step
    t.history = [.lr 0x100#32] ∧ (t.cpu.step t.mem).2.1.regs.get 6#5 = 0#32 := by
  intro t
  have reached : (recordedRuns Unit).Reachable t :=
    (recorded_reachable lrScImage rfl).next rfl
  have history : t.history = [.lr 0x100#32] := by decide
  have fetched : t.cpu.fetched t.mem = some 0x1850A32F#32 := by decide
  have conditional : access t.cpu t.mem = some (.sc 0x100#32) := by decide
  obtain ⟨_, protocol⟩ := sc_protocol_iff_no_foreign_sc reached fetched conditional
  have reserved : Reserved t.history 0x100#32 := by rw [history]; rfl
  have alone : ¬ForeignSc t.history 0x100#32 := by
    rw [history, show [Access.lr 0x100#32] = [] ++ [.lr 0x100#32] from rfl, foreignSc_append]
    simp
  refine ⟨history, ?_⟩
  rw [((protocol.mpr (Or.inl alone)).succeeds reserved).1]
  decide

/-- The SC.W to 0x104 fails, and the one to 0x100 after it succeeds. -/
theorem sc_succeeds_after_failed_sc :
    let t := ((Recorded.mk scCpu foreignScImage []).after .step).after .step
    (recordedRuns Unit).Reachable t ∧ t.history = [.lr 0x100#32, .sc 0x104#32] ∧
      t.cpu.regs.get 4#5 = 1#32 ∧ t.cpu.fetched t.mem = some 0x1850A32F#32 ∧
      access t.cpu t.mem = some (.sc 0x100#32) ∧
      (t.cpu.step t.mem).2.1.regs.get 6#5 = 0#32 ∧
      (t.cpu.step t.mem).2.2.readWord 0x100#32 = .ok 7#32 ∧
      ¬ScProtocol t (Decoder.decode 32 0x1850A32F#32) 0x100#32 (t.cpu.step t.mem).2.1
        (t.cpu.step t.mem).2.2 := by
  intro t
  have history : t.history = [.lr 0x100#32, .sc 0x104#32] := by decide
  have zero : (t.cpu.step t.mem).2.1.regs.get 6#5 = 0#32 := by decide
  refine ⟨((recorded_reachable foreignScImage rfl).next rfl).next rfl, history, by decide,
    by decide, by decide, zero, by decide, ?_⟩
  intro protocol
  have notReserved : ¬Reserved t.history 0x100#32 := by
    rw [history]
    unfold Reserved
    decide
  have one : (t.cpu.step t.mem).2.1.regs.get 6#5 = 1#32 := by
    rw [(protocol.fails notReserved).1]
    exact RegisterFile.get_set_self _ _ (by decide)
  rw [zero] at one
  exact absurd one (by decide)

end XorOS.RVModel
