import XorOS.Simulator.MmioStaleness

/- Sequences of calls on RAM addresses, made of CacheModel<32> and of the memory behind it. -/
namespace XorOS
open Bits Runs MemoryModel

/-- What a call returns; which address the text of an exception names is left out, a cached
    byte read that throws names the word. -/
inductive Answer where
  | byte (b : ByteT)
  | half (h : HalfT)
  | word (w : WordT)
  | flag (b : Bool)
  | done
  | threw
  deriving DecidableEq, Repr

def Answer.ofExcept {α : Type} (wrap : α → Answer) (result : Except OutOfRange α) : Answer :=
  result.toOption.elim .threw wrap

def CacheOp.InRam {Dev : Type} (m : MemoryModel 32 Dev) : CacheOp Dev → Prop
  | .readByte a | .readHalf a | .readWord a | .writeByte a _ | .writeHalf a _ | .writeWord a _
  | .reserveLoad a | .storeConditional a _ => m.findMmio a = none
  | .invalidateReservation | .device _ => True

namespace CacheModel
variable {Dev : Type}

def answer (c : CacheModel 32 Dev) : CacheOp Dev → Answer
  | .readByte a => .ofExcept .byte (c.readByte a).1
  | .readHalf a => .ofExcept .half (c.readHalf a).1
  | .readWord a => .ofExcept .word (c.readWord a).1
  | .writeByte a v => .ofExcept (fun _ => .done) (c.writeByte a v).1
  | .writeHalf a v => .ofExcept (fun _ => .done) (c.writeHalf a v).1
  | .writeWord a v => .ofExcept (fun _ => .done) (c.writeWord a v).1
  | .storeConditional a v => .ofExcept .flag (c.storeConditional a v).1
  | .reserveLoad _ | .invalidateReservation | .device _ => .done

def directAnswer (m : MemoryModel 32 Dev) : CacheOp Dev → Answer
  | .readByte a => .ofExcept .byte (m.readByte a)
  | .readHalf a => .ofExcept .half (m.readHalf a)
  | .readWord a => .ofExcept .word (m.readWord a)
  | .writeByte a v => .ofExcept (fun _ => .done) (m.writeByte a v).1
  | .writeHalf a v => .ofExcept (fun _ => .done) (m.writeHalf a v).1
  | .writeWord a v => .ofExcept (fun _ => .done) (m.writeWord a v).1
  | .storeConditional a v => .ofExcept .flag (m.storeConditional a v).1
  | .reserveLoad _ | .invalidateReservation | .device _ => .done

def call (c : CacheModel 32 Dev) (op : CacheOp Dev) : Answer × CacheModel 32 Dev :=
  (c.answer op, c.apply op)

def directCall (m : MemoryModel 32 Dev) (op : CacheOp Dev) : Answer × MemoryModel 32 Dev :=
  (directAnswer m op, direct m op)

theorem device_coherent {c : CacheModel 32 Dev} (h : Coherent c) (d : Dev) :
    Coherent (c.withBacking { c.backing with dev := d }) :=
  coherent_withBacking h rfl rfl fun _ => rfl

/-- One call on RAM: the same answer, the same memory, and the lines stay those of the memory. -/
theorem call_coherent {c : CacheModel 32 Dev} (h : Coherent c) {op : CacheOp Dev}
    (aligned : op.Aligned) (ram : op.InRam c.backing) :
    c.answer op = directAnswer c.backing op ∧ (c.apply op).backing = direct c.backing op ∧
      Coherent (c.apply op) := by
  cases op with
  | readByte a =>
    obtain ⟨same, backing, coherent⟩ := readByte_coherent h ram
    exact ⟨congrArg (fun result => result.elim .threw Answer.byte) same, backing, coherent⟩
  | readHalf a =>
    obtain ⟨same, backing, coherent⟩ := readHalf_coherent h aligned ram
    exact ⟨congrArg (fun result => result.elim .threw Answer.half) same, backing, coherent⟩
  | readWord a =>
    obtain ⟨same, backing, coherent⟩ := fetchWord_coherent h aligned ram
    exact ⟨congrArg (Answer.ofExcept .word) same, backing, coherent⟩
  | writeByte a v =>
    obtain ⟨same, backing, coherent⟩ := writeByte_coherent h ram v
    exact ⟨congrArg (Answer.ofExcept _) same, backing, coherent⟩
  | writeHalf a v =>
    obtain ⟨same, backing, coherent⟩ := writeHalf_coherent h aligned ram v
    exact ⟨congrArg (Answer.ofExcept _) same, backing, coherent⟩
  | writeWord a v =>
    obtain ⟨same, backing, coherent⟩ := writeWord_coherent h aligned ram v
    exact ⟨congrArg (Answer.ofExcept _) same, backing, coherent⟩
  | storeConditional a v =>
    obtain ⟨same, backing, coherent⟩ := storeConditional_coherent h aligned ram v
    exact ⟨congrArg (Answer.ofExcept .flag) same, backing, coherent⟩
  | reserveLoad a => exact ⟨rfl, rfl, reserveLoad_coherent h a⟩
  | invalidateReservation => exact ⟨rfl, rfl, invalidateReservation_coherent h⟩
  | device d => exact ⟨rfl, rfl, device_coherent h d⟩

theorem inRam_congr {m m' : MemoryModel 32 Dev} (same : m'.mmio = m.mmio) (op : CacheOp Dev) :
    op.InRam m' ↔ op.InRam m := by
  cases op with
  | invalidateReservation => exact Iff.rfl
  | device d => exact Iff.rfl
  | _ =>
    simp only [CacheOp.InRam]
    rw [findMmio_congr same]

structure Fronts (m : MemoryModel 32 Dev) (c : CacheModel 32 Dev) (direct : MemoryModel 32 Dev) :
    Prop where
  backing : c.backing = direct
  mmio : direct.mmio = m.mmio
  coherent : Coherent c

theorem fronts_call {m direct : MemoryModel 32 Dev} {c : CacheModel 32 Dev}
    (h : Fronts m c direct) {op : CacheOp Dev} (aligned : op.Aligned) (ram : op.InRam m) :
    (c.call op).1 = (directCall direct op).1 ∧ Fronts m (c.call op).2 (directCall direct op).2 := by
  obtain ⟨rfl, mmio, coherent⟩ := h
  obtain ⟨same, backing, coherent'⟩ :=
    call_coherent coherent aligned ((inRam_congr mmio op).mpr ram)
  have kept : (CacheModel.direct c.backing op).mmio = c.backing.mmio :=
    congrArg Prod.snd (direct_layout c.backing op)
  exact ⟨same, backing, kept.trans mmio, coherent'⟩

/-- A sequence of aligned calls on RAM gets the same answers of the cache as of the memory, leaves
    the same memory and reservation behind it, and every resident line holds the word of the
    memory at its tag. -/
theorem cached_calls_eq_direct_calls (m : MemoryModel 32 Dev) (words : WholeWords m)
    {capacity : Nat} (room : 1 ≤ capacity) (ops : List (CacheOp Dev))
    (calls : ∀ op ∈ ops, op.Aligned ∧ op.InRam m) :
    let cached := respond call ops (new m capacity)
    let direct := respond directCall ops m
    cached.1 = direct.1 ∧ cached.2.backing = direct.2 ∧
      ∀ tag it, cached.2.index.lookup tag = some it →
        direct.2.readWord tag = .ok (cached.2.value it) := by
  have start : Fronts m (new m capacity) m := ⟨rfl, rfl, coherent_new words room⟩
  have step : ∀ c direct op, Fronts m c direct → op.Aligned ∧ op.InRam m →
      (call c op).1 = (directCall direct op).1 ∧ Fronts m (call c op).2 (directCall direct op).2 :=
    fun c direct op fronts allowed => fronts_call fronts allowed.1 allowed.2
  obtain ⟨answers, backing, _, coherent⟩ :=
    respond_simulation (Fronts m) (fun op => op.Aligned ∧ op.InRam m) step ops _ _ start calls
  refine ⟨answers, backing, fun tag it resident => ?_⟩
  have line := coherent.lines.of_lookup resident
  rw [← backing, MemoryModel.readWord_ram _ line.ram, if_pos line.inside]
  exact congrArg Except.ok line.value.symm

def mergeAndEvict : List (CacheOp Unit) :=
  [.readWord 0#32, .writeByte 1#32 0xAB#8, .readHalf 0#32, .readWord 4#32, .readByte 8#32]

theorem cached_calls_eq_direct_calls_merge :
    (respond call mergeAndEvict (new (MemoryModel.new 8 () : MemoryModel 32 Unit) 1)).1 =
      [.word 0#32, .done, .half 0xAB00#16, .word 0#32, .threw] := by
  have words : WholeWords (MemoryModel.new 8 () : MemoryModel 32 Unit) :=
    ⟨rfl, fun r member => absurd member List.not_mem_nil⟩
  have calls : ∀ op ∈ mergeAndEvict,
      op.Aligned ∧ op.InRam (MemoryModel.new 8 () : MemoryModel 32 Unit) := by
    intro op member
    simp only [mergeAndEvict, List.mem_cons, List.not_mem_nil, or_false] at member
    rcases member with rfl | rfl | rfl | rfl | rfl
    · exact ⟨(lowClear_iff_mod 2 _).mpr rfl, rfl⟩
    · exact ⟨trivial, rfl⟩
    · exact ⟨(lowClear_iff_mod 1 _).mpr rfl, rfl⟩
    · exact ⟨(lowClear_iff_mod 2 _).mpr rfl, rfl⟩
    · exact ⟨trivial, rfl⟩
  rw [(cached_calls_eq_direct_calls _ words (by decide) mergeAndEvict calls).1]
  decide

end CacheModel

end XorOS
