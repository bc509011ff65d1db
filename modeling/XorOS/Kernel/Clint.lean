import XorOS.Simulator.MemoryBounds
import XorOS.Simulator.MmioStaleness

/- clint.h on the CLINT registers of run_os, a 64-bit device behind 32-bit words: mtimecmp written
   in three stores, mtime read in three loads. -/
namespace XorOS.Kernel.Clint
open Bits Runs MemoryModel

def CLINT_MTIME_LO : BitVec 32 := 0xF004#32
def CLINT_MTIME_HI : BitVec 32 := 0xF008#32
def CLINT_MTIMECMP_LO : BitVec 32 := 0xF00C#32
def CLINT_MTIMECMP_HI : BitVec 32 := 0xF010#32

/-- The comparison of run_os after each step. -/
def Due (d : OsDevice) : Prop := d.mtime ≥ d.mtimecmp

def stores (val : BitVec 64) : List (BitVec 32 × WordT) :=
  [(CLINT_MTIMECMP_HI, 0xFFFFFFFF#32), (CLINT_MTIMECMP_LO, val.setWidth 32),
    (CLINT_MTIMECMP_HI, (val >>> 32).setWidth 32)]

/-- A call of clint_mtimecmp_write under way: the stores made so far, and the cache of run_os. -/
structure MtimecmpWrite where
  stored : Nat
  cache : CacheModel 32 OsDevice

inductive Event where
  | elapse (mtime : BitVec 64)
  | other (op : CacheOp OsDevice)
  | store

def Elsewhere : CacheOp OsDevice → Prop
  | .writeByte a _ | .writeHalf a _ | .writeWord a _ | .storeConditional a _ =>
      a < 0xF00C#32 ∨ 0xF014#32 ≤ a
  | .device _ => False
  | .readByte _ | .readHalf _ | .readWord _ | .reserveLoad _ | .invalidateReservation => True

/-- mtime passes as it likes between and after the stores, below 2 ^ 64 - 2 ^ 32. -/
def mtimecmpWrite (val : BitVec 64) : System MtimecmpWrite Event where
  init s := s.stored = 0 ∧ s.cache.backing.layout = (osMemory 0#64).layout ∧
    s.cache.backing.dev.mtime.toNat < 2 ^ 64 - 2 ^ 32
  step s e s' :=
    match e with
    | .elapse mtime => s.cache.backing.dev.mtime ≤ mtime ∧ mtime.toNat < 2 ^ 64 - 2 ^ 32 ∧
        s' = { s with
          cache := s.cache.apply (.device { s.cache.backing.dev with mtime := mtime }) }
    | .other op => Elsewhere op ∧ s' = { s with cache := s.cache.apply op }
    | .store => ∃ a v, (stores val)[s.stored]? = some (a, v) ∧
        s' = ⟨s.stored + 1, s.cache.apply (.writeWord a v)⟩

def Written (val : BitVec 64) (mtimecmp : BitVec 64) : Nat → Prop
  | 0 => True
  | 1 => mtimecmp.toNat / 2 ^ 32 = 2 ^ 32 - 1
  | 2 => mtimecmp.toNat = (2 ^ 32 - 1) * 2 ^ 32 + val.toNat % 2 ^ 32
  | _ => mtimecmp = val

structure Arming (val : BitVec 64) (s : MtimecmpWrite) : Prop where
  layout : s.cache.backing.layout = (osMemory 0#64).layout
  early : s.cache.backing.dev.mtime.toNat < 2 ^ 64 - 2 ^ 32
  written : Written val s.cache.backing.dev.mtimecmp s.stored

theorem toNat_writeHi (v : WordT) (x : BitVec 64) :
    ((v.setWidth 64 <<< 32) ||| (x &&& 0xFFFFFFFF#64)).toNat =
      v.toNat * 2 ^ 32 + x.toNat % 2 ^ 32 := by
  have wide : (v.setWidth 64).toNat = v.toNat := BitVec.toNat_setWidth_of_le (by decide)
  have bound := v.isLt
  have high := toNat_shiftLeft_of_lt (x := v.setWidth 64) (k := 32) (by omega)
  have low : (x &&& 0xFFFFFFFF#64).toNat = x.toNat % 2 ^ 32 :=
    toNat_and_mask (w := 64) (k := 32) (by decide) x
  rw [toNat_or_of_lt 32 (by omega) (by omega), high, low, wide]

theorem toNat_writeLo (v : WordT) (x : BitVec 64) :
    ((x &&& 0xFFFFFFFF00000000#64) ||| v.setWidth 64).toNat =
      x.toNat / 2 ^ 32 * 2 ^ 32 + v.toNat := by
  have wide : (v.setWidth 64).toNat = v.toNat := BitVec.toNat_setWidth_of_le (by decide)
  have bound := v.isLt
  have high : (x &&& 0xFFFFFFFF00000000#64).toNat = x.toNat - x.toNat % 2 ^ 32 :=
    toNat_and_not_mask (w := 64) (k := 32) (by decide) x
  rw [toNat_or_of_lt 32 (by omega) (by omega), high, wide]
  omega

section Device
variable {m : MemoryModel 32 OsDevice}

theorem writeWord_mtimecmpHi (layout : m.layout = (osMemory 0#64).layout) (v : WordT) :
    m.writeWord CLINT_MTIMECMP_HI v = (.ok (), { m with dev := { m.dev with
      mtimecmp := (v.setWidth 64 <<< 32) ||| (m.dev.mtimecmp &&& 0xFFFFFFFF#64) } }) := by
  unfold writeWord
  rw [findMmio_of_layout layout]
  rfl

theorem writeWord_mtimecmpLo (layout : m.layout = (osMemory 0#64).layout) (v : WordT) :
    m.writeWord CLINT_MTIMECMP_LO v = (.ok (), { m with dev := { m.dev with
      mtimecmp := (m.dev.mtimecmp &&& 0xFFFFFFFF00000000#64) ||| v.setWidth 64 } }) := by
  unfold writeWord
  rw [findMmio_of_layout layout]
  rfl

theorem readWord_mtimeHi (layout : m.layout = (osMemory 0#64).layout) :
    m.readWord CLINT_MTIME_HI = .ok ((m.dev.mtime >>> 32).setWidth 32) := by
  unfold readWord
  rw [findMmio_of_layout layout]
  rfl

theorem readWord_mtimeLo (layout : m.layout = (osMemory 0#64).layout) :
    m.readWord CLINT_MTIME_LO = .ok (m.dev.mtime.setWidth 32) := by
  unfold readWord
  rw [findMmio_of_layout layout]
  rfl

theorem region_elsewhere (layout : m.layout = (osMemory 0#64).layout) {a : BitVec 32}
    (away : a < 0xF00C#32 ∨ 0xF014#32 ≤ a) {r : MmioRegion 32 OsDevice}
    (found : m.findMmio a = some r) (b : BitVec 32) (v : WordT) (d : OsDevice) :
    (r.onWrite b v d).mtime = d.mtime ∧ (r.onWrite b v d).mtimecmp = d.mtimecmp := by
  rw [findMmio_of_layout layout] at found
  have test := List.find?_some found
  rw [decide_eq_true_iff] at test
  have listed := List.mem_of_find?_eq_some found
  simp only [osMemory, runOsMemory, mapMmio, new, List.nil_append, List.cons_append,
    List.mem_cons, List.not_mem_nil, or_false] at listed
  rcases listed with rfl | rfl | rfl
  · exact ⟨rfl, rfl⟩
  · exact ⟨rfl, rfl⟩
  · obtain ⟨from', below⟩ := test
    rcases away with before | past
    · exact absurd before (BitVec.not_lt.mpr from')
    · exact absurd below (BitVec.not_lt.mpr past)

theorem access_elsewhere (layout : m.layout = (osMemory 0#64).layout) (c : DataAccess 32)
    (away : c.addr < 0xF00C#32 ∨ 0xF014#32 ≤ c.addr) :
    (m.access c).2.dev.mtime = m.dev.mtime ∧ (m.access c).2.dev.mtimecmp = m.dev.mtimecmp := by
  constructor
  · apply access_keeps OsDevice.mtime
    intro r found a v d
    exact (region_elsewhere layout away found a v d).1
  · apply access_keeps OsDevice.mtimecmp
    intro r found a v d
    exact (region_elsewhere layout away found a v d).2

theorem storeConditional_elsewhere (layout : m.layout = (osMemory 0#64).layout) {a : BitVec 32}
    (away : a < 0xF00C#32 ∨ 0xF014#32 ≤ a) (v : WordT) :
    (m.storeConditional a v).2.dev.mtime = m.dev.mtime ∧
      (m.storeConditional a v).2.dev.mtimecmp = m.dev.mtimecmp := by
  have wrote := access_elsewhere (m := { m with lrValid := false }) layout (.writeWord a v) away
  simp only [access] at wrote
  unfold storeConditional
  split
  · exact ⟨rfl, rfl⟩
  rcases stored : MemoryModel.writeWord { m with lrValid := false } a v with ⟨result, m'⟩
  rw [stored] at wrote
  cases result with
  | error e => exact wrote
  | ok => exact wrote

theorem direct_elsewhere (layout : m.layout = (osMemory 0#64).layout) {op : CacheOp OsDevice}
    (away : Elsewhere op) :
    (CacheModel.direct m op).dev.mtime = m.dev.mtime ∧
      (CacheModel.direct m op).dev.mtimecmp = m.dev.mtimecmp := by
  cases op with
  | readByte a => exact ⟨rfl, rfl⟩
  | readHalf a => exact ⟨rfl, rfl⟩
  | readWord a => exact ⟨rfl, rfl⟩
  | writeByte a v => exact access_elsewhere layout (.writeByte a v) away
  | writeHalf a v => exact access_elsewhere layout (.writeHalf a v) away
  | writeWord a v => exact access_elsewhere layout (.writeWord a v) away
  | reserveLoad a => exact ⟨rfl, rfl⟩
  | storeConditional a v => exact storeConditional_elsewhere layout away v
  | invalidateReservation => exact ⟨rfl, rfl⟩
  | device d => exact absurd away id

end Device

theorem Arming.step {val : BitVec 64} {s s' : MtimecmpWrite} {e : Event} (arming : Arming val s)
    (step : (mtimecmpWrite val).step s e s') : Arming val s' := by
  obtain ⟨layout, early, written⟩ := arming
  cases e with
  | elapse mtime =>
    obtain ⟨_, bound, rfl⟩ := step
    exact ⟨layout, bound, written⟩
  | other op =>
    obtain ⟨away, rfl⟩ := step
    obtain ⟨sameTime, sameCmp⟩ := direct_elsewhere layout away
    constructor
    · rw [CacheModel.apply_backing, CacheModel.direct_layout]
      exact layout
    · rw [CacheModel.apply_backing, sameTime]
      exact early
    · rw [CacheModel.apply_backing, sameCmp]
      exact written
  | store =>
    obtain ⟨a, v, store, rfl⟩ := step
    have keeps : (CacheModel.apply s.cache (.writeWord a v)).backing.layout =
        (osMemory 0#64).layout := by
      rw [CacheModel.apply_backing, CacheModel.direct_layout]
      exact layout
    have device : (CacheModel.apply s.cache (.writeWord a v)).backing =
        (s.cache.backing.writeWord a v).2 := CacheModel.apply_backing s.cache _
    obtain ⟨stored, cache⟩ := s
    rcases stored with _ | _ | _ | more
    · obtain ⟨rfl, rfl⟩ := Prod.mk.inj (Option.some.inj store)
      rw [writeWord_mtimecmpHi layout] at device
      refine ⟨keeps, ?_, ?_⟩
      · rw [device]
        exact early
      · rw [device]
        change BitVec.toNat _ / 2 ^ 32 = 2 ^ 32 - 1
        rw [toNat_writeHi]
        have max : (0xFFFFFFFF#32).toNat = 2 ^ 32 - 1 := rfl
        omega
    · obtain ⟨rfl, rfl⟩ := Prod.mk.inj (Option.some.inj store)
      rw [writeWord_mtimecmpLo layout] at device
      have high : cache.backing.dev.mtimecmp.toNat / 2 ^ 32 = 2 ^ 32 - 1 := written
      refine ⟨keeps, ?_, ?_⟩
      · rw [device]
        exact early
      · rw [device]
        change BitVec.toNat _ = (2 ^ 32 - 1) * 2 ^ 32 + val.toNat % 2 ^ 32
        rw [toNat_writeLo, high, BitVec.toNat_setWidth]
    · obtain ⟨rfl, rfl⟩ := Prod.mk.inj (Option.some.inj store)
      rw [writeWord_mtimecmpHi layout] at device
      have low : cache.backing.dev.mtimecmp.toNat =
          (2 ^ 32 - 1) * 2 ^ 32 + val.toNat % 2 ^ 32 := written
      have half : ((val >>> 32).setWidth 32).toNat = val.toNat / 2 ^ 32 := by
        have bound := val.isLt
        rw [BitVec.toNat_setWidth, BitVec.toNat_ushiftRight, Nat.shiftRight_eq_div_pow]
        omega
      refine ⟨keeps, ?_, ?_⟩
      · rw [device]
        exact early
      · rw [device]
        apply BitVec.eq_of_toNat_eq
        rw [toNat_writeHi, half, low]
        omega
    · simp [stores] at store

theorem arming_of_reachable {val : BitVec 64} {s : MtimecmpWrite}
    (reached : (mtimecmpWrite val).Reachable s) : Arming val s := by
  apply reached.invariant (Arming val)
  · rintro s ⟨none, layout, early⟩
    refine ⟨layout, early, ?_⟩
    rw [none]
    trivial
  · intro s e s' before step
    exact before.step step

theorem step_store {val : BitVec 64} {s : MtimecmpWrite} {a : BitVec 32} {v : WordT}
    (store : (stores val)[s.stored]? = some (a, v)) :
    (mtimecmpWrite val).step s .store ⟨s.stored + 1, s.cache.apply (.writeWord a v)⟩ :=
  ⟨a, v, store, rfl⟩

theorem step_elapse {val : BitVec 64} {s : MtimecmpWrite} (mtime : BitVec 64)
    (later : s.cache.backing.dev.mtime ≤ mtime) (early : mtime.toNat < 2 ^ 64 - 2 ^ 32) :
    (mtimecmpWrite val).step s (.elapse mtime) { s with
      cache := s.cache.apply (.device { s.cache.backing.dev with mtime := mtime }) } :=
  ⟨later, early, rfl⟩

theorem store_returns {val : BitVec 64} {s : MtimecmpWrite}
    (reached : (mtimecmpWrite val).Reachable s) {a : BitVec 32} {v : WordT}
    (store : (stores val)[s.stored]? = some (a, v)) : (s.cache.writeWord a v).1 = .ok () := by
  have layout := (arming_of_reachable reached).layout
  have address : a = CLINT_MTIMECMP_HI ∨ a = CLINT_MTIMECMP_LO := by
    have listed := List.mem_of_getElem? store
    simp only [stores, List.mem_cons, Prod.mk.injEq, List.not_mem_nil, or_false] at listed
    rcases listed with ⟨here, _⟩ | ⟨here, _⟩ | ⟨here, _⟩
    · exact Or.inl here
    · exact Or.inr here
    · exact Or.inl here
  have wrote : ∃ m', s.cache.backing.writeWord a v = (.ok (), m') := by
    rcases address with rfl | rfl
    · exact ⟨_, writeWord_mtimecmpHi layout v⟩
    · exact ⟨_, writeWord_mtimecmpLo layout v⟩
  obtain ⟨m', wrote⟩ := wrote
  unfold CacheModel.writeWord
  rw [wrote]
  dsimp only
  split
  · rfl
  · rfl

/-- Between the first store and the last one the comparison is false, and then mtimecmp is val. -/
theorem timer_rearmed_quietly (val : BitVec 64) {s : MtimecmpWrite}
    (reached : (mtimecmpWrite val).Reachable s) :
    (0 < s.stored → s.stored < 3 → ¬Due s.cache.backing.dev) ∧
      (s.stored = 3 → s.cache.backing.dev.mtimecmp = val) := by
  obtain ⟨_, early, written⟩ := arming_of_reachable reached
  constructor
  · intro begun unfinished due
    have le : s.cache.backing.dev.mtimecmp.toNat ≤ s.cache.backing.dev.mtime.toNat := due
    have phase : s.stored = 1 ∨ s.stored = 2 := by omega
    rcases phase with one | two
    · rw [one] at written
      have high : s.cache.backing.dev.mtimecmp.toNat / 2 ^ 32 = 2 ^ 32 - 1 := written
      omega
    · rw [two] at written
      have low : s.cache.backing.dev.mtimecmp.toNat =
          (2 ^ 32 - 1) * 2 ^ 32 + val.toNat % 2 ^ 32 := written
      omega
  · intro finished
    rw [finished] at written
    exact written

/-- From 0x1_00000005 to 0x2_00000003, with time passing in between. -/
theorem timer_rearmed_quietly_call :
    ∃ s, (mtimecmpWrite 0x200000003#64).Reachable s ∧ s.stored = 3 ∧
      s.cache.backing.dev.mtimecmp = 0x200000003#64 := by
  have start : (mtimecmpWrite 0x200000003#64).Reachable
      ⟨0, .new (runOsMemory (.new 0x10000 ⟨4#64, 0x100000005#64, []⟩)) 64⟩ :=
    .of_init ⟨rfl, rfl, by decide⟩
  have first := start.next (step_store rfl)
  have later := first.next (step_elapse 9#64 (by decide) (by decide))
  have second := later.next (step_store rfl)
  have last := second.next (step_store rfl)
  exact ⟨_, last, rfl, (timer_rearmed_quietly _ last).2 rfl⟩

/-- clint_mtime, where device n is the memory that its n-th load sees. The value comes with the
    index of the first load of the last iteration; none when the fuel runs out before. -/
def clintMtime (device : Nat → MemoryModel 32 OsDevice) :
    Nat → Nat → Except OutOfRange (Option (BitVec 64 × Nat))
  | 0, _ => .ok none
  | fuel + 1, n => do
      let hi ← (device n).readWord CLINT_MTIME_HI
      let lo ← (device (n + 1)).readWord CLINT_MTIME_LO
      let again ← (device (n + 2)).readWord CLINT_MTIME_HI
      if again ≠ hi then clintMtime device fuel (n + 3)
      else return some ((hi.setWidth 64 <<< 32) ||| lo.setWidth 64, n)

section Mtime
variable {device : Nat → MemoryModel 32 OsDevice}

theorem clintMtime_succ (layout : ∀ n, (device n).layout = (osMemory 0#64).layout) (fuel n : Nat) :
    clintMtime device (fuel + 1) n =
      if ((device (n + 2)).dev.mtime >>> 32).setWidth 32 ≠
          (((device n).dev.mtime >>> 32).setWidth 32 : BitVec 32) then
        clintMtime device fuel (n + 3)
      else .ok (some (((((device n).dev.mtime >>> 32).setWidth 32).setWidth 64 <<< 32) |||
        ((device (n + 1)).dev.mtime.setWidth 32).setWidth 64, n)) := by
  rw [clintMtime, readWord_mtimeHi (layout n), readWord_mtimeLo (layout (n + 1)),
    readWord_mtimeHi (layout (n + 2))]
  rfl

theorem toNat_hi (x : BitVec 64) : ((x >>> 32).setWidth 32).toNat = x.toNat / 2 ^ 32 := by
  have bound := x.isLt
  rw [BitVec.toNat_setWidth, BitVec.toNat_ushiftRight, Nat.shiftRight_eq_div_pow]
  omega

/-- Equal high halves around the low one: the two halves are those of one instant. -/
theorem joined {x y z : BitVec 64} (xy : x ≤ y) (yz : y ≤ z)
    (same : ((z >>> 32).setWidth 32 : BitVec 32) = (x >>> 32).setWidth 32) :
    (((x >>> 32).setWidth 32).setWidth 64 <<< 32) ||| ((y.setWidth 32).setWidth 64) = y := by
  have le : x.toNat ≤ y.toNat := xy
  have ge : y.toNat ≤ z.toNat := yz
  have halves : z.toNat / 2 ^ 32 = x.toNat / 2 ^ 32 := by
    rw [← toNat_hi, ← toNat_hi, same]
  have bound := x.isLt
  have hi : (((x >>> 32).setWidth 32).setWidth 64).toNat = x.toNat / 2 ^ 32 := by
    rw [BitVec.toNat_setWidth_of_le (by decide), toNat_hi]
  have lo : ((y.setWidth 32).setWidth 64).toNat = y.toNat % 2 ^ 32 := by
    rw [BitVec.toNat_setWidth_of_le (by decide), BitVec.toNat_setWidth]
  have shifted := toNat_shiftLeft_of_lt (x := ((x >>> 32).setWidth 32).setWidth 64) (k := 32)
    (by omega)
  apply BitVec.eq_of_toNat_eq
  rw [toNat_or_of_lt 32 (by omega) (by omega), shifted, hi, lo]
  omega

theorem mtime_le (steady : ∀ n, (device n).dev.mtime ≤ (device (n + 1)).dev.mtime) {i j : Nat}
    (before : i ≤ j) : (device i).dev.mtime ≤ (device j).dev.mtime := by
  induction before with
  | refl => exact BitVec.le_refl _
  | step _ ih => exact BitVec.le_trans ih (steady _)

/-- What clint_mtime returns is mtime at its last load of the low half. -/
theorem clint_mtime_not_torn (layout : ∀ n, (device n).layout = (osMemory 0#64).layout)
    (steady : ∀ n, (device n).dev.mtime ≤ (device (n + 1)).dev.mtime) :
    ∀ {fuel n : Nat} {v : BitVec 64} {k : Nat}, clintMtime device fuel n = .ok (some (v, k)) →
      n ≤ k ∧ v = (device (k + 1)).dev.mtime ∧ (device n).dev.mtime ≤ v ∧
        v ≤ (device (k + 2)).dev.mtime := by
  intro fuel
  induction fuel with
  | zero =>
    intro n v k returned
    simp [clintMtime] at returned
  | succ fuel ih =>
    intro n v k returned
    rw [clintMtime_succ layout] at returned
    split at returned
    · obtain ⟨later, value, lower, upper⟩ := ih returned
      exact ⟨by omega, value, BitVec.le_trans (mtime_le steady (by omega)) lower, upper⟩
    · rename_i stable
      simp only [Except.ok.injEq, Option.some.injEq, Prod.mk.injEq] at returned
      obtain ⟨rfl, rfl⟩ := returned
      rw [joined (steady n) (steady (n + 1)) (not_not.mp stable)]
      exact ⟨Nat.le_refl n, rfl, steady n, steady (n + 1)⟩

theorem clintMtime_returns (layout : ∀ n, (device n).layout = (osMemory 0#64).layout) :
    ∀ {j n : Nat},
      (device (n + 3 * j + 2)).dev.mtime >>> 32 = (device (n + 3 * j)).dev.mtime >>> 32 →
      ∃ r, clintMtime device (j + 1) n = .ok (some r) := by
  intro j
  induction j with
  | zero =>
    intro n stable
    rw [clintMtime_succ layout]
    split
    · rename_i torn
      simp only [Nat.mul_zero, Nat.add_zero] at stable
      rw [stable] at torn
      exact absurd rfl torn
    · exact ⟨_, rfl⟩
  | succ j ih =>
    intro n stable
    rw [clintMtime_succ layout]
    split
    · apply ih
      rw [show n + 3 + 3 * j = n + 3 * (j + 1) by omega]
      exact stable
    · exact ⟨_, rfl⟩

end Mtime

def rollover (n : Nat) : MemoryModel 32 OsDevice :=
  osMemory (if n = 0 then 0xFFFFFFFF#64 else 0x100000000#64)

theorem clint_mtime_not_torn_rollover :
    ∃ v, clintMtime rollover 2 0 = .ok (some (v, 3)) ∧ v = (rollover 4).dev.mtime := by
  have layout : ∀ n, (rollover n).layout = (osMemory 0#64).layout := fun _ => rfl
  have steady : ∀ n, (rollover n).dev.mtime ≤ (rollover (n + 1)).dev.mtime := by
    intro n
    cases n with
    | zero => decide
    | succ n => exact BitVec.le_refl _
  have returned : clintMtime rollover 2 0 = .ok (some (0x100000000#64, 3)) := rfl
  exact ⟨_, returned, (clint_mtime_not_torn layout steady returned).2.1⟩

end XorOS.Kernel.Clint
