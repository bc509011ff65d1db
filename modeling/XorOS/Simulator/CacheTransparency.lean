import XorOS.Simulator.CacheCoherence
import XorOS.Simulator.MemorySimulation

/- RVModel<32, CacheModel<32>> over RAM is RVModel<32, MemoryModel<32>>. -/
namespace XorOS.CacheModel
open Bits Runs MemoryModel RVModel
variable {Dev : Type}

/-- The cache stands for the memory it wraps, which is RAM throughout. -/
structure Represents (c : CacheModel 32 Dev) (m : MemoryModel 32 Dev) : Prop where
  backing : c.backing = m
  ram : m.mmio = []
  coherent : Coherent c

theorem ram_of_layout {m m' : MemoryModel 32 Dev} (same : m'.layout = m.layout)
    (ram : m.mmio = []) : m'.mmio = [] :=
  (congrArg Prod.snd same).trans ram

theorem represents_sim :
    AlignedSim (M := CacheModel 32 Dev) (N := MemoryModel 32 Dev) Represents where
  readByte := by
    rintro c m ⟨rfl, ram, coherent⟩ a
    obtain ⟨same, backing, coherent'⟩ := readByte_coherent coherent (findMmio_empty _ ram a)
    exact ⟨same, backing, ram, coherent'⟩
  readHalf := by
    rintro c m ⟨rfl, ram, coherent⟩ a even
    obtain ⟨same, backing, coherent'⟩ := readHalf_coherent coherent even (findMmio_empty _ ram a)
    exact ⟨same, backing, ram, coherent'⟩
  readWord := by
    rintro c m ⟨rfl, ram, coherent⟩ a clear
    obtain ⟨same, backing, coherent'⟩ := fetchWord_coherent coherent clear (findMmio_empty _ ram a)
    exact ⟨same, backing, ram, coherent'⟩
  writeByte := by
    rintro c m ⟨rfl, ram, coherent⟩ a v
    obtain ⟨same, backing, coherent'⟩ := writeByte_coherent coherent (findMmio_empty _ ram a) v
    exact ⟨same, backing, ram_of_layout (writeByte_layout _ a v) ram, coherent'⟩
  writeHalf := by
    rintro c m ⟨rfl, ram, coherent⟩ a even v
    obtain ⟨same, backing, coherent'⟩ :=
      writeHalf_coherent coherent even (findMmio_empty _ ram a) v
    exact ⟨same, backing, ram_of_layout (writeHalf_layout _ a v) ram, coherent'⟩
  writeWord := by
    rintro c m ⟨rfl, ram, coherent⟩ a clear v
    obtain ⟨same, backing, coherent'⟩ :=
      writeWord_coherent coherent clear (findMmio_empty _ ram a) v
    exact ⟨same, backing, ram_of_layout (writeWord_layout _ a v) ram, coherent'⟩
  reserveLoad := by
    rintro c m ⟨rfl, ram, coherent⟩ a
    exact ⟨rfl, ram, reserveLoad_coherent coherent a⟩
  storeConditional := by
    rintro c m ⟨rfl, ram, coherent⟩ a clear v
    obtain ⟨same, backing, coherent'⟩ :=
      storeConditional_coherent coherent clear (findMmio_empty _ ram a) v
    exact ⟨same, backing, ram_of_layout (storeConditional_layout _ a v) ram, coherent'⟩
  invalidateReservation := by
    rintro c m ⟨rfl, ram, coherent⟩
    exact ⟨rfl, ram, invalidateReservation_coherent coherent⟩

/-- From one image, through the cache and without it, every number of steps gives the same
    outcomes of step(), the same processor and the same backing memory, its LR
    reservation included. cpu carries the Config and the hooks. -/
theorem cached_run_eq_direct_run (m : MemoryModel 32 Dev) (whole : m.size % 4 = 0)
    (ram : m.mmio = []) {capacity : Nat} (room : 1 ≤ capacity) (cpu : RVModel 32)
    (startPC stackPointer : BitVec 32) (n : Nat)
    (aligned : ∀ k < n,
      (stateAfter machine k (cpu.init startPC stackPointer, m)).1.PcAligned) :
    let cached := runFor machine n (cpu.init startPC stackPointer, new m capacity)
    let direct := runFor machine n (cpu.init startPC stackPointer, m)
    cached.1 = direct.1 ∧ cached.2.1 = direct.2.1 ∧ cached.2.2.backing = direct.2.2 := by
  have words : WholeWords m := ⟨whole, by simp [ram]⟩
  have start : Represents (new m capacity) m := ⟨rfl, ram, coherent_new words room⟩
  obtain ⟨outcomes, cpus, memories⟩ :=
    run_alike represents_sim (cpu.init startPC stackPointer) n start aligned
  exact ⟨outcomes, cpus, memories.backing⟩

def bootCpu : RVModel 32 := .new ⟨0#32⟩

/-- addi x1, x0, 7, and then the zero word that halts. -/
def addiImage : MemoryModel 32 Unit := .ofWords 8 [0x00700093#32] ()

theorem cached_run_eq_direct_run_addi :
    (runFor machine 2 (bootCpu.init 0#32 8#32, new addiImage 1)).2.1.regs.get 1#5 = 7#32 := by
  have aligned : ∀ k < 2,
      (stateAfter machine k (bootCpu.init 0#32 8#32, addiImage)).1.PcAligned := by decide
  have room : 1 ≤ 1 := by decide
  have same := (cached_run_eq_direct_run addiImage rfl rfl room bootCpu 0#32 8#32 2 aligned).2.1
  rw [same]
  decide

end XorOS.CacheModel
