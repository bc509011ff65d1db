import XorOS.System.TraceFile

/- dumper.hpp, the dumps, and main.cpp, what run_os prints with --debug after the loop: the
   processor, the CLINT and two ranges of memory. -/
namespace XorOS

namespace Dumper

def ABI_NAMES : List String :=
  ["zero", "ra", "sp", "gp", "tp", "t0", "t1", "t2", "s0", "s1", "a0", "a1", "a2", "a3", "a4",
    "a5", "a6", "a7", "s2", "s3", "s4", "s5", "s6", "s7", "s8", "s9", "s10", "s11", "t3", "t4",
    "t5", "t6"]

def padded (width : Nat) (fill : Char) (text : List Char) : List Char :=
  List.replicate (width - text.length) fill ++ text

def setw2 (b : ByteT) : List Char := padded 2 '0' (Nat.toDigits 16 b.toNat)

def regCell (idx : BitVec 5) (v : BitVec 32) : List Char :=
  ["x".toList, padded 2 '0' (Nat.toDigits 10 idx.toNat), "(".toList,
    padded 4 ' ' (ABI_NAMES.getD idx.toNat "").toList, ")=0x".toList, setw8 v, "  ".toList,
    if idx &&& 3#5 = 3#5 then "\n".toList else []].flatten

def registers : List (BitVec 5) := (List.range 32).map (BitVec.ofNat 5)

def MIP : BitVec 12 := 0x344#12

def entries : List (String × BitVec 12) :=
  [("mstatus ", CSR.MSTATUS), ("mie     ", CSR.MIE), ("mtvec   ", CSR.MTVEC),
    ("mscratch", CSR.MSCRATCH), ("mepc    ", CSR.MEPC), ("mcause  ", CSR.MCAUSE),
    ("mtval   ", CSR.MTVAL), ("mip     ", MIP), ("satp    ", CSR.SATP)]

def csrCell (e : String × BitVec 12) (v : BitVec 32) : List Char :=
  [e.1.toList, " = 0x".toList, setw8 v,
    (if e.2 = CSR.MCAUSE then ["  (".toList, (causeName v).toList, ")".toList].flatten else []),
    "\n".toList].flatten

def dumpState (regs : RegisterFile 32) (csr : CsrFile 32) (pc : BitVec 32) : List Char :=
  ["\n=== CPU STATE ===\n".toList, "PC = 0x".toList, setw8 pc, "\n".toList,
    registers.flatMap fun idx => regCell idx (regs.get idx), "\n--- CSRs ---\n".toList,
    entries.flatMap fun e => csrCell e (csr.read e.2)].flatten

def dumpClint (mtime mtimecmp : BitVec 64) : List Char :=
  ["\n--- CLINT ---\n".toList, "mtime    = ".toList, decimal mtime ++ ['\n'],
    "mtimecmp = ".toList, decimal mtimecmp ++ ['\n']].flatten

section Memory
variable {Dev : Type} (m : MemoryModel 32 Dev) (start size : BitVec 32)

def shown (row col : BitVec 32) : Prop :=
  row + col < size ∧ start + row + col < BitVec.ofNat 32 m.size

instance (row col : BitVec 32) : Decidable (shown m start size row col) :=
  inferInstanceAs (Decidable (_ ∧ _))

def hexByte (addr : BitVec 32) : ByteT :=
  match m.readByte addr with
  | .ok b => b
  | .error _ => 0xFF#8

def asciiByte (addr : BitVec 32) : ByteT :=
  match m.readByte addr with
  | .ok b => b
  | .error _ => 0#8

def printable (b : ByteT) : Char :=
  if 0x20#8 ≤ b ∧ b ≤ 0x7E#8 then Char.ofNat b.toNat else '.'

def hexCell (row col : BitVec 32) : List Char :=
  (if col = 8#32 then " ".toList else []) ++
    if shown m start size row col then setw2 (hexByte m (start + row + col)) ++ " ".toList
    else "   ".toList

def asciiCell (row col : BitVec 32) : List Char :=
  if shown m start size row col then [printable (asciiByte m (start + row + col))] else " ".toList

def columns : List (BitVec 32) := (List.range 16).map (BitVec.ofNat 32)

def memRow (row : BitVec 32) : List Char :=
  ["0x".toList, setw8 (start + row), ":  ".toList, columns.flatMap (hexCell m start size row),
    " |".toList, columns.flatMap (asciiCell m start size row), "|\n".toList].flatten

/-- row = 0, 16, ... below size. From a size above 2^32 - 16 on the loop would not end. -/
def rows : List (BitVec 32) :=
  (List.range ((size.toNat + 15) / 16)).map fun i => BitVec.ofNat 32 (16 * i)

def dumpMemHex : List Char :=
  ["\n--- MEM 0x".toList, setw8 start, " .. 0x".toList, setw8 (start + size), " ---\n".toList,
    (rows size).flatMap (memRow m start size)].flatten

end Memory

theorem delimits_regCell (idx : BitVec 5) : Text.Delimits (regCell idx) := by
  intro v v' x y same
  obtain ⟨value, rest⟩ := delimits_setw8.piece
    (Text.skip (Text.skip (Text.skip (Text.skip (Text.skip same)))))
  exact ⟨value, Text.skip (Text.skip rest)⟩

theorem delimits_csrCell (e : String × BitVec 12) : Text.Delimits (csrCell e) := by
  intro v v' x y same
  obtain ⟨value, afterValue⟩ := delimits_setw8.piece (Text.skip (Text.skip same))
  -- the name is that of the cause, which has been read
  rw [value] at afterValue
  exact ⟨value, Text.skip (Text.skip afterValue)⟩

theorem mem_registers (idx : BitVec 5) : idx ∈ registers := by
  revert idx
  decide

theorem table_piece {ι : Type} {cells : List ι} {f g : ι → List Char} {Told : ι → Prop}
    (each : ∀ i ∈ cells, ∀ ⦃x y : List Char⦄, f i ++ x = g i ++ y → Told i ∧ x = y)
    {more more' : List (List Char)} {x y : List Char}
    (same : (cells.flatMap f :: more).flatten ++ x = (cells.flatMap g :: more').flatten ++ y) :
    (∀ i ∈ cells, Told i) ∧ more.flatten ++ x = more'.flatten ++ y := by
  rw [List.flatten_cons, List.flatten_cons, List.append_assoc, List.append_assoc] at same
  exact Text.table_tells each same

structure SameState (regs regs' : RegisterFile 32) (csr csr' : CsrFile 32) (pc pc' : BitVec 32) :
    Prop where
  pc : pc = pc'
  regs : ∀ idx, regs.get idx = regs'.get idx
  csr : ∀ e ∈ entries, csr.read e.2 = csr'.read e.2

theorem dumpState_tells {regs regs' : RegisterFile 32} {csr csr' : CsrFile 32}
    {pc pc' : BitVec 32} {x y : List Char}
    (same : dumpState regs csr pc ++ x = dumpState regs' csr' pc' ++ y) :
    SameState regs regs' csr csr' pc pc' ∧ x = y := by
  obtain ⟨counter, afterPc⟩ := delimits_setw8.piece (Text.skip (Text.skip same))
  obtain ⟨values, afterRegs⟩ : (∀ idx ∈ registers, regs.get idx = regs'.get idx) ∧ _ :=
    table_piece (fun idx _ _ _ cell => delimits_regCell idx cell) (Text.skip afterPc)
  obtain ⟨csrs, tails⟩ : (∀ e ∈ entries, csr.read e.2 = csr'.read e.2) ∧ _ :=
    table_piece (fun e _ _ _ cell => delimits_csrCell e cell) (Text.skip afterRegs)
  exact ⟨⟨counter, fun idx => values idx (mem_registers idx), csrs⟩, tails⟩

theorem dumpState_congr {regs regs' : RegisterFile 32} {csr csr' : CsrFile 32}
    {pc pc' : BitVec 32} (same : SameState regs regs' csr csr' pc pc') :
    dumpState regs csr pc = dumpState regs' csr' pc' := by
  obtain ⟨rfl, values, csrs⟩ := same
  have cells : registers.flatMap (fun idx => regCell idx (regs.get idx)) =
      registers.flatMap fun idx => regCell idx (regs'.get idx) :=
    List.flatMap_congr fun idx _ => by rw [values idx]
  have rows : entries.flatMap (fun e => csrCell e (csr.read e.2)) =
      entries.flatMap fun e => csrCell e (csr'.read e.2) :=
    List.flatMap_congr fun e listed => by rw [csrs e listed]
  unfold dumpState
  rw [cells, rows]

theorem dumpClint_tells {mtime mtime' mtimecmp mtimecmp' : BitVec 64} {x y : List Char}
    (same : dumpClint mtime mtimecmp ++ x = dumpClint mtime' mtimecmp' ++ y) :
    mtime = mtime' ∧ mtimecmp = mtimecmp' ∧ x = y := by
  obtain ⟨now, afterTime⟩ := delimits_decimal.piece (Text.skip (Text.skip same))
  obtain ⟨limit, tails⟩ := delimits_decimal.piece (Text.skip afterTime)
  exact ⟨now, limit, tails⟩

theorem delimits_setw2 : Text.Delimits setw2 := by
  intro b b' x y same
  have digits (b : ByteT) : setw2 b = Text.digits 16 2 b.toNat :=
    Text.padded_toDigits (by decide) (by decide) b.isLt
  rw [digits, digits] at same
  exact Text.delimits_word (by decide) same

section Tells
variable {Dev : Type} {m m' : MemoryModel 32 Dev} {start size : BitVec 32}

theorem shown_congr (layout : m.layout = m'.layout) (row col : BitVec 32) :
    shown m start size row col ↔ shown m' start size row col := by
  have sizes : m.size = m'.size := congrArg Prod.fst layout
  unfold shown
  rw [sizes]

theorem hexCell_tells (layout : m.layout = m'.layout) {row col : BitVec 32} {x y : List Char}
    (same : hexCell m start size row col ++ x = hexCell m' start size row col ++ y) :
    (shown m start size row col →
      hexByte m (start + row + col) = hexByte m' (start + row + col)) ∧ x = y := by
  unfold hexCell at same
  rw [List.append_assoc, List.append_assoc] at same
  have cell := List.append_cancel_left same
  by_cases listed : shown m start size row col
  · rw [if_pos listed, if_pos ((shown_congr layout row col).mp listed), List.append_assoc,
      List.append_assoc] at cell
    obtain ⟨value, rest⟩ := delimits_setw2 cell
    exact ⟨fun _ => value, List.append_cancel_left rest⟩
  · rw [if_neg listed, if_neg fun there => listed ((shown_congr layout row col).mpr there)] at cell
    exact ⟨fun there => absurd there listed, List.append_cancel_left cell⟩

theorem asciiCell_tells {row col : BitVec 32} {x y : List Char}
    (same : asciiCell m start size row col ++ x = asciiCell m' start size row col ++ y) :
    True ∧ x = y := by
  have single (m : MemoryModel 32 Dev) : (asciiCell m start size row col).length = 1 := by
    unfold asciiCell
    split
    · rfl
    · decide
  exact ⟨trivial, List.append_inj_right same ((single m).trans (single m').symm)⟩

theorem memRow_tells (layout : m.layout = m'.layout) {row : BitVec 32} {x y : List Char}
    (same : memRow m start size row ++ x = memRow m' start size row ++ y) :
    (∀ col ∈ columns, shown m start size row col →
      hexByte m (start + row + col) = hexByte m' (start + row + col)) ∧ x = y := by
  have cells := Text.skip (Text.skip (Text.skip same))
  obtain ⟨values, afterHex⟩ : (∀ col ∈ columns, shown m start size row col →
      hexByte m (start + row + col) = hexByte m' (start + row + col)) ∧ _ :=
    table_piece (fun _ _ _ _ cell => hexCell_tells layout cell) cells
  obtain ⟨-, tails⟩ : (∀ col ∈ columns, True) ∧ _ :=
    table_piece (fun _ _ _ _ cell => asciiCell_tells cell) (Text.skip afterHex)
  exact ⟨values, Text.skip tails⟩

/-- A range of the memory that no device has a part of. -/
structure PlainRange (m : MemoryModel 32 Dev) (start size : BitVec 32) : Prop where
  inside : start.toNat + size.toNat ≤ m.size
  small : m.size < 2 ^ 32
  free : ∀ a : BitVec 32, a.toNat < start.toNat + size.toNat → m.findMmio a = none

theorem PlainRange.byte (plain : PlainRange m start size) {k : BitVec 32} (below : k < size) :
    m.readByte (start + k) = .ok (m.byteAt (start + k)) := by
  obtain ⟨inside, small, free⟩ := plain
  have offset : k.toNat < size.toNat := below
  have address : (start + k).toNat = start.toNat + k.toNat := by
    rw [BitVec.toNat_add]
    exact Nat.mod_eq_of_lt (by omega)
  rw [m.readByte_ram (free _ (by omega)), if_pos (by omega)]

theorem PlainRange.congr (plain : PlainRange m start size) (layout : m.layout = m'.layout) :
    PlainRange m' start size := by
  have sizes : m.size = m'.size := congrArg Prod.fst layout
  have regions : m'.mmio = m.mmio := (congrArg Prod.snd layout).symm
  refine ⟨sizes ▸ plain.inside, sizes ▸ plain.small, fun a below => ?_⟩
  rw [MemoryModel.findMmio_congr regions]
  exact plain.free a below

theorem PlainRange.shown_iff (plain : PlainRange m start size) (row col : BitVec 32) :
    shown m start size row col ↔ row + col < size := by
  constructor
  · exact fun listed => listed.1
  · intro below
    refine ⟨below, ?_⟩
    obtain ⟨inside, small, -⟩ := plain
    have offset : (row + col).toNat < size.toNat := below
    rw [BitVec.add_assoc, BitVec.lt_def, BitVec.toNat_add, BitVec.toNat_ofNat]
    rw [Nat.mod_eq_of_lt (by omega), Nat.mod_eq_of_lt small]
    omega

theorem position {k : BitVec 32} (below : k < size) :
    ∃ row ∈ rows size, ∃ col ∈ columns, row + col = k := by
  have offset : k.toNat < size.toNat := below
  refine ⟨BitVec.ofNat 32 (16 * (k.toNat / 16)), ?_, BitVec.ofNat 32 (k.toNat % 16), ?_, ?_⟩
  · exact List.mem_map_of_mem (List.mem_range.mpr (by omega))
  · exact List.mem_map_of_mem (List.mem_range.mpr (Nat.mod_lt _ (by decide)))
  · rw [← BitVec.ofNat_add, Nat.div_add_mod, BitVec.ofNat_toNat, BitVec.setWidth_eq]

def SameBytes (m m' : MemoryModel 32 Dev) (start size : BitVec 32) : Prop :=
  ∀ k < size, m.byteAt (start + k) = m'.byteAt (start + k)

theorem dumpMemHex_tells (plain : PlainRange m start size) (layout : m.layout = m'.layout)
    {x y : List Char} (same : dumpMemHex m start size ++ x = dumpMemHex m' start size ++ y) :
    SameBytes m m' start size ∧ x = y := by
  have table := Text.skip (Text.skip (Text.skip (Text.skip (Text.skip same))))
  obtain ⟨values, tails⟩ : (∀ row ∈ rows size, ∀ col ∈ columns, shown m start size row col →
      hexByte m (start + row + col) = hexByte m' (start + row + col)) ∧ _ :=
    table_piece (fun _ _ _ _ cells => memRow_tells layout cells) table
  refine ⟨fun k below => ?_, tails⟩
  obtain ⟨row, inRows, col, inColumns, rfl⟩ := position below
  have told := values row inRows col inColumns ((plain.shown_iff row col).mpr below)
  rw [BitVec.add_assoc] at told
  unfold hexByte at told
  rw [plain.byte below, (plain.congr layout).byte below] at told
  exact told

theorem dumpMemHex_congr (plain : PlainRange m start size) (layout : m.layout = m'.layout)
    (same : SameBytes m m' start size) : dumpMemHex m start size = dumpMemHex m' start size := by
  have reads {row col : BitVec 32} (listed : shown m start size row col) :
      m.readByte (start + row + col) = m'.readByte (start + row + col) := by
    have below : row + col < size := listed.1
    rw [BitVec.add_assoc, plain.byte below, (plain.congr layout).byte below, same _ below]
  have hex (row col : BitVec 32) :
      hexCell m start size row col = hexCell m' start size row col := by
    unfold hexCell
    congr 1
    by_cases listed : shown m start size row col
    · rw [if_pos listed, if_pos ((shown_congr layout row col).mp listed)]
      unfold hexByte
      rw [reads listed]
    · rw [if_neg listed, if_neg fun there => listed ((shown_congr layout row col).mpr there)]
  have ascii (row col : BitVec 32) :
      asciiCell m start size row col = asciiCell m' start size row col := by
    unfold asciiCell
    by_cases listed : shown m start size row col
    · rw [if_pos listed, if_pos ((shown_congr layout row col).mp listed)]
      unfold asciiByte
      rw [reads listed]
    · rw [if_neg listed, if_neg fun there => listed ((shown_congr layout row col).mpr there)]
  have row (r : BitVec 32) : memRow m start size r = memRow m' start size r := by
    unfold memRow
    rw [funext (hex r), funext (ascii r)]
  unfold dumpMemHex
  rw [funext row]

end Tells

end Dumper

namespace RunOs
open RVModel Dumper Kernel

/-- What run_os prints after the loop with --debug. -/
def debugReport (s : OsRun) : List Char :=
  dumpState s.cpu.regs s.cpu.csr s.cpu.pc ++ (dumpClint s.dev.mtime s.dev.mtimecmp ++
    (dumpMemHex s.cache.backing 0x0000#32 0x200#32 ++
      dumpMemHex s.cache.backing 0x3000#32 0x1000#32))

structure SameReport (s s' : OsRun) : Prop where
  state : SameState s.cpu.regs s'.cpu.regs s.cpu.csr s'.cpu.csr s.cpu.pc s'.cpu.pc
  mtime : s.dev.mtime = s'.dev.mtime
  mtimecmp : s.dev.mtimecmp = s'.dev.mtimecmp
  boot : SameBytes s.cache.backing s'.cache.backing 0x0000#32 0x200#32
  bss : SameBytes s.cache.backing s'.cache.backing 0x3000#32 0x1000#32

theorem plainRange_of_layout {m : MemoryModel 32 OsDevice}
    (layout : m.layout = (osMemory 0#64).layout) {start size : BitVec 32}
    (low : start.toNat + size.toNat ≤ 0xF000) : PlainRange m start size := by
  have sized : m.size = 0x10000 := congrArg Prod.fst layout
  refine ⟨by omega, by omega, fun a below => ?_⟩
  exact findMmio_away (congrArg Prod.snd layout) rfl (Or.inl (by omega))

/-- The reports of two runs, of any images and wherever each of them stands, are the same if and
    only if the registers, the listed CSRs, the two timer values and the bytes of the two ranges
    are. -/
theorem debug_report_tells {bin bin' : List ByteT} {options options' : Options} {s s' : OsRun}
    (reached : (loop bin options).Reachable s) (reached' : (loop bin' options').Reachable s') :
    debugReport s = debugReport s' ↔ SameReport s s' := by
  have first := (clocked_of_reachable reached).layout
  have layout : s.cache.backing.layout = s'.cache.backing.layout :=
    first.trans (clocked_of_reachable reached').layout.symm
  have boot : PlainRange s.cache.backing 0x0000#32 0x200#32 :=
    plainRange_of_layout first (by decide)
  have bss : PlainRange s.cache.backing 0x3000#32 0x1000#32 :=
    plainRange_of_layout first (by decide)
  constructor
  · intro same
    obtain ⟨state, afterState⟩ := dumpState_tells same
    obtain ⟨now, limit, afterClint⟩ := dumpClint_tells afterState
    obtain ⟨low, afterBoot⟩ := dumpMemHex_tells boot layout afterClint
    rw [← List.append_nil (dumpMemHex s.cache.backing _ _),
      ← List.append_nil (dumpMemHex s'.cache.backing _ _)] at afterBoot
    exact ⟨state, now, limit, low, (dumpMemHex_tells bss layout afterBoot).1⟩
  · rintro ⟨state, now, limit, low, high⟩
    unfold debugReport
    rw [dumpState_congr state, now, limit, dumpMemHex_congr boot layout low,
      dumpMemHex_congr bss layout high]

def farBinary : List ByteT := addiBinary ++ (List.replicate 0x300 0#8 ++ [0xFF#8])

theorem farBinary_getD {i : Nat} (outside : i ≠ 0x304) :
    addiBinary.getD i 0#8 = farBinary.getD i 0#8 := by
  unfold farBinary
  by_cases code : i < 4
  · rw [List.getD_append _ _ _ _ code]
  · rw [List.getD_append_right _ _ _ _ (Nat.le_of_not_lt code),
      List.getD_eq_default _ _ (Nat.le_of_not_lt code)]
    change 0#8 = List.getD _ (i - 4) 0#8
    by_cases zeros : i - 4 < 0x300
    · rw [List.getD_append _ _ _ _ (by rwa [List.length_replicate]), List.getD_replicate _ zeros]
    · rw [List.getD_eq_default]
      rw [List.length_append, List.length_replicate, List.length_singleton]
      omega

theorem boot_traced {bin : List ByteT} (fits : bin.length ≤ MEM_SIZE) :
    boot bin ⟨true, true⟩ = some (tracedRun bin) := by
  unfold boot readBinary
  rw [if_pos fits]
  rfl

theorem debug_report_tells_far :
    debugReport (tracedRun addiBinary) = debugReport (tracedRun farBinary) := by
  have sized : farBinary.length = 4 + (0x300 + 1) := by
    unfold farBinary
    rw [List.length_append, List.length_append, List.length_replicate]
    rfl
  have booted : boot addiBinary ⟨true, true⟩ = some _ := boot_traced (by decide)
  have booted' : boot farBinary ⟨true, true⟩ = some _ := boot_traced (by rw [sized]; decide)
  have bytes {start size : BitVec 32} (outside : ∀ k < size, (start + k).toNat ≠ 0x304) :
      SameBytes (tracedRun addiBinary).cache.backing (tracedRun farBinary).cache.backing
        start size :=
    fun k below => farBinary_getD (outside k below)
  refine (debug_report_tells (.of_init booted) (.of_init booted')).mpr
    ⟨⟨rfl, fun _ => rfl, fun _ _ => rfl⟩, rfl, rfl, bytes ?_, bytes ?_⟩
  · intro k below
    bv_omega
  · intro k below
    bv_omega

end RunOs

end XorOS
