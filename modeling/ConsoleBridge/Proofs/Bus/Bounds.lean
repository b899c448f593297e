import ConsoleBridge.Proofs.Bus.PadIsolation
import ConsoleBridge.Proofs.Bytes.Guarded

/-!
# A console behind guards

Every request to a console, put together from guarded steps, with accesses that go by a table which is built when the
console is. Over any run no guard refuses a step, and the answers are those of the console. The sizes on which this
rests, the ROM of the cartridge and the table stay as they were built.
-/
namespace ConsoleBridge

open Bytes Bus

namespace Guarded

/-- A console and the table by which its bus finds what answers. -/
structure Board where
  table : List Mapping
  console : Console

/-- The range of so many addresses from the first one on. -/
def span (first size : Nat) (backing : Backing) : Except Fault Mapping := do
  return ⟨first, ← fits (first + size), backing⟩

def buildTable : Except Fault (List Mapping) := do
  let rdram ← span 0 rdramSize .rdram
  let save ← span 0x08000000 saveWindow .cartSave
  let registers ← Device.all.mapM fun device => span device.base device.size (.registers device)
  let pifRom ← span 0x1FC00000 pifRomSize .pifRom
  let pifRam ← span 0x1FC007C0 pifRamSize .pifRam
  let table := [rdram, save, ⟨0x10000000, 0x1FC00000, .cartRom⟩] ++ registers ++ [pifRom, pifRam]
  if table.Pairwise Mapping.Apart then return table else throw .overlap

/-- How far up a lane is, if a word is wide enough. -/
def shift (lane : UInt32) : Except Fault UInt32 := do
  let bits ← fits (lane.toNat * 8)
  if bits < 32 then return UInt32.ofNat bits else throw .overflow

-- What follows has the name of the operation that it guards.

/-- The word at `offset` of a memory, zero where there is none. -/
def loadIn (memory? : Option ByteArray) (offset : Nat) : Except Fault UInt32 :=
  match memory? with
  | some memory => loadWord memory offset
  | none => return 0

def readBacking (c : Console) (backing : Backing) (offset : Nat) : Except Fault UInt32 :=
  match backing with
  | .rdram => loadWord c.rdram offset
  | .cartSave => loadIn c.cartridge.save? offset
  | .cartRom => loadIn c.cartridge.image? offset
  | .registers device => return c.readRegister device offset
  | .pifRom => loadWord c.pifRom offset
  | .pifRam => loadWord c.pifRam offset

def moveBlock (c : Console) : Transfer → Except Fault Console
  | .toPif start => do
    let block ← collect c.pifRam.size (byteBehind c.rdram start)
    return { c with pifRam := block }
  | .fromPif start => do
    let answered ← (answerCommands? c.pifRam c.pads).elim (.error .outside) .ok
    return { c with pifRam := answered, rdram := ← scatter c.rdram start answered }

def runTransfer (c : Console) (transfer : Transfer) : Except Fault Console := do
  let moved ← moveBlock c transfer
  return { moved with si := moved.si.complete, mi := moved.mi.raise InterruptController.serialLine }

def writeSerial (c : Console) (offset : Nat) (value : UInt32) : Except Fault Console :=
  let mi := if offset = SerialInterface.statusOffset then c.mi.lower InterruptController.serialLine
    else c.mi
  match c.si.write offset value with
  | (si, some transfer) => runTransfer { c with si := si, mi := mi } transfer
  | (si, none) => return { c with si := si, mi := mi }

def mapSave (f : ByteArray → Except Fault ByteArray) : Cartridge → Except Fault Cartridge
  | .rom image (some save) => do return .rom image (some (← f save))
  | k => return k

def writeBacking (c : Console) (backing : Backing) (offset : Nat) (value : UInt32) : Except Fault Console :=
  match backing with
  | .rdram => do return { c with rdram := ← storeWord c.rdram offset value }
  | .cartSave => do return { c with cartridge := ← mapSave (storeWord · offset value) c.cartridge }
  | .cartRom => return c
  | .registers .si => writeSerial c offset value
  | .registers device => return c.writeRegister device offset value
  | .pifRom => return c
  | .pifRam => do return { c with pifRam := ← storeWord c.pifRam offset value }

def setState (c : Console) (m : MemoryState) : Except Fault Console := do
  let rdram ← refill c.rdram m.rdram
  match m.cartridgeRam with
  | some data => return { c with rdram := rdram, cartridge := ← mapSave (refill · data) c.cartridge }
  | none => return { c with rdram := rdram }

namespace Board

def on (k : Cartridge) : Except Fault Board := do return ⟨← buildTable, .new k⟩

def resolve (b : Board) (address : Nat) : Except Fault (Option (Backing × Nat)) :=
  match b.table.find? (·.holds address) with
  | some m => do return some (m.backing, ← difference address m.first)
  | none => return none

def read32 (b : Board) (address : UInt32) : Except Fault UInt32 := do
  match ← b.resolve (wordBase (physical address)) with
  | some (backing, offset) => readBacking b.console backing offset
  | none => return 0

/-- The word that holds `address`, with the lane down that the bits of the address under `select` tell. -/
def lane (b : Board) (address select : UInt32) : Except Fault UInt32 := do
  let up ← shift (address &&& select)
  return (← b.read32 address) >>> up

def read8 (b : Board) (address : UInt32) : Except Fault UInt8 := do return (← b.lane address 3).toUInt8

def write32 (b : Board) (address value : UInt32) : Except Fault Board := do
  match ← b.resolve (wordBase (physical address)) with
  | some (backing, offset) => return { b with console := ← writeBacking b.console backing offset value }
  | none => return b

def replaceLane (b : Board) (address select mask value : UInt32) : Except Fault Board := do
  let up ← shift (address &&& select)
  b.write32 address (Console.insertLane (← b.read32 address) mask up value)

def perform (b : Board) : Write → Except Fault Board
  | .byte address value => b.replaceLane address 3 0xFF value.toUInt32
  | .half address value => b.replaceLane address 2 0xFFFF value.toUInt32
  | .word address value => b.write32 address value

def apply (b : Board) : Operation → Except Fault Board
  | .write w => b.perform w
  | .setController player state => return { b with console := b.console.setController player state }
  | .loadPifRom data => do
    return { b with console := { b.console with pifRom := ← copyFront b.console.pifRom data } }
  | .setState m => do return { b with console := ← setState b.console m }
  | .reset => return { b with console := b.console.reset }

def ask (b : Board) : Question → Except Fault Question.Answer
  | .byte address => do return .byte (← b.read8 address)
  | .half address => do return .half (← b.lane address 2).toUInt16
  | .word address => do return .word (← b.read32 address)
  | .bytes address count => do
    return .bytes (← collect (count % 0x100000000) fun i => b.read8 (address + UInt32.ofNat i))
  | q => return b.console.answer q

def step (b : Board) : ConsoleRequest → Except Fault (Board × Option Question.Answer)
  | .change o => do return (← b.apply o, none)
  | .ask q => do return (b, some (← b.ask q))

def run (b : Board) : List ConsoleRequest → Except Fault (Board × List (Option Question.Answer))
  | [] => return (b, [])
  | r :: rest => do
    let (b, answer) ← b.step r
    let (b, answers) ← b.run rest
    return (b, answer :: answers)

end Board

/-- What no request takes from a console that was built with the cartridge `k`. -/
structure Kept (k : Cartridge) (c : Console) : Prop where
  sizes : c.sizes = Console.builtSizes (k.save?.map ByteArray.size)
  image : c.cartridge.image? = k.image?
  masked : c.Masked

variable {c : Console} {backing : Backing} {offset start : Nat} {a v : UInt32} {k : Cartridge} {w : Write}

theorem kept_new (k : Cartridge) : Kept k (.new k) := ⟨Console.sizes_new k, rfl, Console.masked_new k⟩

theorem Kept.next (hc : Kept k c) (r : ConsoleRequest) : Kept k (c.next r) := by
  cases r with
  | change o =>
    exact ⟨(Console.sizes_apply o).trans hc.sizes, (Console.image?_apply o).trans hc.image, hc.masked.apply o⟩
  | ask q => exact hc

theorem Kept.foldl (hc : Kept k c) (rs : List ConsoleRequest) : Kept k (rs.foldl Console.next c) := by
  induction rs generalizing c with
  | nil => exact hc
  | cons r rs ih => exact ih (hc.next r)

theorem Kept.size_pifRam (hc : Kept k c) : c.pifRam.size = 64 := congrArg Console.Sizes.pifRam hc.sizes

/-- The places of a block can be counted, as it begins in main memory. -/
theorem Kept.start_le (hc : Kept k c) : c.si.dramAddress.toNat + 64 ≤ 2 ^ 32 := by
  have hbounds := hc.masked.bounds
  omega

theorem buildTable_eq : buildTable = .ok mappings := rfl

theorem shift_ok {select : UInt32} (hs : select.toNat < 4) (a : UInt32) :
    shift (a &&& select) = .ok ((a &&& select) * 8) := by
  have hlane : (a &&& select).toNat ≤ select.toNat := Nat.and_le_right
  have hbits : UInt32.ofNat ((a &&& select).toNat * 8) = (a &&& select) * 8 := by
    apply UInt32.toNat_inj.mp
    simp
  rw [shift, fits_ok (by omega), ok_bind, if_pos (by omega), hbits]
  rfl

/-- The offset of a word that is mapped leaves room for its sum with the length of the word. -/
theorem offset_lt {address : Nat} (hat : Bus.resolve address = some (backing, offset)) : offset + 4 < 2 ^ 32 := by
  have hextent : backing.extent ≤ 0xFC00000 := by
    cases backing with
    | registers device =>
      cases device with
      | _ => decide
    | _ => decide
  have ho := (resolve_eq_some_iff.mp hat).2
  omega

theorem loadIn_ok (memory? : Option ByteArray) (ho : offset + 4 < 2 ^ 32) :
    loadIn memory? offset =
      .ok (match memory? with
        | some memory => Bytes.loadWord memory offset
        | none => 0) := by
  cases memory? with
  | none => rfl
  | some memory => exact loadWord_ok ho

private theorem readBacking_ok (ho : offset + 4 < 2 ^ 32) :
    readBacking c backing offset = .ok (c.readBacking backing offset) := by
  cases backing with
  | rdram => exact loadWord_ok ho
  | cartSave => exact loadIn_ok c.cartridge.save? ho
  | cartRom => exact loadIn_ok c.cartridge.image? ho
  | registers device => rfl
  | pifRom => exact loadWord_ok ho
  | pifRam => exact loadWord_ok ho

theorem mapSave_ok {f : ByteArray → Except Fault ByteArray} {g : ByteArray → ByteArray}
    (hf : ∀ save, f save = .ok (g save)) (k : Cartridge) : mapSave f k = .ok (k.mapSave g) := by
  cases k with
  | absent => rfl
  | rom image save =>
    cases save with
    | none => rfl
    | some save =>
      rw [mapSave, hf]
      rfl

private theorem moveBlock_toPif (hs : c.pifRam.size = 64) (hstart : start + 64 ≤ 2 ^ 32) :
    moveBlock c (.toPif start) = .ok (c.moveBlock (.toPif start)) := by
  rw [moveBlock, collect_ok fun i hi => byteBehind_ok (by omega)]
  rfl

private theorem moveBlock_fromPif (hs : c.pifRam.size = 64) (hstart : start + 64 ≤ 2 ^ 32) :
    moveBlock c (.fromPif start) = .ok (c.moveBlock (.fromPif start)) := by
  have hsize : (answerCommands c.pifRam c.pads).size = 64 := (size_answerCommands _ _).trans hs
  rw [moveBlock, answerCommands?_eq, Option.elim_some, ok_bind, scatter_ok (by rw [hsize]; exact hstart)]
  rfl

theorem runTransfer_ok {transfer : Transfer} (hm : moveBlock c transfer = .ok (c.moveBlock transfer)) :
    runTransfer c transfer = .ok (c.runTransfer transfer) := by
  rw [runTransfer, hm]
  rfl

private theorem writeSerial_ok (hc : Kept k c) : writeSerial c offset v = .ok (c.writeSerial offset v) := by
  by_cases ho : offset ∈ Console.serialOffsets
  · simp only [Console.serialOffsets, List.mem_cons, List.not_mem_nil, or_false] at ho
    rcases ho with rfl | rfl | rfl | rfl
    · rfl
    · exact runTransfer_ok (moveBlock_fromPif hc.size_pifRam hc.start_le)
    · exact runTransfer_ok (moveBlock_toPif hc.size_pifRam hc.start_le)
    · rfl
  · rw [writeSerial, Console.writeSerial, Console.write_other ho]
    rfl

private theorem writeBacking_ok (hc : Kept k c) (ho : offset + 4 < 2 ^ 32) :
    writeBacking c backing offset v = .ok (c.writeBacking backing offset v) := by
  cases backing with
  | rdram =>
    rw [writeBacking, storeWord_ok ho]
    rfl
  | cartSave =>
    rw [writeBacking, mapSave_ok fun save => storeWord_ok ho]
    rfl
  | cartRom => rfl
  | registers device =>
    cases device with
    | si => exact writeSerial_ok hc
    | _ => rfl
  | pifRom => rfl
  | pifRam =>
    rw [writeBacking, storeWord_ok ho]
    rfl

private theorem setState_ok (c : Console) (m : MemoryState) : setState c m = .ok (c.setState m) := by
  obtain ⟨rdram, cartridgeRam⟩ := m
  rw [setState, refill_ok, ok_bind]
  cases cartridgeRam with
  | none => rfl
  | some data =>
    dsimp only
    rw [mapSave_ok fun save => refill_ok save data]
    rfl

namespace Board

theorem resolve_ok (c : Console) (address : Nat) : resolve ⟨mappings, c⟩ address = .ok (Bus.resolve address) := by
  rw [resolve, Bus.resolve]
  cases hf : mappings.find? (·.holds address) with
  | none => rfl
  | some m =>
    have hholds := List.find?_some hf
    rw [holds_iff] at hholds
    dsimp only
    rw [difference_ok hholds.1]
    rfl

theorem read32_ok (c : Console) (a : UInt32) : read32 ⟨mappings, c⟩ a = .ok (c.read32 a) := by
  rw [read32, Console.read32, Console.wordAt?, resolve_ok, ok_bind]
  cases hat : Bus.resolve (wordBase (physical a)) with
  | none => rfl
  | some found => exact readBacking_ok (offset_lt hat)

theorem lane_ok {select : UInt32} (hs : select.toNat < 4) (c : Console) (a : UInt32) :
    lane ⟨mappings, c⟩ a select = .ok (c.read32 a >>> ((a &&& select) * 8)) := by
  rw [lane, shift_ok hs, ok_bind, read32_ok]
  rfl

theorem read8_ok (c : Console) (a : UInt32) : read8 ⟨mappings, c⟩ a = .ok (c.read8 a) := by
  rw [read8, lane_ok (by decide)]
  rfl

theorem write32_ok (hc : Kept k c) :
    write32 ⟨mappings, c⟩ a v = .ok ⟨mappings, c.write32 a v⟩ := by
  rw [write32, Console.write32, Console.wordAt?, resolve_ok, ok_bind]
  cases hat : Bus.resolve (wordBase (physical a)) with
  | none => rfl
  | some found =>
    dsimp only
    rw [writeBacking_ok hc (offset_lt hat)]
    rfl

theorem replaceLane_ok {select mask value : UInt32} (hs : select.toNat < 4) (hc : Kept k c) :
    replaceLane ⟨mappings, c⟩ a select mask value =
      .ok ⟨mappings, c.write32 a (Console.insertLane (c.read32 a) mask ((a &&& select) * 8) value)⟩ := by
  rw [replaceLane, shift_ok hs, ok_bind, read32_ok, ok_bind]
  exact write32_ok hc

private theorem perform_ok (hc : Kept k c) :
    perform ⟨mappings, c⟩ w = .ok ⟨mappings, c.perform w⟩ := by
  cases w with
  | byte address value => exact replaceLane_ok (by decide) hc
  | half address value => exact replaceLane_ok (by decide) hc
  | word address value => exact write32_ok hc

private theorem apply_ok (hc : Kept k c) (o : Operation) :
    apply ⟨mappings, c⟩ o = .ok ⟨mappings, c.apply o⟩ := by
  cases o with
  | write w => exact perform_ok hc
  | setController player state => rfl
  | loadPifRom data =>
    rw [apply, copyFront_ok]
    rfl
  | setState m =>
    rw [apply, setState_ok]
    rfl
  | reset => rfl

private theorem ask_ok (c : Console) (q : Question) : ask ⟨mappings, c⟩ q = .ok (c.answer q) := by
  cases q with
  | byte address =>
    rw [ask, read8_ok]
    rfl
  | half address =>
    rw [ask, lane_ok (by decide)]
    rfl
  | word address =>
    rw [ask, read32_ok]
    rfl
  | bytes address count =>
    rw [ask, collect_ok fun i _ => read8_ok c (address + UInt32.ofNat i)]
    rfl
  | _ => rfl

private theorem step_ok (hc : Kept k c) (r : ConsoleRequest) :
    step ⟨mappings, c⟩ r = .ok (⟨mappings, c.next r⟩, c.answer? r) := by
  cases r with
  | change o =>
    rw [step, apply_ok hc]
    rfl
  | ask q =>
    rw [step, ask_ok]
    rfl

private theorem run_ok (hc : Kept k c) (rs : List ConsoleRequest) :
    run ⟨mappings, c⟩ rs = .ok (⟨mappings, rs.foldl Console.next c⟩, c.answers rs) := by
  induction rs generalizing c with
  | nil => rfl
  | cons r rs ih =>
    rw [run, step_ok hc, ok_bind]
    dsimp only
    rw [ih (hc.next r)]
    rfl

/-- What stays as it was built with the cartridge `k`, and what holds of every address. -/
structure Intact (k : Cartridge) (b : Board) : Prop where
  table : buildTable = .ok b.table
  rdram : b.console.rdram.size = 0x800000
  pifRom : b.console.pifRom.size = 0x7C0
  pifRam : b.console.pifRam.size = 64
  vi : b.console.vi.size = 0x38
  ai : b.console.ai.size = 0x18
  pi : b.console.pi.size = 0x34
  ri : b.console.ri.size = 0x20
  save : b.console.cartridge.save?.map ByteArray.size = k.save?.map ByteArray.size
  image : b.console.cartridge.image? = k.image?
  alone : ∀ a : UInt32, b.table.countP (·.holds a.toNat) ≤ 1
  words : ∀ a : UInt32, a.toNat % 4 = 0 →
    (∃ m ∈ b.table, ∀ i < 4, m.holds (a.toNat + i) = true) ∨
      ∀ m ∈ b.table, ∀ i < 4, ¬ m.holds (a.toNat + i) = true

private theorem intact_of_kept (hc : Kept k c) : Intact k ⟨mappings, c⟩ where
  table := buildTable_eq
  rdram := congrArg Console.Sizes.rdram hc.sizes
  pifRom := congrArg Console.Sizes.pifRom hc.sizes
  pifRam := congrArg Console.Sizes.pifRam hc.sizes
  vi := congrArg Console.Sizes.vi hc.sizes
  ai := congrArg Console.Sizes.ai hc.sizes
  pi := congrArg Console.Sizes.pi hc.sizes
  ri := congrArg Console.Sizes.ri hc.sizes
  save := congrArg Console.Sizes.save hc.sizes
  image := hc.image
  alone a := countP_holds_le_one pairwise_apart a.toNat
  words _ ha := word_in_one_range ha

/-- A console can be built with any cartridge and asked anything, in any order: no index or slice lies outside, no number
overflows and no ranges meet. The answers and the console are those of the run without guards, and at its end, so at
every point of any run, all is as it was built and every physical address is resolved. -/
theorem within_bounds (k : Cartridge) (rs : List ConsoleRequest) :
    ∃ b, (on k).bind (·.run rs) = .ok (b, (Console.new k).answers rs) ∧
      b.console = rs.foldl Console.next (.new k) ∧ b.Intact k ∧
      ∀ a : UInt32, b.resolve a.toNat = .ok (Bus.resolve a.toNat) := by
  have hkept := (kept_new k).foldl rs
  refine ⟨⟨mappings, rs.foldl Console.next (.new k)⟩, ?_, rfl, intact_of_kept hkept, fun a => resolve_ok _ _⟩
  rw [on, buildTable_eq]
  exact run_ok (kept_new k) rs

end Board

end Guarded

end ConsoleBridge
