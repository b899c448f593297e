import ConsoleBridge.Proofs.Process.Recording
import ConsoleBridge.Proofs.View.Spans

/-!
# Direct reads piece by piece

A direct read fills a buffer by one read of the process for each piece of main memory, up to the first that
fails. Each place of the buffer has its piece, which lies where the console's address does, so that the pieces
go around the end of main memory as often as the buffer is long.
-/
namespace ConsoleBridge

open Bytes Handle
open Bus (rdramSize)

namespace View

/-- A piece of main memory that belongs to the places from `start` on of what is read from the address on. -/
structure Covers (address : UInt32) (start : Nat) (s : Span) : Prop where
  nonempty : 0 < s.length
  inside : s.offset + s.length ≤ rdramSize
  placed : ∀ i < s.length, s.offset + i = offsetOf (address + UInt32.ofNat (start + i))

/-- Pieces for the places from `start` up to `stop`, each behind the last one. -/
inductive Tiles (address : UInt32) (stop : Nat) : Nat → List Span → Prop
  | done : Tiles address stop stop []
  | piece {start s rest} (covers : Covers address start s) (behind : Tiles address stop (start + s.length) rest) :
      Tiles address stop start (s :: rest)

variable {address : UInt32} {start stop offset length : Nat} {rest : List Span}

theorem Tiles.le (ht : Tiles address stop start rest) : start ≤ stop := by
  induction ht with
  | done => exact Nat.le_refl stop
  | piece covers behind ih => omega

theorem tiles_nil : Tiles address stop start [] ↔ start = stop := by
  constructor
  · rintro ⟨⟩
    rfl
  · rintro rfl
    exact .done

theorem tiles_cons {s : Span} : Tiles address stop start (s :: rest) ↔
    Covers address start s ∧ Tiles address stop (start + s.length) rest := by
  constructor
  · rintro ⟨⟩
    exact ⟨‹_›, ‹_›⟩
  · exact fun ⟨covers, behind⟩ => .piece covers behind

/-- Further on by as many bytes, around the end of the address space and of main memory. -/
theorem offsetOf_add (address : UInt32) (n : Nat) :
    offsetOf (address + UInt32.ofNat n) = (address.toNat + n) % rdramSize := by
  have hsum : (address + UInt32.ofNat n).toNat = (address.toNat + n) % 2 ^ 32 := by
    rw [UInt32.toNat_add, UInt32.toNat_ofNat', Nat.add_mod_mod]
  rw [offsetOf, hsum, Nat.mod_mod_of_dvd]
  decide

private theorem tiles_spansFrom (ho : offset < rdramSize) (start : Nat)
    (hplace : length ≠ 0 → offset = offsetOf (address + UInt32.ofNat start)) :
    Tiles address (start + length) start (spansFrom offset length) := by
  induction offset, length using spansFrom.induct generalizing start with
  | case1 offset length hnone =>
    obtain rfl : length = 0 := by omega
    rw [spansFrom, if_pos hnone]
    exact .done
  | case2 offset length hpos take ih =>
    have hplace := hplace (by omega)
    rw [spansFrom, if_neg hpos]
    have htake : 0 < take ∧ offset + take ≤ rdramSize ∧ take ≤ length ∧
        (length - take ≠ 0 → offset + take = rdramSize) := by
      dsimp only [take]
      omega
    obtain ⟨hnonempty, hinside, hle, hwrap⟩ := htake
    rw [offsetOf_add] at hplace
    refine .piece ⟨hnonempty, hinside, fun i hi => ?_⟩ ?_
    · have hi : i < take := hi
      rw [offsetOf_add, ← Nat.add_assoc, Nat.add_mod, ← hplace, Nat.mod_eq_of_lt (a := i) (by omega),
        Nat.mod_eq_of_lt (by omega)]
    · have hrest := ih (by decide) (start + take) fun hmore => ?_
      · rwa [Nat.add_assoc, Nat.add_sub_cancel' hle] at hrest
      · rw [offsetOf_add, ← Nat.add_assoc, ← Nat.mod_add_mod, ← hplace, hwrap hmore, Nat.mod_self]

/-- The pieces of a read tile its places. -/
theorem tiles_spans (address : UInt32) (length : Nat) : Tiles address length 0 (spans address length) := by
  have htiles : Tiles address (0 + length) 0 (spans address length) :=
    tiles_spansFrom (offsetOf_lt address) 0 fun _ => by rw [offsetOf_add, Nat.add_zero, offsetOf]
  rwa [Nat.zero_add] at htiles

end View

def Bytes.bigEndian (b : ByteArray) : Nat := (List.range b.size).foldl (fun n i => n * 2 ^ 8 + (byte b i).toNat) 0

private theorem Bytes.bigEndian_one {b : ByteArray} (hb : b.size = 1) : bigEndian b = (byte b 0).toNat := by
  simp [bigEndian, hb]

private theorem Bytes.bigEndian_two {b : ByteArray} (hb : b.size = 2) :
    bigEndian b = (byte b 0).toNat * 2 ^ 8 + (byte b 1).toNat := by
  simp [bigEndian, hb, List.range_succ]

private theorem Bytes.bigEndian_four {b : ByteArray} (hb : b.size = 4) :
    bigEndian b = (((byte b 0).toNat * 2 ^ 8 + (byte b 1).toNat) * 2 ^ 8 + (byte b 2).toNat) * 2 ^ 8 +
      (byte b 3).toNat := by
  simp [bigEndian, hb, List.range_succ]

/-- The call has brought the byte `b` from the address `a`. -/
def Call.Brought (a : Nat) (b : UInt8) : Call → Prop
  | .read address length (.ok bytes) => ∃ i < length, a = address + i ∧ b = byte bytes i
  | _ => False

/-- How the places from `start` on of a buffer are filled, what was there before and is there after: by calls that
each read the next piece, up to the first that fails, whose error is the answer. -/
inductive Fetches (base : Nat) (address : UInt32) (connected : Bool) (before after : ByteArray) :
    Nat → List Call → Except AccessError Unit → Prop
  | done : Fetches base address connected before after before.size [] (.ok ())
  | piece {start s bytes calls answer} (covers : View.Covers address start s)
      (brought : ∀ i < s.length, byte after (start + i) = byte bytes i)
      (behind : Fetches base address connected before after (start + s.length) calls answer) :
      Fetches base address connected before after start
        (.read (base + s.offset) s.length (.ok bytes) :: calls) answer
  | failed {start s e} (covers : View.Covers address start s) (room : start + s.length ≤ before.size)
      (kept : ∀ i, start + s.length ≤ i → byte after i = byte before i) :
      Fetches base address connected before after start
        [.read (base + s.offset) s.length (.error e)] (.error e)
  | refused (gone : connected = false) (some : 0 < before.size) (same : after = before) :
      Fetches base address connected before after 0 [] (.error .disconnected)

namespace RamView

variable {σ : Type} [ProcessMemory σ]

/-- Fill a buffer from a console's address on. What arrives of a read that fails is left in front. -/
def readInto (view : RamView) (h : Handle σ) (address : UInt32) (buffer : ByteArray) :
    (Except AccessError Unit × ByteArray) × Handle σ :=
  match view.readBytes h address buffer.size with
  | (r, h) => ((r.toExcept.map fun _ => (), paste buffer 0 r.bytes), h)

/-- The number that `length` bytes from a console's address on are. -/
def number (view : RamView) (h : Handle σ) (address : UInt32) (length : Nat) :
    Except AccessError Nat × Handle σ :=
  match view.readInto h address (zeros length) with
  | ((answer, bytes), h) => (answer.map fun _ => bigEndian bytes, h)

/-- How a buffer is filled straight from a process: `filled` is the answer of the process with its calls recorded,
and what is in the buffer then. -/
structure FillsDirect (h : Handle σ) (base : Nat) (address : UInt32) (before : ByteArray)
    (filled : (Except AccessError Unit × ByteArray) × Handle (Recording σ)) : Prop where
  same : (direct base).readInto h address before = unrecorded filled
  size : filled.1.2.size = before.size
  tiled : View.Tiles address before.size 0 (View.spans address before.size)
  fetched : Fetches base address h.connected before filled.1.2 0 filled.2.calls filled.1.1
  foreign : filled.1.1 = .ok () → ∀ i < before.size, ∃ c ∈ filled.2.calls,
    c.Brought (View.foreignAddress base (address + UInt32.ofNat i)) (byte filled.1.2 i)

/-- Words read straight from a process are the numbers of their bytes, the most significant first. -/
structure WordsDirect (h : Handle σ) (base : Nat) (address : UInt32) : Prop where
  read8 : (((direct base).read8 h address).1.map UInt8.toNat, ((direct base).read8 h address).2) =
    (direct base).number h address 1
  read16 : (((direct base).read16 h address).1.map UInt16.toNat, ((direct base).read16 h address).2) =
    (direct base).number h address 2
  read32 : (((direct base).read32 h address).1.map UInt32.toNat, ((direct base).read32 h address).2) =
    (direct base).number h address 4

variable {h : Handle σ} {base start stop : Nat} {address : UInt32} {acc before : ByteArray} {spans : List View.Span}

theorem size_readInto (view : RamView) (h : Handle σ) (address : UInt32) (buffer : ByteArray) :
    (view.readInto h address buffer).1.2.size = buffer.size := by
  rw [readInto]
  rcases view.readBytes h address buffer.size with ⟨r, h'⟩
  exact size_paste buffer 0 r.bytes

/-- What has been read already stays in front. -/
theorem exists_bytes_readSpans (h : Handle σ) (base : Nat) (acc : ByteArray) (spans : List View.Span) :
    ∃ tail, (readSpans h base acc spans).1.bytes = acc ++ tail := by
  induction spans generalizing h acc with
  | nil => exact ⟨ByteArray.empty, ByteArray.append_empty.symm⟩
  | cons s rest ih =>
    rw [readSpans]
    rcases h.read (base + s.offset) s.length with ⟨e | bytes, h'⟩
    · exact ⟨_, rfl⟩
    · obtain ⟨tail, htail⟩ := ih h' (acc ++ bytes)
      exact ⟨bytes ++ tail, htail.trans (ByteArray.append_assoc ..)⟩

theorem size_readSpans (h : Handle σ) (base : Nat) (ht : View.Tiles address stop acc.size spans)
    (hr : (readSpans h base acc spans).1.fault = none) : (readSpans h base acc spans).1.bytes.size = stop := by
  induction spans generalizing h acc with
  | nil => exact View.tiles_nil.mp ht
  | cons s rest ih =>
    have hbehind := (View.tiles_cons.mp ht).2
    rw [readSpans] at hr ⊢
    rcases hread : h.read (base + s.offset) s.length with ⟨e | bytes, h'⟩
    · rw [hread] at hr
      cases hr
    · rw [hread] at hr
      rw [← size_of_read (congrArg Prod.fst hread), ← ByteArray.size_append] at hbehind
      exact ih h' hbehind hr

/-- A read of pieces is answered as if the calls were not recorded. -/
theorem unrecorded_readSpans (k : Handle (Recording σ)) (base : Nat) (acc : ByteArray) (spans : List View.Span) :
    unrecorded (readSpans k base acc spans) = readSpans k.bare base acc spans := by
  induction spans generalizing k acc with
  | nil => rfl
  | cons s rest ih =>
    rw [readSpans, readSpans, ← unrecorded_read]
    rcases k.read (base + s.offset) s.length with ⟨e | bytes, k'⟩
    · rfl
    · exact ih k' (acc ++ bytes)

theorem unrecorded_readInto (h : Handle σ) (base : Nat) (address : UInt32) (buffer : ByteArray) :
    unrecorded ((direct base).readInto h.recorded address buffer) = (direct base).readInto h address buffer := by
  have hspans := unrecorded_readSpans h.recorded base ByteArray.empty (View.spans address buffer.size)
  rw [readInto, readInto, readBytes, readBytes, ← show h.recorded.bare = h from rfl, ← hspans]
  rfl

/-- A connected handle reads the pieces one after the other. -/
theorem fetches_readSpans (base : Nat) {k : Handle (Recording σ)} (hc : k.connected = true)
    (ht : View.Tiles address before.size acc.size spans) :
    ∃ calls, Adds k (readSpans k base acc spans).2 calls ∧
      Fetches base address true before (paste before 0 (readSpans k base acc spans).1.bytes) acc.size calls
        ((readSpans k base acc spans).1.toExcept.map fun _ => ()) := by
  induction spans generalizing k acc with
  | nil =>
    refine ⟨[], .refl k, ?_⟩
    rw [View.tiles_nil.mp ht]
    exact .done
  | cons s rest ih =>
    obtain ⟨covers, behind⟩ := View.tiles_cons.mp ht
    rw [readSpans]
    rcases hread : k.read (base + s.offset) s.length with ⟨e | bytes, k'⟩
    · have hmade := adds_of_answer (f := (ProcessMemory.read · (base + s.offset) s.length)) hc hread
      refine ⟨_, hmade, .failed covers behind.le fun i hi => ?_⟩
      -- What the failing piece brought ends with it.
      rw [byte_paste, if_neg]
      simp only [ByteArray.size_append, ByteArray.size_extract]
      omega
    · have hsize : (acc ++ bytes).size = acc.size + s.length := by
        rw [ByteArray.size_append, size_of_read (congrArg Prod.fst hread)]
      rw [← hsize] at behind
      obtain ⟨calls, hadds, hfetches⟩ := ih (keeps_of_read hread).connected behind
      refine ⟨_, (adds_of_read hread).trans hadds, .piece covers (fun i hi => ?_) (hsize ▸ hfetches)⟩
      obtain ⟨tail, htail⟩ := exists_bytes_readSpans k' base (acc ++ bytes) rest
      have hle := behind.le
      rw [htail, byte_paste, if_pos (by rw [ByteArray.size_append]; omega), byte_append, if_pos (by omega),
        byte_append, if_neg (by omega)]
      congr 1
      omega

/-- Nothing is read without a process, and this is told where there is something to read. -/
theorem readBytes_of_disconnected (hc : h.connected = false) (base : Nat) (address : UInt32) (length : Nat) :
    (direct base).readBytes h address length =
      (⟨ByteArray.empty, if length = 0 then none else some .disconnected⟩, h) := by
  have htiles := View.tiles_spans address length
  rw [readBytes]
  cases hspans : View.spans address length with
  | nil =>
    rw [hspans] at htiles
    rw [readSpans, if_pos (View.tiles_nil.mp htiles).symm]
  | cons s rest =>
    rw [hspans] at htiles
    obtain ⟨covers, behind⟩ := View.tiles_cons.mp htiles
    have hsome : length ≠ 0 := by
      have hle := behind.le
      have hnonempty := covers.nonempty
      omega
    have hnone : h.arrived (base + s.offset) s.length = ByteArray.empty := by
      rw [arrived, if_neg (by rw [hc]; exact Bool.false_ne_true)]
    rw [readSpans, read_of_disconnected hc]
    dsimp only
    simp [hnone, hsome]

private theorem fetches_readInto (h : Handle σ) (base : Nat) (address : UInt32) (before : ByteArray) :
    Fetches base address h.connected before ((direct base).readInto h.recorded address before).1.2 0
      ((direct base).readInto h.recorded address before).2.calls
      ((direct base).readInto h.recorded address before).1.1 := by
  cases hc : h.connected with
  | true =>
    have hc : h.recorded.connected = true := hc
    have htiles : View.Tiles address before.size ByteArray.empty.size (View.spans address before.size) :=
      View.tiles_spans address before.size
    obtain ⟨calls, hadds, hfetches⟩ := fetches_readSpans base hc htiles
    rw [Adds, calls_recorded, List.nil_append] at hadds
    rw [← hadds] at hfetches
    exact hfetches
  | false =>
    have hc : h.recorded.connected = false := hc
    rw [readInto, readBytes_of_disconnected hc]
    dsimp only
    rw [paste_empty, calls_recorded]
    by_cases hnone : before.size = 0
    · have hdone : Fetches base address false before before before.size [] (.ok ()) := .done
      rw [if_pos hnone]
      rwa [hnone] at hdone
    · rw [if_neg hnone]
      exact .refused rfl (Nat.pos_of_ne_zero hnone) rfl

end RamView

/-- A buffer that is filled wholly has each of its bytes from the foreign address behind the console's. -/
theorem Fetches.brought {base start : Nat} {address : UInt32} {connected : Bool} {before after : ByteArray}
    {calls : List Call} {answer : Except AccessError Unit}
    (hf : Fetches base address connected before after start calls answer) (hanswer : answer = .ok ()) :
    ∀ i, start ≤ i → i < before.size → ∃ c ∈ calls,
      c.Brought (View.foreignAddress base (address + UInt32.ofNat i)) (byte after i) := by
  induction hf with
  | done => exact fun i hle hlt => absurd hlt (Nat.not_lt.mpr hle)
  | @piece start s bytes calls answer covers brought behind ih =>
    intro i hle hlt
    by_cases hi : i < start + s.length
    · obtain ⟨k, rfl⟩ := Nat.exists_eq_add_of_le hle
      have hk : k < s.length := by omega
      refine ⟨_, List.mem_cons_self, k, hk, ?_, brought k hk⟩
      rw [View.foreignAddress, ← covers.placed k hk, Nat.add_assoc]
    · obtain ⟨c, hmem, hc⟩ := ih hanswer i (by omega) hlt
      exact ⟨c, List.mem_cons_of_mem _ hmem, hc⟩
  | failed covers room kept => cases hanswer
  | refused gone some same => cases hanswer

namespace RamView

variable {σ α : Type} [ProcessMemory σ]

/-- A value that is read is the number of its bytes. -/
theorem readAs_eq_number (h : Handle σ) (base : Nat) (address : UInt32) {length : Nat} {value : ByteArray → α}
    {toNat : α → Nat} (hvalue : ∀ b, b.size = length → toNat (value b) = bigEndian b) :
    (((direct base).readAs h address length value).1.map toNat,
      ((direct base).readAs h address length value).2) = (direct base).number h address length := by
  have htiles : View.Tiles address length ByteArray.empty.size (View.spans address length) :=
    View.tiles_spans address length
  have hsize := size_readSpans h base htiles
  rw [number, readInto, readAs, size_zeros, readBytes]
  rcases hread : readSpans h base ByteArray.empty (View.spans address length) with ⟨⟨bytes, fault⟩, h'⟩
  cases fault with
  | some e => rfl
  | none =>
    rw [hread] at hsize
    have hbytes : bytes.size = length := hsize rfl
    have hfilled : paste (zeros length) 0 bytes = bytes := paste_of_size_eq (hbytes.trans (size_zeros _).symm)
    simp only [ReadOutcome.toExcept, Except.map, hfilled, hvalue bytes hbytes]

private theorem wordsDirect (h : Handle σ) (base : Nat) (address : UInt32) : WordsDirect h base address where
  read8 := readAs_eq_number h base address fun b hb => by
    rw [bigEndian_one hb]
  read16 := readAs_eq_number h base address fun b hb => by
    rw [bigEndian_two hb, toNat_half]
  read32 := readAs_eq_number h base address fun b hb => by
    rw [bigEndian_four hb, loadWord_eq (show 0 + 4 ≤ b.size by omega), toNat_wordOf]

/-- Straight from a process, a buffer is filled piece by piece from the foreign addresses behind the console's, up
to the first piece that fails, and words are made of the bytes that are read so. -/
theorem fills_direct (h : Handle σ) (base : Nat) (address : UInt32) :
    (∀ before, FillsDirect h base address before ((direct base).readInto h.recorded address before)) ∧
      WordsDirect h base address := by
  refine ⟨fun before => ?_, wordsDirect h base address⟩
  have hfetches := fetches_readInto h base address before
  exact {
    same := (unrecorded_readInto h base address before).symm
    size := size_readInto (direct base) h.recorded address before
    tiled := View.tiles_spans address before.size
    fetched := hfetches
    foreign := fun hanswer i => hfetches.brought hanswer i (Nat.zero_le i) }

end RamView

end ConsoleBridge
