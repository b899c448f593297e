import ConsoleBridge.Bytes
import ConsoleBridge.Process.Handle

/-! # The signature that booting leaves at the bottom of main memory

Booting writes a few constants at fixed offsets from the start of main memory. One of them is the anchor:
a search looks for it in one chunk of a region after the other and then checks the others around it.
Each chunk is read together with the beginning of the next one, so that a header across the seam is
seen; an anchor in the overlap is left to the next chunk. -/
namespace ConsoleBridge.Signature

def televisionOffset : Nat := 0x300

def televisionMax : UInt32 := 2

def anchorOffset : Nat := 0x308

/-- The anchor: the address of the cartridge's ROM. -/
def anchor : UInt32 := 0xB0000000

def memorySizeOffset : Nat := 0x318

def memorySizes : List UInt32 := [0x00400000, 0x00800000]

/-- How many bytes cover all the constants. -/
def span : Nat := memorySizeOffset + 4

/-- Do all the constants stand in the bytes from `start` on? -/
def headerAt (b : ByteArray) (start : Nat) : Bool :=
  start + span ≤ b.size && Bytes.loadWord b (start + anchorOffset) == anchor &&
    Bytes.loadWord b (start + televisionOffset) ≤ televisionMax &&
    memorySizes.contains (Bytes.loadWord b (start + memorySizeOffset))

@[inline] def anchorAt (b : ByteArray) (i : Nat) : Bool :=
  i + 4 ≤ b.size && Bytes.byte b i == 0xB0 && Bytes.byte b (i + 1) == 0 && Bytes.byte b (i + 2) == 0 &&
    Bytes.byte b (i + 3) == 0

/-- Where main memory starts when its anchor is at `address`: on a word, with the whole header in the
region. -/
def baseOf? (region : Region) (address : Nat) : Option Hit :=
  let base := address - anchorOffset
  if anchorOffset ≤ address ∧ region.base ≤ base ∧ base % 4 = 0 then
    match Address.plus base span with
    | .ok behind => if behind ≤ region.limit then some (.ok base) else none
    | .error stop => some (.error stop)
  else none

variable {σ : Type} [ProcessMemory σ]

/-- Check the header at `base`. It is read once more when the chunk from `start` on does not hold all of
it, and does not count when that fails. -/
def confirm (h : Handle σ) (start : Nat) (chunk : ByteArray) (base : Nat) : Bool × Handle σ :=
  if start ≤ base ∧ base - start + span ≤ chunk.size then (headerAt chunk (base - start), h)
  else
    match h.read base span with
    | (.ok header, h) => (headerAt header 0, h)
    | (.error _, h) => (false, h)

/-- Search the anchors from `i` up to, not including, `stop` in the chunk that starts at `start`. -/
def scanChunk (h : Handle σ) (region : Region) (start : Nat) (chunk : ByteArray) (stop i : Nat) :
    Option Hit × Handle σ :=
  if i < stop then
    if anchorAt chunk i then
      match baseOf? region (start + i) with
      | some (.ok base) =>
        match confirm h start chunk base with
        | (true, h) => (some (.ok base), h)
        | (false, h) => scanChunk h region start chunk stop (i + 1)
      | some (.error e) => (some (.error e), h)
      | none => scanChunk h region start chunk stop (i + 1)
    else scanChunk h region start chunk stop (i + 1)
  else (none, h)
termination_by stop - i

/-- Do the sums fit that the search forms when it comes to the chunk from `start` on? They are `start` itself,
the end of the region and, when the chunk is in the region, the number of bytes to read. -/
def sumsFit (region : Region) (size start : Nat) : Bool :=
  start < Address.count && region.limit < Address.count &&
    (region.limit ≤ start || max size span + span < Address.count)

/-- Search a region from `start` on in chunks of `size` bytes, but no smaller ones than a header. A chunk
that cannot be read is left out. -/
def scanFrom (h : Handle σ) (region : Region) (size start : Nat) : Option Hit × Handle σ :=
  if sumsFit region size start then
    if start < region.limit then
      let stride := max size span
      match h.read start (min (stride + span) (region.limit - start)) with
      | (.ok chunk, h) =>
        match scanChunk h region start chunk (min stride chunk.size) 0 with
        | (some hit, h) => (some hit, h)
        | (none, h) => scanFrom h region size (start + stride)
      | (.error .disconnected, h) => (none, h)
      | (.error _, h) => scanFrom h region size (start + stride)
    else (none, h)
  else (some (.error .overflow), h)
termination_by region.limit - start
decreasing_by
  all_goals
    have : 0 < max size span := Nat.lt_of_lt_of_le (by decide) (Nat.le_max_right size span)
    omega

def scan (h : Handle σ) (region : Region) (size : Nat) : Option Hit × Handle σ :=
  scanFrom h region size region.base

end ConsoleBridge.Signature
