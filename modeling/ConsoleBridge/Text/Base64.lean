import ConsoleBridge.Bytes

/-! # Base64 with padding

Three bytes are written as four symbols; what is left over at the end is padded with `=` to four. Only
the text that encoding would give for some bytes can be decoded. -/
namespace ConsoleBridge.Base64

def symbol (n : UInt32) : Char :=
  let n := n.toNat % 64
  if n < 26 then Char.ofNat (65 + n)
  else if n < 52 then Char.ofNat (71 + n)
  else if n < 62 then Char.ofNat (n - 4)
  else if n = 62 then '+'
  else '/'

def value? (b : UInt8) : Option UInt32 :=
  if 65 ≤ b && b ≤ 90 then some (b - 65).toUInt32
  else if 97 ≤ b && b ≤ 122 then some (b - 71).toUInt32
  else if 48 ≤ b && b ≤ 57 then some (b + 4).toUInt32
  else if b = 43 then some 62
  else if b = 47 then some 63
  else none

def pad : UInt8 := 61

@[inline] def triple (b₀ b₁ b₂ : UInt8) : UInt32 :=
  (b₀.toUInt32 <<< 16) ||| (b₁.toUInt32 <<< 8) ||| b₂.toUInt32

def encodeFrom (b : ByteArray) (i : Nat) (acc : String) : String :=
  if h : i + 3 ≤ b.size then
    let n := triple b[i] b[i + 1] b[i + 2]
    encodeFrom b (i + 3) ((((acc.push (symbol (n >>> 18))).push (symbol (n >>> 12))).push
      (symbol (n >>> 6))).push (symbol n))
  else if h : i + 2 ≤ b.size then
    let n := triple b[i] b[i + 1] 0
    (((acc.push (symbol (n >>> 18))).push (symbol (n >>> 12))).push (symbol (n >>> 6))).push '='
  else if h : i + 1 ≤ b.size then
    let n := triple b[i] 0 0
    (((acc.push (symbol (n >>> 18))).push (symbol (n >>> 12))).push '=').push '='
  else acc
termination_by b.size - i

def encode (b : ByteArray) : String := encodeFrom b 0 ""

inductive Error
  /-- A byte of the text that is no symbol, or padding where none may stand. -/
  | symbol (byte : UInt8) (offset : Nat)
  /-- A last symbol with bits set that belong to no byte. -/
  | lastSymbol (byte : UInt8) (offset : Nat)
  /-- The text stops inside a byte. -/
  | length (count : Nat)
  /-- Padding is missing or too long. -/
  | padding
  deriving DecidableEq, Repr, Inhabited

def Error.message : Error → String
  | symbol byte offset => s!"Invalid symbol {byte.toNat}, offset {offset}."
  | lastSymbol byte offset => s!"Invalid last symbol {byte.toNat}, offset {offset}."
  | length count => s!"Invalid input length: {count}"
  | padding => "Invalid padding"

@[inline] def valueAt (i : Nat) (b : UInt8) : Except Error UInt32 :=
  match value? b with
  | some v => .ok v
  | none => .error (.symbol b i)

def decodeGroups (t : ByteArray) (i stop : Nat) (acc : ByteArray) : Except Error ByteArray :=
  if h : i < stop ∧ i + 4 ≤ t.size then do
    let v₀ ← valueAt i t[i]
    let v₁ ← valueAt (i + 1) t[i + 1]
    let v₂ ← valueAt (i + 2) t[i + 2]
    let v₃ ← valueAt (i + 3) t[i + 3]
    let n := (v₀ <<< 18) ||| (v₁ <<< 12) ||| (v₂ <<< 6) ||| v₃
    decodeGroups t (i + 4) stop
      (((acc.push (n >>> 16).toUInt8).push (n >>> 8).toUInt8).push n.toUInt8)
  else .ok acc
termination_by t.size - i

/-- The last group of a text, as far as it has been read: its symbols with their values, last one first,
and where its padding starts and how much of it there is. -/
structure LastGroup where
  symbols : List (UInt8 × UInt32)
  padStart : Nat
  pads : Nat
  deriving DecidableEq, Repr, Inhabited

/-- Read the last group, of which the next byte stands `index` bytes behind its start. Padding may
stand only behind two symbols, and no symbol behind padding. -/
def LastGroup.read (start : Nat) (index : Nat) (g : LastGroup) : List UInt8 → Except Error LastGroup
  | [] => .ok g
  | b :: rest =>
    if b = pad then
      if index < 2 then .error (.symbol b (start + index))
      else read start (index + 1)
        { g with padStart := if g.pads = 0 then index else g.padStart, pads := g.pads + 1 } rest
    else if 0 < g.pads then .error (.symbol pad (start + g.padStart))
    else match value? b with
      | some v => read start (index + 1) { g with symbols := (b, v) :: g.symbols } rest
      | none => .error (.symbol b (start + index))

/-- Append the bytes of the last group, which starts at `start`. -/
def LastGroup.append (g : LastGroup) (start : Nat) (acc : ByteArray) : Except Error ByteArray :=
  match g.symbols with
  | [] => if start = 0 ∧ g.pads = 0 then .ok acc else .error (.length start)
  | [_] => .error (.length (start + 1))
  | [(b, v₁), (_, v₀)] =>
    if g.pads = 2 then
      if v₁ &&& 0xF = 0 then .ok (acc.push ((v₀ <<< 2) ||| (v₁ >>> 4)).toUInt8)
      else .error (.lastSymbol b (start + 1))
    else .error .padding
  | [(b, v₂), (_, v₁), (_, v₀)] =>
    if g.pads = 1 then
      if v₂ &&& 0x3 = 0 then
        .ok ((acc.push ((v₀ <<< 2) ||| (v₁ >>> 4)).toUInt8).push ((v₁ <<< 4) ||| (v₂ >>> 2)).toUInt8)
      else .error (.lastSymbol b (start + 2))
    else .error .padding
  | (_, v₃) :: (_, v₂) :: (_, v₁) :: (_, v₀) :: _ =>
    let n := (v₀ <<< 18) ||| (v₁ <<< 12) ||| (v₂ <<< 6) ||| v₃
    .ok (((acc.push (n >>> 16).toUInt8).push (n >>> 8).toUInt8).push n.toUInt8)

/-- Where the last group of a text of `size` bytes starts; it may be complete. -/
def lastStart (size : Nat) : Nat := if size % 4 = 0 then size - 4 else size - size % 4

/-- A single byte behind the last complete group that is neither a symbol nor padding. It is reported
before anything in front of it. -/
def strayLast? (t : ByteArray) : Option Error :=
  if t.size % 4 = 1 then
    let b := Bytes.byte t (t.size - 1)
    if b ≠ pad ∧ value? b = none then some (.symbol b (t.size - 1)) else none
  else none

def decodeBytes (t : ByteArray) : Except Error ByteArray :=
  match strayLast? t with
  | some e => .error e
  | none => do
    let start := lastStart t.size
    let front ← decodeGroups t 0 start (ByteArray.emptyWithCapacity (t.size / 4 * 3))
    let last ← LastGroup.read start 0 ⟨[], 0, 0⟩ (t.extract start t.size).toList
    last.append start front

def decode (s : String) : Except Error ByteArray := decodeBytes s.toUTF8

end ConsoleBridge.Base64
