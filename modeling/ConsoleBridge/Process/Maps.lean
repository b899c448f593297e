import ConsoleBridge.Process.Region
import ConsoleBridge.Text.Blank
import ConsoleBridge.Text.Numeral

/-! # The list of mappings that the kernel keeps of a process

One line a mapping: the bounds, the permissions, the offset, the device and the inode of the mapped file
and, behind blanks, its name. -/
namespace ConsoleBridge.Maps

/-- The text in front of the first dash and the text behind it. -/
def splitAtDash : List Char → Option (List Char × List Char)
  | [] => none
  | '-' :: rest => some ([], rest)
  | c :: rest => (splitAtDash rest).map fun p => (c :: p.1, p.2)

/-- The permissions that the first three bytes of a field stand for; refused when it is shorter. -/
def protection? (field : ByteArray) : Option Protection :=
  if h : 3 ≤ field.size then
    some ⟨field[0] == 'r'.toUInt8, field[1] == 'w'.toUInt8, field[2] == 'x'.toUInt8⟩
  else none

/-- The region that a line describes. The name is the sixth word. -/
def region? (line : List Char) : Option Region :=
  match Blank.words line with
  | bounds :: permissions :: rest => do
    let (first, limit) ← splitAtDash bounds
    let base ← (Numeral.readNatural 16 first).toOption
    let limit ← (Numeral.readNatural 16 limit).toOption
    if limit < base then none
    else
      let protection ← protection? (String.ofList permissions).toUTF8
      return ⟨base, limit - base, protection, (rest.drop 3).head?.map String.ofList⟩
  | _ => none

/-- The lines of a file without their ends, the last one even if it is not ended. -/
def linesFrom (current : ByteArray) : List UInt8 → List ByteArray
  | [] => if current.size = 0 then [] else [current]
  | b :: rest =>
    if b = 10 then
      let line := if current.size ≠ 0 ∧ current.data.back? = some 13 then
        current.extract 0 (current.size - 1) else current
      line :: linesFrom ByteArray.empty rest
    else linesFrom (current.push b) rest

/-- The regions that a list of mappings describes. A line that cannot be understood is left out; from
a line on that is not text nothing is read. -/
def regions (file : ByteArray) : List Region :=
  (((linesFrom ByteArray.empty file.toList).map String.fromUTF8?).takeWhile Option.isSome).filterMap
    fun line => line.bind fun s => region? s.toList

end ConsoleBridge.Maps
