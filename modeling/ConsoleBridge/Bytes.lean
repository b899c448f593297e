/-! # Byte memories: cutting, filling, pasting and big-endian words

A memory is a `ByteArray`. Every operation here is total: a read past the end answers with a default,
a write past the end does nothing, and each lemma says what an operation does to the size. -/
namespace ConsoleBridge.Bytes

/-- Byte arrays are compared byte by byte, and in this one way in every module. -/
instance (priority := 1100) decidableEq : DecidableEq ByteArray := ByteArray.instDecidableEq

def zeros (n : Nat) : ByteArray := ⟨Array.replicate n 0⟩

@[inline] def byte? (b : ByteArray) (i : Nat) : Option UInt8 :=
  if h : i < b.size then some b[i] else none

/-- The byte at `i`, zero past the end. -/
@[inline] def byte (b : ByteArray) (i : Nat) : UInt8 :=
  if h : i < b.size then b[i] else 0

/-- `b` with the byte at `i` replaced; `b` itself when `i` is past the end. -/
@[inline] def put (b : ByteArray) (i : Nat) (v : UInt8) : ByteArray :=
  if i < b.size then b.set! i v else b

/-- The `length` bytes from `start` on, when all of them are there. -/
def slice? (b : ByteArray) (start length : Nat) : Option ByteArray :=
  if start + length ≤ b.size then some (b.extract start (start + length)) else none

/-- `data` cut at `size` bytes and filled up with zeros to exactly that many. -/
def fit (size : Nat) (data : ByteArray) : ByteArray :=
  data.extract 0 size ++ zeros (size - data.size)

/-- `dst` with `src` written over it from `start` on; what would lie past the end of `dst` is dropped. -/
def paste (dst : ByteArray) (start : Nat) (src : ByteArray) : ByteArray :=
  if start ≤ dst.size then src.copySlice 0 dst start (min src.size (dst.size - start)) else dst

@[inline] def wordOf (b₀ b₁ b₂ b₃ : UInt8) : UInt32 :=
  (b₀.toUInt32 <<< 24) ||| (b₁.toUInt32 <<< 16) ||| (b₂.toUInt32 <<< 8) ||| b₃.toUInt32

def loadWord (b : ByteArray) (offset : Nat) : UInt32 :=
  if h : offset + 4 ≤ b.size then
    wordOf b[offset] b[offset + 1] b[offset + 2] b[offset + 3]
  else 0

/-- `b` with the big-endian word at `offset` replaced; `b` itself when the word runs past the end. -/
def storeWord (b : ByteArray) (offset : Nat) (v : UInt32) : ByteArray :=
  if offset + 4 ≤ b.size then
    (((b.set! offset (v >>> 24).toUInt8).set! (offset + 1) (v >>> 16).toUInt8).set!
      (offset + 2) (v >>> 8).toUInt8).set! (offset + 3) v.toUInt8
  else b

@[simp] theorem size_zeros (n : Nat) : (zeros n).size = n := by
  simp [zeros, ByteArray.size]

@[simp] theorem size_put (b : ByteArray) (i : Nat) (v : UInt8) : (put b i v).size = b.size := by
  unfold put
  split <;> simp

@[simp] theorem size_storeWord (b : ByteArray) (offset : Nat) (v : UInt32) :
    (storeWord b offset v).size = b.size := by
  unfold storeWord
  split <;> simp

@[simp] theorem size_fit (size : Nat) (data : ByteArray) : (fit size data).size = size := by
  simp only [fit, ByteArray.size_append, ByteArray.size_extract, size_zeros]
  omega

@[simp] theorem size_paste (dst : ByteArray) (start : Nat) (src : ByteArray) :
    (paste dst start src).size = dst.size := by
  unfold paste
  split
  · simp only [ByteArray.copySlice_eq_append, ByteArray.size_append, ByteArray.size_extract,
      ByteArray.size_data]
    omega
  · rfl

end ConsoleBridge.Bytes
