import ConsoleBridge.Proofs.Bytes.Storage

/-!
# Memories behind guards

The operations on a memory are total: outside its bounds they give a default or do nothing. Here each is put together
from steps that are refused outside their bounds: an index or a slice that is not inside, a copy between slices of two
lengths, a number that no register holds. If no step is refused, the outcome is that of the total operation.
-/
namespace ConsoleBridge.Guarded

open Bytes

inductive Fault
  | outside | lengths | overflow | overlap
  deriving DecidableEq, Repr

/-- The outcome of a sum or a product, if 32 bits hold it. -/
def fits (n : Nat) : Except Fault Nat := if n < 2 ^ 32 then .ok n else .error .overflow

def difference (m n : Nat) : Except Fault Nat := if n ≤ m then .ok (m - n) else .error .overflow

def index (b : ByteArray) (i : Nat) : Except Fault UInt8 := (byte? b i).elim (.error .outside) .ok

def slice (b : ByteArray) (start stop : Nat) : Except Fault ByteArray :=
  if start ≤ stop ∧ stop ≤ b.size then .ok (b.extract start stop) else .error .outside

def copyOver (b : ByteArray) (start stop : Nat) (src : ByteArray) : Except Fault ByteArray :=
  if start ≤ stop ∧ stop ≤ b.size then
    if src.size = stop - start then .ok (paste b start src) else .error .lengths
  else .error .outside

-- What follows has the name of the operation that it guards, where there is one.

def loadWord (b : ByteArray) (offset : Nat) : Except Fault UInt32 := do
  let stop ← fits (offset + 4)
  match slice? b offset (stop - offset) with
  | some word => return wordOf (← index word 0) (← index word 1) (← index word 2) (← index word 3)
  | none => return 0

def bigEndian (v : UInt32) : ByteArray :=
  ⟨#[(v >>> 24).toUInt8, (v >>> 16).toUInt8, (v >>> 8).toUInt8, v.toUInt8]⟩

def storeWord (b : ByteArray) (offset : Nat) (v : UInt32) : Except Fault ByteArray := do
  let stop ← fits (offset + 4)
  if stop ≤ b.size then copyOver b offset stop (bigEndian v) else return b

def copyFront (b data : ByteArray) : Except Fault ByteArray := do
  let length := min data.size b.size
  copyOver b 0 length (← slice data 0 length)

/-- Copy the front of some data as far as there is room and fill up with zeros behind it. -/
def refill (b data : ByteArray) : Except Fault ByteArray := do
  let front ← copyFront b data
  let length := min data.size b.size
  copyOver front length b.size (zeros (b.size - length))

def collect (n : Nat) (f : Nat → Except Fault UInt8) : Except Fault ByteArray := do
  let bytes ← (List.range n).mapM f
  return ⟨bytes.toArray⟩

def byteBehind (b : ByteArray) (start i : Nat) : Except Fault UInt8 := do return byte b (← fits (start + i))

/-- Put the byte at `i` of some data `i` places behind `start`, if there is room. -/
def putBehind (src : ByteArray) (start : Nat) (b : ByteArray) (i : Nat) : Except Fault ByteArray := do
  return put b (← fits (start + i)) (← index src i)

/-- Put all bytes of some data behind `start`, one after the other, as far as there is room. -/
def scatter (b : ByteArray) (start : Nat) (src : ByteArray) : Except Fault ByteArray :=
  (List.range src.size).foldlM (putBehind src start) b

variable {b src data : ByteArray} {i n o start stop : Nat} {v : UInt32} {α β : Type}

@[simp] theorem ok_bind (a : α) (f : α → Except Fault β) : (Except.ok a >>= f) = f a := rfl

theorem fits_ok (hn : n < 2 ^ 32) : fits n = .ok n := if_pos hn

theorem difference_ok (hle : n ≤ o) : difference o n = .ok (o - n) := if_pos hle

theorem index_ok (hi : i < b.size) : index b i = .ok (byte b i) := by
  rw [index, byte?, dif_pos hi, byte_of_lt hi]
  rfl

example : index (zeros 4) 4 = .error .outside := rfl

private theorem slice_ok (hle : start ≤ stop) (hstop : stop ≤ b.size) :
    slice b start stop = .ok (b.extract start stop) :=
  if_pos ⟨hle, hstop⟩

theorem copyOver_ok (hle : start ≤ stop) (hstop : stop ≤ b.size) (hsrc : src.size = stop - start) :
    copyOver b start stop src = .ok (paste b start src) := by
  rw [copyOver, if_pos ⟨hle, hstop⟩, if_pos hsrc]

theorem loadWord_ok (ho : o + 4 < 2 ^ 32) : loadWord b o = .ok (Bytes.loadWord b o) := by
  rw [loadWord, fits_ok ho, ok_bind, slice?, Nat.add_sub_cancel_left]
  by_cases hb : o + 4 ≤ b.size
  · have hindex : ∀ i < 4, index (b.extract o (o + 4)) i = .ok (byte b (o + i)) := by
      intro i hi
      rw [index_ok (by rw [ByteArray.size_extract]; omega), byte_extract, if_pos (by omega)]
    rw [if_pos hb, Bytes.loadWord_eq hb]
    dsimp only
    rw [hindex 0 (by decide), hindex 1 (by decide), hindex 2 (by decide), hindex 3 (by decide)]
    rfl
  · rw [if_neg hb, loadWord_of_short hb]
    rfl

private theorem byte_bigEndian {k : Nat} (hk : k < 4) : byte (bigEndian v) k = byteOf v ⟨3 - k, by omega⟩ := by
  match k with
  | 0 => rfl
  | 1 => rfl
  | 2 => rfl
  | 3 => rfl

/-- The bytes of a word pasted where there is room for them are the word stored. -/
theorem paste_bigEndian (ho : o + 4 ≤ b.size) : paste b o (bigEndian v) = Bytes.storeWord b o v := by
  apply ext_byte (by simp)
  intro i hi
  have hsize : (bigEndian v).size = 4 := rfl
  rw [byte_paste, hsize, byte_storeWord ho]
  by_cases hin : o ≤ i ∧ i < o + 4 ∧ i < b.size
  · obtain ⟨k, rfl⟩ := Nat.exists_eq_add_of_le hin.1
    have hk : k < 4 := by omega
    rw [if_pos hin, Nat.add_sub_cancel_left, byte_bigEndian hk]
    match k with
    | 0 => simp
    | 1 => simp
    | 2 => simp
    | 3 => simp
  · rw [if_neg hin, if_neg (by omega), if_neg (by omega), if_neg (by omega), if_neg (by omega)]

theorem storeWord_ok (ho : o + 4 < 2 ^ 32) : storeWord b o v = .ok (Bytes.storeWord b o v) := by
  rw [storeWord, fits_ok ho, ok_bind]
  split
  · rename_i hb
    rw [copyOver_ok (Nat.le_add_right ..) hb (Nat.add_sub_cancel_left ..).symm, paste_bigEndian hb]
  · rename_i hb
    rw [storeWord_of_short hb]
    rfl

/-- What does not fit plays no part in a paste. -/
theorem paste_extract : paste b 0 (data.extract 0 (min data.size b.size)) = paste b 0 data := by
  apply ext_byte (by simp)
  intro i hi
  rw [size_paste] at hi
  rw [byte_paste, byte_paste, ByteArray.size_extract, byte_extract]
  split
  · rw [if_pos (by omega), if_pos (by omega), Nat.zero_add]
  · rw [if_neg (by omega)]

theorem copyFront_ok (b data : ByteArray) : copyFront b data = .ok (paste b 0 data) := by
  have hsize : (data.extract 0 (min data.size b.size)).size = min data.size b.size - 0 := by
    rw [ByteArray.size_extract]
    omega
  rw [copyFront, slice_ok (Nat.zero_le _) (Nat.min_le_left ..), ok_bind,
    copyOver_ok (Nat.zero_le _) (Nat.min_le_right ..) hsize, paste_extract]

theorem refill_ok (b data : ByteArray) : refill b data = .ok (fit b.size data) := by
  have hstop : b.size ≤ (paste b 0 data).size := Nat.le_of_eq (size_paste ..).symm
  rw [refill, copyFront_ok, ok_bind, copyOver_ok (Nat.min_le_right ..) hstop (size_zeros _)]
  refine congrArg _ (ext_byte (by simp) fun i hi => ?_)
  rw [size_paste, size_paste] at hi
  rw [byte_paste, byte_paste, byte_zeros, size_zeros, size_paste, byte_fit, if_pos hi]
  split
  · rw [byte_of_le (by omega)]
  · rw [if_pos (by omega), Nat.sub_zero]

private theorem mapM_ok {f : α → Except Fault β} {g : α → β} {xs : List α} (h : ∀ x ∈ xs, f x = .ok (g x)) :
    xs.mapM f = .ok (xs.map g) := by
  induction xs with
  | nil => rfl
  | cons x xs ih =>
    rw [List.mapM_cons, h x (List.mem_cons_self ..), ih fun y hy => h y (List.mem_cons_of_mem x hy)]
    rfl

theorem collect_ok {f : Nat → Except Fault UInt8} {g : Nat → UInt8} (h : ∀ i < n, f i = .ok (g i)) :
    collect n f = .ok ⟨Array.ofFn fun i : Fin n => g i⟩ := by
  have hbytes : ((List.range n).map g).toArray = Array.ofFn fun i : Fin n => g i := by
    apply Array.ext
    · simp
    · intro i hi hi'
      simp
  rw [collect, mapM_ok fun i hi => h i (List.mem_range.mp hi), ok_bind, hbytes]
  rfl

/-- One more byte is put behind what is pasted already. -/
theorem put_paste (hn : n < src.size) :
    put (paste b start (src.extract 0 n)) (start + n) (byte src n) = paste b start (src.extract 0 (n + 1)) := by
  apply ext_byte (by simp)
  intro i hi
  rw [size_put, size_paste] at hi
  rw [byte_put, byte_paste, byte_paste, size_paste, ByteArray.size_extract, ByteArray.size_extract, byte_extract,
    byte_extract]
  by_cases hlast : i = start + n
  · rw [if_pos (by omega), if_pos (by omega), if_pos (by omega)]
    exact congrArg (byte src) (by omega)
  · rw [if_neg (by omega)]
    by_cases hin : start ≤ i ∧ i < start + n
    · rw [if_pos (by omega), if_pos (by omega), if_pos (by omega), if_pos (by omega)]
    · rw [if_neg (by omega), if_neg (by omega)]

theorem byteBehind_ok (hi : start + i < 2 ^ 32) : byteBehind b start i = .ok (byte b (start + i)) := by
  rw [byteBehind, fits_ok hi]
  rfl

private theorem putBehind_ok (hi : start + i < 2 ^ 32) (hsrc : i < src.size) :
    putBehind src start b i = .ok (put b (start + i) (byte src i)) := by
  rw [putBehind, fits_ok hi, ok_bind, index_ok hsrc]
  rfl

private theorem foldlM_putBehind (hs : start + src.size ≤ 2 ^ 32) (hn : n ≤ src.size) :
    (List.range n).foldlM (putBehind src start) b = .ok (paste b start (src.extract 0 n)) := by
  induction n with
  | zero =>
    have hempty : paste b start (src.extract 0 0) = b := by
      apply ext_byte (by simp)
      intro i hi
      rw [byte_paste, if_neg (by rw [ByteArray.size_extract]; omega)]
    rw [hempty]
    rfl
  | succ n ih =>
    rw [List.range_succ, List.foldlM_append, ih (by omega), ok_bind, List.foldlM_cons,
      putBehind_ok (by omega) hn, put_paste hn]
    rfl

theorem scatter_ok (hs : start + src.size ≤ 2 ^ 32) : scatter b start src = .ok (paste b start src) := by
  rw [scatter, foldlM_putBehind hs (Nat.le_refl _), ByteArray.extract_zero_size]

end ConsoleBridge.Guarded
