import ConsoleBridge.Proofs.Bytes.Lanes

/-!
# What a byte memory holds after a write

Two memories of one size are equal when their bytes are, so each write is told by the bytes it leaves. A word
that is stored is what a load brings, words that do not meet do not disturb each other, and of two stores at
one place the second counts.
-/
namespace ConsoleBridge.Bytes

variable {a b src : ByteArray} {i j o o' start : Nat} {v w : UInt32} {x : UInt8}

theorem byte_of_lt (hi : i < b.size) : byte b i = b[i] := dif_pos hi

theorem byte_of_le (hi : b.size ≤ i) : byte b i = 0 := dif_neg (Nat.not_lt.mpr hi)

theorem ext_byte (hs : a.size = b.size) (hb : ∀ i < a.size, byte a i = byte b i) : a = b := by
  apply ByteArray.ext_getElem hs
  intro i hi hi'
  rw [← byte_of_lt hi, ← byte_of_lt hi', hb i hi]

theorem byte_set! (hi : i < b.size) : byte (b.set! i x) j = if j = i then x else byte b j := by
  by_cases hj : j < b.size
  · rw [byte_of_lt (by rwa [ByteArray.size_set!]), ByteArray.getElem_set! b i j x hi hj, byte_of_lt hj]
    simp only [eq_comm]
  · have hne : j ≠ i := by omega
    rw [byte_of_le (by rw [ByteArray.size_set!]; omega), byte_of_le (by omega), if_neg hne]

theorem byte_put : byte (put b i x) j = if j = i ∧ i < b.size then x else byte b j := by
  rw [put]
  split
  · rename_i hi
    simp only [byte_set! hi, hi, and_true]
  · rename_i hi
    simp only [hi, and_false, if_false]

/-- The bytes of a word that is stored at `o`; the most significant one stands first. -/
theorem byte_storeWord (ho : o + 4 ≤ b.size) :
    byte (storeWord b o v) i =
      if i = o + 3 then byteOf v 0 else if i = o + 2 then byteOf v 1 else
        if i = o + 1 then byteOf v 2 else if i = o then byteOf v 3 else byte b i := by
  rw [storeWord, if_pos ho, byte_set! (by simp only [ByteArray.size_set!]; omega),
    byte_set! (by simp only [ByteArray.size_set!]; omega),
    byte_set! (by simp only [ByteArray.size_set!]; omega), byte_set! (by omega)]
  rfl

theorem loadWord_eq (ho : o + 4 ≤ b.size) :
    loadWord b o = wordOf (byte b o) (byte b (o + 1)) (byte b (o + 2)) (byte b (o + 3)) := by
  rw [loadWord, dif_pos ho, byte_of_lt, byte_of_lt, byte_of_lt, byte_of_lt]

theorem loadWord_of_short (ho : ¬ o + 4 ≤ b.size) : loadWord b o = 0 := dif_neg ho

theorem storeWord_of_short (ho : ¬ o + 4 ≤ b.size) : storeWord b o v = b := if_neg ho

theorem loadWord_storeWord (ho : o + 4 ≤ b.size) : loadWord (storeWord b o v) o = v := by
  have hword : wordOf (byteOf v 3) (byteOf v 2) (byteOf v 1) (byteOf v 0) = v := ofLanes_byteOf v
  rw [loadWord_eq (by rwa [size_storeWord])]
  simp only [byte_storeWord ho]
  simpa using hword

theorem loadWord_storeWord_of_apart (ha : o' + 4 ≤ o ∨ o + 4 ≤ o') :
    loadWord (storeWord b o v) o' = loadWord b o' := by
  by_cases ho : o + 4 ≤ b.size
  · have hbyte : ∀ i, o' ≤ i → i < o' + 4 → byte (storeWord b o v) i = byte b i := by
      intro i hi hi'
      rw [byte_storeWord ho, if_neg (by omega), if_neg (by omega), if_neg (by omega), if_neg (by omega)]
    by_cases ho' : o' + 4 ≤ b.size
    · rw [loadWord_eq (by rwa [size_storeWord]), loadWord_eq ho', hbyte o' (by omega) (by omega),
        hbyte (o' + 1) (by omega) (by omega), hbyte (o' + 2) (by omega) (by omega),
        hbyte (o' + 3) (by omega) (by omega)]
    · rw [loadWord_of_short (by rwa [size_storeWord]), loadWord_of_short ho']
  · rw [storeWord_of_short ho]

theorem loadWord_storeWord_aligned (ho : o + 4 ≤ b.size) (ha : o % 4 = 0)
    (ha' : o' % 4 = 0) : loadWord (storeWord b o v) o' = if o' = o then v else loadWord b o' := by
  split
  · rename_i h
    rw [h, loadWord_storeWord ho]
  · exact loadWord_storeWord_of_apart (by omega)

theorem storeWord_storeWord : storeWord (storeWord b o v) o w = storeWord b o w := by
  by_cases ho : o + 4 ≤ b.size
  · apply ext_byte (by simp)
    intro i hi
    have ho' : o + 4 ≤ (storeWord b o v).size := by rwa [size_storeWord]
    rw [byte_storeWord ho', byte_storeWord ho, byte_storeWord ho]
    split
    · rfl
    · split
      · rfl
      · split
        · rfl
        · split
          · rfl
          · rfl
  · rw [storeWord_of_short ho]

theorem byte_append : byte (a ++ b) i = if i < a.size then byte a i else byte b (i - a.size) := by
  split
  · rename_i hi
    have hi' : i < (a ++ b).size := by
      rw [ByteArray.size_append]
      omega
    rw [byte_of_lt hi', byte_of_lt hi, ByteArray.getElem_append_left hi]
  · rename_i hi
    by_cases hi' : i < (a ++ b).size
    · have hsize : (a ++ b).size = a.size + b.size := ByteArray.size_append
      rw [byte_of_lt hi', byte_of_lt (by omega), ByteArray.getElem_append_right (by omega)]
    · have hsize : (a ++ b).size = a.size + b.size := ByteArray.size_append
      rw [byte_of_le (by omega), byte_of_le (by omega)]

theorem byte_extract {stop : Nat} :
    byte (b.extract start stop) i = if i < min stop b.size - start then byte b (start + i) else 0 := by
  split
  · rename_i hi
    have hi' : i < (b.extract start stop).size := by rwa [ByteArray.size_extract]
    rw [byte_of_lt hi', ByteArray.getElem_extract, byte_of_lt]
  · rename_i hi
    rw [byte_of_le]
    rw [ByteArray.size_extract]
    omega

theorem byte_paste :
    byte (paste b start src) i =
      if start ≤ i ∧ i < start + src.size ∧ i < b.size then byte src (i - start) else byte b i := by
  rw [paste]
  split
  · rename_i hs
    have hfront : (b.extract 0 start).size = start := by
      rw [ByteArray.size_extract]
      omega
    have hsrc : (src.extract 0 (0 + min src.size (b.size - start))).size = min src.size (b.size - start) := by
      rw [ByteArray.size_extract]
      omega
    rw [ByteArray.copySlice_eq_append, byte_append, byte_append, ByteArray.size_append, hfront, hsrc]
    simp only [byte_extract, ByteArray.size_data]
    by_cases hi : i < start
    · rw [if_pos (by omega), if_pos hi, if_pos (by omega), if_neg (by omega), Nat.zero_add]
    · by_cases hi' : i < start + min src.size (b.size - start)
      · rw [if_pos hi', if_neg hi, if_pos (by omega), if_pos (by omega), Nat.zero_add]
      · rw [if_neg hi', if_neg (show ¬ (start ≤ i ∧ i < start + src.size ∧ i < b.size) by omega)]
        by_cases hb : i < b.size
        · rw [if_pos (by omega)]
          exact congrArg (byte b) (by omega)
        · rw [if_neg (by omega), byte_of_le (Nat.not_lt.mp hb)]
  · rw [if_neg (by omega)]

theorem paste_empty (b : ByteArray) : paste b 0 ByteArray.empty = b := by
  apply ext_byte (by simp)
  intro i hi
  rw [byte_paste, if_neg (by simp)]

/-- Bytes of the same size replace all that was there. -/
theorem paste_of_size_eq (hsize : src.size = b.size) : paste b 0 src = src := by
  refine ext_byte (by rw [size_paste, hsize]) fun i hi => ?_
  rw [size_paste] at hi
  rw [byte_paste, if_pos ⟨Nat.zero_le i, by omega, hi⟩, Nat.sub_zero]

/-- To paste the same bytes again changes nothing. -/
theorem paste_paste : paste (paste b start src) start src = paste b start src := by
  apply ext_byte (by simp)
  intro i hi
  rw [byte_paste, byte_paste, size_paste]
  split
  · rfl
  · rfl

theorem byte_zeros (n : Nat) : byte (zeros n) i = 0 := by
  by_cases hi : i < (zeros n).size
  · rw [byte_of_lt hi]
    simp [zeros, ByteArray.getElem_eq_getElem_data]
  · exact byte_of_le (Nat.not_lt.mp hi)

theorem byte_fit {size : Nat} {data : ByteArray} : byte (fit size data) i = if i < size then byte data i else 0 := by
  rw [fit, byte_append, byte_extract, byte_zeros, ByteArray.size_extract]
  by_cases hi : i < min size data.size - 0
  · rw [if_pos hi, if_pos hi, if_pos (by omega), Nat.zero_add]
  · rw [if_neg hi]
    split
    · exact (byte_of_le (by omega)).symm
    · rfl

/-- Data of the size that is asked for stays as it is. -/
theorem fit_size (data : ByteArray) : fit data.size data = data := by
  apply ext_byte (size_fit _ _)
  intro i hi
  rw [size_fit] at hi
  rw [byte_fit, if_pos hi]

end ConsoleBridge.Bytes
