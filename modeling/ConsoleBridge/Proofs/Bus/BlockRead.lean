import ConsoleBridge.Proofs.Bus.SerialWrites

/-!
# A block read from the peripheral interface

The commands are answered in place, byte lane by byte lane, and the 64 lanes are then seen in main memory from
the address of the serial interface on. Nothing else in memory changes, and a repeated write changes nothing.
-/
namespace ConsoleBridge

open Bytes Bus

namespace Bus

variable {b ram src : ByteArray} {state : ControllerState} {pads : Pads} {i j o p k start : Nat}

theorem lane_eq (i : Nat) : lane i = 4 * (i / 4) + (3 - i % 4) := by
  have hdiv := lane_div_four i
  have hmod : lane i % 4 = i % 4 ^^^ 3 := by
    rw [lane, show (4 : Nat) = 2 ^ 2 from rfl, Nat.xor_mod_two_pow]
  have hflip : ∀ r < 4, r ^^^ 3 = 3 - r := by decide
  rw [hflip _ (Nat.mod_lt _ (by decide))] at hmod
  omega

theorem byteOf_loadWord (ho : o + 4 ≤ b.size) (ha : o % 4 = 0) (k : Fin 4) :
    byteOf (loadWord b o) k = seen b (o + k) := by
  obtain ⟨h₃, h₂, h₁, h₀⟩ :=
    @byteOf_wordOf (byte b o) (byte b (o + 1)) (byte b (o + 2)) (byte b (o + 3))
  have hlane : lane (o + k) = o + (3 - k) := by
    rw [lane_eq]
    omega
  rw [loadWord_eq ho, seen, hlane]
  rcases k with ⟨_ | _ | _ | _ | k, hk⟩
  · exact h₀
  · exact h₁
  · exact h₂
  · exact h₃
  · omega

def replyLength (command : UInt8) : Nat :=
  if command = 0x00 ∨ command = 0xFF then 3 else if command = 0x01 then 4 else 0

theorem length_reply (command : UInt8) (state : ControllerState) :
    (reply (.ofByte command) state).length = replyLength command := by
  rw [PadCommand.ofByte, replyLength]
  split
  · rfl
  · split
    · rfl
    · rfl

/-- The places behind the command of a slot. -/
theorem seen_answerCommands_reply (hp : p < padCount) (hs : slotSize * p + slotSize ≤ ram.size)
    (hk : k + 1 < slotSize) :
    seen (answerCommands ram pads) (slotSize * p + 1 + k) =
      ((reply (.ofByte (seen ram (slotSize * p))) pads[p])[k]?).getD (seen ram (slotSize * p + 1 + k)) := by
  have hdiv : (slotSize * p + 1 + k) / slotSize = p := by
    rw [show slotSize = 8 from rfl] at hk ⊢
    omega
  have hmod : (slotSize * p + 1 + k) % slotSize = k + 1 := by
    rw [show slotSize = 8 from rfl] at hk ⊢
    omega
  rw [seen_answerCommands, hdiv, hmod, if_pos hs, getElem?_pos pads p hp]
  rfl

/-- A place that no reply takes keeps its byte. -/
theorem seen_answerCommands_of_not_reply
    (hi : ∀ p < padCount, ¬ (slotSize * p + 1 ≤ i ∧ i < slotSize * p + 1 + replyLength (seen ram (slotSize * p)))) :
    seen (answerCommands ram pads) i = seen ram i := by
  rw [seen_answerCommands]
  split
  · by_cases hp : i / slotSize < padCount
    · rw [getElem?_pos pads _ hp, Option.bind_some]
      cases hk : i % slotSize with
      | zero => rfl
      | succ k =>
        have hi := hi _ hp
        have hlength := length_reply (seen ram (slotSize * (i / slotSize))) pads[i / slotSize]
        have hdiv := Nat.div_add_mod i slotSize
        rw [replyAt, List.getElem?_eq_none (by omega)]
        rfl
    · rw [getElem?_neg pads _ hp]
      rfl
  · rfl

/-- Bytes that are pasted at a word boundary are seen in their order. -/
theorem seen_paste (ha : start % 4 = 0) (hsrc : src.size % 4 = 0) (hb : b.size % 4 = 0) :
    seen (paste b start src) j =
      if start ≤ j ∧ j < start + src.size ∧ j < b.size then seen src (j - start) else seen b j := by
  have hj := lane_eq j
  have hk := lane_eq (j - start)
  rw [seen, byte_paste]
  by_cases hin : start ≤ j ∧ j < start + src.size ∧ j < b.size
  · rw [if_pos hin, if_pos (by omega), seen]
    exact congrArg (byte src) (by omega)
  · rw [if_neg hin, if_neg (by omega), seen]

/-- Store bytes for a processor to see, or nothing when one of them would lie outside. -/
def storeSeen? (ram : ByteArray) (i : Nat) : List UInt8 → Option ByteArray
  | [] => some ram
  | b :: rest => if lane i < ram.size then storeSeen? (put ram (lane i) b) (i + 1) rest else none

/-- Answer the command of a slot, or nothing when a byte outside the memory is asked for. -/
def answerSlot? (ram : ByteArray) (pad : Nat) (state : ControllerState) : Option ByteArray :=
  if slotSize * pad + slotSize ≤ ram.size then
    (byte? ram (lane (slotSize * pad))).bind fun command =>
      storeSeen? ram (slotSize * pad + 1) (reply (.ofByte command) state)
  else some ram

/-- Answer every command, or nothing when a byte outside the memory is asked for. -/
def answerCommands? (ram : ByteArray) (pads : Pads) : Option ByteArray :=
  (List.finRange padCount).foldl (fun ram? (pad : Fin padCount) => ram?.bind (answerSlot? · pad (pads.get pad)))
    (some ram)

private theorem storeSeen?_eq {bs : List UInt8} (hs : ∀ k < bs.length, lane (i + k) < ram.size) :
    storeSeen? ram i bs = some (storeSeen ram i bs) := by
  induction bs generalizing ram i with
  | nil => rfl
  | cons b rest ih =>
    have hi : lane i < ram.size := by simpa using hs 0 (by simp)
    rw [storeSeen?, if_pos hi, storeSeen]
    apply ih
    intro k hk
    rw [size_put, Nat.add_assoc, Nat.add_comm 1 k]
    exact hs (k + 1) (by simpa using hk)

private theorem answerSlot?_eq (ram : ByteArray) (pad : Nat) (state : ControllerState) :
    answerSlot? ram pad state = some (answerSlot ram pad state) := by
  rw [answerSlot?, answerSlot]
  split
  · rename_i hs
    have hcommand : lane (slotSize * pad) < ram.size := lane_lt (Nat.lt_add_of_pos_right (by decide)) hs
    rw [byte?, dif_pos hcommand, Option.bind_some, byte, dif_pos hcommand]
    apply storeSeen?_eq
    intro k hk
    have hlength := length_reply_le (.ofByte ram[lane (slotSize * pad)]) state
    apply lane_lt _ hs
    rw [show slotSize = 8 from rfl]
    omega
  · rfl

/-- Whatever the size of the memory, no byte outside it is asked for. -/
theorem answerCommands?_eq (ram : ByteArray) (pads : Pads) :
    answerCommands? ram pads = some (answerCommands ram pads) := by
  have heach : ∀ (ps : List (Fin padCount)) (ram : ByteArray),
      ps.foldl (fun ram? (pad : Fin padCount) => ram?.bind (answerSlot? · pad (pads.get pad))) (some ram) =
        some (answerEach pads ram ps) := by
    intro ps
    induction ps with
    | nil => exact fun ram => rfl
    | cons p ps ih =>
      intro ram
      rw [List.foldl_cons, Option.bind_some, answerSlot?_eq]
      exact ih _
  exact heach _ ram

end Bus

namespace Console

variable {c : Console} {w : Write} {i j : Nat}

def pifByte (c : Console) (i : Nat) : UInt8 := c.read8 (UInt32.ofNat (0x1FC007C0 + i))

/-- The byte that a processor sees at the physical address `j` of main memory. -/
def ramByte (c : Console) (j : Nat) : UInt8 := c.read8 (UInt32.ofNat j)

theorem read8_of_backing {backing : Backing} {b : ByteArray} (hi : i < backing.extent)
    (hlow : backing.first + backing.extent ≤ 0x80000000) (hb : backing.extent ≤ b.size)
    (hread : ∀ o, c.readBacking backing o = loadWord b o) :
    c.read8 (UInt32.ofNat (backing.first + i)) = seen b i := by
  have hfirst := first_mod backing
  have hextent := extent_mod backing
  have haddress : (UInt32.ofNat (backing.first + i)).toNat = backing.first + i := by
    rw [UInt32.toNat_ofNat', Nat.mod_eq_of_lt (by omega)]
  have hat : wordAt? (UInt32.ofNat (backing.first + i)) = some (backing, i - i % 4) := by
    rw [wordAt?_eq_some_iff, wordOfAddress, physical, haddress, if_neg (by omega), wordBase]
    omega
  have hlane : i - i % 4 + (laneAt (UInt32.ofNat (backing.first + i))).val = i := by
    simp only [laneAt, haddress]
    omega
  rw [read8_eq, read32, hat]
  dsimp only
  rw [hread, byteOf_loadWord (by omega) (by omega), hlane]

theorem pifByte_eq (hs : c.pifRam.size = 64) (hi : i < 64) : c.pifByte i = seen c.pifRam i :=
  @read8_of_backing c i .pifRam c.pifRam hi (by decide) (Nat.le_of_eq hs.symm) fun _ => rfl

theorem ramByte_eq (hs : c.rdram.size = 0x800000) (hj : j < 0x800000) : c.ramByte j = seen c.rdram j := by
  have hread := @read8_of_backing c j .rdram c.rdram hj (by decide) (Nat.le_of_eq hs.symm) fun _ => rfl
  rwa [show Backing.rdram.first = 0 from rfl, Nat.zero_add] at hread

/-- What a block read leaves: replies behind the commands, the other lanes as they were, the block in main
memory from the address of the serial interface on, and everything else untouched. -/
structure BlockRead (c c' : Console) : Prop where
  info : ∀ p < 4, c.pifByte (8 * p) = 0x00 ∨ c.pifByte (8 * p) = 0xFF →
    c'.pifByte (8 * p + 1) = 0x05 ∧ c'.pifByte (8 * p + 2) = 0x00 ∧ c'.pifByte (8 * p + 3) = 0x02
  state : ∀ p s, c.controller? p = some s → c.pifByte (8 * p) = 0x01 →
    [c'.pifByte (8 * p + 1), c'.pifByte (8 * p + 2), c'.pifByte (8 * p + 3), c'.pifByte (8 * p + 4)] =
      s.toBytes.toList
  kept : ∀ i < 64,
    (∀ p < 4, ¬ (8 * p + 1 ≤ i ∧ i < 8 * p + 1 + replyLength (c.pifByte (8 * p)))) → c'.pifByte i = c.pifByte i
  copied : ∀ i < 64, c.si.dramAddress.toNat + i < 0x800000 →
    c'.ramByte (c.si.dramAddress.toNat + i) = c'.pifByte i
  outside : ∀ j < 0x800000, j < c.si.dramAddress.toNat ∨ c.si.dramAddress.toNat + 64 ≤ j →
    c'.ramByte j = c.ramByte j
  rest : c' = { c with pifRam := c'.pifRam, rdram := c'.rdram, si := c'.si, mi := c'.mi }

/-- A write that is repeated changes nothing. -/
theorem perform_perform (c : Console) (w : Write) : (c.perform w).perform w = c.perform w := by
  obtain ⟨mask, hl⟩ := c.latches_word w.address
  have htwice : andThen w.lane? w.lane? = w.lane? := by
    funext k
    rw [andThen, Option.or_self]
  have hrewrite := hl.rewrite_rewrite w.lane? w.lane?
  rw [htwice] at hrewrite
  rw [perform_eq, perform_eq]
  exact hrewrite

section

variable {v : UInt32} (hpif : c.pifRam.size = 64) (hram : c.rdram.size = 0x800000)
include hpif

/-- After the transfer the processor sees the answered commands. -/
theorem pifByte_transferred (start : Nat) (hi : i < 64) :
    (c.transferred (.fromPif start) v).pifByte i = seen (answerCommands c.pifRam c.pads) i := by
  rw [pifByte_eq _ hi]
  · rw [transferred_fromPif]
  · rw [transferred_fromPif, size_answerCommands, hpif]

theorem pifByte_reply {p k : Nat} {s : ControllerState} (start : Nat) (hs : c.controller? p = some s)
    (hk : k + 1 < 8) :
    (c.transferred (.fromPif start) v).pifByte (8 * p + 1 + k) =
      ((reply (.ofByte (c.pifByte (8 * p))) s)[k]?).getD (c.pifByte (8 * p + 1 + k)) := by
  obtain ⟨hp, rfl⟩ := Vector.getElem?_eq_some_iff.mp hs
  have hp' : p < 4 := hp
  rw [pifByte_transferred hpif start (by omega), pifByte_eq hpif (by omega), pifByte_eq hpif (by omega)]
  exact seen_answerCommands_reply hp (by rw [hpif, show slotSize = 8 from rfl]; omega) hk

include hram

/-- After the transfer the block is seen in main memory. -/
theorem ramByte_transferred {start : Nat} (ha : start % 4 = 0) (hj : j < 0x800000) :
    (c.transferred (.fromPif start) v).ramByte j =
      if start ≤ j ∧ j < start + 64 then seen (answerCommands c.pifRam c.pads) (j - start)
      else c.ramByte j := by
  have hanswered : (answerCommands c.pifRam c.pads).size = 64 := (size_answerCommands _ _).trans hpif
  rw [ramByte_eq hram hj, ramByte_eq _ hj]
  · rw [transferred_fromPif, seen_paste ha (by rw [hanswered]) (by rw [hram]), hanswered, hram]
    simp only [hj, and_true]
  · rw [transferred_fromPif, size_paste, hram]

/-- The transfer out of the peripheral interface is a block read. -/
theorem blockRead_transferred (ha : c.si.dramAddress.toNat % 4 = 0) :
    c.BlockRead (c.transferred (.fromPif c.si.dramAddress.toNat) v) where
  info p hp hcommand := by
    have hs : c.controller? p = some (c.pads[p]) := Vector.getElem?_eq_getElem hp
    have hreply : reply (.ofByte (c.pifByte (8 * p))) (c.pads[p]) = [0x05, 0x00, 0x02] := by
      rw [PadCommand.ofByte, if_pos hcommand]
      rfl
    have hplace := fun k (hk : k + 1 < 8) => pifByte_reply (v := v) hpif c.si.dramAddress.toNat hs hk
    rw [hreply] at hplace
    exact ⟨hplace 0 (by decide), hplace 1 (by decide), hplace 2 (by decide)⟩
  state p s hs hcommand := by
    have hreply : reply (.ofByte (c.pifByte (8 * p))) s = s.toBytes.toList := by
      rw [hcommand]
      rfl
    have hplace := fun k (hk : k + 1 < 8) => pifByte_reply (v := v) hpif c.si.dramAddress.toNat hs hk
    rw [hreply] at hplace
    rw [show 8 * p + 1 = 8 * p + 1 + 0 from rfl, hplace 0 (by decide), hplace 1 (by decide), hplace 2 (by decide),
      hplace 3 (by decide)]
    rfl
  kept i hi hreply := by
    rw [pifByte_transferred hpif _ hi, pifByte_eq hpif hi]
    apply seen_answerCommands_of_not_reply
    intro p hp
    have hp' : p < 4 := hp
    rw [← pifByte_eq hpif (show slotSize * p < 64 by rw [show slotSize = 8 from rfl]; omega)]
    exact hreply p hp
  copied i hi hd := by
    rw [ramByte_transferred hpif hram ha hd, if_pos (by omega), Nat.add_sub_cancel_left,
      pifByte_transferred hpif _ hi]
  outside j hj hd := by rw [ramByte_transferred hpif hram ha hj, if_neg (by omega)]
  rest := by rw [transferred_fromPif]

end

/-- From a state that the console can come to, a write to the register that starts a block read has the effect of
one, repeated it changes nothing more, and the commands are answered within bounds in a memory of any size. -/
theorem blockRead_perform (hc : Reachable c) (hw : w.target = fromPifWord) :
    c.BlockRead (c.perform w) ∧ (c.perform w).perform w = c.perform w ∧
      ∀ ram pads, answerCommands? ram pads = some (answerCommands ram pads) := by
  obtain ⟨save, hsizes⟩ := hc.sizes_eq
  have hat : wordAt? w.address = some (.registers .si, 0x04) := wordAt?_eq_some_iff.mpr ⟨hw, by decide⟩
  refine ⟨?_, perform_perform c w, answerCommands?_eq⟩
  rw [perform_of_wordAt? hat]
  exact blockRead_transferred (congrArg Sizes.pifRam hsizes) (congrArg Sizes.rdram hsizes) hc.masked.bounds.1

def asking : Console :=
  (((new .absent).apply (.setController 2 (.new ⟨0x9008⟩ 50 (-60)))).apply (.write (.byte 0xBFC007D0 0x01))).apply
    (.write (.word 0xA4800000 0x1000))

theorem reachable_asking : Reachable asking := ((Reachable.absent.apply _).apply _).apply _

/-- Writing a byte of the register brings the reply of the third controller into main memory. -/
theorem ramByte_asking :
    Reachable asking ∧ (Write.byte 0xA4800006 0x00).target = fromPifWord ∧
      [(asking.perform (.byte 0xA4800006 0x00)).ramByte 0x1011, (asking.perform (.byte 0xA4800006 0x00)).ramByte 0x1012,
        (asking.perform (.byte 0xA4800006 0x00)).ramByte 0x1013,
        (asking.perform (.byte 0xA4800006 0x00)).ramByte 0x1014] = [0x90, 0x08, 0x32, 0xC4] := by
  have hw : (Write.byte 0xA4800006 0x00).target = fromPifWord := by decide
  have hread := (blockRead_perform reachable_asking hw).1
  have hdram : asking.si.dramAddress.toNat = 0x1000 := by decide +kernel
  have hcopied : ∀ i < 64, (asking.perform (.byte 0xA4800006 0x00)).ramByte (0x1000 + i) =
      (asking.perform (.byte 0xA4800006 0x00)).pifByte i := by
    intro i hi
    rw [← hread.copied i hi (by rw [hdram]; omega), hdram]
  refine ⟨reachable_asking, hw, ?_⟩
  rw [hcopied 17 (by decide), hcopied 18 (by decide), hcopied 19 (by decide), hcopied 20 (by decide)]
  exact (hread.state 2 (.new ⟨0x9008⟩ 50 (-60)) (by decide +kernel) (by decide +kernel)).trans (by decide)

end Console

end ConsoleBridge
