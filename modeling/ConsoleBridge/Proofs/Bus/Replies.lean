import ConsoleBridge.Bus.Commands
import ConsoleBridge.Proofs.Bytes.Storage

/-!
# Replies to the commands of the peripheral interface

A reply fills the places behind its command and leaves every command and every other slot alone. So the bytes
after answering are told by the bytes before, and answering a second time changes nothing.
-/
namespace ConsoleBridge.Bus

open Bytes

variable {ram : ByteArray} {state : ControllerState} {pads : Pads} {i j pad : Nat}

def seen (ram : ByteArray) (i : Nat) : UInt8 := byte ram (lane i)

def replyAt (b : UInt8) (state : ControllerState) : Nat → Option UInt8
  | 0 => none
  | i + 1 => (reply (.ofByte b) state)[i]?

@[simp] theorem lane_lane (i : Nat) : lane (lane i) = i := by
  rw [lane, lane, Nat.xor_assoc, Nat.xor_self, Nat.xor_zero]

theorem byte_eq_seen (ram : ByteArray) (i : Nat) : byte ram i = seen ram (lane i) := by
  rw [seen, lane_lane]

private theorem lane_inj : lane i = lane j ↔ i = j := by
  constructor
  · intro h
    rw [← lane_lane i, h, lane_lane]
  · exact congrArg lane

theorem length_reply_le (c : PadCommand) (state : ControllerState) : (reply c state).length ≤ 4 := by
  cases c with
  | info => exact Nat.le_succ 3
  | readState => exact Nat.le_refl 4
  | other => exact Nat.zero_le 4

theorem lane_div_four (i : Nat) : lane i / 4 = i / 4 := by
  rw [lane, show (4 : Nat) = 2 ^ 2 from rfl, Nat.xor_div_two_pow]
  exact Nat.xor_zero _

/-- The places of a slot that is whole are there. -/
theorem lane_lt (hi : i < slotSize * pad + slotSize) (hs : slotSize * pad + slotSize ≤ ram.size) :
    lane i < ram.size := by
  have hlane := lane_div_four i
  rw [show slotSize = 8 from rfl] at hi hs
  omega

private theorem seen_put (hi : lane i < ram.size) (b : UInt8) :
    seen (put ram (lane i) b) j = if j = i then b else seen ram j := by
  rw [seen, byte_put]
  simp only [lane_inj, hi, and_true]
  rfl

private theorem seen_storeSeen (bs : List UInt8) (hs : ∀ k < bs.length, lane (i + k) < ram.size) :
    seen (storeSeen ram i bs) j = if i ≤ j then (bs[j - i]?).getD (seen ram j) else seen ram j := by
  induction bs generalizing ram i with
  | nil => simp [storeSeen]
  | cons b rest ih =>
    have hi : lane i < ram.size := by simpa using hs 0 (by simp)
    rw [storeSeen, ih, seen_put hi]
    · rcases Nat.lt_trichotomy i j with hij | rfl | hij
      · have hne : j ≠ i := by omega
        have hd : j - i = j - (i + 1) + 1 := by omega
        rw [if_pos (show i + 1 ≤ j from hij), if_pos (Nat.le_of_lt hij), if_neg hne, hd,
          List.getElem?_cons_succ]
      · rw [if_neg (Nat.not_succ_le_self i), if_pos rfl, if_pos (Nat.le_refl _), Nat.sub_self]
        rfl
      · have hne : j ≠ i := by omega
        rw [if_neg (show ¬ i + 1 ≤ j by omega), if_neg hne, if_neg (Nat.not_le.mpr hij)]
    · intro k hk
      rw [size_put, Nat.add_assoc, Nat.add_comm 1 k]
      exact hs (k + 1) (by simpa using hk)

theorem seen_answerSlot :
    seen (answerSlot ram pad state) j =
      if slotSize * pad + slotSize ≤ ram.size ∧ j / slotSize = pad then
        (replyAt (seen ram (slotSize * pad)) state (j % slotSize)).getD (seen ram j)
      else seen ram j := by
  rw [answerSlot]
  split
  · rename_i hs
    have hlength := length_reply_le (.ofByte (seen ram (slotSize * pad))) state
    have hwhole : ∀ k < (reply (.ofByte (seen ram (slotSize * pad))) state).length,
        lane (slotSize * pad + 1 + k) < ram.size := by
      intro k hk
      apply lane_lt _ hs
      rw [show slotSize = 8 from rfl]
      omega
    rw [← seen, seen_storeSeen _ hwhole]
    rw [show slotSize = 8 from rfl] at hs hlength ⊢
    by_cases hpad : j / 8 = pad
    · rw [if_pos (show 8 * pad + 8 ≤ ram.size ∧ j / 8 = pad from ⟨hs, hpad⟩)]
      cases hplace : j % 8 with
      | zero =>
        rw [if_neg (show ¬ 8 * pad + 1 ≤ j by omega)]
        rfl
      | succ k =>
        have hk : j - (8 * pad + 1) = k := by omega
        rw [if_pos (show 8 * pad + 1 ≤ j by omega), hk]
        rfl
    · rw [if_neg (show ¬ (8 * pad + 8 ≤ ram.size ∧ j / 8 = pad) from fun h => hpad h.2)]
      split
      · rw [List.getElem?_eq_none (by omega)]
        rfl
      · rfl
  · rename_i hs
    rw [if_neg fun h => hs h.1]

theorem seen_answerSlot_of_ne (hj : j / slotSize ≠ pad) : seen (answerSlot ram pad state) j = seen ram j := by
  rw [seen_answerSlot, if_neg fun h => hj h.2]

def answerEach (pads : Pads) (ram : ByteArray) (ps : List (Fin padCount)) : ByteArray :=
  ps.foldl (fun ram (p : Fin padCount) => answerSlot ram p (pads.get p)) ram

private theorem answerCommands_eq : answerCommands ram pads = answerEach pads ram (List.finRange padCount) := rfl

/-- Slots that are answered one after the other leave the other slots alone. -/
theorem seen_answerEach_of_not_mem {ps : List (Fin padCount)} (hj : ∀ p ∈ ps, j / slotSize ≠ p.val) :
    seen (answerEach pads ram ps) j = seen ram j := by
  induction ps generalizing ram with
  | nil => rfl
  | cons p ps ih =>
    rw [answerEach, List.foldl_cons, ← answerEach, ih fun q hq => hj q (List.mem_cons_of_mem _ hq),
      seen_answerSlot_of_ne (hj p (List.mem_cons_self ..))]

/-- A slot is answered as if it were the only one. -/
theorem seen_answerEach_of_mem {ps : List (Fin padCount)} (hn : ps.Nodup) {p : Fin padCount} (hp : p ∈ ps)
    (hj : j / slotSize = p.val) :
    seen (answerEach pads ram ps) j = seen (answerSlot ram p (pads.get p)) j := by
  induction ps generalizing ram with
  | nil => cases hp
  | cons q ps ih =>
    rw [List.nodup_cons] at hn
    rw [answerEach, List.foldl_cons, ← answerEach]
    rcases List.mem_cons.mp hp with rfl | hmem
    · rw [seen_answerEach_of_not_mem]
      rintro r hr hjr
      obtain rfl : p = r := Fin.ext (hj.symm.trans hjr)
      exact hn.1 hr
    · have hne : p.val ≠ q.val := by
        intro h
        obtain rfl : p = q := Fin.ext h
        exact hn.1 hmem
      have hcommand : slotSize * p.val / slotSize ≠ q.val := by
        rwa [Nat.mul_div_cancel_left _ (by decide)]
      rw [ih hn.2 hmem, seen_answerSlot, size_answerSlot, seen_answerSlot_of_ne hcommand,
        seen_answerSlot_of_ne fun h => hne (hj.symm.trans h), ← seen_answerSlot]

/-- The bytes after answering every command: a slot that is whole holds the reply to its command behind it,
every other byte stays. -/
theorem seen_answerCommands :
    seen (answerCommands ram pads) j =
      if slotSize * (j / slotSize) + slotSize ≤ ram.size then
        ((pads[j / slotSize]?).bind fun state =>
          replyAt (seen ram (slotSize * (j / slotSize))) state (j % slotSize)).getD (seen ram j)
      else seen ram j := by
  rw [answerCommands_eq]
  by_cases hpad : j / slotSize < padCount
  · rw [seen_answerEach_of_mem (List.nodup_finRange _) (List.mem_finRange ⟨j / slotSize, hpad⟩) rfl,
      seen_answerSlot, getElem?_pos pads _ hpad]
    by_cases hs : slotSize * (j / slotSize) + slotSize ≤ ram.size
    · rw [if_pos ⟨hs, rfl⟩, if_pos hs]
      rfl
    · rw [if_neg fun h => hs h.1, if_neg hs]
  · rw [getElem?_neg pads _ hpad, seen_answerEach_of_not_mem fun p _ h => hpad (h ▸ p.isLt)]
    split
    · rfl
    · rfl

theorem size_answerEach (pads : Pads) (ps : List (Fin padCount)) : (answerEach pads ram ps).size = ram.size := by
  induction ps generalizing ram with
  | nil => rfl
  | cons p ps ih => rw [answerEach, List.foldl_cons, ← answerEach, ih, size_answerSlot]

@[simp] theorem size_answerCommands (ram : ByteArray) (pads : Pads) :
    (answerCommands ram pads).size = ram.size := size_answerEach pads _

/-- Answering leaves the commands. -/
theorem seen_command : seen (answerCommands ram pads) (slotSize * pad) = seen ram (slotSize * pad) := by
  rw [seen_answerCommands, Nat.mul_mod_right]
  split
  · cases pads[slotSize * pad / slotSize]? with
    | none => rfl
    | some state => rfl
  · rfl

/-- Answering again gives the same replies. -/
theorem answerCommands_answerCommands (ram : ByteArray) (pads : Pads) :
    answerCommands (answerCommands ram pads) pads = answerCommands ram pads := by
  apply ext_byte (size_answerCommands _ _)
  intro i hi
  rw [byte_eq_seen, byte_eq_seen]
  generalize lane i = j
  -- A reply is told by its command, and the first pass has left the commands.
  rw [seen_answerCommands, seen_command, size_answerCommands, seen_answerCommands]
  split
  · cases (pads[j / slotSize]?).bind fun state =>
        replyAt (seen ram (slotSize * (j / slotSize))) state (j % slotSize) with
    | none => rfl
    | some b => rfl
  · rfl

end ConsoleBridge.Bus
