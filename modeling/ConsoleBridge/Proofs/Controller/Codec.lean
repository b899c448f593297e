import ConsoleBridge.Proofs.Bus.BlockWrite
import ConsoleBridge.Proofs.Controller.Agreement

/-!
# The four bytes of a state and the shape that is searched for

The contract of a standard controller admits the words that stand for a state. A state that is made of buttons
comes back from its four bytes, so that it is found wherever it is put: in the reply to a query on the bus, and
in the slot of a foreign process.
-/
namespace ConsoleBridge

open Bytes Handle

namespace Buttons

def every : UInt16 := Button.all.foldl (fun bits button => bits ||| button.bit) 0

/-- Each bit of the field belongs to a button. -/
def Defined (s : Buttons) : Prop := s.bits &&& ~~~every = 0

instance (s : Buttons) : Decidable s.Defined := inferInstanceAs (Decidable (_ = _))

private theorem every_eq : every = definedMask := by decide

variable {s t : Buttons}

theorem ofBits?_eq_some_iff {bits : UInt16} : ofBits? bits = some s ↔ s.bits = bits ∧ s.Defined := by
  rw [ofBits?, Defined, every_eq]
  constructor
  · intro h
    split at h
    · cases h
      exact ⟨rfl, ‹_›⟩
    · cases h
  · rintro ⟨rfl, hdefined⟩
    rw [if_pos hdefined]

theorem Defined.union (hs : s.Defined) (ht : t.Defined) : (s.union t).Defined := by
  rw [Defined] at hs ht ⊢
  apply UInt16.toBitVec_inj.mp
  ext i hi
  have hs := congrArg (fun w : UInt16 => w.toBitVec[i]) hs
  have ht := congrArg (fun w : UInt16 => w.toBitVec[i]) ht
  simp only [Buttons.union, UInt16.toBitVec_and, UInt16.toBitVec_or, UInt16.toBitVec_not, BitVec.getElem_and,
    BitVec.getElem_or, BitVec.getElem_not, UInt16.toBitVec_zero, BitVec.getElem_zero] at hs ht ⊢
  rw [Bool.and_or_distrib_right, hs, ht]
  rfl

theorem Defined.without (hs : s.Defined) (t : Buttons) : (s.without t).Defined := by
  rw [Defined, Buttons.without, UInt16.and_assoc, UInt16.and_comm (~~~t.bits), ← UInt16.and_assoc, hs, UInt16.zero_and]

end Buttons

namespace Axis

/-- A position that a stick can report. -/
def Within (v : Int) : Prop := -127 ≤ v ∧ v ≤ 127

theorem within_zero : Within 0 := ⟨by decide, by decide⟩

theorem within_clamp (v : Int) : Within (clamp v) := by
  rw [Within, clamp, show (limit : Int) = 127 from rfl]
  omega

theorem ofByte_toByte {v : Int} (hv : Within v) : ofByte (toByte v) = v := by
  obtain ⟨hl, hu⟩ := hv
  rw [ofByte, toByte, UInt8.toNat_ofNat']
  split
  · omega
  · omega

theorem toByte_ofByte (b : UInt8) : toByte (ofByte b) = b := by
  have hb := b.toNat_lt
  apply UInt8.toNat_inj.mp
  rw [toByte, ofByte, UInt8.toNat_ofNat']
  split
  · omega
  · omega

theorem magnitude_le_iff {b : UInt8} : magnitude b ≤ limit ↔ Within (ofByte b) := by
  rw [magnitude, Within, limit]
  omega

end Axis

namespace StateBytes

theorem toNat_field (w : StateBytes) : w.field.toNat = w.high.toNat * 2 ^ 8 + w.low.toNat := toNat_half w.high w.low

end StateBytes

private theorem ShapeContract.admits_eq_true_iff {c : ShapeContract} {w : StateBytes} : c.admits w = true ↔
    w.field &&& ~~~c.buttonMask = 0 ∧ Axis.magnitude w.x ≤ c.analogLimit ∧ Axis.magnitude w.y ≤ c.analogLimit := by
  simp only [admits, Bool.and_eq_true, beq_iff_eq, decide_eq_true_eq, and_assoc]

namespace ControllerState

variable {s : ControllerState} {w : StateBytes}

def InReach (s : ControllerState) : Prop := Axis.Within s.x ∧ Axis.Within s.y

theorem field_toBytes (s : ControllerState) : s.toBytes.field = s.buttons.bits := by
  have hs := s.buttons.bits.toNat_lt
  apply UInt16.toNat_inj.mp
  rw [StateBytes.toNat_field, toBytes, UInt16.toNat_toUInt8, UInt16.toNat_toUInt8, UInt16.toNat_shiftRight]
  simp only [UInt16.reduceToNat, Nat.shiftRight_eq_div_pow, Nat.reduceMod, Nat.reducePow]
  omega

/-- The two bytes of the field are told by it. -/
theorem bytes_of_field (w : StateBytes) : (w.field >>> 8).toUInt8 = w.high ∧ w.field.toUInt8 = w.low := by
  have hhigh := w.high.toNat_lt
  have hlow := w.low.toNat_lt
  constructor
  · apply UInt8.toNat_inj.mp
    rw [UInt16.toNat_toUInt8, UInt16.toNat_shiftRight, StateBytes.toNat_field]
    simp only [UInt16.reduceToNat, Nat.shiftRight_eq_div_pow, Nat.reduceMod, Nat.reducePow]
    omega
  · apply UInt8.toNat_inj.mp
    rw [UInt16.toNat_toUInt8, StateBytes.toNat_field]
    omega

/-- Four bytes stand for the state that they are the bytes of, if there is one of buttons and in reach. -/
theorem ofBytes?_eq_some_iff : ofBytes? w = some s ↔ s.toBytes = w ∧ s.buttons.Defined ∧ s.InReach := by
  constructor
  · intro h
    rw [ofBytes?] at h
    split at h
    · rename_i buttons hbuttons
      obtain ⟨hfield, hdefined⟩ := Buttons.ofBits?_eq_some_iff.mp hbuttons
      split at h
      · rename_i haxes
        cases h
        rw [Axis.magnitude_le_iff, Axis.magnitude_le_iff] at haxes
        obtain ⟨hhigh, hlow⟩ := bytes_of_field w
        refine ⟨?_, hdefined, haxes⟩
        rw [toBytes, hfield, hhigh, hlow, Axis.toByte_ofByte, Axis.toByte_ofByte]
      · cases h
    · cases h
  · rintro ⟨rfl, hdefined, hx, hy⟩
    have hx' : Axis.ofByte s.toBytes.x = s.x := Axis.ofByte_toByte hx
    have hy' : Axis.ofByte s.toBytes.y = s.y := Axis.ofByte_toByte hy
    have hbuttons : Buttons.ofBits? s.toBytes.field = some s.buttons :=
      Buttons.ofBits?_eq_some_iff.mpr ⟨(field_toBytes s).symm, hdefined⟩
    have haxes : Axis.magnitude s.toBytes.x ≤ Axis.limit ∧ Axis.magnitude s.toBytes.y ≤ Axis.limit := by
      rw [Axis.magnitude_le_iff, Axis.magnitude_le_iff, hx', hy']
      exact ⟨hx, hy⟩
    rw [ofBytes?, hbuttons]
    dsimp only
    rw [if_pos haxes, hx', hy']

theorem admits_iff (w : StateBytes) : ShapeContract.standard.admits w = true ↔ ∃ s, ofBytes? w = some s := by
  rw [ShapeContract.admits_eq_true_iff, ofBytes?, Buttons.ofBits?, ShapeContract.standard]
  by_cases hfield : w.field &&& ~~~Buttons.definedMask = 0
  · rw [if_pos hfield]
    simp [hfield]
  · rw [if_neg hfield]
    simp [hfield]

/-- The states that a new one or one at rest becomes by changes which name allowed buttons only. -/
inductive Reached (allowed : Buttons → Prop) : ControllerState → Prop
  | rest : Reached allowed rest
  | new {buttons : Buttons} (ok : allowed buttons) (x y : Int) : Reached allowed (new buttons x y)
  | setStick {s : ControllerState} (reached : Reached allowed s) (x y : Int) : Reached allowed (s.setStick x y)
  | setButtons {s : ControllerState} {buttons : Buttons} (reached : Reached allowed s) (ok : allowed buttons)
      (pressed : Bool) : Reached allowed (s.setButtons buttons pressed)
  | assignButtons {s : ControllerState} {buttons : Buttons} (reached : Reached allowed s) (ok : allowed buttons) :
      Reached allowed (s.assignButtons buttons)

variable {allowed : Buttons → Prop}

theorem Reached.inReach (hs : Reached allowed s) : s.InReach := by
  induction hs with
  | rest => exact ⟨Axis.within_zero, Axis.within_zero⟩
  | new ok x y => exact ⟨Axis.within_clamp x, Axis.within_clamp y⟩
  | setStick reached x y ih => exact ⟨Axis.within_clamp x, Axis.within_clamp y⟩
  | setButtons reached ok pressed ih => exact ih
  | assignButtons reached ok ih => exact ih

private theorem Reached.defined (hs : Reached Buttons.Defined s) : s.buttons.Defined := by
  induction hs with
  | rest => exact UInt16.zero_and
  | new ok x y => exact ok
  | setStick reached x y ih => exact ih
  | setButtons reached ok pressed ih =>
    cases pressed with
    | true => exact ih.union ok
    | false => exact ih.without _
  | assignButtons reached ok ih => exact ok

/-- A state that is made of buttons comes back from its bytes. -/
theorem Reached.ofBytes? (hs : Reached Buttons.Defined s) : ControllerState.ofBytes? s.toBytes = some s :=
  ofBytes?_eq_some_iff.mpr ⟨rfl, hs.defined, hs.inReach⟩

private theorem ofBytes?_of_not_defined (hs : ¬ s.buttons.Defined) : ControllerState.ofBytes? s.toBytes = none := by
  rw [Option.eq_none_iff_forall_ne_some]
  intro t ht
  obtain ⟨hbytes, hdefined, -⟩ := ofBytes?_eq_some_iff.mp ht
  have hfield : t.buttons.bits = s.buttons.bits := by rw [← field_toBytes, hbytes, field_toBytes]
  rw [Buttons.Defined, hfield] at hdefined
  exact hs hdefined

/-- The word stands for the state, and the contract of a standard controller admits it. -/
structure Shown (w : StateBytes) (s : ControllerState) : Prop where
  admitted : ShapeContract.standard.admits w = true
  decoded : ControllerState.ofBytes? w = some s

theorem Reached.shown (hs : Reached Buttons.Defined s) : Shown s.toBytes s :=
  ⟨(admits_iff _).mpr ⟨s, hs.ofBytes?⟩, hs.ofBytes?⟩

end ControllerState

open ControllerState (Reached Shown)

namespace PadOperation

def named : PadOperation → Option Buttons
  | request (.setButtons _ buttons _) => some buttons
  | request (.assignButtons _ buttons) => some buttons
  | request (.setStick _ _ _) => none
  | request .release => none
  | flush _ => none

/-- What an operation does to a player who presses buttons only is a change of this kind, or none. -/
theorem reached_effect {op : PadOperation} {s : ControllerState} (hop : ∀ buttons ∈ op.named, buttons.Defined)
    (player : Nat) (hs : Reached Buttons.Defined s) : Reached Buttons.Defined (op.effect player s) := by
  -- A request changes the one player whom it names.
  have honly : ∀ p {t : ControllerState}, Reached Buttons.Defined t →
      Reached Buttons.Defined (if player = p then t else s) := by
    intro p t ht
    split
    · exact ht
    · exact hs
  cases op with
  | request q =>
    cases q with
    | setButtons p buttons pressed =>
      have hchanged := hs.setButtons (hop buttons rfl) pressed
      cases pressed with
      | true => exact honly p hchanged
      | false => exact honly p hchanged
    | assignButtons p buttons => exact honly p (hs.assignButtons (hop buttons rfl))
    | setStick p x y => exact honly p (hs.setStick x y)
    | release => exact .rest
  | flush p => exact hs

end PadOperation

namespace Injector

variable {σ : Type}

def NamesButtons (actions : List (PadAction σ)) : Prop :=
  ∀ op, .operate op ∈ actions → ∀ buttons ∈ op.named, buttons.Defined

/-- Every player presses buttons only. -/
def Presses (i : Injector) : Prop := ∀ player s, i.state? player = some s → Reached Buttons.Defined s

theorem presses_new (base : Nat) : (new base).Presses := by
  intro player s hs
  obtain ⟨hplayer, rfl⟩ := Vector.getElem?_eq_some_iff.mp hs
  have hrest : (new base).pads[player] = .rest := Vector.getElem_replicate hplayer
  rw [hrest]
  exact .rest

private theorem presses_after {i : Injector} (hi : i.Presses) {op : PadOperation}
    (hop : ∀ buttons ∈ op.named, buttons.Defined) : (i.after op).Presses := by
  intro player s hs
  rw [state?_after] at hs
  obtain ⟨before, hbefore, rfl⟩ := Option.map_eq_some_iff.mp hs
  exact PadOperation.reached_effect hop player (hi player before hbefore)

variable [ProcessMemory σ]

private theorem presses_actions {actions : List (PadAction σ)} (hactions : NamesButtons actions)
    {p : Injector × Handle σ} (hp : p.1.Presses) : (actions.foldl act p).1.Presses := by
  induction actions generalizing p with
  | nil => exact hp
  | cons action rest ih =>
    refine ih (fun op hmem => hactions op (List.mem_cons_of_mem action hmem)) ?_
    cases action with
    | operate op =>
      rw [act, operate_eq_flushAll]
      exact presses_after hp (hactions op List.mem_cons_self)
    | meanwhile change => exact hp

/-- An operation that succeeds has written the slots of its players. -/
theorem slot_of_operate {memory : σ → Nat → UInt8} {stays : σ → Prop} (hs : Stores memory stays) {i : Injector}
    {h : Handle σ} (ht : stays h.target) {op : PadOperation} (hok : (i.operate h op).1 = .ok ()) {player : Nat}
    (hmem : player ∈ op.players) :
    ∃ s, (i.after op).state? player = some s ∧
      copy (memory (i.operate h op).2.2.target) (i.base + 4 * player) 4 = slotBytes s := by
  rcases op.valid_or_invalid with hvalid | ⟨q, hq, hnone⟩
  · obtain ⟨s, hstate⟩ := (i.after op).state?_of_lt (hvalid player hmem)
    rw [operate_eq_writeAll i h hvalid] at hok ⊢
    have hsome : op.players.flatMap (i.after op).slotWrites ≠ [] := by
      intro hnil
      have hslot := List.flatMap_eq_nil_iff.mp hnil player hmem
      rw [slotWrites, hstate] at hslot
      cases hslot
    obtain ⟨-, hmemory⟩ := hs.of_writeAll ⟨connected_of_writeAll hok hsome, ht⟩ (Prod.ext hok rfl)
    refine ⟨s, hstate, ?_⟩
    rw [hmemory]
    exact (overwrittenAll_slots (memory h.target) hvalid).1 player hmem s hstate
  · rw [operate_of_invalid i h hq hnone] at hok
    cases hok

end Injector

/-- A reply to a query for the state of a player who presses buttons only. -/
theorem Console.shown_reply {c : Console} (hc : Reachable c) {out : Write} (hout : out.target = fromPifWord)
    {p : Nat} {s : ControllerState} (hp : c.controller? p = some s) (hs : Reached Buttons.Defined s)
    (hcommand : c.pifByte (8 * p) = 0x01) :
    ∃ w, [(c.perform out).pifByte (8 * p + 1), (c.perform out).pifByte (8 * p + 2),
        (c.perform out).pifByte (8 * p + 3), (c.perform out).pifByte (8 * p + 4)] = w.toList ∧ Shown w s :=
  ⟨s.toBytes, (blockRead_of_target hc hout).state p s hp hcommand, hs.shown⟩

/-- The states of a controller, their four bytes and the contract of a standard controller agree. -/
structure CodecAgrees : Prop where
  decodes : ∀ w, ShapeContract.standard.admits w = true ↔ ∃ s, ControllerState.ofBytes? w = some s
  encodes : ∀ w s, ControllerState.ofBytes? w = some s → s.toBytes = w
  bounded : ∀ s, Reached (fun _ => True) s → Axis.Within s.x ∧ Axis.Within s.y
  returns : ∀ s, Reached Buttons.Defined s → ControllerState.ofBytes? s.toBytes = some s
  refused : ∀ s : ControllerState, ¬ s.buttons.Defined →
    ControllerState.ofBytes? s.toBytes = none ∧ ShapeContract.standard.admits s.toBytes = false
  replies : ∀ (c : Console) (out : Write), Console.Reachable c → out.target = fromPifWord →
    ∀ p s, c.controller? p = some s → Reached Buttons.Defined s → c.pifByte (8 * p) = 0x01 →
      ∃ w, [(c.perform out).pifByte (8 * p + 1), (c.perform out).pifByte (8 * p + 2),
          (c.perform out).pifByte (8 * p + 3), (c.perform out).pifByte (8 * p + 4)] = w.toList ∧ Shown w s
  slots : ∀ (σ : Type) [ProcessMemory σ] (memory : σ → Nat → UInt8) (stays : σ → Prop), Stores memory stays →
    ∀ (base : Nat) (h : Handle σ) (actions : List (PadAction σ)) (op : PadOperation),
      Injector.NamesButtons (actions ++ [.operate op]) →
        ∀ j k, actions.foldl Injector.act (Injector.new base, h) = (j, k) → stays k.target →
          (j.operate k op).1 = .ok () → ∀ player ∈ op.players,
            ∃ s w, (j.operate k op).2.1.state? player = some s ∧
              StateBytes.at? (copy (memory (j.operate k op).2.2.target) (j.base + 4 * player) 4) 0 = some w ∧
                Shown w s

/-- Decoding, the contract and the clamping of the stick agree on every word and every state, so that what is
pressed is found in replies and in slots. -/
theorem codec_agrees : CodecAgrees where
  decodes := ControllerState.admits_iff
  encodes w s hs := (ControllerState.ofBytes?_eq_some_iff.mp hs).1
  bounded s hs := hs.inReach
  returns s hs := hs.ofBytes?
  refused s hs := by
    have hnone := ControllerState.ofBytes?_of_not_defined hs
    refine ⟨hnone, Bool.eq_false_iff.mpr fun hadmits => ?_⟩
    obtain ⟨t, ht⟩ := (ControllerState.admits_iff _).mp hadmits
    rw [hnone] at ht
    cases ht
  replies c out hc hout p s hp hs hcommand := Console.shown_reply hc hout hp hs hcommand
  slots σ _ memory stays hstores base h actions op hactions j k hlater ht hok player hmem := by
    obtain ⟨s, hstate, hslot⟩ := Injector.slot_of_operate hstores ht hok hmem
    have hpresses := Injector.presses_actions hactions (p := (Injector.new base, h)) (Injector.presses_new base)
    rw [List.foldl_append, hlater] at hpresses
    have hafter : (j.operate k op).2.1 = j.after op := by rw [Injector.operate_eq_flushAll]
    have hj : (j.operate k op).2.1.Presses := hpresses
    rw [hafter] at hj ⊢
    refine ⟨s, s.toBytes, hstate, ?_, (hj player s hstate).shown⟩
    rw [hslot]
    rfl

/-- The reply to the third controller of a console, and the slot of a player who pushes the stick. -/
theorem codec_agrees_asking :
    (∃ w, [(Console.asking.perform (.byte 0xA4800006 0x00)).pifByte 17,
        (Console.asking.perform (.byte 0xA4800006 0x00)).pifByte 18,
        (Console.asking.perform (.byte 0xA4800006 0x00)).pifByte 19,
        (Console.asking.perform (.byte 0xA4800006 0x00)).pifByte 20] = w.toList ∧ Shown w (.new ⟨0x9008⟩ 50 (-60))) ∧
      ∃ s w, ((Injector.new 0x1000).operate (attach 1 grown) pushed).2.1.state? 0 = some s ∧
        StateBytes.at? (copy (ImageProcess.memory
          ((Injector.new 0x1000).operate (attach 1 grown) pushed).2.2.target) 0x1000 4) 0 = some w ∧ Shown w s := by
  constructor
  · have hbuttons : Buttons.Defined ⟨0x9008⟩ := by decide
    exact codec_agrees.replies Console.asking (.byte 0xA4800006 0x00) Console.reachable_asking (by decide) 2
      (.new ⟨0x9008⟩ 50 (-60)) (by decide +kernel) (.new hbuttons 50 (-60)) (by decide +kernel)
  · have hnames : Injector.NamesButtons ([] ++ [.operate pushed] : List (PadAction ImageProcess)) := by
      rintro op hmem buttons hbuttons
      cases List.mem_singleton.mp hmem
      cases hbuttons
    exact codec_agrees.slots ImageProcess ImageProcess.memory _ ImageProcess.allOrNothing.toStores 0x1000
      (attach 1 grown) [] pushed hnames _ _ rfl (List.pairwise_singleton _ _) (by cbv) 0 (List.mem_singleton_self 0)

end ConsoleBridge
