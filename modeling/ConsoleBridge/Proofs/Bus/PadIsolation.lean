import Mathlib.Data.List.Forall2
import ConsoleBridge.Proofs.Bus.BlockRead

/-!
# What a controller can be told by

Two consoles that only one controller tells apart, and the same requests to both but for what that controller is
set to: the answers are the same until a block read finds the controller asked for its state. Nothing else hands
on what a controller reports.
-/
namespace ConsoleBridge

open Bytes Bus

/-- What a console can be asked. A single-precision number is read as the word of its bits. -/
inductive Question
  | byte (address : UInt32)
  | half (address : UInt32)
  | word (address : UInt32)
  | bytes (address : UInt32) (count : Nat)
  | mainMemory
  | saveMemory
  | state
  | interrupt
  | devices
  | cartridge
  | controller (player : Nat)

inductive Question.Answer
  | byte (value : UInt8)
  | half (value : UInt16)
  | word (value : UInt32)
  | bytes (value : ByteArray)
  | saveMemory (value : Option ByteArray)
  | state (value : MemoryState)
  | interrupt (value : Bool)
  | devices (latches : List RegisterBlock) (serial : SerialInterface) (interrupts : InterruptController)
  | cartridge (value : Cartridge)
  | controller (value : Option ControllerState)

/-- A request to a console: an operation, which has no answer, or a question, which changes nothing. -/
inductive ConsoleRequest
  | change (o : Operation)
  | ask (q : Question)

namespace ConsoleRequest

def StartsRead : ConsoleRequest → Prop
  | .change (.write w) => w.target = fromPifWord
  | _ => False

instance (r : ConsoleRequest) : Decidable r.StartsRead :=
  match r with
  | .change (.write _) => inferInstanceAs (Decidable (_ = _))
  | .change (.setController _ _) | .change (.loadPifRom _) | .change (.setState _) | .change .reset | .ask _ =>
    inferInstanceAs (Decidable False)

/-- The requests are the same, or both set the controller of the player `p`. -/
inductive SameBut (p : Nat) : ConsoleRequest → ConsoleRequest → Prop
  | same (r : ConsoleRequest) : SameBut p r r
  | pad (s s' : ControllerState) : SameBut p (.change (.setController p s)) (.change (.setController p s'))

end ConsoleRequest

namespace Bus

variable {ram : ByteArray} {pads pads' : Pads} {p : Nat}

/-- A reply to any other command than the one that asks for the state is the same for all states. -/
theorem replyAt_of_ne {b : UInt8} (hb : b ≠ 0x01) (s s' : ControllerState) (i : Nat) :
    replyAt b s i = replyAt b s' i := by
  cases i with
  | zero => rfl
  | succ i =>
    rw [replyAt, replyAt, PadCommand.ofByte]
    split
    · rfl
    · rfl

/-- The replies go by the controllers that are asked for their state. -/
theorem answerCommands_congr (hpads : ∀ q ≠ p, pads'[q]? = pads[q]?)
    (hcommand : p < padCount → seen ram (slotSize * p) ≠ 0x01) :
    answerCommands ram pads' = answerCommands ram pads := by
  apply ext_byte ((size_answerCommands _ _).trans (size_answerCommands _ _).symm)
  intro i hi
  rw [byte_eq_seen, byte_eq_seen]
  generalize lane i = j
  rw [seen_answerCommands, seen_answerCommands]
  by_cases hj : j / slotSize = p
  · rw [hj]
    by_cases hp : p < padCount
    · rw [getElem?_pos pads' p hp, getElem?_pos pads p hp, Option.bind_some, Option.bind_some,
        replyAt_of_ne (hcommand hp)]
    · rw [getElem?_neg pads' p hp, getElem?_neg pads p hp]
  · rw [hpads _ hj]

end Bus

namespace Console

variable {c c' : Console} {w : Write} {v : UInt32} {p : Nat} {rs rs' : List ConsoleRequest}

def answer (c : Console) : Question → Question.Answer
  | .byte address => .byte (c.read8 address)
  | .half address => .half (c.read16 address)
  | .word address => .word (c.read32 address)
  | .bytes address count => .bytes (c.readBytes address count)
  | .mainMemory => .bytes c.rdram
  | .saveMemory => .saveMemory c.cartridge.save?
  | .state => .state c.getState
  | .interrupt => .interrupt c.interruptPending
  | .devices => .devices [c.vi, c.ai, c.pi, c.ri] c.si c.mi
  | .cartridge => .cartridge c.cartridge
  | .controller player => .controller (c.controller? player)

def next (c : Console) : ConsoleRequest → Console
  | .change o => c.apply o
  | .ask _ => c

def answer? (c : Console) : ConsoleRequest → Option Question.Answer
  | .change _ => none
  | .ask q => some (c.answer q)

def answers (c : Console) : List ConsoleRequest → List (Option Question.Answer)
  | [] => []
  | r :: rest => c.answer? r :: (c.next r).answers rest

/-- No block read is started while the slot of the player `p` asks for the state of the controller. -/
def Unasked (c : Console) (p : Nat) : List ConsoleRequest → Prop
  | [] => True
  | r :: rest => (r.StartsRead → c.pifByte (8 * p) ≠ 0x01) ∧ (c.next r).Unasked p rest

instance Unasked.decidable (p : Nat) (c : Console) : (rs : List ConsoleRequest) → Decidable (c.Unasked p rs)
  | [] => inferInstanceAs (Decidable True)
  | r :: rest =>
    have := Unasked.decidable p (c.next r) rest
    inferInstanceAs (Decidable (_ ∧ _))

/-- Nothing but what the controller of the player `p` reports tells the consoles apart. -/
structure SameBut (p : Nat) (c c' : Console) : Prop where
  rest : c' = { c with pads := c'.pads }
  pads : ∀ q ≠ p, c'.pads[q]? = c.pads[q]?

def withPads (c : Console) (pads : Pads) : Console := { c with pads := pads }

theorem read32_withPads (pads : Pads) (a : UInt32) : (c.withPads pads).read32 a = c.read32 a := by
  rw [read32, read32]
  split
  · rename_i backing offset hat
    cases backing with
    | registers device =>
      cases device with
      | _ => rfl
    | _ => rfl
  · rfl

private theorem writeSerial_withPads {pads : Pads} {offset : Nat}
    (hanswered : offset = 0x04 → answerCommands c.pifRam pads = answerCommands c.pifRam c.pads) :
    (c.withPads pads).writeSerial offset v = (c.writeSerial offset v).withPads pads := by
  by_cases ho : offset ∈ serialOffsets
  · simp only [serialOffsets, List.mem_cons, List.not_mem_nil, or_false] at ho
    rcases ho with rfl | rfl | rfl | rfl
    · rfl
    · rw [writeSerial_fromPif, writeSerial_fromPif, transferred_fromPif, transferred_fromPif]
      simp only [withPads, hanswered rfl]
    · rfl
    · rfl
  · rw [writeSerial_other ho, writeSerial_other ho]

/-- A write does not go by the controllers but for the replies in a block read. -/
theorem perform_withPads {pads : Pads}
    (hanswered : w.target = fromPifWord → answerCommands c.pifRam pads = answerCommands c.pifRam c.pads) :
    (c.withPads pads).perform w = (c.perform w).withPads pads := by
  rw [perform_eq, perform_eq, read32_withPads]
  generalize patch (c.read32 w.address) w.lane? = v
  cases hat : wordAt? w.address with
  | none => rw [write32, write32, hat]
  | some q =>
    obtain ⟨backing, offset⟩ := q
    rw [write32, write32, hat]
    dsimp only
    cases backing with
    | registers device =>
      cases device with
      | si =>
        apply writeSerial_withPads
        rintro rfl
        exact hanswered (wordAt?_eq_some_iff.mp hat).1
      | _ => rfl
    | _ => rfl

private theorem pads_perform (c : Console) (w : Write) : (c.perform w).pads = c.pads := by
  have hperform : (c.withPads c.pads).perform w = (c.perform w).withPads c.pads := perform_withPads fun _ => rfl
  have hpads := congrArg Console.pads hperform
  exact hpads

theorem getElem?_setController (q player : Nat) (s : ControllerState) :
    (c.setController player s).pads[q]? =
      if player = q then if player < padCount then some s else none else c.pads[q]? :=
  Vector.getElem?_setIfInBounds

/-- A controller that does not exist cannot be set. -/
theorem setController_of_le {player : Nat} (hplayer : padCount ≤ player) (s : ControllerState) :
    c.setController player s = c := by
  have hpads : c.pads.setIfInBounds player s = c.pads := by
    apply Vector.ext
    intro q hq
    rw [Vector.getElem_setIfInBounds_ne hq (by omega)]
  rw [setController, hpads]

theorem SameBut.of_withPads {pads : Pads} (hpads : ∀ q ≠ p, pads[q]? = c.pads[q]?) : c.SameBut p (c.withPads pads) :=
  ⟨rfl, hpads⟩

/-- An operation on both consoles leaves the difference as it is, if it is not the block read that shows it. -/
theorem SameBut.apply (hs : c.SameBut p c') (hc : c.pifRam.size = 64) (o : Operation)
    (ho : (ConsoleRequest.change o).StartsRead → c.pifByte (8 * p) ≠ 0x01) :
    (c.apply o).SameBut p (c'.apply o) := by
  obtain ⟨hrest, hpads⟩ := hs
  generalize c'.pads = pads at hrest hpads
  obtain rfl : c' = c.withPads pads := hrest
  cases o with
  | write w =>
    have hperform : (c.withPads pads).perform w = (c.perform w).withPads pads := by
      apply perform_withPads
      intro hw
      apply answerCommands_congr hpads
      intro hp
      have hslot : slotSize * p < 64 := by
        rw [show padCount = 4 from rfl] at hp
        rw [show slotSize = 8 from rfl]
        omega
      rw [← pifByte_eq hc hslot]
      exact ho hw
    rw [Console.apply, Console.apply, hperform]
    apply SameBut.of_withPads
    rw [pads_perform]
    exact hpads
  | setController player s =>
    refine ⟨rfl, fun q hq => ?_⟩
    rw [Console.apply, Console.apply, getElem?_setController, getElem?_setController]
    split
    · rfl
    · exact hpads q hq
  | loadPifRom data => exact .of_withPads hpads
  | setState m => exact .of_withPads hpads
  | reset => exact .of_withPads hpads

/-- A request of each run leaves the difference as it is. -/
theorem SameBut.next {r r' : ConsoleRequest} (hs : c.SameBut p c') (hc : c.pifRam.size = 64)
    (hr : r.SameBut p r') (ho : r.StartsRead → c.pifByte (8 * p) ≠ 0x01) :
    (c.next r).SameBut p (c'.next r') := by
  cases hr with
  | same r =>
    cases r with
    | change o => exact hs.apply hc o ho
    | ask q => exact hs
  | pad s s' =>
    refine ⟨?_, fun q hq => ?_⟩
    · rw [Console.next, Console.next, Console.apply, Console.apply, hs.rest]
      rfl
    · rw [Console.next, Console.next, Console.apply, Console.apply, getElem?_setController, getElem?_setController,
        if_neg hq.symm, if_neg hq.symm, hs.pads q hq]

/-- What else is asked has the same answer. -/
theorem SameBut.answer_eq (hs : c.SameBut p c') {q : Question} (hq : q ≠ .controller p) :
    c'.answer q = c.answer q := by
  obtain ⟨hrest, hpads⟩ := hs
  generalize c'.pads = pads at hrest hpads
  obtain rfl : c' = c.withPads pads := hrest
  cases q with
  | byte address => simp only [answer, read8, read32_withPads]
  | half address => simp only [answer, read16, read32_withPads]
  | word address => simp only [answer, read32_withPads]
  | bytes address count => simp only [answer, readBytes, read8, read32_withPads]
  | controller player =>
    have hne : player ≠ p := fun h => hq (congrArg _ h)
    exact congrArg _ (hpads player hne)
  | _ => rfl

theorem size_pifRam_next (hc : c.pifRam.size = 64) (r : ConsoleRequest) : (c.next r).pifRam.size = 64 := by
  cases r with
  | change o => exact (congrArg Sizes.pifRam (sizes_apply o)).trans hc
  | ask q => exact hc

private theorem SameBut.answer?_eq {r r' : ConsoleRequest} (hs : c.SameBut p c') (hr : r.SameBut p r')
    (hne : r ≠ .ask (.controller p)) : c.answer? r = c'.answer? r' := by
  cases hr with
  | same r =>
    cases r with
    | change o => rfl
    | ask q => exact congrArg some (hs.answer_eq fun hq => hne (congrArg _ hq)).symm
  | pad s s' => rfl

/-- The difference stays over a whole run, and no answer to anything else shows it. -/
theorem SameBut.run (hs : c.SameBut p c') (hc : c.pifRam.size = 64)
    (hrs : List.Forall₂ (ConsoleRequest.SameBut p) rs rs') (hquiet : c.Unasked p rs) :
    (∀ i : Nat, rs[i]? ≠ some (.ask (.controller p)) → (c.answers rs)[i]? = (c'.answers rs')[i]?) ∧
      (rs.foldl Console.next c).SameBut p (rs'.foldl Console.next c') := by
  induction hrs generalizing c c' with
  | nil => exact ⟨fun i _ => rfl, hs⟩
  | cons hr hrest ih =>
    obtain ⟨hfirst, hquiet⟩ := hquiet
    obtain ⟨hanswers, hlast⟩ := ih (hs.next hc hr hfirst) (size_pifRam_next hc _) hquiet
    refine ⟨fun i hi => ?_, hlast⟩
    cases i with
    | zero => exact congrArg some (hs.answer?_eq hr fun h => hi (congrArg some h))
    | succ i => exact hanswers i hi

/-- From a state that a console can come to, two runs that differ in nothing but what the controller of one player
reports, at the start or later, have the same answers but for what that controller is asked itself, as long as no
block read finds it asked for its state. A controller that does not exist has no state and none can be set. -/
theorem answers_eq_of_sameBut (hc : Reachable c) (hs : c.SameBut p c')
    (hrs : List.Forall₂ (ConsoleRequest.SameBut p) rs rs') (hquiet : c.Unasked p rs) :
    (∀ i : Nat, rs[i]? ≠ some (.ask (.controller p)) → (c.answers rs)[i]? = (c'.answers rs')[i]?) ∧
      (rs.foldl next c).SameBut p (rs'.foldl next c') ∧
      ∀ player ≥ 4, ∀ d : Console, (∀ s, d.apply (.setController player s) = d) ∧ d.controller? player = none := by
  obtain ⟨save, hsizes⟩ := hc.sizes_eq
  obtain ⟨hanswers, hlast⟩ := hs.run (congrArg Sizes.pifRam hsizes) hrs hquiet
  refine ⟨hanswers, hlast, fun player hplayer d => ⟨setController_of_le hplayer, ?_⟩⟩
  exact getElem?_neg d.pads player (Nat.not_lt.mpr hplayer)

/-- The second controller is set and only asked what it is, its block goes to main memory and is looked at. -/
def inspecting (s : ControllerState) : List ConsoleRequest :=
  [.change (.setController 1 s), .change (.write (.byte 0xBFC007C8 0x00)),
    .change (.write (.word 0xA4800000 0x1000)), .change (.write (.half 0xA4800006 0x0000)),
    .ask (.bytes 0x80001008 8)]

/-- What the controller reports is seen neither in the reply nor anywhere else. -/
theorem answers_inspecting :
    Reachable (new .absent) ∧ (new .absent).SameBut 1 ((new .absent).setController 1 (.new ⟨0x8000⟩ 7 0)) ∧
      List.Forall₂ (ConsoleRequest.SameBut 1) (inspecting (.new ⟨0⟩ 0 0)) (inspecting (.new ⟨0x1000⟩ 50 (-60))) ∧
      (new .absent).Unasked 1 (inspecting (.new ⟨0⟩ 0 0)) ∧
      ((new .absent).answers (inspecting (.new ⟨0⟩ 0 0)))[4]? =
        (((new .absent).setController 1 (.new ⟨0x8000⟩ 7 0)).answers (inspecting (.new ⟨0x1000⟩ 50 (-60))))[4]? := by
  have hs : (new .absent).SameBut 1 ((new .absent).setController 1 (.new ⟨0x8000⟩ 7 0)) := by
    refine ⟨rfl, fun q hq => ?_⟩
    rw [getElem?_setController, if_neg hq.symm]
  have hrs : List.Forall₂ (ConsoleRequest.SameBut 1) (inspecting (.new ⟨0⟩ 0 0))
      (inspecting (.new ⟨0x1000⟩ 50 (-60))) :=
    .cons (.pad _ _) <| .cons (.same _) <| .cons (.same _) <| .cons (.same _) <| .cons (.same _) .nil
  have hquiet : (new .absent).Unasked 1 (inspecting (.new ⟨0⟩ 0 0)) := by decide +kernel
  refine ⟨.absent, hs, hrs, hquiet, (answers_eq_of_sameBut .absent hs hrs hquiet).1 4 ?_⟩
  simp [inspecting]

end Console

end ConsoleBridge
