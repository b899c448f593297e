import ConsoleBridge.Controller.Injector
import ConsoleBridge.Proofs.Process.WriteSequence

/-!
# The slots of the four players

A flush overwrites the four bytes of one player's slot. In a process that changes by writes alone it succeeds
where the slot lies in a writable region, so requests stay in the region that holds all the slots they are
about; and requests for any player stay in a region only if it holds all four slots.
-/
namespace ConsoleBridge

open Bytes Handle

variable {σ : Type} [ProcessMemory σ]

/-- The four bytes from the address on lie in the region. -/
def Region.HoldsSlot (r : Region) (address : Nat) : Prop := r.base ≤ address ∧ address + 4 ≤ r.limit

inductive PadRequest
  | setButtons (player : Nat) (buttons : Buttons) (pressed : Bool)
  | assignButtons (player : Nat) (buttons : Buttons)
  | setStick (player : Nat) (x y : Int)
  | release

namespace PadRequest

def players : PadRequest → List Nat
  | setButtons player _ _ => [player]
  | assignButtons player _ => [player]
  | setStick player _ _ => [player]
  | release => List.range padCount

/-- The request is about players that there are. -/
def Valid (q : PadRequest) : Prop := ∀ player ∈ q.players, player < padCount

/-- The slots of the request's players lie in the region and among the addresses. -/
def Fits (base : Nat) (r : Region) (q : PadRequest) : Prop :=
  ∀ player ∈ q.players, player < padCount ∧ r.HoldsSlot (base + 4 * player) ∧
    base + 4 * player + 4 ≤ Address.count

end PadRequest

def Injector.perform (i : Injector) (h : Handle σ) :
    PadRequest → Except InjectError Unit × Injector × Handle σ
  | .setButtons player buttons pressed => i.setButtons h player buttons pressed
  | .assignButtons player buttons => i.assignButtons h player buttons
  | .setStick player x y => i.setStick h player x y
  | .release => i.release h

/-- Each of the requests succeeds and leaves every byte outside the region as it was. -/
def Confined (memory : σ → Nat → UInt8) (r : Region) (i : Injector) (h : Handle σ) : List PadRequest → Prop
  | [] => True
  | q :: rest =>
    (i.perform h q).1 = .ok () ∧
      (∀ a, r.holds a = false → memory (i.perform h q).2.2.target a = memory h.target a) ∧
      Confined memory r (i.perform h q).2.1 (i.perform h q).2.2 rest

def slotBytes (state : ControllerState) : ByteArray := ⟨state.toBytes.toList.toArray⟩

def written (memory : Nat → UInt8) (address : Nat) (pieces : List (Nat × List UInt8)) : Nat → UInt8 :=
  pieces.foldl (fun m p => overwritten m (address + p.1) ⟨p.2.toArray⟩) memory

theorem size_slotBytes (state : ControllerState) : (slotBytes state).size = 4 := rfl

/-- The three pieces of a slot make up its four bytes. -/
theorem written_pieces (memory : Nat → UInt8) (address : Nat) (state : ControllerState) :
    written memory address (Injector.pieces state.toBytes) = overwritten memory address (slotBytes state) := by
  rcases hw : state.toBytes with ⟨high, low, x, y⟩
  have hslot : slotBytes state = ⟨#[high, low, x, y]⟩ := by rw [slotBytes, hw]; rfl
  calc written memory address (Injector.pieces ⟨high, low, x, y⟩)
      = overwritten (overwritten (overwritten memory address ⟨#[high, low]⟩) (address + 2) ⟨#[x]⟩)
          (address + 3) ⟨#[y]⟩ := rfl
    _ = overwritten (overwritten memory address ⟨#[high, low, x]⟩) (address + 3) ⟨#[y]⟩ :=
        congrArg (overwritten · (address + 3) ⟨#[y]⟩) (overwritten_append memory address ⟨#[high, low]⟩ ⟨#[x]⟩)
    _ = overwritten memory address ⟨#[high, low, x, y]⟩ :=
        overwritten_append memory address ⟨#[high, low, x]⟩ ⟨#[y]⟩
    _ = overwritten memory address (slotBytes state) := by rw [hslot]

@[simp] theorem Injector.base_new (base : Nat) : (Injector.new base).base = base := rfl

theorem Injector.state?_of_lt (i : Injector) {player : Nat} (hplayer : player < padCount) :
    ∃ state, i.state? player = some state := ⟨i.pads[player], Vector.getElem?_eq_getElem hplayer⟩

theorem Pads.getElem?_update (pads : Pads) (player : Nat) (f : ControllerState → ControllerState) :
    (pads.update player f)[player]? = pads[player]?.map f := by
  by_cases hplayer : player < padCount
  · simp [Pads.update, Vector.getElem?_eq_getElem hplayer]
  · simp [Pads.update, Vector.getElem?_eq_none (Nat.not_lt.mp hplayer)]

/-- A piece of a slot is a part of its four bytes. -/
theorem Injector.piece_inside {w : StateBytes} {piece : Nat × List UInt8} (hpiece : piece ∈ pieces w) :
    piece.1 + piece.2.length ≤ 4 ∧ 0 < piece.2.length := by
  obtain ⟨high, low, x, y⟩ := w
  simp only [pieces, List.mem_cons, List.not_mem_nil, or_false] at hpiece
  obtain rfl | rfl | rfl := hpiece <;> simp

private theorem Injector.writePieces_eq_writeAll (h : Handle σ) (address : Nat) (pieces : List (Nat × List UInt8)) :
    writePieces h address pieces = h.writeAll (pieces.map fun p => (address + p.1, ⟨p.2.toArray⟩)) := by
  induction pieces generalizing h with
  | nil => rfl
  | cons p rest ih =>
    rw [List.map_cons, writePieces, writeAll]
    by_cases hfits : address + p.1 < Address.count
    · rw [if_pos hfits, Address.plus_of_lt hfits]
      dsimp only
      rcases h.write (address + p.1) ⟨p.2.toArray⟩ with ⟨e | ⟨⟩, h'⟩
      · rfl
      · exact ih h'
    · rw [if_neg hfits, Address.plus_of_le (Nat.not_lt.mp hfits)]

/-- A slot that is beyond the addresses is not written: the first of its pieces stops the sequence. -/
theorem Injector.flush_eq_writeAll {i : Injector} {player : Nat} {state : ControllerState}
    (hstate : i.state? player = some state) (h : Handle σ) :
    i.flush h player =
      h.writeAll ((pieces state.toBytes).map fun p => (i.base + 4 * player + p.1, ⟨p.2.toArray⟩)) := by
  rw [flush, hstate, ← writePieces_eq_writeAll]
  by_cases hfits : i.base + 4 * player < Address.count
  · rw [Address.plus_of_lt hfits]
  · have hbeyond := Nat.not_lt.mp hfits
    rw [Address.plus_of_le hbeyond, pieces, writePieces, Address.plus_of_le (by rwa [Nat.add_zero])]

/-- A slot is written only where it ends among the addresses. -/
theorem Injector.room_of_flush {h : Handle σ} {i : Injector} {player : Nat} (hok : (i.flush h player).1 = .ok ()) :
    i.base + 4 * player + 4 ≤ Address.count := by
  cases hstate : i.state? player with
  | none =>
    rw [flush, hstate] at hok
    cases hok
  | some state =>
    rw [flush_eq_writeAll hstate] at hok
    exact fit_of_writeAll hok (i.base + 4 * player + 3, ⟨#[state.toBytes.y]⟩) (by simp [pieces])

/-- A request that is about one player changes what that player presses. -/
theorem Injector.perform_cases (i : Injector) (h : Handle σ) (q : PadRequest) :
    (∃ player f, q.players = [player] ∧ i.perform h q = i.change h player f) ∨
      q.players = List.range padCount ∧ i.perform h q = i.release h := by
  cases q with
  | setButtons player buttons pressed => exact .inl ⟨player, _, rfl, rfl⟩
  | assignButtons player buttons => exact .inl ⟨player, _, rfl, rfl⟩
  | setStick player x y => exact .inl ⟨player, _, rfl, rfl⟩
  | release => exact .inr ⟨rfl, rfl⟩

section Stores

variable {memory : σ → Nat → UInt8} {stays : σ → Prop} {h h' : Handle σ} {i : Injector} {address player : Nat}
variable (hs : Stores memory stays) (hh : Steady stays h)

include hs hh in
/-- What a flush that succeeds leaves in memory. -/
theorem Stores.of_flush (hf : i.flush h player = (.ok (), h')) :
    ∃ state, i.state? player = some state ∧ Steady stays h' ∧
      memory h'.target = overwritten (memory h.target) (i.base + 4 * player) (slotBytes state) := by
  cases hstate : i.state? player with
  | none =>
    rw [Injector.flush, hstate] at hf
    cases hf
  | some state =>
    rw [Injector.flush_eq_writeAll hstate] at hf
    obtain ⟨hh', hmemory⟩ := hs.of_writeAll hh hf
    refine ⟨state, rfl, hh', hmemory.trans ?_⟩
    rw [overwrittenAll, List.foldl_map]
    exact written_pieces _ _ state

end Stores

namespace Passive

variable {regions : List Region} {fault : Nat → Nat → Option AccessError} {memory : σ → Nat → UInt8}
variable {stays : σ → Prop} {h h' : Handle σ} {i : Injector} {r : Region} {address player : Nat}
variable {players : List Nat} {q : PadRequest}
variable (hp : Passive regions fault memory stays) (hh : Steady stays h)

section Region

variable (hr : r ∈ regions) (hw : r.isWritable = true)

include hp hh hr hw in
/-- A flush succeeds where the slot lies in a writable region and among the addresses. -/
theorem flush_ok (hplayer : player < padCount) (hslot : r.HoldsSlot (i.base + 4 * player))
    (hroom : i.base + 4 * player + 4 ≤ Address.count) : (i.flush h player).1 = .ok () := by
  obtain ⟨hbase, hlimit⟩ := hslot
  obtain ⟨state, hstate⟩ := i.state?_of_lt hplayer
  rw [Injector.flush_eq_writeAll hstate]
  refine hp.stores.writeAll_ok hh fun w hmem => ?_
  obtain ⟨piece, hpiece, rfl⟩ := List.mem_map.mp hmem
  obtain ⟨hinside, hsome⟩ := Injector.piece_inside hpiece
  have hfrom : r.base ≤ i.base + 4 * player + piece.1 := by omega
  have hto : i.base + 4 * player + piece.1 + piece.2.length ≤ r.limit := by omega
  have hfits : i.base + 4 * player + piece.1 < Address.count := by omega
  exact ⟨hfits, fun s hs => hp.accepts s hs r hr hw _ _ hfrom hto⟩

include hp hh hr hw in
theorem flush_confined (hplayer : player < padCount) (hslot : r.HoldsSlot (i.base + 4 * player))
    (hroom : i.base + 4 * player + 4 ≤ Address.count) :
    ∃ h', i.flush h player = (.ok (), h') ∧ Steady stays h' ∧
      ∀ a, r.holds a = false → memory h'.target a = memory h.target a := by
  have hok := hp.flush_ok hh hr hw hplayer hslot hroom
  obtain ⟨hbase, hlimit⟩ := hslot
  obtain ⟨state, -, hh', hmemory⟩ := hp.stores.of_flush hh (Prod.ext hok rfl)
  refine ⟨_, Prod.ext hok rfl, hh', fun a ha => ?_⟩
  have hsize := size_slotBytes state
  rw [Region.holds_eq_false_iff] at ha
  rw [hmemory, overwritten_outside (by omega)]

include hp hh hr hw in
private theorem flushAll_confined
    (hfits : ∀ player ∈ players, player < padCount ∧ r.HoldsSlot (i.base + 4 * player) ∧
      i.base + 4 * player + 4 ≤ Address.count) :
    ∃ h', i.flushAll h players = (.ok (), h') ∧ Steady stays h' ∧
      ∀ a, r.holds a = false → memory h'.target a = memory h.target a := by
  induction players generalizing h with
  | nil => exact ⟨h, rfl, hh, fun _ _ => rfl⟩
  | cons player rest ih =>
    obtain ⟨hplayer, hslot, hroom⟩ := hfits player List.mem_cons_self
    obtain ⟨h₁, hflush, hh₁, hmemory₁⟩ := hp.flush_confined hh hr hw hplayer hslot hroom
    obtain ⟨h', hrest, hh', hmemory'⟩ := ih hh₁ fun p hp => hfits p (List.mem_cons_of_mem player hp)
    refine ⟨h', ?_, hh', fun a ha => (hmemory' a ha).trans (hmemory₁ a ha)⟩
    rw [Injector.flushAll, hflush]
    exact hrest

include hp hh hr hw in
/-- A request whose slots lie in a writable region succeeds and stays there. -/
theorem perform_confined (hq : q.Fits i.base r) :
    ∃ i' h', i.perform h q = (.ok (), i', h') ∧ i'.base = i.base ∧ Steady stays h' ∧
      ∀ a, r.holds a = false → memory h'.target a = memory h.target a := by
  rcases i.perform_cases h q with ⟨player, f, hplayers, hperform⟩ | ⟨hplayers, hperform⟩
  · obtain ⟨hplayer, hslot, hroom⟩ := hq player (by rw [hplayers]; exact List.mem_singleton_self player)
    obtain ⟨h', hflush, hh', hmemory⟩ := hp.flush_confined hh hr hw
      (i := { i with pads := i.pads.update player f }) hplayer hslot hroom
    refine ⟨{ i with pads := i.pads.update player f }, h', ?_, rfl, hh', hmemory⟩
    rw [hperform, Injector.change]
    dsimp only
    rw [hflush]
  · rw [PadRequest.Fits, hplayers] at hq
    obtain ⟨h', hflush, hh', hmemory⟩ := hp.flushAll_confined hh hr hw (i := Injector.new i.base) hq
    refine ⟨Injector.new i.base, h', ?_, rfl, hh', hmemory⟩
    rw [hperform, Injector.release]
    dsimp only
    rw [hflush]

include hp hh hr hw in
/-- A run of requests whose slots lie in a writable region stays there. -/
theorem confined {requests : List PadRequest} (hfits : ∀ q ∈ requests, q.Fits i.base r) :
    Confined memory r i h requests := by
  induction requests generalizing i h with
  | nil => exact trivial
  | cons q rest ih =>
    obtain ⟨i', h', hperform, hbase, hh', hmemory⟩ := hp.perform_confined hh hr hw
      (hfits q List.mem_cons_self)
    rw [Confined, hperform]
    refine ⟨rfl, hmemory, ih hh' fun p hp => ?_⟩
    rw [hbase]
    exact hfits p (List.mem_cons_of_mem q hp)

end Region

include hp hh in
/-- Moving the stick leaves its second axis in the last byte of the slot. -/
theorem of_setStick {x y : Int} (hok : (i.perform h (.setStick player x y)).1 = .ok ()) :
    memory (i.perform h (.setStick player x y)).2.2.target (i.base + 4 * player + 3) =
      Axis.toByte (Axis.clamp y) := by
  obtain ⟨state, hstate, -, hmemory⟩ := hp.stores.of_flush hh
    (i := { i with pads := i.pads.update player fun s => s.setStick x y }) (Prod.ext hok rfl)
  rw [Injector.state?, Pads.getElem?_update] at hstate
  obtain ⟨last, -, rfl⟩ := Option.map_eq_some_iff.mp hstate
  have hsize := size_slotBytes (last.setStick x y)
  calc memory (i.perform h (.setStick player x y)).2.2.target (i.base + 4 * player + 3)
      = overwritten (memory h.target) (i.base + 4 * player) (slotBytes (last.setStick x y))
          (i.base + 4 * player + 3) := congrFun hmemory _
    _ = byte (slotBytes (last.setStick x y)) (i.base + 4 * player + 3 - (i.base + 4 * player)) :=
        overwritten_inside (by omega) (by omega)
    _ = byte (slotBytes (last.setStick x y)) 3 := by rw [Nat.add_sub_cancel_left]
    _ = Axis.toByte (Axis.clamp y) := rfl

include hp hh in
/-- Requests about the last player stay in a region only if it holds the end of that player's slot. -/
theorem room_of_confined (hconfined : ∀ y : Int, Confined memory r i h [.setStick 3 0 y]) :
    i.base + 4 * padCount ≤ min r.limit Address.count := by
  -- A position is chosen that is not in memory yet, so that writing it shows.
  obtain ⟨y, hy⟩ : ∃ y : Int, Axis.toByte (Axis.clamp y) ≠ memory h.target (i.base + 15) := by
    by_cases hzero : memory h.target (i.base + 15) = 0
    · exact ⟨1, by rw [hzero]; decide⟩
    · exact ⟨0, Ne.symm hzero⟩
  obtain ⟨hok, hkept, -⟩ := hconfined y
  have hlast := hp.of_setStick hh hok
  have hroom : i.base + 4 * 3 + 4 ≤ Address.count := by
    rw [Injector.perform, Injector.setStick, Injector.change] at hok
    exact Injector.room_of_flush hok
  by_cases hlimit : i.base + 16 ≤ r.limit
  · exact Nat.le_min.mpr ⟨hlimit, hroom⟩
  · have hout : r.holds (i.base + 15) = false := Region.holds_eq_false_iff.mpr (by omega)
    exact absurd (hlast.symm.trans (hkept (i.base + 15) hout)) hy

include hp hh in
/-- Where a region holds the first slot, requests about every player stay in it exactly if it goes on for all
slots, and these lie among the addresses. -/
theorem forall_confined_iff (hr : r ∈ regions) (hw : r.isWritable = true) (hbase : r.base ≤ i.base) :
    (∀ requests : List PadRequest, (∀ q ∈ requests, q.Valid) → Confined memory r i h requests) ↔
      i.base + 4 * padCount ≤ min r.limit Address.count := by
  constructor
  · intro hconfined
    refine hp.room_of_confined hh fun y => hconfined _ fun q hq => ?_
    cases List.mem_singleton.mp hq
    intro player hplayer
    cases List.mem_singleton.mp hplayer
    decide
  · intro hroom requests hvalid
    refine hp.confined hh hr hw fun q hq player hplayer => ?_
    have hlt := hvalid q hq player hplayer
    rw [padCount] at hlt hroom
    exact ⟨hlt, ⟨by omega, by omega⟩, by omega⟩

end Passive

end ConsoleBridge
