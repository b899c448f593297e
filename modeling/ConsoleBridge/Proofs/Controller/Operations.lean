import ConsoleBridge.Proofs.Controller.Slots

/-!
# Operations that are cut short

An operation on an injector changes what its players press and then writes their slots, up to the first write
that fails or is beyond the addresses. What is pressed is kept all the same, so that a later flush brings a slot up
to date.
-/
namespace ConsoleBridge

open Bytes Handle

variable {σ : Type} [ProcessMemory σ]

/-- An operation on an injector: a request, or to write what a player presses once more. -/
inductive PadOperation
  | request (q : PadRequest)
  | flush (player : Nat)

namespace PadOperation

def players : PadOperation → List Nat
  | request q => q.players
  | flush player => [player]

/-- The operation is about players that there are. -/
def Valid (op : PadOperation) : Prop := ∀ player ∈ op.players, player < padCount

/-- What a player presses after the operation. -/
def effect (op : PadOperation) (player : Nat) (s : ControllerState) : ControllerState :=
  match op with
  | request (.setButtons p buttons true) =>
    if player = p then { s with buttons := ⟨s.buttons.bits ||| buttons.bits⟩ } else s
  | request (.setButtons p buttons false) =>
    if player = p then { s with buttons := ⟨s.buttons.bits &&& ~~~buttons.bits⟩ } else s
  | request (.assignButtons p buttons) => if player = p then { s with buttons := buttons } else s
  | request (.setStick p x y) =>
    if player = p then { s with x := max (-127) (min x 127), y := max (-127) (min y 127) } else s
  | request .release => ⟨⟨0⟩, 0, 0⟩
  | flush _ => s

theorem valid_or_invalid (op : PadOperation) : op.Valid ∨ ∃ player ∈ op.players, padCount ≤ player := by
  by_cases hvalid : op.Valid
  · exact .inl hvalid
  · exact .inr (by simpa [Valid] using hvalid)

end PadOperation

/-- Something that happens: an operation, or a change that the process makes by itself. -/
inductive PadAction (σ : Type)
  | operate (op : PadOperation)
  | meanwhile (change : σ → σ)

namespace Injector

def operate (i : Injector) (h : Handle σ) : PadOperation → Except InjectError Unit × Injector × Handle σ
  | .request q => i.perform h q
  | .flush player => ((i.flush h player).1, i, (i.flush h player).2)

def after (i : Injector) (op : PadOperation) : Injector := { i with pads := i.pads.mapIdx op.effect }

/-- The writes of a flush: the button field, then one axis after the other. -/
def slotWrites (i : Injector) (player : Nat) : List (Nat × ByteArray) :=
  match i.state? player with
  | some s =>
    [(i.base + 4 * player, ⟨#[s.toBytes.high, s.toBytes.low]⟩), (i.base + 4 * player + 2, ⟨#[s.toBytes.x]⟩),
      (i.base + 4 * player + 3, ⟨#[s.toBytes.y]⟩)]
  | none => []

def act (p : Injector × Handle σ) : PadAction σ → Injector × Handle σ
  | .operate op => (p.1.operate p.2 op).2
  | .meanwhile change => (p.1, { p.2 with target := change p.2.target })

variable {i : Injector} {h h' : Handle σ} {player : Nat} {players : List Nat} {state : ControllerState}
variable {memory : σ → Nat → UInt8} {stays : σ → Prop}

@[simp] theorem base_after (i : Injector) (op : PadOperation) : (i.after op).base = i.base := rfl

theorem state?_after (i : Injector) (op : PadOperation) (player : Nat) :
    (i.after op).state? player = (i.state? player).map (op.effect player) := by
  simp [state?, after]

theorem slotWrites_eq (hstate : i.state? player = some state) :
    i.slotWrites player =
      (pieces state.toBytes).map fun p => (i.base + 4 * player + p.1, ⟨p.2.toArray⟩) := by
  rw [slotWrites, hstate]
  rfl

private theorem flush_eq (hstate : i.state? player = some state) (h : Handle σ) :
    i.flush h player = h.writeAll (i.slotWrites player) := by
  rw [flush_eq_writeAll hstate, slotWrites_eq hstate]

theorem flush_of_invalid (i : Injector) (h : Handle σ) (hplayer : padCount ≤ player) :
    i.flush h player = (.error (.invalidPlayer player), h) := by
  have hnone : i.state? player = none := Vector.getElem?_eq_none hplayer
  rw [flush, hnone]

theorem flushAll_singleton (i : Injector) (h : Handle σ) (player : Nat) :
    i.flushAll h [player] = i.flush h player := by
  rw [flushAll]
  rcases i.flush h player with ⟨e | ⟨⟩, h'⟩
  · rfl
  · rfl

/-- To write the slots of some players is one sequence of writes. -/
theorem flushAll_eq (i : Injector) (h : Handle σ) (hvalid : ∀ player ∈ players, player < padCount) :
    i.flushAll h players = h.writeAll (players.flatMap i.slotWrites) := by
  induction players generalizing h with
  | nil => rfl
  | cons player rest ih =>
    obtain ⟨state, hstate⟩ := i.state?_of_lt (hvalid player List.mem_cons_self)
    rw [flushAll, flush_eq hstate, List.flatMap_cons, writeAll_append]
    rcases h.writeAll (i.slotWrites player) with ⟨e | ⟨⟩, h'⟩
    · rfl
    · exact ih h' fun p hp => hvalid p (List.mem_cons_of_mem player hp)

private theorem update_eq_mapIdx (pads : Pads) (player : Nat) {f : ControllerState → ControllerState}
    {g : Nat → ControllerState → ControllerState} (hg : ∀ p s, g p s = if p = player then f s else s) :
    pads.update player f = pads.mapIdx g := by
  apply Vector.ext
  intro p hp
  rw [Vector.getElem_mapIdx, hg]
  by_cases hplayer : player < padCount
  · simp only [Pads.update, Vector.getElem?_eq_getElem hplayer, Vector.getElem_setIfInBounds]
    by_cases heq : player = p
    · subst heq
      rw [if_pos rfl]
    · rw [if_neg heq, if_neg (Ne.symm heq)]
  · rw [if_neg (by omega), Pads.update, Vector.getElem?_eq_none (Nat.not_lt.mp hplayer)]

theorem change_eq (i : Injector) (h : Handle σ) (op : PadOperation) {f : ControllerState → ControllerState}
    (hplayers : op.players = [player]) (heffect : ∀ p s, op.effect p s = if p = player then f s else s) :
    i.change h player f =
      (((i.after op).flushAll h op.players).1, i.after op, ((i.after op).flushAll h op.players).2) := by
  rw [hplayers, flushAll_singleton, after, ← update_eq_mapIdx i.pads player heffect]
  rfl

/-- An operation changes what is pressed, and then writes the slots of its players. -/
theorem operate_eq_flushAll (i : Injector) (h : Handle σ) (op : PadOperation) :
    i.operate h op =
      (((i.after op).flushAll h op.players).1, i.after op, ((i.after op).flushAll h op.players).2) := by
  cases op with
  | request q =>
    cases q with
    | setButtons player buttons pressed =>
      cases pressed with
      | true => exact i.change_eq h _ rfl fun p s => rfl
      | false => exact i.change_eq h _ rfl fun p s => rfl
    | assignButtons player buttons => exact i.change_eq h _ rfl fun p s => rfl
    | setStick player x y => exact i.change_eq h _ rfl fun p s => rfl
    | release =>
      have hafter : i.after (.request .release) = new i.base :=
        congrArg (Injector.mk i.base) (Vector.ext fun p hp => by simp [PadOperation.effect, Pads.atRest]; rfl)
      rw [hafter]
      rfl
  | flush player =>
    have hafter : i.after (.flush player) = i :=
      congrArg (Injector.mk i.base) (Vector.ext fun p hp => by simp [PadOperation.effect])
    rw [hafter, PadOperation.players, flushAll_singleton]
    rfl

private theorem change_of_invalid (i : Injector) (h : Handle σ) (hplayer : padCount ≤ player)
    (f : ControllerState → ControllerState) :
    i.change h player f = (.error (.invalidPlayer player), i, h) := by
  have hnone : i.pads[player]? = none := Vector.getElem?_eq_none hplayer
  rw [change, Pads.update, hnone]
  dsimp only
  rw [flush_of_invalid _ h hplayer]

theorem operate_of_invalid (i : Injector) (h : Handle σ) {op : PadOperation} (hmem : player ∈ op.players)
    (hplayer : padCount ≤ player) : i.operate h op = (.error (.invalidPlayer player), i, h) := by
  cases op with
  | request q =>
    rcases i.perform_cases h q with ⟨p, f, hplayers, hperform⟩ | ⟨hplayers, -⟩
    · rw [PadOperation.players, hplayers] at hmem
      obtain rfl := List.mem_singleton.mp hmem
      rw [operate, hperform, i.change_of_invalid h hplayer]
    · rw [PadOperation.players, hplayers, List.mem_range] at hmem
      exact absurd hmem (Nat.not_lt.mpr hplayer)
  | flush p =>
    obtain rfl := List.mem_singleton.mp hmem
    rw [operate, i.flush_of_invalid h hplayer]

/-- An operation on players that there are is one sequence of writes. -/
theorem operate_eq_writeAll (i : Injector) (h : Handle σ) {op : PadOperation} (hvalid : op.Valid) :
    i.operate h op =
      ((h.writeAll (op.players.flatMap (i.after op).slotWrites)).1, i.after op,
        (h.writeAll (op.players.flatMap (i.after op).slotWrites)).2) := by
  rw [operate_eq_flushAll, flushAll_eq (i.after op) h hvalid]

private theorem connected_of_flush (hok : (i.flush h player).1 = .ok ()) : h.connected = true := by
  cases hstate : i.state? player with
  | none =>
    rw [flush, hstate] at hok
    cases hok
  | some state =>
    rw [flush_eq_writeAll hstate] at hok
    exact connected_of_writeAll hok (List.cons_ne_nil _ _)

private theorem slot_of_flush (hs : Stores memory stays) (ht : stays h.target) (hok : (i.flush h player).1 = .ok ()) :
    ∃ state, i.state? player = some state ∧
      copy (memory (i.flush h player).2.target) (i.base + 4 * player) 4 = slotBytes state := by
  obtain ⟨state, hstate, -, hmemory⟩ := hs.of_flush ⟨connected_of_flush hok, ht⟩ (Prod.ext hok rfl)
  refine ⟨state, hstate, ?_⟩
  rw [hmemory]
  exact copy_overwritten _ _ (slotBytes state)

theorem stays_operate (hs : AllOrNothing memory stays) (ht : stays h.target) (i : Injector)
    (op : PadOperation) : stays (i.operate h op).2.2.target := by
  rcases op.valid_or_invalid with hvalid | ⟨player, hmem, hplayer⟩
  · obtain ⟨made, -, hstays, -⟩ := writeAll_cut hs ht (op.players.flatMap (i.after op).slotWrites)
    rw [i.operate_eq_writeAll h hvalid]
    exact hstays
  · rw [i.operate_of_invalid h hmem hplayer]
    exact ht

private theorem stays_actions (hs : AllOrNothing memory stays) {actions : List (PadAction σ)}
    (hothers : ∀ change, .meanwhile change ∈ actions → ∀ s, stays s → stays (change s))
    {p : Injector × Handle σ} (ht : stays p.2.target) : stays (actions.foldl act p).2.target := by
  induction actions generalizing p with
  | nil => exact ht
  | cons action rest ih =>
    refine ih (fun change hmem => hothers change (List.mem_cons_of_mem action hmem)) ?_
    cases action with
    | operate op => exact stays_operate hs ht p.1 op
    | meanwhile change => exact hothers change List.mem_cons_self p.2.target ht

/-- An operation about a player that there is not is refused without a call. Any other is a sequence of writes,
cut short by the first that fails or is beyond the addresses, which changes the process by the writes before it and
keeps what is pressed; whatever happens then, a flush that succeeds leaves what a player presses in the slot. -/
theorem operate_cut (hs : AllOrNothing memory stays) (ht : stays h.target) (i : Injector)
    (op : PadOperation) :
    (∀ player ∈ op.players, padCount ≤ player →
        i.operate h op = (.error (.invalidPlayer player), i, h) ∧ (i.operate h.recorded op).2.2.calls = []) ∧
      (op.Valid → ∃ made,
        Cut h.connected (op.players.flatMap (i.after op).slotWrites) made (i.operate h op).1
            (i.operate h.recorded op).2.2.calls ∧
          (i.operate h op).2.1 = i.after op ∧
          memory (i.operate h op).2.2.target = overwrittenAll (memory h.target) made) ∧
      (∀ player, (i.after op).state? player = (i.state? player).map (op.effect player)) ∧
      ∀ actions : List (PadAction σ),
        (∀ change, .meanwhile change ∈ actions → ∀ s, stays s → stays (change s)) →
        ∀ j k, actions.foldl act (i.operate h op).2 = (j, k) → ∀ player, (j.flush k player).1 = .ok () →
          ∃ state, j.state? player = some state ∧
            copy (memory (j.flush k player).2.target) (j.base + 4 * player) 4 = slotBytes state := by
  refine ⟨fun player hmem hplayer => ?_, fun hvalid => ?_, i.state?_after op,
    fun actions hothers j k hlater player hok => ?_⟩
  · rw [i.operate_of_invalid h hmem hplayer, i.operate_of_invalid h.recorded hmem hplayer]
    exact ⟨rfl, rfl⟩
  · obtain ⟨made, hcut, -, hmemory⟩ := writeAll_cut hs ht (op.players.flatMap (i.after op).slotWrites)
    rw [i.operate_eq_writeAll h hvalid, i.operate_eq_writeAll h.recorded hvalid]
    exact ⟨made, hcut, rfl, hmemory⟩
  · have hk := stays_actions hs hothers (stays_operate hs ht i op)
    rw [hlater] at hk
    exact slot_of_flush hs.toStores hk hok

end Injector

/-- A process that ends before the last byte of the first slot. -/
def cropped : ImageProcess := ⟨[⟨0x1000, .readWrite, none, ⟨#[9, 9, 9]⟩⟩], false⟩

def grown : ImageProcess := ⟨[⟨0x1000, .readWrite, none, ⟨#[9, 9, 9, 9]⟩⟩], false⟩

def pushed : PadOperation := .request (.setStick 0 5 (-7))

/-- The second axis is refused, and is made up for when there is room. -/
theorem operate_cropped :
    (∃ made, Cut true [(0x1000, ⟨#[0, 0]⟩), (0x1002, ⟨#[5]⟩), (0x1003, ⟨#[249]⟩)] made
        (.error (.access (.unmapped 0x1003 1)))
        ((Injector.new 0x1000).operate (attach 1 cropped).recorded pushed).2.2.calls) ∧
      ∃ j k, Injector.act ((Injector.new 0x1000).operate (attach 1 cropped) pushed).2 (.meanwhile fun _ => grown) =
          (j, k) ∧ copy (ImageProcess.memory (j.flush k 0).2.target) 0x1000 4 = ⟨#[0, 0, 5, 249]⟩ := by
  have happart : ∀ r : ImageRegion, ([r].map ImageRegion.describe).Pairwise Region.Apart :=
    fun r => List.pairwise_singleton _ _
  obtain ⟨-, hcut, -, hlater⟩ := Injector.operate_cut ImageProcess.allOrNothing (h := attach 1 cropped)
    (happart _) (Injector.new 0x1000) pushed
  refine ⟨?_, _, _, rfl, ?_⟩
  · obtain ⟨made, hcut, -⟩ := hcut fun player hmem => by
      cases List.mem_singleton.mp hmem
      decide
    have hanswer : ((Injector.new 0x1000).operate (attach 1 cropped) pushed).1 =
        .error (.access (.unmapped 0x1003 1)) := by cbv
    rw [hanswer] at hcut
    exact ⟨made, hcut⟩
  · obtain ⟨state, hstate, hslot⟩ := hlater [.meanwhile fun _ => grown] (fun change hmem s _ => by
      cases List.mem_singleton.mp hmem
      exact happart _) _ _ rfl 0 (by cbv)
    have hpushed : some state = some ⟨⟨0⟩, 5, -7⟩ := hstate.symm.trans (by cbv)
    cases hpushed
    exact hslot

def topmost : ImageProcess := ⟨[⟨0xfffffffffffffff0, .readWrite, none, zeros 16⟩], false⟩

/-- The slot of the last player is beyond the addresses, so no call is made for it, and none fails. -/
theorem stopped_topmost :
    (topmost.regions.map ImageRegion.describe).Pairwise Region.Apart ∧
      (PadOperation.request (.setStick 3 5 (-7))).Valid ∧
      ((Injector.new 0xfffffffffffffff8).operate (attach 1 topmost) (.request (.setStick 3 5 (-7)))).1 =
        .error (.stopped .overflow) ∧
      ((Injector.new 0xfffffffffffffff8).operate (attach 1 topmost).recorded
        (.request (.setStick 3 5 (-7)))).2.2.calls = [] := by
  refine ⟨List.pairwise_singleton _ _, fun player hmem => ?_, by cbv, by cbv⟩
  cases List.mem_singleton.mp hmem
  decide

end ConsoleBridge
