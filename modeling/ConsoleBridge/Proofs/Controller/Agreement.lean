import Mathlib.Data.List.Induction
import ConsoleBridge.Proofs.Controller.Operations

/-!
# What is pressed is what the process sees

Where every write to the four slots succeeds and nobody else writes there, the slot of a player who was written
once shows what that player presses after any run of operations, which is what the operations on that player
amount to. No operation touches a byte outside the slots of its players.
-/
namespace ConsoleBridge

open Bytes Handle

variable {σ : Type} {player a : Nat} {op : PadOperation} {actions : List (PadAction σ)}

/-- The address is in the slot of a player. -/
def InSlot (base player a : Nat) : Prop := base + 4 * player ≤ a ∧ a < base + 4 * player + 4

namespace PadAction

def effect : PadAction σ → Nat → ControllerState → ControllerState
  | operate op => op.effect
  | meanwhile _ => fun _ s => s

/-- What a player presses after all that has happened. -/
def folded (actions : List (PadAction σ)) (player : Nat) (s : ControllerState) : ControllerState :=
  actions.foldl (fun s action => action.effect player s) s

/-- The slot of the player was written. -/
def Flushed (actions : List (PadAction σ)) (player : Nat) : Prop :=
  ∃ op, .operate op ∈ actions ∧ op.Valid ∧ player ∈ op.players

/-- The changes that the process makes by itself leave the slots alone. -/
def Aside (memory : σ → Nat → UInt8) (stays : σ → Prop) (base : Nat) (actions : List (PadAction σ)) : Prop :=
  ∀ change, .meanwhile change ∈ actions → ∀ s, stays s →
    stays (change s) ∧ ∀ a, base ≤ a → a < base + 4 * padCount → memory (change s) a = memory s a

def Spares (memory : σ → Nat → UInt8) (stays : σ → Prop) (a : Nat) (actions : List (PadAction σ)) : Prop :=
  ∀ change, .meanwhile change ∈ actions → ∀ s, stays s → memory (change s) a = memory s a

theorem folded_concat (actions : List (PadAction σ)) (action : PadAction σ) (player : Nat) :
    folded (actions ++ [action]) player = action.effect player ∘ folded actions player := by
  funext s
  exact List.foldl_append

theorem flushed_concat_operate :
    Flushed (actions ++ [.operate op]) player ↔ Flushed actions player ∨ op.Valid ∧ player ∈ op.players := by
  simp [Flushed, or_and_right, exists_or]

theorem flushed_concat_meanwhile {change : σ → σ} :
    Flushed (actions ++ [.meanwhile change]) player ↔ Flushed actions player := by
  simp [Flushed]

theorem Flushed.lt (hf : Flushed actions player) : player < padCount := by
  obtain ⟨op, -, hvalid, hmem⟩ := hf
  exact hvalid player hmem

end PadAction

open PadAction

variable [ProcessMemory σ]

/-- Besides, the slots from `base` on are among the addresses, and every write inside them succeeds. -/
structure Opens (memory : σ → Nat → UInt8) (stays : σ → Prop) (base : Nat) : Prop
    extends Stores memory stays where
  room : base + 4 * padCount ≤ Address.count
  accepts : ∀ s, stays s → ∀ address (bytes : ByteArray), base ≤ address →
    address + bytes.size ≤ base + 4 * padCount → (ProcessMemory.write s address bytes).1 = .ok ()

/-- After some actions that began with the injector `i` and the handle `h`, the injector and the process agree. -/
structure Agrees (memory : σ → Nat → UInt8) (stays : σ → Prop) (i : Injector) (h : Handle σ)
    (actions : List (PadAction σ)) (p : Injector × Handle σ) : Prop where
  base : p.1.base = i.base
  steady : Steady stays p.2
  pressed : ∀ player, p.1.state? player = (i.state? player).map (folded actions player)
  slots : ∀ player, Flushed actions player → ∀ state, p.1.state? player = some state →
    copy (memory p.2.target) (i.base + 4 * player) 4 = slotBytes state
  others : ∀ a, (∀ player, Flushed actions player → ¬ InSlot i.base player a) → Spares memory stays a actions →
    memory p.2.target a = memory h.target a

variable {memory : σ → Nat → UInt8} {stays : σ → Prop} {i : Injector} {h : Handle σ} {players : List Nat}
variable {state : ControllerState} {p : Injector × Handle σ}

namespace Injector

private theorem overwrittenAll_slotWrites (m : Nat → UInt8) (hstate : i.state? player = some state) :
    overwrittenAll m (i.slotWrites player) = overwritten m (i.base + 4 * player) (slotBytes state) := by
  rw [slotWrites_eq hstate, overwrittenAll, List.foldl_map]
  exact written_pieces m (i.base + 4 * player) state

/-- The memory after the slots of some players were written. -/
theorem overwrittenAll_slots (m : Nat → UInt8) (hvalid : ∀ player ∈ players, player < padCount) :
    (∀ player ∈ players, ∀ state, i.state? player = some state →
        copy (overwrittenAll m (players.flatMap i.slotWrites)) (i.base + 4 * player) 4 = slotBytes state) ∧
      ∀ a, (∀ player ∈ players, ¬ InSlot i.base player a) →
        overwrittenAll m (players.flatMap i.slotWrites) a = m a := by
  -- The slot that is written last is seen first.
  induction players using List.reverseRecOn with
  | nil => exact ⟨nofun, fun _ _ => rfl⟩
  | append_singleton players q ih =>
    obtain ⟨hslots, hothers⟩ := ih fun player hmem => hvalid player (List.mem_append_left _ hmem)
    obtain ⟨last, hlast⟩ := i.state?_of_lt (hvalid q (List.mem_append_right _ (List.mem_singleton_self q)))
    have hsize := size_slotBytes last
    rw [List.flatMap_append, overwrittenAll_append, List.flatMap_singleton, overwrittenAll_slotWrites _ hlast]
    refine ⟨fun player hmem state hstate => ?_, fun a ha => ?_⟩
    · by_cases hq : player = q
      · subst hq
        cases hlast.symm.trans hstate
        exact copy_overwritten _ _ (slotBytes last)
      · have hmem' : player ∈ players := by simpa [hq] using hmem
        rw [← hslots player hmem' state hstate]
        exact copy_congr fun k hk => overwritten_outside (by omega)
    · have hout := ha q (List.mem_append_right _ (List.mem_singleton_self q))
      rw [InSlot] at hout
      rw [overwritten_outside (by omega)]
      exact hothers a fun player hmem => ha player (List.mem_append_left _ hmem)

theorem mem_slotWrites {w : Nat × ByteArray} (hw : w ∈ i.slotWrites player) :
    i.base + 4 * player ≤ w.1 ∧ w.1 + w.2.size ≤ i.base + 4 * player + 4 ∧ 0 < w.2.size := by
  cases hstate : i.state? player with
  | none =>
    rw [slotWrites, hstate] at hw
    cases hw
  | some state =>
    rw [slotWrites_eq hstate] at hw
    obtain ⟨piece, hpiece, rfl⟩ := List.mem_map.mp hw
    obtain ⟨hinside, hsome⟩ := piece_inside hpiece
    have hsize : (ByteArray.mk piece.2.toArray).size = piece.2.length := rfl
    dsimp only
    omega

/-- An operation on players that there are succeeds. -/
theorem operate_opens (ho : Opens memory stays i.base) (hh : Steady stays h) (hvalid : op.Valid) :
    ∃ h', i.operate h op = (.ok (), i.after op, h') ∧ Steady stays h' ∧
      memory h'.target = overwrittenAll (memory h.target) (op.players.flatMap (i.after op).slotWrites) := by
  have hok : (h.writeAll (op.players.flatMap (i.after op).slotWrites)).1 = .ok () := by
    refine ho.toStores.writeAll_ok hh fun w hw => ?_
    obtain ⟨player, hmem, hwrite⟩ := List.mem_flatMap.mp hw
    obtain ⟨hfrom, hto, hsome⟩ := mem_slotWrites hwrite
    have hplayer := hvalid player hmem
    have hroom := ho.room
    rw [base_after] at hfrom hto
    exact ⟨by omega, fun s hs => ho.accepts s hs w.1 w.2 (by omega) (by omega)⟩
  obtain ⟨hh', hmemory⟩ := ho.toStores.of_writeAll hh (Prod.ext hok rfl)
  exact ⟨_, by rw [i.operate_eq_writeAll h hvalid, hok], hh', hmemory⟩

/-- An operation leaves what the other players press. -/
theorem state?_after_of_not_mem (i : Injector) (hplayer : player ∉ op.players) :
    (i.after op).state? player = i.state? player := by
  cases hstate : i.state? player with
  | none => rw [state?_after, hstate, Option.map_none]
  | some state =>
    have hkeeps : op.effect player state = state := by
      cases op with
      | request q =>
        cases q with
        | setButtons p buttons pressed =>
          cases pressed with
          | true => exact if_neg fun hp => hplayer (List.mem_singleton.mpr hp)
          | false => exact if_neg fun hp => hplayer (List.mem_singleton.mpr hp)
        | assignButtons p buttons => exact if_neg fun hp => hplayer (List.mem_singleton.mpr hp)
        | setStick p x y => exact if_neg fun hp => hplayer (List.mem_singleton.mpr hp)
        | release =>
          have hnone : i.state? player = none := by
            refine Vector.getElem?_eq_none (Nat.not_lt.mp fun hlt => hplayer ?_)
            exact List.mem_range.mpr hlt
          rw [hstate] at hnone
          cases hnone
      | flush p => rfl
    rw [state?_after, hstate, Option.map_some, hkeeps]

end Injector

namespace Agrees

omit [ProcessMemory σ] in
theorem refl (hh : Steady stays h) : Agrees memory stays i h [] (i, h) where
  base := rfl
  steady := hh
  pressed player := Option.map_id'.symm
  slots player hf := by
    obtain ⟨op, hmem, -⟩ := hf
    cases hmem
  others a _ _ := rfl

theorem operate (ho : Opens memory stays i.base) (hp : Agrees memory stays i h actions p) (op : PadOperation) :
    Agrees memory stays i h (actions ++ [.operate op]) (Injector.act p (.operate op)) := by
  obtain ⟨j, k⟩ := p
  have hbase : j.base = i.base := hp.base
  have hafter : (j.operate k op).2.1 = j.after op := by rw [j.operate_eq_flushAll]
  have hpressed : ∀ player, (j.after op).state? player =
      (i.state? player).map (folded (actions ++ [.operate op]) player) := by
    intro player
    rw [j.state?_after, hp.pressed, Option.map_map, folded_concat]
    rfl
  rcases op.valid_or_invalid with hvalid | ⟨player, hmem, hplayer⟩
  · rw [← hbase] at ho
    obtain ⟨k', hoperate, hk', hmemory⟩ := Injector.operate_opens ho hp.steady hvalid
    obtain ⟨hslots, hothers⟩ := (j.after op).overwrittenAll_slots (memory k.target) hvalid
    rw [← hmemory] at hslots hothers
    rw [Injector.act, hoperate]
    refine ⟨hbase, hk', hpressed, fun player hf state hstate => ?_, fun a ha hspares => ?_⟩
    · by_cases hmem : player ∈ op.players
      · rw [← hbase]
        exact hslots player hmem state hstate
      · have hflushed := (flushed_concat_operate.mp hf).resolve_right fun hnow => hmem hnow.2
        rw [j.state?_after_of_not_mem hmem] at hstate
        rw [← hp.slots player hflushed state hstate]
        refine copy_congr fun n hn => hothers _ fun q hq hin => ?_
        have hne : q ≠ player := fun heq => hmem (heq ▸ hq)
        rw [InSlot, Injector.base_after] at hin
        omega
    · have hnow : ∀ q ∈ op.players, ¬ InSlot (j.after op).base q a := by
        intro q hq
        rw [Injector.base_after, hbase]
        exact ha q (flushed_concat_operate.mpr (.inr ⟨hvalid, hq⟩))
      rw [hothers a hnow]
      exact hp.others a (fun q hq => ha q (flushed_concat_operate.mpr (.inl hq)))
        fun change hmem => hspares change (List.mem_append_left _ hmem)
  · have hinvalid : ¬ op.Valid := fun hvalid => Nat.not_lt.mpr hplayer (hvalid player hmem)
    have hoperate := j.operate_of_invalid k hmem hplayer
    rw [hoperate] at hafter
    rw [← hafter] at hpressed
    rw [Injector.act, hoperate]
    refine ⟨hbase, hp.steady, hpressed, fun player hf => hp.slots player ?_, fun a ha hspares => ?_⟩
    · exact (flushed_concat_operate.mp hf).resolve_right fun hnow => hinvalid hnow.1
    · exact hp.others a (fun q hq => ha q (flushed_concat_operate.mpr (.inl hq)))
        fun change hmem => hspares change (List.mem_append_left _ hmem)

theorem meanwhile (hp : Agrees memory stays i h actions p) {change : σ → σ}
    (haside : ∀ s, stays s → stays (change s) ∧
      ∀ a, i.base ≤ a → a < i.base + 4 * padCount → memory (change s) a = memory s a) :
    Agrees memory stays i h (actions ++ [.meanwhile change]) (Injector.act p (.meanwhile change)) where
  base := hp.base
  steady := ⟨hp.steady.connected, (haside _ hp.steady.target).1⟩
  pressed player := by
    rw [folded_concat]
    exact hp.pressed player
  slots player hf state hstate := by
    have hflushed := flushed_concat_meanwhile.mp hf
    have hplayer := hflushed.lt
    rw [← hp.slots player hflushed state hstate]
    exact copy_congr fun n hn => (haside _ hp.steady.target).2 _ (by omega) (by omega)
  others a ha hspares := by
    have hkept := hspares change (List.mem_append_right _ (List.mem_singleton_self _)) _ hp.steady.target
    refine hkept.trans (hp.others a (fun q hq => ha q (flushed_concat_meanwhile.mpr hq)) ?_)
    exact fun change hmem => hspares change (List.mem_append_left _ hmem)

/-- The injector and the process agree after every run. -/
theorem foldl (ho : Opens memory stays i.base) (hh : Steady stays h) (actions : List (PadAction σ))
    (haside : Aside memory stays i.base actions) :
    Agrees memory stays i h actions (actions.foldl Injector.act (i, h)) := by
  induction actions using List.reverseRecOn with
  | nil => exact refl hh
  | append_singleton actions action ih =>
    have hp := ih fun change hmem => haside change (List.mem_append_left _ hmem)
    rw [List.foldl_append, List.foldl_cons, List.foldl_nil]
    cases action with
    | operate op => exact hp.operate ho op
    | meanwhile change =>
      exact hp.meanwhile (haside change (List.mem_append_right _ (List.mem_singleton_self _)))

omit [ProcessMemory σ] in
/-- What is seen of players who have let go. -/
theorem released (hp : Agrees memory stays i h (actions ++ [.operate (.request .release)]) p)
    (ha : i.base ≤ a) (hlt : a < i.base + 4 * padCount) : memory p.2.target a = 0 := by
  obtain ⟨player, n, hplayer, hn, rfl⟩ : ∃ player n, player < padCount ∧ n < 4 ∧ a = i.base + 4 * player + n :=
    ⟨(a - i.base) / 4, (a - i.base) % 4, by omega, by omega, by omega⟩
  have hvalid : (PadOperation.request .release).Valid := fun q hq => List.mem_range.mp hq
  have hflushed : Flushed (actions ++ [.operate (.request .release)]) player :=
    flushed_concat_operate.mpr (.inr ⟨hvalid, List.mem_range.mpr hplayer⟩)
  have hrest : p.1.state? player = some ⟨⟨0⟩, 0, 0⟩ := by
    obtain ⟨state, hstate⟩ := i.state?_of_lt hplayer
    rw [hp.pressed, hstate, folded_concat]
    rfl
  have hslot := hp.slots player hflushed _ hrest
  have hzeros : slotBytes ⟨⟨0⟩, 0, 0⟩ = zeros 4 := rfl
  calc memory p.2.target (i.base + 4 * player + n)
      = byte (copy (memory p.2.target) (i.base + 4 * player) 4) n := (byte_copy hn).symm
    _ = byte (zeros 4) n := by rw [hslot, hzeros]
    _ = 0 := byte_zeros 4

end Agrees

/-- After any run in which nobody else writes to the slots, every operation on players that there are succeeds,
each player presses what the operations amount to, the slots that were written show it, those of all players are
zero when they let go, and the bytes outside the slots that were written are as they were. -/
theorem Injector.agrees (ho : Opens memory stays i.base) (hc : h.connected = true) (ht : stays h.target)
    (actions : List (PadAction σ)) (haside : Aside memory stays i.base actions) :
    Agrees memory stays i h actions (actions.foldl act (i, h)) ∧
      ∀ j k, actions.foldl act (i, h) = (j, k) →
        (∀ op : PadOperation, op.Valid → (j.operate k op).1 = .ok ()) ∧
          ∀ a, i.base ≤ a → a < i.base + 4 * padCount →
            memory (j.operate k (.request .release)).2.2.target a = 0 := by
  have hp := Agrees.foldl ho ⟨hc, ht⟩ actions haside
  refine ⟨hp, fun j k hjk => ?_⟩
  rw [hjk] at hp
  refine ⟨fun op hvalid => ?_, fun a ha hlt => (hp.operate ho (.request .release)).released ha hlt⟩
  rw [← hp.base] at ho
  obtain ⟨k', hoperate, -⟩ := operate_opens ho hp.steady hvalid
  rw [hoperate]

/-- A process whose writable region has room for the slots. -/
theorem Passive.opens {regions : List Region} {fault : Nat → Nat → Option AccessError}
    (hp : Passive regions fault memory stays) {r : Region} (hr : r ∈ regions) (hw : r.isWritable = true)
    {base : Nat} (hbase : r.base ≤ base) (hroom : base + 4 * padCount ≤ min r.limit Address.count) :
    Opens memory stays base where
  toStores := hp.stores
  room := by omega
  accepts s hs address bytes hfrom hto :=
    hp.accepts s hs r hr hw address bytes (by omega) (by omega)

def roomyPads : ImageProcess := ⟨[⟨0x1000, .readWrite, none, ⟨Array.replicate 20 9⟩⟩], false⟩

def busyPads : List (PadAction ImageProcess) :=
  [.operate (.request (.setButtons 1 ⟨0x8000⟩ true)), .meanwhile fun p => (p.write 0x1010 ⟨#[7]⟩).2,
    .operate (.request (.setButtons 1 ⟨0x0001⟩ true)), .operate (.request (.setStick 1 300 (-5))),
    .operate (.request (.setButtons 1 ⟨0x8000⟩ false)), .operate (.flush 5)]

private theorem eq_one_of_flushed (hf : Flushed busyPads player) : player = 1 := by
  obtain ⟨op, hmem, hvalid, hplayer⟩ := hf
  simp only [busyPads, List.mem_cons, PadAction.operate.injEq, reduceCtorEq, List.not_mem_nil, or_false,
    false_or] at hmem
  obtain rfl | rfl | rfl | rfl | rfl := hmem
  · exact List.mem_singleton.mp hplayer
  · exact List.mem_singleton.mp hplayer
  · exact List.mem_singleton.mp hplayer
  · exact List.mem_singleton.mp hplayer
  · exact absurd (hvalid 5 (List.mem_singleton_self 5)) (by decide)

private theorem flushed_busyPads : Flushed busyPads 1 := by
  refine ⟨_, List.mem_cons_self, fun player hmem => ?_, List.mem_singleton_self 1⟩
  cases List.mem_singleton.mp hmem
  decide

/-- The second player's slot shows what that player presses, and the first one's is not written. -/
theorem agrees_roomyPads :
    copy (busyPads.foldl Injector.act (Injector.new 0x1000, attach 1 roomyPads)).2.target.memory 0x1004 4 =
        ⟨#[0, 1, 127, 251]⟩ ∧
      (busyPads.foldl Injector.act (Injector.new 0x1000, attach 1 roomyPads)).2.target.memory 0x1000 = 9 := by
  have happart : [(⟨0x1000, 20, .readWrite, none⟩ : Region)].Pairwise Region.Apart := List.pairwise_singleton _ _
  have ho : Opens ImageProcess.memory _ 0x1000 :=
    (ImageProcess.passive happart).opens List.mem_cons_self rfl (Nat.le_refl _) (by decide)
  have hwrites : ∀ {change}, PadAction.meanwhile change ∈ busyPads →
      change = fun p => (p.write 0x1010 ⟨#[7]⟩).2 := by simp [busyPads]
  have haside : Aside ImageProcess.memory (ImageProcess.Runs [⟨0x1000, 20, .readWrite, none⟩]) 0x1000 busyPads := by
    intro change hmem s hs
    rw [hwrites hmem]
    obtain ⟨hruns, hkept⟩ := ImageProcess.runs_write happart hs 0x1010 ⟨#[7]⟩
    exact ⟨hruns, fun a _ ha => hkept a (.inl ha)⟩
  obtain ⟨hagrees, -⟩ := Injector.agrees (i := Injector.new 0x1000) (h := attach 1 roomyPads) ho rfl ⟨rfl, rfl⟩
    busyPads haside
  have hpressed := (hagrees.pressed 1).trans (show _ = some ⟨⟨1⟩, 127, -5⟩ by rfl)
  refine ⟨hagrees.slots 1 flushed_busyPads _ hpressed, ?_⟩
  refine (hagrees.others 0x1000 (fun player hf hin => ?_) fun change hmem s hs => ?_).trans rfl
  · obtain rfl := eq_one_of_flushed hf
    exact absurd hin.1 (by decide)
  · rw [hwrites hmem]
    exact (ImageProcess.runs_write happart hs 0x1010 ⟨#[7]⟩).2 0x1000 (.inl (by decide))

end ConsoleBridge
