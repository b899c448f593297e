import ConsoleBridge.Proofs.Bus.PadIsolation

/-!
# Off and on again

A reset console is a console just switched on, with what is in the slot and at the ports: whatever was written, loaded,
transferred or restored before, nothing else of it is left.
-/
namespace ConsoleBridge

open Bytes Bus

namespace Bus.RegisterBlock

variable {b : RegisterBlock} {n : Nat}

theorem reset_eq_zeroed (hb : b.size = n) : b.reset = zeroed n := by
  have hwords : b.words.size = n / 4 := by
    rw [size] at hb
    omega
  rw [reset, zeroed, hwords]

end Bus.RegisterBlock

namespace Console

variable {c : Console} {pads : Pads} {q : Nat} {players : List (Fin padCount)}

/-- The console with some controllers set to what the given ones report. -/
def plugging (c : Console) (pads : Pads) (players : List (Fin padCount)) : Console :=
  players.foldl (fun c (player : Fin padCount) => c.setController player (pads.get player)) c

/-- A console just switched on, with the cartridge of another one in the slot and its controllers set one after the
other. -/
def anew (c : Console) : Console := (new c.cartridge).plugging c.pads (List.finRange padCount)

theorem plugging_cons (player : Fin padCount) :
    c.plugging pads (player :: players) = (c.setController player (pads.get player)).plugging pads players := rfl

/-- Setting controllers touches nothing else. -/
theorem exists_plugging_eq_withPads (c : Console) (pads : Pads) (players : List (Fin padCount)) :
    ∃ pads', c.plugging pads players = c.withPads pads' := by
  induction players generalizing c with
  | nil => exact ⟨c.pads, rfl⟩
  | cons player players ih =>
    obtain ⟨pads', hpads'⟩ := ih (c.setController player (pads.get player))
    exact ⟨pads', by rw [plugging_cons, hpads']; rfl⟩

theorem getElem?_plugging (hq : (∃ player ∈ players, player.val = q) ∨ c.pads[q]? = pads[q]?) :
    (c.plugging pads players).pads[q]? = pads[q]? := by
  induction players generalizing c with
  | nil => exact hq.resolve_left (by simp)
  | cons first players ih =>
    rw [plugging_cons]
    apply ih
    rw [getElem?_setController]
    by_cases hfirst : first.val = q
    · -- A later turn of the same player sets the same again.
      subst hfirst
      right
      rw [if_pos rfl, if_pos first.isLt, getElem?_pos pads _ first.isLt]
      rfl
    · rw [if_neg hfirst]
      rcases hq with ⟨player, hplayer, hval⟩ | hq
      · rcases List.mem_cons.mp hplayer with rfl | hrest
        · exact absurd hval hfirst
        · exact .inl ⟨player, hrest, hval⟩
      · exact .inr hq

/-- When every controller has been set, it does not matter what they reported before. -/
theorem plugging_finRange (c : Console) (pads : Pads) :
    c.plugging pads (List.finRange padCount) = c.withPads pads := by
  obtain ⟨pads', hpads'⟩ := c.exists_plugging_eq_withPads pads (List.finRange padCount)
  have hall : pads' = pads := by
    apply Vector.ext
    intro q hq
    have hset : (c.plugging pads (List.finRange padCount)).pads[q]? = pads[q]? :=
      getElem?_plugging (.inl ⟨⟨q, hq⟩, List.mem_finRange _, rfl⟩)
    rw [hpads'] at hset
    exact Option.some.inj ((getElem?_pos pads' q hq).symm.trans (hset.trans (getElem?_pos pads q hq)))
  rw [hpads', hall]

private theorem reset_eq_withPads {save : Option Nat} (hs : c.sizes = builtSizes save) :
    c.reset = (new c.cartridge).withPads c.pads := by
  have hrdram : c.rdram.size = rdramSize := congrArg Sizes.rdram hs
  have hpifRom : c.pifRom.size = pifRomSize := congrArg Sizes.pifRom hs
  have hpifRam : c.pifRam.size = pifRamSize := congrArg Sizes.pifRam hs
  have hvi : c.vi.reset = .zeroed Device.vi.size := RegisterBlock.reset_eq_zeroed (congrArg Sizes.vi hs)
  have hai : c.ai.reset = .zeroed Device.ai.size := RegisterBlock.reset_eq_zeroed (congrArg Sizes.ai hs)
  have hpi : c.pi.reset = .zeroed Device.pi.size := RegisterBlock.reset_eq_zeroed (congrArg Sizes.pi hs)
  have hri : c.ri.reset = .zeroed Device.ri.size := RegisterBlock.reset_eq_zeroed (congrArg Sizes.ri hs)
  rw [reset, hrdram, hpifRom, hpifRam, hvi, hai, hpi, hri]
  rfl

private theorem reset_reset (c : Console) : c.reset.reset = c.reset := by
  simp [reset, RegisterBlock.reset, Cartridge.reset]

/-- From a state that the console can come to, a reset leads to the state of a console just switched on over what is in
the slot, with the controllers set to what they report: no later request tells the two apart. A second reset changes
nothing. -/
theorem reset_eq_anew (hc : Reachable c) :
    c.reset = c.anew ∧ c.reset.reset = c.reset ∧ c.anew.cartridge = c.cartridge ∧
      (∀ player, c.anew.controller? player = c.controller? player) ∧
      ∀ rs : List ConsoleRequest, c.reset.answers rs = c.anew.answers rs ∧
        rs.foldl next c.reset = rs.foldl next c.anew := by
  obtain ⟨save, hs⟩ := hc.sizes_eq
  have hanew : c.anew = (new c.cartridge).withPads c.pads := plugging_finRange _ _
  have hreset : c.reset = c.anew := (reset_eq_withPads hs).trans hanew.symm
  refine ⟨hreset, c.reset_reset, by rw [hanew]; rfl, fun player => by rw [hanew]; rfl, fun rs => ?_⟩
  rw [hreset]
  exact ⟨rfl, rfl⟩

/-- A controller is answered for and its block has gone to main memory, the boot ROM is loaded, a shorter state restored
and the console reset before. -/
theorem reset_eq_anew_used :
    let c := [.loadPifRom ⟨#[0x12, 0x34]⟩, .setController 2 (.new ⟨0x8000⟩ 7 0), .reset,
      .write (.byte 0xBFC007D0 0x01), .write (.word 0xA4800000 0x1000), .write (.half 0xA4800006 0x0000),
      .setState ⟨⟨#[1]⟩, some ⟨#[9]⟩⟩, .write (.word 0xA430000C 0x2)].foldl apply (new (.ofRom ⟨#[0x80, 0x37]⟩ (some 6)))
    Reachable c ∧ c.reset = c.anew ∧ c.reset.answers [.ask .interrupt, .ask (.controller 2)] =
      c.anew.answers [.ask .interrupt, .ask (.controller 2)] := by
  intro c
  have hc : Reachable c := (Reachable.plugged ..).foldl _
  obtain ⟨heq, -, -, -, hruns⟩ := reset_eq_anew hc
  exact ⟨hc, heq, (hruns _).1⟩

end Console

end ConsoleBridge
