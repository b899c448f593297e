import ConsoleBridge.CommandLine.Arguments
import ConsoleBridge.Proofs.Controller.Operations

/-!
# What accepted arguments lead to

Arguments without a contradiction name an address that the console has and a player that there is. The bounds on the
size of main memory are only compared where both are given: one that is given alone can leave no size together with
the default of the other, and then no region fits.
-/
namespace ConsoleBridge.CommandLine

/-- No operation for the player, and no release of all, finds that there is no such player. -/
def Seated (player : Nat) : Prop :=
  ∀ {σ : Type} [ProcessMemory σ] (injector : Injector) (h : Handle σ) (op : PadOperation),
    op.players = [player] ∨ op = .request .release → ∀ p, (injector.operate h op).1 ≠ .error (.invalidPlayer p)

/-- A bound that is given alone is on the right side of the default of the other one. -/
structure Bounds.MeetsDefault (b : Bounds) : Prop where
  low : ∀ low, b = ⟨some low, .none⟩ → low ≤ Bus.rdramSize
  high : ∀ high, b = ⟨.none, some high⟩ → Bus.rdramBaseSize ≤ high

namespace Arguments

/-- The address to peek at is a console address, and the player to inject input for is one of those that there are. -/
structure Addressed (a : Arguments) : Prop where
  address : ∀ n width snapshot, a.command = .peek n width snapshot → (UInt32.ofNat n).toNat = n
  player : ∀ i, a.command = .inject i → Seated i.player

/-- What is asked for makes sense in the run, with the bounds that the search goes by. -/
structure Coherent (a : Arguments) : Prop extends a.Addressed where
  bounds : a.ramSearch.sizeMin ≤ a.ramSearch.sizeMax

variable {a : Arguments} {b : Bounds} {s : RamSearch} {player : Nat}

private theorem seated_of_lt (hplayer : player < padCount) : Seated player := by
  intro σ _ injector h op hop p
  have hvalid : op.Valid := by
    rcases hop with hop | rfl
    · rw [PadOperation.Valid, hop]
      exact List.forall_mem_singleton.mpr hplayer
    · exact fun q hq => List.mem_range.mp hq
  rw [injector.operate_eq_writeAll h hvalid]
  exact h.writeAll_ne_invalidPlayer _ p

private theorem addressed_of_commandFault (ha : commandFault a.command = none) : a.Addressed where
  address n width snapshot hcommand := by
    rw [hcommand, commandFault, ite_eq_right_iff] at ha
    have hn : n < 0x100000000 := Nat.lt_of_not_le fun hle => nomatch ha hle
    rw [UInt32.toNat_ofNat']
    exact Nat.mod_eq_of_lt hn
  player i hcommand := by
    rw [hcommand, commandFault, ite_eq_right_iff] at ha
    exact seated_of_lt (Nat.lt_of_not_le fun hle => nomatch ha hle)

private theorem of_fault_eq_none (ha : a.fault = none) :
    boundsEmpty a.bounds = false ∧ commandFault a.command = none := by
  rw [fault] at ha
  split at ha
  · cases ha
  · split at ha
    · cases ha
    · split at ha
      · cases ha
      · next hbounds => exact ⟨Bool.eq_false_iff.mpr hbounds, ha⟩

/-- Two bounds that are given both are compared with each other, and one alone with the default of the other. -/
theorem bounds_iff (hb : boundsEmpty a.bounds = false) :
    a.ramSearch.sizeMin ≤ a.ramSearch.sizeMax ↔ a.bounds.MeetsDefault := by
  rw [ramSearch]
  rcases hbounds : a.bounds with ⟨_ | low, _ | high⟩
  · exact iff_of_true (by decide) ⟨nofun, nofun⟩
  · constructor
    · intro h
      refine ⟨nofun, ?_⟩
      rintro _ ⟨⟩
      exact h
    · exact fun h => h.high high rfl
  · constructor
    · intro h
      refine ⟨?_, nofun⟩
      rintro _ ⟨⟩
      exact h
    · exact fun h => h.low low rfl
  · rw [hbounds, boundsEmpty, decide_eq_false_iff_not] at hb
    exact iff_of_true (Nat.not_lt.mp hb) ⟨nofun, nofun⟩

private theorem exists_fits_iff : (∃ region, s.fits region = true) ↔ s.sizeMin ≤ s.sizeMax := by
  constructor
  · rintro ⟨region, hfits⟩
    simp only [RamSearch.fits, Bool.and_eq_true, decide_eq_true_eq] at hfits
    exact Nat.le_trans hfits.1.2 hfits.2
  · intro hle
    refine ⟨⟨0, s.sizeMin, Protection.readWrite, none⟩, ?_⟩
    simp only [RamSearch.fits, Bool.and_eq_true, decide_eq_true_eq]
    exact ⟨⟨rfl, Nat.le_refl _⟩, hle⟩

/-- Accepted arguments address what there is. They are coherent exactly if a bound on the size that is given alone is on
the right side of the other one's default, and otherwise no region fits. -/
theorem coherent_iff_meetsDefault (ha : a.fault = none) :
    a.Addressed ∧ (a.Coherent ↔ a.bounds.MeetsDefault) ∧
      ((∃ region, a.ramSearch.fits region = true) ↔ a.bounds.MeetsDefault) := by
  obtain ⟨hempty, hcommand⟩ := of_fault_eq_none ha
  have haddressed := addressed_of_commandFault hcommand
  have hbounds := bounds_iff hempty
  refine ⟨haddressed, ⟨fun h => hbounds.mp h.bounds, fun h => ⟨haddressed, hbounds.mpr h⟩⟩, ?_⟩
  exact exists_fits_iff.trans hbounds

/-- The last port, with a lower bound below the default of the upper one. -/
theorem coherent_lastPort :
    let a : Arguments := ⟨⟨some 1234, none, none⟩, ⟨some 0x200000, none⟩, .inject ⟨3, [], -40, 0, some 100, none⟩⟩
    a.fault = none ∧ a.Coherent := by
  intro a
  have ha : a.fault = none := by decide
  refine ⟨ha, (coherent_iff_meetsDefault ha).2.1.mpr ⟨?_, nofun⟩⟩
  rintro _ ⟨⟩
  decide

/-- A lower bound above the default of the upper one is read and accepted. -/
theorem not_coherent_loneBound :
    let a : Arguments := ⟨⟨some 1, none, none⟩, ⟨some 0x900000, none⟩, .locate⟩
    read ["--pid", "1", "--ram-size-min", "0x900000", "locate"] = .ok a ∧ a.fault = none ∧ ¬ a.Coherent := by
  intro a
  refine ⟨by cbv, by decide, fun h => ?_⟩
  exact absurd h.bounds (by decide)

end Arguments

end ConsoleBridge.CommandLine
