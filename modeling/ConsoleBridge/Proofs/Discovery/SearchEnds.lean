import ConsoleBridge.Discovery.Input
import ConsoleBridge.Discovery.Ram
import ConsoleBridge.Proofs.Process.Connection

/-!
# Searches that notice the loss of the process

Every search for the controllers' state, and the search for main memory by the size of a region, hands
on the first answer that the process is gone. The scan for the signature does not always, and is left
out here.
-/
namespace ConsoleBridge

open Handle

/-- The answer of a search of which a method comes upon something. -/
def foundBy (method : Method) : Hit → Except DiscoveryError Found
  | .ok base => .ok ⟨base, method⟩
  | .error stop => .error (.stopped stop)

variable {σ : Type} [ProcessMemory σ]

omit [ProcessMemory σ] in
/-- One of several methods to look for an address: the next one is only tried when nothing is found. -/
theorem Handle.Ends.orElse {h : Handle σ} {method : Method}
    {p : Except DiscoveryError (Option Nat) × Handle σ}
    (hp : Ends (.access .disconnected) h p)
    {next : Handle σ → Except DiscoveryError Found × Handle σ}
    (hn : ∀ h', h'.connected = true → Ends (.access .disconnected) h' (next h')) :
    Ends (.access .disconnected) h
      (match p with
      | (.error e, h) => (.error e, h)
      | (.ok (some base), h) => (.ok ⟨base, method⟩, h)
      | (.ok none, h) => next h : Except DiscoveryError Found × Handle σ) := by
  cases hp with
  | @found v h' keeps =>
    cases v with
    | some base => exact .found keeps
    | none => exact (hn h' keeps.connected).of_keeps keeps
  | failed keeps ne => exact .failed keeps ne
  | gone gone => exact .gone gone

omit [ProcessMemory σ] in
/-- What a method answers tells nothing of the process, so the connection is as it was. -/
theorem Handle.Keeps.ends_answered {h h' : Handle σ} (hk : Keeps h h') (o : Option Hit) :
    Ends (.access .disconnected) h (answered o, h') := by
  have hne := answered_ne_access o .disconnected
  cases ho : answered o with
  | ok found => exact .found hk
  | error e => exact .failed hk fun he => hne (ho.trans (congrArg _ he))

namespace Capture

private theorem copyRegions_ends {h : Handle σ} (hc : h.connected = true) (c : Capture) (regions : List Region) :
    Ends .disconnected h (copyRegions h c regions) := by
  induction regions generalizing h c with
  | nil => exact .found (Keeps.refl hc)
  | cons region rest ih =>
    rw [copyRegions]
    apply ends_of_read hc
    · intro bytes h' hc'
      exact ih hc' (c.insert region.base bytes)
    · intro h' hc'
      exact ih hc' c

theorem ofProcess_ends {h : Handle σ} (hc : h.connected = true) (sizeMax : Nat) :
    Ends .disconnected h (ofProcess h sizeMax) := by
  apply ends_of_regions hc id fun _ => id
  intro regions h' hc'
  exact copyRegions_ends hc' empty _

end Capture

namespace InputSearch

private theorem firstMatch_ends (contract : ShapeContract) {h : Handle σ} (hc : h.connected = true)
    (regions : List Region) : Ends (.access .disconnected) h (firstMatch contract h regions) := by
  induction regions generalizing h with
  | nil => exact .found (Keeps.refl hc)
  | cons region rest ih =>
    rw [firstMatch]
    apply ends_of_read hc
    · intro bytes h' hc'
      cases contract.findIn bytes with
      | some offset => exact (Keeps.refl hc').ends_answered _
      | none => exact ih hc'
    · intro h' hc'
      exact ih hc'

theorem scanRegions_ends (contract : ShapeContract) {h : Handle σ} (hc : h.connected = true)
    (select : Region → Bool) : Ends (.access .disconnected) h (scanRegions contract h select) := by
  apply ends_of_regions hc DiscoveryError.access fun _ => DiscoveryError.access.inj
  intro regions h' hc'
  exact firstMatch_ends contract hc' _

private theorem scanChanges_ends (s : InputSearch) (contract : ShapeContract) {h : Handle σ}
    (hc : h.connected = true) : Ends (.access .disconnected) h (s.scanChanges contract h) := by
  have hb := Capture.ofProcess_ends hc s.captureMax
  rw [scanChanges]
  generalize Capture.ofProcess h s.captureMax = p at hb ⊢
  cases hb with
  | @found before h' keeps =>
    have ha := Capture.ofProcess_ends keeps.connected s.captureMax
    dsimp only
    generalize Capture.ofProcess h' s.captureMax = q at ha ⊢
    cases ha with
    | found keeps' => exact (keeps.trans keeps').ends_answered _
    | failed keeps' ne => exact .failed (keeps.trans keeps') (by simpa using ne)
    | gone gone => exact .gone gone
  | failed keeps ne => exact .failed keeps (by simpa using ne)
  | gone gone => exact .gone gone

theorem search_ends (s : InputSearch) (contract : ShapeContract) {h : Handle σ}
    (hc : h.connected = true) : Ends (.access .disconnected) h (s.search contract h) := by
  apply (scanRegions_ends contract hc s.isSmall).orElse
  intro h' hc'
  apply (s.scanChanges_ends contract hc').orElse
  intro h'' hc''
  apply (scanRegions_ends contract hc'' s.isModule).orElse
  intro h''' hc'''
  exact .failed (Keeps.refl hc''') (by simp)

theorem search_of_disconnected (s : InputSearch) (contract : ShapeContract) {h : Handle σ}
    (hc : h.connected = false) : s.search contract h = (.error (.access .disconnected), h) := by
  simp only [search, scanSmall, scanRegions, regions_of_disconnected hc]

theorem locate_of_none (s : InputSearch) (contract : ShapeContract) {h : Handle σ} (hinput : h.input = none) :
    s.locate contract h =
      match s.search contract h with
      | (.ok found, h) => (.ok found, { h with input := some found })
      | (.error e, h) => (.error e, h) := by
  rewrite [locate, hinput]
  rfl

theorem locate_of_some (s : InputSearch) (contract : ShapeContract) {h : Handle σ} {found : Found}
    (hinput : h.input = some found) : s.locate contract h = (.ok found, h) := by
  rw [locate, hinput]

/-- What is found is remembered. -/
theorem input_of_ok {s : InputSearch} {contract : ShapeContract} {h : Handle σ} (hinput : h.input = none)
    {found : Found} (hf : (s.locate contract h).1 = .ok found) :
    (s.locate contract h).2.input = some found := by
  rw [s.locate_of_none contract hinput] at hf ⊢
  generalize s.search contract h = p at hf ⊢
  rcases p with ⟨e | found', h'⟩
  · cases hf
  · cases hf
    rfl

/-- A search that fails leaves nothing remembered. -/
theorem input_of_error {s : InputSearch} {contract : ShapeContract} {h : Handle σ} (hinput : h.input = none)
    {e : DiscoveryError} (he : (s.locate contract h).1 = .error e) :
    (s.locate contract h).2.input = none := by
  rw [s.locate_of_none contract hinput] at he ⊢
  cases hc : h.connected with
  | false =>
    rw [s.search_of_disconnected contract hc]
    exact hinput
  | true =>
    have hends := s.search_ends contract hc
    generalize s.search contract h = p at hends he ⊢
    cases hends with
    | found keeps => cases he
    | failed keeps ne => exact keeps.input.trans hinput
    | gone gone => exact gone.input

end InputSearch

namespace RamSearch

private theorem firstReadable_ends {h : Handle σ} (hc : h.connected = true) (regions : List Region) :
    Ends (.access .disconnected) h (firstReadable h regions) := by
  induction regions generalizing h with
  | nil => exact .found (Keeps.refl hc)
  | cons region rest ih =>
    rw [firstReadable]
    apply ends_of_read hc
    · intro bytes h' hc'
      exact .found (Keeps.refl hc')
    · intro h' hc'
      exact ih hc'

theorem scanRegionSize_ends (s : RamSearch) {h : Handle σ} (hc : h.connected = true) :
    Ends (.access .disconnected) h (s.scanRegionSize h) := by
  apply ends_of_regions hc DiscoveryError.access fun _ => DiscoveryError.access.inj
  intro regions h' hc'
  exact firstReadable_ends hc' _

theorem scanSignature_of_disconnected (s : RamSearch) {h : Handle σ} (hc : h.connected = false) :
    s.scanSignature h = (.error (.access .disconnected), h) := by
  rw [scanSignature, regions_of_disconnected hc]

theorem scanRegionSize_of_disconnected (s : RamSearch) {h : Handle σ} (hc : h.connected = false) :
    s.scanRegionSize h = (.error (.access .disconnected), h) := by
  rw [scanRegionSize, regions_of_disconnected hc]

theorem locate_of_none (s : RamSearch) {h : Handle σ} (hram : h.ram = none) :
    s.locate h =
      match s.search h with
      | (.ok found, h) => (.ok found, { h with ram := some found })
      | (.error e, h) => (.error e, h) := by
  rewrite [locate, hram]
  rfl

theorem locate_of_some (s : RamSearch) {h : Handle σ} {found : Found} (hram : h.ram = some found) :
    s.locate h = (.ok found, h) := by
  rw [locate, hram]

theorem search_of_disconnected (s : RamSearch) {h : Handle σ} (hc : h.connected = false) :
    s.search h = (.error (.access .disconnected), h) := by
  rw [search, s.scanSignature_of_disconnected hc]

end RamSearch

end ConsoleBridge
