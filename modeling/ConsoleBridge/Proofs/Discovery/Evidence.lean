import Mathlib
import ConsoleBridge.Discovery.Input
import ConsoleBridge.Process.Scripted
import ConsoleBridge.Proofs.Discovery.Captures
import ConsoleBridge.Proofs.Discovery.SearchEnds
import ConsoleBridge.Proofs.Process.Recording

/-!
# What a search for the controllers' state has seen

Whatever the process does meanwhile, an address is only found on evidence: the calls of the search list a
region and then bring its bytes, with an admitted word at that address. Without such calls the search
fails, and nothing is remembered.
-/
namespace ConsoleBridge

open Handle
open scoped List

variable {σ : Type} [ProcessMemory σ] {contract : ShapeContract} {b : Nat}
variable {regions regions' : List Region} {calls calls' new : List Call} {p : Nat × ByteArray}

/-- The calls of a search that bear out what it found. -/
inductive BornOut (s : InputSearch) (contract : ShapeContract) (calls : List Call) : Found → Prop
  | shapeScan {regions r bytes k} (listed : r ∈ regions)
      (seen : [.regions (.ok regions), .read r.base r.size (.ok bytes)] <+ calls)
      (access : r.isReadable = true ∧ r.isWritable = true)
      (size : s.smallMin ≤ r.size ∧ r.size ≤ s.smallMax)
      (live : contract.LiveAt bytes (4 * k)) :
      BornOut s contract calls ⟨r.base + 4 * k, .shapeScan⟩
  | differential {earlier regions q r old new k} (listed : q ∈ earlier ∧ r ∈ regions)
      (seen : [.regions (.ok earlier), .read q.base q.size (.ok old),
        .regions (.ok regions), .read r.base r.size (.ok new)] <+ calls)
      (same : q.base = r.base ∧ q.size = r.size)
      (access : r.isReadable = true ∧ r.isWritable = true) (size : r.size ≤ s.captureMax)
      (changed : contract.ChangedAt old new (4 * k)) :
      BornOut s contract calls ⟨r.base + 4 * k, .differential⟩
  | moduleScan {regions r bytes k} (listed : r ∈ regions)
      (seen : [.regions (.ok regions), .read r.base r.size (.ok bytes)] <+ calls)
      (access : r.isReadable = true ∧ r.isWritable = true) (named : r.name ≠ none)
      (size : s.moduleMin ≤ r.size ∧ r.size ≤ s.moduleMax)
      (live : contract.LiveAt bytes (4 * k)) :
      BornOut s contract calls ⟨r.base + 4 * k, .moduleScan⟩

theorem Region.isReadable_of_isWritable {r : Region} (hr : r.isWritable = true) : r.isReadable = true := by
  simp_all [isWritable, isReadable, Protection.allows, Protection.readWrite, Protection.readOnly]

theorem BornOut.mono {s : InputSearch} {found : Found} (hb : BornOut s contract calls found)
    (hc : calls <+ calls') : BornOut s contract calls' found := by
  cases hb with
  | shapeScan listed seen access size live => exact .shapeScan listed (seen.trans hc) access size live
  | differential listed seen same access size changed =>
    exact .differential listed (seen.trans hc) same access size changed
  | moduleScan listed seen access named size live =>
    exact .moduleScan listed (seen.trans hc) access named size live

/-- One of the regions was read and showed a live word at `b`. -/
def Matched (contract : ShapeContract) (regions : List Region) (calls : List Call) (b : Nat) : Prop :=
  ∃ r ∈ regions, ∃ bytes k, .read r.base r.size (.ok bytes) ∈ calls ∧
    contract.LiveAt bytes (4 * k) ∧ b = r.base + 4 * k

def Copied (regions : List Region) (calls : List Call) (p : Nat × ByteArray) : Prop :=
  ∃ r ∈ regions, r.base = p.1 ∧ r.size = p.2.size ∧ .read r.base r.size (.ok p.2) ∈ calls

theorem Matched.mono (hm : Matched contract regions calls b) (hr : regions ⊆ regions')
    (hc : calls ⊆ calls') : Matched contract regions' calls' b := by
  obtain ⟨r, hmem, bytes, k, hread, hlive⟩ := hm
  exact ⟨r, hr hmem, bytes, k, hc hread, hlive⟩

theorem Copied.mono (hp : Copied regions calls p) (hr : regions ⊆ regions') (hc : calls ⊆ calls') :
    Copied regions' calls' p := by
  obtain ⟨r, hmem, hbase, hsize, hread⟩ := hp
  exact ⟨r, hr hmem, hbase, hsize, hc hread⟩

theorem pair_sublist {first second : Call} (hc : second ∈ calls) : [first, second] <+ [first] ++ calls :=
  (List.singleton_sublist.mpr hc).cons_cons first

namespace Capture

private theorem unrecorded_copyRegions (h : Handle (Recording σ)) (c : Capture) (regions : List Region) :
    unrecorded (copyRegions h c regions) = copyRegions h.bare c regions := by
  induction regions generalizing h c with
  | nil => rfl
  | cons r rest ih =>
    rw [copyRegions, copyRegions, ← unrecorded_read]
    rcases h.read r.base r.size with ⟨(⟨⟩ | ⟨⟩) | bytes, h'⟩
    · exact ih h' c
    · rfl
    · exact ih h' (c.insert r.base bytes)

theorem unrecorded_ofProcess (h : Handle (Recording σ)) (sizeMax : Nat) :
    unrecorded (ofProcess h sizeMax) = ofProcess h.bare sizeMax := by
  rw [ofProcess, ofProcess, ← unrecorded_regions]
  rcases h.regions with ⟨e | regions, h'⟩
  · rfl
  · exact unrecorded_copyRegions h' empty _

/-- Each copy comes from a read, or was there before. -/
theorem adds_copyRegions (h : Handle (Recording σ)) (c : Capture) (regions : List Region) :
    ∃ new, Adds h (copyRegions h c regions).2 new ∧
      ∀ d, (copyRegions h c regions).1 = .ok d → ∀ p ∈ d.regions, p ∈ c.regions ∨ Copied regions new p := by
  -- A region that is read replaces the copy at its base, so what was copied before need not stay.
  induction regions generalizing h c with
  | nil => exact ⟨[], .refl h, fun d hd p hp => by cases hd; exact .inl hp⟩
  | cons r rest ih =>
    obtain ⟨made, hmade⟩ := exists_adds_read h r.base r.size
    have hsize := @size_of_read _ _ h r.base r.size
    have hbrought := @adds_of_read _ _ h
    rw [copyRegions]
    rcases hr : h.read r.base r.size with ⟨(⟨⟩ | ⟨⟩) | bytes, h'⟩
    · rw [hr] at hmade
      obtain ⟨new, hadds, hcopied⟩ := ih h' c
      refine ⟨_, hmade.trans hadds, fun d hd p hp => (hcopied d hd p hp).imp_right fun hp => ?_⟩
      exact hp.mono (List.subset_cons_self r rest) (List.subset_append_right made new)
    · rw [hr] at hmade
      exact ⟨_, hmade, fun d hd => by cases hd⟩
    · obtain ⟨new, hadds, hcopied⟩ := ih h' (c.insert r.base bytes)
      refine ⟨_, (hbrought hr).trans hadds, fun d hd p hp => ?_⟩
      rcases hcopied d hd p hp with hp | hp
      · rcases mem_insertRegion hp with rfl | hp
        · refine .inr ⟨r, List.mem_cons_self, rfl, ?_, List.mem_cons_self⟩
          exact (hsize (by rw [hr])).symm
        · exact .inl hp
      · exact .inr (hp.mono (List.subset_cons_self r rest) (List.subset_append_right _ new))

/-- Each copy of a capture comes from a read of a region that was listed before. -/
theorem adds_ofProcess (h : Handle (Recording σ)) (sizeMax : Nat) :
    ∃ new, Adds h (ofProcess h sizeMax).2 new ∧
      ∀ c, (ofProcess h sizeMax).1 = .ok c → ∀ p ∈ c.regions, ∃ regions, ∃ r ∈ regions,
        r.isWritable = true ∧ r.size ≤ sizeMax ∧ r.base = p.1 ∧ r.size = p.2.size ∧
          [.regions (.ok regions), .read r.base r.size (.ok p.2)] <+ new := by
  obtain ⟨made, hmade⟩ := exists_adds_regions h
  have hlisted := @adds_of_regions _ _ h
  rw [ofProcess]
  rcases hr : h.regions with ⟨e | regions, h'⟩
  · rw [hr] at hmade
    exact ⟨made, hmade, nofun⟩
  · obtain ⟨new, hadds, hcopied⟩ := adds_copyRegions h' empty
      (regions.filter fun r => r.isWritable && r.size ≤ sizeMax)
    refine ⟨_, (hlisted hr).trans hadds, fun c hc p hp => ?_⟩
    rcases hcopied c hc p hp with hp | ⟨r, hmem, hbase, hsize, hread⟩
    · cases hp
    · obtain ⟨hmem, hselected⟩ := List.mem_filter.mp hmem
      simp only [Bool.and_eq_true, decide_eq_true_eq] at hselected
      exact ⟨regions, r, hmem, hselected.1, hselected.2, hbase, hsize, pair_sublist hread⟩

end Capture

namespace InputSearch

variable {s : InputSearch} {select : Region → Bool}

private theorem unrecorded_firstMatch (contract : ShapeContract) (h : Handle (Recording σ)) (regions : List Region) :
    unrecorded (firstMatch contract h regions) = firstMatch contract h.bare regions := by
  induction regions generalizing h with
  | nil => rfl
  | cons r rest ih =>
    rw [firstMatch, firstMatch, ← unrecorded_read]
    rcases h.read r.base r.size with ⟨(⟨⟩ | ⟨⟩) | bytes, h'⟩
    · exact ih h'
    · rfl
    · dsimp only [unrecorded_mk]
      cases contract.findIn bytes with
      | some offset => rfl
      | none => exact ih h'

theorem unrecorded_scanRegions (contract : ShapeContract) (h : Handle (Recording σ)) (select : Region → Bool) :
    unrecorded (scanRegions contract h select) = scanRegions contract h.bare select := by
  rw [scanRegions, scanRegions, ← unrecorded_regions]
  rcases h.regions with ⟨e | regions, h'⟩
  · rfl
  · exact unrecorded_firstMatch contract h' _

theorem unrecorded_scanChanges (s : InputSearch) (contract : ShapeContract) (h : Handle (Recording σ)) :
    unrecorded (s.scanChanges contract h) = s.scanChanges contract h.bare := by
  rw [scanChanges, scanChanges, ← Capture.unrecorded_ofProcess]
  rcases Capture.ofProcess h s.captureMax with ⟨e | before, h'⟩
  · rfl
  · dsimp only [unrecorded_mk]
    rw [← Capture.unrecorded_ofProcess]
    rcases Capture.ofProcess h' s.captureMax with ⟨e | after, h''⟩
    · rfl
    · rfl

private theorem unrecorded_search (s : InputSearch) (contract : ShapeContract) (h : Handle (Recording σ)) :
    unrecorded (s.search contract h) = s.search contract h.bare := by
  rw [search, search, scanSmall, scanSmall, ← unrecorded_scanRegions]
  rcases scanRegions contract h s.isSmall with ⟨e | ⟨⟩ | b, h₁⟩
  · rfl
  · dsimp only [unrecorded_mk]
    rw [← unrecorded_scanChanges]
    rcases s.scanChanges contract h₁ with ⟨e | ⟨⟩ | b, h₂⟩
    · rfl
    · dsimp only [unrecorded_mk]
      rw [scanModules, scanModules, ← unrecorded_scanRegions]
      rcases scanRegions contract h₂ s.isModule with ⟨e | ⟨⟩ | b, h₃⟩
      · rfl
      · rfl
      · rfl
    · rfl
  · rfl

/-- What is found or recalled is the same when the calls are recorded. -/
theorem unrecorded_locate (s : InputSearch) (contract : ShapeContract) (h : Handle (Recording σ)) :
    unrecorded (s.locate contract h) = s.locate contract h.bare := by
  rw [locate, locate]
  have hinput : h.bare.input = h.input := rfl
  rw [hinput]
  cases h.input with
  | some found => rfl
  | none =>
    dsimp only
    rw [← unrecorded_search]
    rcases s.search contract h with ⟨e | found, h'⟩
    · rfl
    · rfl

private theorem adds_firstMatch (contract : ShapeContract) (h : Handle (Recording σ)) (regions : List Region) :
    ∃ new, Adds h (firstMatch contract h regions).2 new ∧
      ∀ b, (firstMatch contract h regions).1 = .ok (some b) → Matched contract regions new b := by
  induction regions generalizing h with
  | nil => exact ⟨[], .refl h, nofun⟩
  | cons r rest ih =>
    obtain ⟨made, hmade⟩ := exists_adds_read h r.base r.size
    have hbrought := @adds_of_read _ _ h
    rw [firstMatch]
    rcases hr : h.read r.base r.size with ⟨(⟨⟩ | ⟨⟩) | bytes, h'⟩
    · rw [hr] at hmade
      obtain ⟨new, hadds, hmatched⟩ := ih h'
      refine ⟨_, hmade.trans hadds, fun b hb => (hmatched b hb).mono ?_ ?_⟩
      · exact List.subset_cons_self r rest
      · exact List.subset_append_right made new
    · rw [hr] at hmade
      exact ⟨_, hmade, fun b hb => by cases hb⟩
    · have hfind := contract.findIn_lowest bytes
      dsimp only
      cases hf : contract.findIn bytes with
      | some offset =>
        obtain ⟨⟨k, rfl⟩, hlive⟩ := (hfind.eq_some_iff.mp hf).1
        refine ⟨_, hbrought hr, fun b hb => ?_⟩
        have hplus := Option.some.inj (answered_eq_ok_some_iff.mp hb)
        exact ⟨r, List.mem_cons_self, bytes, k, List.mem_cons_self, hlive,
          (Address.plus_eq_ok_iff.mp hplus).2⟩
      | none =>
        obtain ⟨new, hadds, hmatched⟩ := ih h'
        refine ⟨_, (hbrought hr).trans hadds, fun b hb => (hmatched b hb).mono ?_ ?_⟩
        · exact List.subset_cons_self r rest
        · exact List.subset_append_right _ new

/-- What a scan finds is a live word of a region that was listed and then read. -/
theorem adds_scanRegions (contract : ShapeContract) (h : Handle (Recording σ)) (select : Region → Bool) :
    ∃ new, Adds h (scanRegions contract h select).2 new ∧
      ∀ b, (scanRegions contract h select).1 = .ok (some b) → ∃ regions, ∃ r ∈ regions, ∃ bytes k,
        select r = true ∧ [.regions (.ok regions), .read r.base r.size (.ok bytes)] <+ new ∧
          contract.LiveAt bytes (4 * k) ∧ b = r.base + 4 * k := by
  obtain ⟨made, hmade⟩ := exists_adds_regions h
  have hlisted := @adds_of_regions _ _ h
  rw [scanRegions]
  rcases hr : h.regions with ⟨e | regions, h'⟩
  · rw [hr] at hmade
    exact ⟨made, hmade, fun b hb => by cases hb⟩
  · obtain ⟨new, hadds, hmatched⟩ := adds_firstMatch contract h' (regions.filter select)
    refine ⟨_, (hlisted hr).trans hadds, fun b hb => ?_⟩
    obtain ⟨r, hmem, bytes, k, hread, hlive, rfl⟩ := hmatched b hb
    obtain ⟨hmem, hselected⟩ := List.mem_filter.mp hmem
    exact ⟨regions, r, hmem, bytes, k, hselected, pair_sublist hread, hlive, rfl⟩

private theorem adds_scanSmall (s : InputSearch) (contract : ShapeContract) (h : Handle (Recording σ)) :
    ∃ new, Adds h (s.scanSmall contract h).2 new ∧
      ∀ b, (s.scanSmall contract h).1 = .ok (some b) → BornOut s contract new ⟨b, .shapeScan⟩ := by
  obtain ⟨new, hadds, hfound⟩ := adds_scanRegions contract h s.isSmall
  refine ⟨new, hadds, fun b hb => ?_⟩
  obtain ⟨regions, r, hmem, bytes, k, hsmall, hseen, hlive, rfl⟩ := hfound b hb
  simp only [isSmall, Bool.and_eq_true, decide_eq_true_eq] at hsmall
  obtain ⟨⟨hwritable, hmin⟩, hmax⟩ := hsmall
  exact .shapeScan hmem hseen ⟨r.isReadable_of_isWritable hwritable, hwritable⟩ ⟨hmin, hmax⟩ hlive

private theorem adds_scanChanges (s : InputSearch) (contract : ShapeContract) (h : Handle (Recording σ)) :
    ∃ new, Adds h (s.scanChanges contract h).2 new ∧
      ∀ b, (s.scanChanges contract h).1 = .ok (some b) → BornOut s contract new ⟨b, .differential⟩ := by
  obtain ⟨early, hearly, hbefore⟩ := Capture.adds_ofProcess h s.captureMax
  rw [scanChanges]
  rcases hb : Capture.ofProcess h s.captureMax with ⟨e | before, h'⟩
  · rw [hb] at hearly
    exact ⟨early, hearly, fun b hb => by cases hb⟩
  · rw [hb] at hearly hbefore
    obtain ⟨late, hlate, hafter⟩ := Capture.adds_ofProcess h' s.captureMax
    dsimp only
    rcases ha : Capture.ofProcess h' s.captureMax with ⟨e | after, h''⟩
    · rw [ha] at hlate
      exact ⟨_, hearly.trans hlate, fun b hb => by cases hb⟩
    · rw [ha] at hlate hafter
      refine ⟨_, hearly.trans hlate, fun b hb => ?_⟩
      obtain ⟨base, old, new, o, hold, hnew, hsize, ⟨k, rfl⟩, hchanged, hplus⟩ :=
        Capture.exists_of_firstChange (answered_eq_ok_some_iff.mp hb)
      obtain ⟨-, rfl⟩ := Address.plus_eq_ok_iff.mp hplus.symm
      obtain ⟨earlier, q, hq, -, -, hqbase, hqsize, hqseen⟩ := hbefore before rfl _ hold
      obtain ⟨regions, r, hr, hwritable, hmax, rfl, hrsize, hrseen⟩ := hafter after rfl _ hnew
      -- All calls of the second capture come behind those of the first.
      exact .differential ⟨hq, hr⟩ (hqseen.append hrseen)
        ⟨hqbase, hqsize.trans (hsize.trans hrsize.symm)⟩
        ⟨r.isReadable_of_isWritable hwritable, hwritable⟩ hmax hchanged

private theorem adds_scanModules (s : InputSearch) (contract : ShapeContract) (h : Handle (Recording σ)) :
    ∃ new, Adds h (s.scanModules contract h).2 new ∧
      ∀ b, (s.scanModules contract h).1 = .ok (some b) → BornOut s contract new ⟨b, .moduleScan⟩ := by
  obtain ⟨new, hadds, hfound⟩ := adds_scanRegions contract h s.isModule
  refine ⟨new, hadds, fun b hb => ?_⟩
  obtain ⟨regions, r, hmem, bytes, k, hmodule, hseen, hlive, rfl⟩ := hfound b hb
  simp only [isModule, Bool.and_eq_true, decide_eq_true_eq, Option.isSome_iff_ne_none] at hmodule
  obtain ⟨⟨⟨hwritable, hnamed⟩, hmin⟩, hmax⟩ := hmodule
  exact .moduleScan hmem hseen ⟨r.isReadable_of_isWritable hwritable, hwritable⟩ hnamed ⟨hmin, hmax⟩
    hlive

/-- The calls of a search bear out what it finds. -/
theorem adds_search (s : InputSearch) (contract : ShapeContract) (h : Handle (Recording σ)) :
    ∃ new, Adds h (s.search contract h).2 new ∧
      ∀ found, (s.search contract h).1 = .ok found → BornOut s contract new found := by
  obtain ⟨first, hfirst, hsmall⟩ := s.adds_scanSmall contract h
  rw [search]
  rcases hs : s.scanSmall contract h with ⟨e | ⟨⟩ | b, h₁⟩
  · rw [hs] at hfirst
    exact ⟨first, hfirst, fun found hf => by cases hf⟩
  · rw [hs] at hfirst
    obtain ⟨second, hsecond, hchanges⟩ := s.adds_scanChanges contract h₁
    dsimp only
    rcases hc : s.scanChanges contract h₁ with ⟨e | ⟨⟩ | b, h₂⟩
    · rw [hc] at hsecond
      exact ⟨_, hfirst.trans hsecond, fun found hf => by cases hf⟩
    · rw [hc] at hsecond
      obtain ⟨third, hthird, hmodules⟩ := s.adds_scanModules contract h₂
      dsimp only
      rcases hm : s.scanModules contract h₂ with ⟨e | ⟨⟩ | b, h₃⟩
      · rw [hm] at hthird
        exact ⟨_, (hfirst.trans hsecond).trans hthird, fun found hf => by cases hf⟩
      · rw [hm] at hthird
        exact ⟨_, (hfirst.trans hsecond).trans hthird, fun found hf => by cases hf⟩
      · rw [hm] at hthird hmodules
        refine ⟨_, (hfirst.trans hsecond).trans hthird, fun found hf => ?_⟩
        cases hf
        exact (hmodules b rfl).mono (List.sublist_append_right _ third)
    · rw [hc] at hsecond hchanges
      refine ⟨_, hfirst.trans hsecond, fun found hf => ?_⟩
      cases hf
      exact (hchanges b rfl).mono (List.sublist_append_right first second)
  · rw [hs] at hfirst hsmall
    refine ⟨first, hfirst, fun found hf => ?_⟩
    cases hf
    exact hsmall b rfl

private theorem calls_locate (h : Handle σ) (hinput : h.input = none) :
    (s.locate contract h.recorded).2.calls = (s.search contract h.recorded).2.calls := by
  rw [s.locate_of_none contract (h := h.recorded) hinput]
  rcases s.search contract h.recorded with ⟨e | found, h'⟩
  · rfl
  · rfl

/-- Where nothing is remembered yet, an address is found only when the calls that are made meanwhile bear it
out, whatever the process does between them; otherwise the search fails, and nothing is remembered. -/
theorem locate_bornOut (s : InputSearch) (contract : ShapeContract) (h : Handle σ)
    (hinput : h.input = none) :
    unrecorded (s.locate contract h.recorded) = s.locate contract h ∧
      (∀ found, (s.locate contract h).1 = .ok found →
        BornOut s contract (s.locate contract h.recorded).2.calls found) ∧
      ((∀ found, ¬ BornOut s contract (s.locate contract h.recorded).2.calls found) →
        ∃ e, (s.locate contract h).1 = .error e) ∧
      ∀ e, (s.locate contract h).1 = .error e → (s.locate contract h).2.input = none := by
  have hsame := s.unrecorded_locate contract h.recorded
  have hborn : ∀ found, (s.locate contract h).1 = .ok found →
      BornOut s contract (s.locate contract h.recorded).2.calls found := by
    intro found hf
    obtain ⟨new, hadds, hnew⟩ := s.adds_search contract h.recorded
    have hsearch : (s.search contract h.recorded).1 = .ok found := by
      have hfst : (s.locate contract h.recorded).1 = .ok found := (congrArg Prod.fst hsame).trans hf
      rw [s.locate_of_none contract (h := h.recorded) hinput] at hfst
      rcases hs : s.search contract h.recorded with ⟨e | found', h'⟩
      · rw [hs] at hfst
        cases hfst
      · rw [hs] at hfst
        exact hfst
    rw [calls_locate h hinput, hadds, calls_recorded, List.nil_append]
    exact hnew found hsearch
  refine ⟨hsame, hborn, fun hnone => ?_, fun e he => input_of_error hinput he⟩
  cases hanswer : (s.locate contract h).1 with
  | error e => exact ⟨e, rfl⟩
  | ok found => exact absurd (hborn found hanswer) (hnone found)

def pressed : ScriptedProcess :=
  .new ⟨[⟨0x3000, .readWrite, none, ⟨#[0, 0, 0, 0]⟩⟩], false⟩
    [⟨1, .poke 0x3000 ⟨#[0x80, 0x00, 0x20, 0x00]⟩⟩] []

theorem bornOut_pressed :
    (attach 1 pressed).input = none ∧
      BornOut standard ShapeContract.standard
        (standard.locate ShapeContract.standard (attach 1 pressed).recorded).2.calls
        ⟨0x3000, .differential⟩ := by
  have hfound : (standard.locate ShapeContract.standard (attach 1 pressed)).1 =
      .ok ⟨0x3000, .differential⟩ := by cbv
  exact ⟨rfl, (locate_bornOut standard ShapeContract.standard (attach 1 pressed) rfl).2.1 _ hfound⟩

end InputSearch

end ConsoleBridge
