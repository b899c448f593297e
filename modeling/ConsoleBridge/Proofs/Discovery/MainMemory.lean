import ConsoleBridge.Proofs.Discovery.Evidence
import ConsoleBridge.Proofs.Discovery.FirstMatch
import ConsoleBridge.Proofs.Discovery.LowestHeader
import ConsoleBridge.Proofs.Discovery.Requests
import ConsoleBridge.Proofs.Discovery.Twins
import ConsoleBridge.Proofs.Process.ImageMemory

/-!
# Finding main memory in a process that repeats itself

A signature in any region goes before a region of a fitting size, and the order of the regions decides between
those of one kind. The search stops at the first region for which its sums do not fit. What was found is recalled,
without the process, for as long as the handle is connected.
-/
namespace ConsoleBridge

open Bytes Handle

variable {σ : Type} [ProcessMemory σ]
variable {regions rs : List Region} {answer : Nat → Nat → Except AccessError ByteArray} {stays : σ → Prop}
variable {h k : Handle σ} {found : Found}

namespace Handle

def Unwritten (h : Handle (Recording σ)) : Prop :=
  ∀ address bytes answer, Call.write address bytes answer ∉ h.calls

omit [ProcessMemory σ] in
theorem Unwritten.call {α : Type} {h : Handle (Recording σ)} (hh : Unwritten h)
    (f : σ → Except AccessError α × σ) {call : Except AccessError α → Call}
    (hcall : ∀ r address bytes answer, call r ≠ .write address bytes answer) :
    Unwritten (h.call fun r => r.keep f call).2 := by
  intro address bytes answer hmem
  have hadds : _ = _ ++ _ := adds_call h f call
  rw [hadds, List.mem_append] at hmem
  rcases hmem with hmem | hmem
  · exact hh address bytes answer hmem
  · split at hmem
    · exact hcall _ address bytes answer (List.mem_singleton.mp hmem).symm
    · cases hmem

/-- A recorded handle that is only looked through is the twin of the one that is not recorded. -/
theorem twins_recorded :
    Twins fun (h : Handle (Recording σ)) (k : Handle σ) => h.bare = k ∧ Unwritten h where
  connected := by
    rintro h _ ⟨rfl, -⟩
    rfl
  read := by
    rintro h _ ⟨rfl, hh⟩ address length
    rw [← unrecorded_read]
    exact .intro ⟨rfl, hh.call _ nofun⟩
  regions := by
    rintro h _ ⟨rfl, hh⟩
    rw [← unrecorded_regions]
    exact .intro ⟨rfl, hh.call _ nofun⟩

private theorem connected_meanwhile (change : σ → σ) : (h.run [.meanwhile change]).connected = h.connected := rfl

/-- What is remembered of main memory is remembered while the handle is connected. -/
theorem perform_ram (hram : h.ram = some found) (r : Request σ) (hc : (h.perform r).connected = true) :
    (h.perform r).ram = some found := by
  cases hconnected : h.connected with
  | false =>
    rw [perform_of_disconnected hconnected] at hc
    cases hc
  | true =>
    cases r with
    | read address length => exact ((read_ends hconnected address length).keeps hc).ram.trans hram
    | write address bytes => exact ((write_ends hconnected address bytes).keeps hc).ram.trans hram
    | regions => exact ((regions_ends hconnected).keeps hc).ram.trans hram
    | disconnect => cases hc
    | scanSignature s =>
      rcases RamSearch.scanSignature_cases (s := s) hconnected with he | ⟨o, h', hscan, hg, -⟩
      · exact (he.keeps hc).ram.trans hram
      · rw [perform, hscan, hg.connected] at hc
        cases hc
    | scanRegionSize s => exact ((s.scanRegionSize_ends hconnected).keeps hc).ram.trans hram
    | locate l =>
      cases l with
      | ram s => rwa [perform, Locator.locate, s.locate_of_some hram]
      | input s contract =>
        rw [perform, Locator.locate] at hc ⊢
        cases hinput : h.input with
        | some found' => rwa [s.locate_of_some contract hinput]
        | none =>
          have he := s.search_ends contract hconnected
          rw [s.locate_of_none contract hinput] at hc ⊢
          generalize s.search contract h = p at he hc ⊢
          cases he with
          | found keeps => exact keeps.ram.trans hram
          | failed keeps ne => exact keeps.ram.trans hram
          | gone gone =>
            rw [gone.connected] at hc
            cases hc
    | meanwhile change => exact hram

private theorem run_ram (hram : h.ram = some found) {requests : List (Request σ)}
    (hc : (h.run requests).connected = true) : (h.run requests).ram = some found := by
  induction requests generalizing h with
  | nil => exact hram
  | cons r rest ih =>
    rw [run, List.foldl_cons] at hc ⊢
    cases hp : (h.perform r).connected with
    | true => exact ih (perform_ram hram r hp) hc
    | false => exact absurd ((run_of_disconnected hp rest).symm.trans hc) Bool.false_ne_true

end Handle

section Repeats

variable (hr : Repeats regions answer stays) (hh : Steady stays h)

/-- The address of a region whose first word can be read. -/
def readableBase (answer : Nat → Nat → Except AccessError ByteArray) (r : Region) : Option Hit :=
  match answer r.base 4 with
  | .ok _ => some (.ok r.base)
  | .error _ => none

include hr in
/-- All handles on a process that repeats itself are twins. -/
theorem Repeats.twins : Twins fun h k : Handle σ => Steady stays h ∧ Steady stays k where
  connected := by
    rintro h k ⟨hh, hk⟩
    rw [hh.connected, hk.connected]
  read := by
    rintro h k ⟨hh, hk⟩ address length
    obtain ⟨h', hread, hh'⟩ := hr.read_eq hh address length
    obtain ⟨k', hread', hk'⟩ := hr.read_eq hk address length
    rw [hread, hread']
    exact .intro ⟨hh', hk'⟩
  regions := by
    rintro h k ⟨hh, hk⟩
    obtain ⟨h', hregions, hh'⟩ := hr.regions_eq hh
    obtain ⟨k', hregions', hk'⟩ := hr.regions_eq hk
    rw [hregions, hregions']
    exact .intro ⟨hh', hk'⟩

include hr hh in
private theorem Repeats.firstSignature_eq (s : RamSearch) (rs : List Region) (hk : Steady stays k) :
    ∃ k', s.firstSignature k rs =
        (answered (rs.findSome? fun r => (Signature.scan h r s.chunkSize).1), k') ∧ Steady stays k' := by
  induction rs generalizing k with
  | nil => exact ⟨k, rfl, hk⟩
  | cons r rest ih =>
    rw [RamSearch.firstSignature, List.findSome?_cons]
    rcases hscan : Signature.scan h r s.chunkSize with ⟨found, h'⟩
    obtain ⟨k', hk', -, hsteady⟩ := (Signature.scan_paired hr.twins ⟨hh, hk⟩ r s.chunkSize).exists_eq hscan
    rw [hk']
    cases found with
    | some o => exact ⟨k', rfl, hsteady⟩
    | none =>
      dsimp only
      rw [if_pos hsteady.connected]
      exact ih hsteady

include hr hh in
private theorem Repeats.firstReadable_eq (rs : List Region) :
    ∃ h', RamSearch.firstReadable h rs = (answered (rs.findSome? (readableBase answer)), h') ∧
      Steady stays h' := by
  induction rs generalizing h with
  | nil => exact ⟨h, rfl, hh⟩
  | cons r rest ih =>
    obtain ⟨h', hread, hh'⟩ := hr.read_eq hh r.base 4
    have hpresent := hr.present r.base 4
    rw [RamSearch.firstReadable, hread, List.findSome?_cons, readableBase]
    generalize answer r.base 4 = a at hpresent ⊢
    rcases a with (⟨⟩ | ⟨⟩) | bytes
    · exact ih hh'
    · exact absurd rfl hpresent
    · exact ⟨h', rfl, hh'⟩

end Repeats

namespace RamSearch

variable {s : RamSearch}

/-- The region may be read and written, and has a size that main memory can have. -/
def Plausible (s : RamSearch) (r : Region) : Prop :=
  r.isReadable = true ∧ r.isWritable = true ∧ s.sizeMin ≤ r.size ∧ r.size ≤ s.sizeMax

/-- What is found in a process that repeats itself: the signature of the first readable region that shows one,
or else the first plausible region whose first word can be read. -/
def Finds (s : RamSearch) (h : Handle σ) (answer : Nat → Nat → Except AccessError ByteArray)
    (regions : List Region) : Except DiscoveryError Found → Prop :=
  Ranked .signature .heuristic
    (FirstHit (fun r => r.isReadable = true) (fun r => (Signature.scan h r s.chunkSize).1) regions)
    (FirstHit s.Plausible (readableBase answer) regions)

omit [ProcessMemory σ] in
private theorem fits_iff (r : Region) : s.fits r = true ↔ s.Plausible r := by
  simp only [fits, Plausible, Bool.and_eq_true, decide_eq_true_eq, and_assoc]
  exact ⟨fun hr => ⟨r.isReadable_of_isWritable hr.1, hr⟩, fun hr => hr.2⟩

theorem search_ranked (hr : Repeats regions answer stays) (hh : Steady stays h) (s : RamSearch) :
    ∃ h', s.search h =
        (ranked .signature .heuristic
          ((regions.filter Region.isReadable).findSome? fun r => (Signature.scan h r s.chunkSize).1)
          ((regions.filter s.fits).findSome? (readableBase answer)), h') ∧ Steady stays h' := by
  obtain ⟨h₁, hregions, hh₁⟩ := hr.regions_eq hh
  obtain ⟨h₂, hsignature, hh₂⟩ := hr.firstSignature_eq hh s (regions.filter Region.isReadable) hh₁
  obtain ⟨h₃, hregions', hh₃⟩ := hr.regions_eq hh₂
  obtain ⟨h₄, hreadable, hh₄⟩ := hr.firstReadable_eq hh₃ (regions.filter s.fits)
  rw [search, scanSignature, hregions]
  dsimp only
  rw [hsignature]
  rcases (regions.filter Region.isReadable).findSome? fun r => (Signature.scan h r s.chunkSize).1 with
    ⟨⟩ | ⟨e | b⟩
  · dsimp only [answered]
    rw [scanRegionSize, hregions']
    dsimp only
    rw [hreadable]
    rcases (regions.filter s.fits).findSome? (readableBase answer) with ⟨⟩ | ⟨e | b⟩
    · exact ⟨h₄, rfl, hh₄⟩
    · exact ⟨h₄, rfl, hh₄⟩
    · exact ⟨h₄, rfl, hh₄⟩
  · exact ⟨h₂, rfl, hh₂⟩
  · exact ⟨h₂, rfl, hh₂⟩

private theorem search_finds (hr : Repeats regions answer stays) (hh : Steady stays h) (s : RamSearch)
    {r : Except DiscoveryError Found} : (s.search h).1 = r ↔ s.Finds h answer regions r := by
  obtain ⟨h', hsearch, -⟩ := search_ranked hr hh s
  rw [hsearch, Finds]
  exact (ranked_iff (fun _ => firstHit_iff fun _ => Iff.rfl) fun _ => firstHit_iff fits_iff).symm

theorem search_keeps (hr : Repeats regions answer stays) (hh : Steady stays h) (s : RamSearch) :
    Keeps h (s.search h).2 := by
  obtain ⟨h', hsearch, hh'⟩ := search_ranked hr hh s
  rcases search_cases (s := s) hh.connected with he | ⟨o, h'', hlost, hg, -⟩
  · exact he.keeps (by rw [hsearch]; exact hh'.connected)
  · rw [hsearch] at hlost
    obtain ⟨-, rfl⟩ := Prod.mk.inj hlost
    exact absurd (hg.connected.symm.trans hh'.connected) Bool.false_ne_true

/-- In a process that repeats itself the search answers with a signature, else with a region of a fitting size,
and else finds nothing, unless it stops at a region in front. It only looks. What it has found is recalled without a
call while the handle is connected, whatever happens to the process; when it fails, nothing is remembered. -/
theorem locate_in_order (hr : Repeats regions answer stays) (hc : h.connected = true) (ht : stays h.target)
    (hram : h.ram = none) (s : RamSearch) :
    (∀ r, (s.locate h).1 = r ↔ s.Finds h answer regions r) ∧
      (∀ found, (s.locate h).1 = .ok found → ∀ requests : List (Request σ),
        ((s.locate h).2.run requests).connected = true → ∀ s' : RamSearch,
          (s'.locate ((s.locate h).2.run requests)).1 = .ok found ∧
            (s'.locate ((s.locate h).2.run requests).recorded).2.calls = []) ∧
      (∀ e, (s.locate h).1 = .error e → (s.locate h).2.ram = none ∧ (s.locate h).2.input = h.input) ∧
      (unrecorded (s.locate h.recorded) = s.locate h ∧ Unwritten (s.locate h.recorded).2) := by
  have hfinds := fun r => search_finds hr ⟨hc, ht⟩ s (r := r)
  have hkeeps := search_keeps hr ⟨hc, ht⟩ s
  have hpaired := s.search_paired twins_recorded (h := h.recorded) (k := h) ⟨rfl, by simp [Unwritten]⟩
  rw [s.locate_of_none hram, s.locate_of_none (h := h.recorded) hram]
  rcases hrecorded : s.search h.recorded with ⟨answer, h'⟩
  obtain ⟨_, hsearch, rfl, hunwritten⟩ := hpaired.exists_eq hrecorded
  rw [hsearch] at hfinds hkeeps ⊢
  cases answer with
  | error e => exact ⟨hfinds, nofun, fun _ _ => ⟨hkeeps.ram.trans hram, hkeeps.input⟩, rfl, hunwritten⟩
  | ok found =>
    refine ⟨hfinds, fun found' hf requests hconnected s' => ?_, nofun, rfl, hunwritten⟩
    cases hf
    have hremembered := run_ram rfl hconnected
    rw [s'.locate_of_some hremembered, s'.locate_of_some (h := Handle.recorded _) hremembered]
    exact ⟨rfl, rfl⟩

private theorem connected_locate (hr : Repeats regions answer stays) (hh : Steady stays h) (hram : h.ram = none)
    (s : RamSearch) : (s.locate h).2.connected = true := by
  have hkeeps := search_keeps hr hh s
  rw [s.locate_of_none hram]
  generalize s.search h = p at hkeeps ⊢
  rcases p with ⟨e | found, h'⟩
  · exact hkeeps.connected
  · exact hkeeps.connected

end RamSearch

def annexed : ImageProcess := ⟨[⟨0x800, .readWrite, none, ⟨#[0, 0, 0, 0]⟩⟩, Signature.booted], false⟩

def modest : RamSearch := ⟨4, 16, 64⟩

private theorem apart_annexed : (annexed.regions.map ImageRegion.describe).Pairwise Region.Apart := by
  refine List.pairwise_cons.mpr ⟨fun q hq a ha => ?_, List.pairwise_singleton _ _⟩
  obtain rfl := List.mem_singleton.mp hq
  rw [Region.holds_iff] at ha
  rw [Region.holds_eq_false_iff, Signature.limit_booted]
  have hlimit' : (ImageRegion.describe ⟨0x800, .readWrite, none, ⟨#[0, 0, 0, 0]⟩⟩).limit = 0x804 := rfl
  have hbase : Signature.booted.describe.base = 0x1000 := rfl
  omega

private theorem candidate_annexed : Signature.Candidate annexed.memory Signature.booted.describe 0x1000 where
  aligned := rfl
  above := Nat.le_refl 0x1000
  below := by
    rw [Signature.limit_booted]
    decide
  header := by
    refine Signature.header_booting.congr fun i hi => ?_
    have hspan : Signature.span = 0x31c := rfl
    have hholds : Signature.booted.describe.holds (0x1000 + i) = true := by
      rw [Region.holds_iff, Signature.limit_booted]
      exact ⟨Nat.le_add_right 0x1000 i, by omega⟩
    rw [Nat.zero_add, ImageProcess.memory,
      ImageRegion.memoryIn_of_mem apart_annexed (List.mem_cons_of_mem _ List.mem_cons_self) hholds]
    exact ImageRegion.memory_of_copy rfl (by omega)

private theorem scan_annexed {h : Handle ImageProcess}
    (hh : Steady (fun p => ImageProcess.Runs (annexed.regions.map ImageRegion.describe) p ∧
      p.memory = annexed.memory) h) {size : Nat} (hsize : size ≤ 0x1000) :
    (Signature.scan h Signature.booted.describe size).1 = some (.ok 0x1000) ∧
      (Signature.scan h (ImageRegion.describe ⟨0x800, .readWrite, none, ⟨#[0, 0, 0, 0]⟩⟩) size).1 = none := by
  have hleast := Signature.scan_lowest ((ImageProcess.passive apart_annexed).still annexed.memory) hh
  have hspan : Signature.span = 0x31c := rfl
  have hcount : 0x10000 < Address.count := by decide
  have hfits : ∀ r : Region, r.limit ≤ 0x1400 → Signature.SumsFit r size := fun r hr => by
    constructor
    · rw [Signature.stride]
      omega
    · intro
      rw [Signature.stride]
      omega
  constructor
  · refine ((hleast Signature.booted.describe size (hfits _ Signature.limit_booted.le)).of_iff fun b =>
      (Signature.seenFrom_of_readable fun address length ha hl => ?_).symm).eq_some_iff.mpr
        ⟨candidate_annexed, fun b hb => hb.above⟩
    exact ImageProcess.fault_inside (List.mem_cons_of_mem _ List.mem_cons_self) rfl ha hl
  · refine (hleast _ size (hfits _ (by decide))).eq_none_iff.mpr fun b hb => ?_
    have habove : 0x800 ≤ b := hb.1.above
    have hbelow : b + 0x31c ≤ 0x804 := hb.1.below
    omega

private theorem steady_annexed :
    Steady (fun p => ImageProcess.Runs (annexed.regions.map ImageRegion.describe) p ∧
      p.memory = annexed.memory) (attach 1 annexed) := ⟨rfl, ⟨rfl, rfl⟩, rfl⟩

private theorem finds_annexed (answer : Nat → Nat → Except AccessError ByteArray) :
    modest.Finds (attach 1 annexed) answer (annexed.regions.map ImageRegion.describe)
      (.ok ⟨0x1000, .signature⟩) := by
  have hsize : modest.chunkSize ≤ 0x1000 := by decide
  obtain ⟨hbooted, hspare⟩ := scan_annexed steady_annexed hsize
  refine Ranked.first (o := .ok 0x1000) (.intro (List.singleton_append).symm rfl hbooted fun q hq _ => ?_)
  obtain rfl := List.mem_singleton.mp hq
  exact hspare

/-- A header goes before a fitting size in front of it, and is recalled when the process has exited. -/
theorem locate_annexed :
    (modest.locate (attach 1 annexed)).1 = .ok ⟨0x1000, .signature⟩ ∧
      (modest.locate ((modest.locate (attach 1 annexed)).2.run [.meanwhile fun _ => ⟨[], true⟩])).1 =
        .ok ⟨0x1000, .signature⟩ := by
  have hr := (ImageProcess.passive apart_annexed).repeats annexed.memory
  have hconnected := RamSearch.connected_locate hr steady_annexed rfl modest
  obtain ⟨hfinds, hrecalls, -, -⟩ :=
    RamSearch.locate_in_order hr steady_annexed.connected steady_annexed.target rfl modest
  have hfound := (hfinds _).mpr (finds_annexed _)
  rw [← Handle.connected_meanwhile fun _ => ⟨[], true⟩] at hconnected
  exact ⟨hfound, (hrecalls _ hfound _ hconnected modest).1⟩

def boundless : RamSearch := { RamSearch.standard with chunkSize := 0xffffffffffffffff }

/-- The bytes of such a chunk and of its overlap cannot be counted, so no header is found. -/
theorem stopped_boundless :
    Signature.Candidate Signature.booted.memory Signature.booted.describe 0x1000 ∧
      (boundless.locate (attach 1 (ImageProcess.mk [Signature.booted] false))).1 =
        .error (.stopped .overflow) := by
  have hf : Signature.sumsFit Signature.booted.describe boundless.chunkSize
      Signature.booted.describe.base = false := by
    rw [← Bool.not_eq_true, Signature.sumsFit_iff, Signature.limit_booted]
    rintro ⟨-, -, hlength⟩
    exact absurd (hlength (by decide)) (by decide)
  have hs : boundless.scanSignature (attach 1 (ImageProcess.mk [Signature.booted] false)) =
      (answered (some (.error .overflow)), attach 1 (ImageProcess.mk [Signature.booted] false)) := by
    change boundless.firstSignature (attach 1 (ImageProcess.mk [Signature.booted] false))
      [Signature.booted.describe] = _
    rw [RamSearch.firstSignature, Signature.scan, Signature.scanFrom_overflow _ hf]
  refine ⟨Signature.candidate_booted, ?_⟩
  rw [boundless.locate_of_none rfl, RamSearch.search_of_signature hs]
  rfl

end ConsoleBridge
