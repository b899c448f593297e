import Mathlib
import ConsoleBridge.Discovery.Input
import ConsoleBridge.Process.Image
import ConsoleBridge.Proofs.Discovery.Captures
import ConsoleBridge.Proofs.Discovery.SearchEnds
import ConsoleBridge.Proofs.Process.Recording
import ConsoleBridge.Proofs.Process.Still

/-!
# Finding the controllers' state in a process that repeats itself

On a process that always lists the same regions and answers each read by its span alone, two captures are
equal, so only the scans can find something, and they come upon the first live match of the first region that
has one. Where the place of this match is beyond the addresses, the search stops.
-/
namespace ConsoleBridge

open Bytes Handle

variable {σ : Type} [ProcessMemory σ]

/-- In the states `stays`, which no call that only looks leaves, the process lists the same regions and
answers a read by its span alone. -/
structure Repeats (regions : List Region) (answer : Nat → Nat → Except AccessError ByteArray)
    (stays : σ → Prop) : Prop where
  stays_regions : ∀ s, stays s → stays (ProcessMemory.regions s).2
  stays_read : ∀ s, stays s → ∀ address length, stays (ProcessMemory.read s address length).2
  lists : ∀ s, stays s → (ProcessMemory.regions s).1 = .ok regions
  answers : ∀ s, stays s → ∀ address length, (ProcessMemory.read s address length).1 = answer address length
  present : ∀ address length, answer address length ≠ .error .disconnected

/-- The first live match of the first region that is selected, can be read and shows one. -/
inductive FirstMatch (contract : ShapeContract) (answer : Nat → Nat → Except AccessError ByteArray)
    (select : Region → Prop) (regions : List Region) : Hit → Prop
  | intro {before r behind bytes o} (order : regions = before ++ r :: behind) (selected : select r)
      (brought : answer r.base r.size = .ok bytes)
      (lowest : IsLeast {o | 4 ∣ o ∧ contract.LiveAt bytes o} o)
      (passed : ∀ q ∈ before, select q → ∀ bytes, answer q.base q.size = .ok bytes →
        ∀ o, 4 ∣ o → ¬ contract.LiveAt bytes o) :
      FirstMatch contract answer select regions (Address.plus r.base o)

/-- What `hit` gives for the first of the regions that is selected and for which it gives something. -/
inductive FirstHit (select : Region → Prop) (hit : Region → Option Hit) (regions : List Region) : Hit → Prop
  | intro {before r behind o} (order : regions = before ++ r :: behind) (selected : select r)
      (found : hit r = some o) (passed : ∀ q ∈ before, select q → hit q = none) :
      FirstHit select hit regions o

/-- What one method comes upon, or else another, each of which comes upon one thing at most. -/
inductive Ranked (first second : Method) (P Q : Hit → Prop) : Except DiscoveryError Found → Prop
  | first {o} (ho : P o) : Ranked first second P Q (foundBy first o)
  | second {o} (hn : ∀ o', ¬ P o') (ho : Q o) : Ranked first second P Q (foundBy second o)
  | neither (hn : ∀ o, ¬ P o) (hn' : ∀ o, ¬ Q o) : Ranked first second P Q (.error .notFound)

def ranked (first second : Method) (p q : Option Hit) : Except DiscoveryError Found :=
  match p with
  | some o => foundBy first o
  | none =>
    match q with
    | some o => foundBy second o
    | none => .error .notFound

theorem firstHit_iff {select : Region → Prop} {p : Region → Bool} (hp : ∀ r, p r = true ↔ select r)
    {hit : Region → Option Hit} {regions : List Region} {o : Hit} :
    FirstHit select hit regions o ↔ (regions.filter p).findSome? hit = some o := by
  rw [← List.head?_filterMap, List.filterMap_filter, List.head?_filterMap, List.findSome?_eq_some_iff]
  constructor
  · rintro ⟨rfl, selected, found, passed⟩
    refine ⟨_, _, _, rfl, by rwa [if_pos ((hp _).mpr selected)], fun q hq => ?_⟩
    split
    · rename_i hselected
      exact passed q hq ((hp q).mp hselected)
    · rfl
  · rintro ⟨before, r, behind, order, hfound, hpassed⟩
    split at hfound
    · rename_i hselected
      refine ⟨order, (hp r).mp hselected, hfound, fun q hq selected => ?_⟩
      have hnone := hpassed q hq
      rwa [if_pos ((hp q).mpr selected)] at hnone
    · cases hfound

theorem ranked_iff {first second : Method} {P Q : Hit → Prop} {p q : Option Hit}
    (hP : ∀ o, P o ↔ p = some o) (hQ : ∀ o, Q o ↔ q = some o) {r : Except DiscoveryError Found} :
    Ranked first second P Q r ↔ ranked first second p q = r := by
  -- A method that comes upon nothing has answered `none`.
  have hnone : ∀ {P : Hit → Prop} {p : Option Hit}, (∀ o, P o ↔ p = some o) → (∀ o, ¬ P o) → p = none :=
    fun hP hn => Option.eq_none_iff_forall_ne_some.mpr fun o ho => hn o ((hP o).mpr ho)
  constructor
  · rintro (ho | ⟨hn, ho⟩ | ⟨hn, hn'⟩)
    · rw [(hP _).mp ho]
      rfl
    · rw [hnone hP hn, (hQ _).mp ho]
      rfl
    · rw [hnone hP hn, hnone hQ hn']
      rfl
  · rintro rfl
    cases p with
    | some o => exact .first ((hP o).mpr rfl)
    | none =>
      have hn : ∀ o, ¬ P o := fun o ho => by cases (hP o).mp ho
      cases q with
      | some o => exact .second hn ((hQ o).mpr rfl)
      | none => exact .neither hn fun o ho => by cases (hQ o).mp ho

/-- The first live match that some bytes, as a read answers them, show in a region. -/
def matchIn (contract : ShapeContract) (answer : Nat → Nat → Except AccessError ByteArray) (r : Region) :
    Option Hit :=
  match answer r.base r.size with
  | .ok bytes => (contract.findIn bytes).map (Address.plus r.base)
  | .error _ => none

section Repeats

variable {regions rs : List Region} {answer : Nat → Nat → Except AccessError ByteArray} {stays : σ → Prop}
variable {h : Handle σ} {contract : ShapeContract} {s : InputSearch}
variable (hr : Repeats regions answer stays) (hh : Steady stays h)

include hr hh in
theorem Repeats.regions_eq : ∃ h', h.regions = (.ok regions, h') ∧ Steady stays h' := by
  have hlists := hr.lists h.target hh.target
  have hstays := hr.stays_regions h.target hh.target
  refine ⟨_, call_of_answer hh.connected (Prod.ext hlists rfl) (by simp), hh.connected, hstays⟩

include hr hh in
theorem Repeats.read_eq (address length : Nat) :
    ∃ h', h.read address length = (answer address length, h') ∧ Steady stays h' := by
  have hanswers := hr.answers h.target hh.target address length
  have hstays := hr.stays_read h.target hh.target address length
  exact ⟨_, call_of_answer hh.connected (Prod.ext hanswers rfl) (hr.present address length),
    hh.connected, hstays⟩

include hr hh in
private theorem Repeats.firstMatch_eq (contract : ShapeContract) (rs : List Region) :
    ∃ h', InputSearch.firstMatch contract h rs = (answered (rs.findSome? (matchIn contract answer)), h') ∧
      Steady stays h' := by
  induction rs generalizing h with
  | nil => exact ⟨h, rfl, hh⟩
  | cons r rest ih =>
    obtain ⟨h', hread, hh'⟩ := hr.read_eq hh r.base r.size
    have hpresent := hr.present r.base r.size
    rw [InputSearch.firstMatch, hread, List.findSome?_cons, matchIn]
    generalize answer r.base r.size = a at hpresent ⊢
    rcases a with (⟨⟩ | ⟨⟩) | bytes
    · exact ih hh'
    · exact absurd rfl hpresent
    · dsimp only
      cases contract.findIn bytes with
      | some o => exact ⟨h', rfl, hh'⟩
      | none => exact ih hh'

include hr hh in
theorem Repeats.scanRegions_eq (contract : ShapeContract) (select : Region → Bool) :
    ∃ h', InputSearch.scanRegions contract h select =
        (answered ((regions.filter select).findSome? (matchIn contract answer)), h') ∧ Steady stays h' := by
  obtain ⟨h', hregions, hh'⟩ := hr.regions_eq hh
  rw [InputSearch.scanRegions, hregions]
  exact hr.firstMatch_eq hh' contract (regions.filter select)

include hr in
/-- What is copied does not depend on the handle. -/
theorem Repeats.copyRegions_eq {c : Capture} (hc : c.Ordered) (rs : List Region) :
    ∃ d : Capture, d.Ordered ∧ ∀ {h : Handle σ}, Steady stays h →
      ∃ h', Capture.copyRegions h c rs = (.ok d, h') ∧ Steady stays h' := by
  -- The capture is given before the handle, so that the second one is seen to be the first.
  induction rs generalizing c with
  | nil => exact ⟨c, hc, fun {h} hh => ⟨h, rfl, hh⟩⟩
  | cons r rest ih =>
    have hpresent := hr.present r.base r.size
    rcases hanswer : answer r.base r.size with (⟨⟩ | ⟨⟩) | bytes
    · obtain ⟨d, hd, hcopy⟩ := ih hc
      refine ⟨d, hd, fun {h} hh => ?_⟩
      obtain ⟨h', hread, hh'⟩ := hr.read_eq hh r.base r.size
      rw [Capture.copyRegions, hread, hanswer]
      exact hcopy hh'
    · exact absurd hanswer hpresent
    · obtain ⟨d, hd, hcopy⟩ := ih hc.insert
      refine ⟨d, hd, fun {h} hh => ?_⟩
      obtain ⟨h', hread, hh'⟩ := hr.read_eq hh r.base r.size
      rw [Capture.copyRegions, hread, hanswer]
      exact hcopy hh'

include hr in
private theorem Repeats.ofProcess_eq (sizeMax : Nat) :
    ∃ c : Capture, c.Ordered ∧ ∀ {h : Handle σ}, Steady stays h →
      ∃ h', Capture.ofProcess h sizeMax = (.ok c, h') ∧ Steady stays h' := by
  obtain ⟨c, hc, hcopy⟩ := hr.copyRegions_eq Capture.ordered_empty
    (regions.filter fun r => r.isWritable && r.size ≤ sizeMax)
  refine ⟨c, hc, fun {h} hh => ?_⟩
  obtain ⟨h', hregions, hh'⟩ := hr.regions_eq hh
  rw [Capture.ofProcess, hregions]
  exact hcopy hh'

include hr hh in
/-- Two captures are equal, so they have no difference. -/
theorem Repeats.scanChanges_eq (s : InputSearch) (contract : ShapeContract) :
    ∃ h', s.scanChanges contract h = (.ok none, h') ∧ Steady stays h' := by
  obtain ⟨c, hc, hcapture⟩ := hr.ofProcess_eq s.captureMax
  obtain ⟨h', hbefore, hh'⟩ := hcapture hh
  obtain ⟨h'', hafter, hh''⟩ := hcapture hh'
  rw [InputSearch.scanChanges, hbefore]
  dsimp only
  rw [hafter]
  dsimp only
  rw [hc.firstChange_self]
  exact ⟨h'', rfl, hh''⟩

theorem matchIn_eq_some_iff {r : Region} {hit : Hit} :
    matchIn contract answer r = some hit ↔
      ∃ bytes o, answer r.base r.size = .ok bytes ∧
        IsLeast {o | 4 ∣ o ∧ contract.LiveAt bytes o} o ∧ hit = Address.plus r.base o := by
  rw [matchIn]
  cases answer r.base r.size with
  | error e => simp
  | ok bytes =>
    have hfind := contract.findIn_lowest bytes
    dsimp only
    rw [Option.map_eq_some_iff]
    constructor
    · rintro ⟨o, ho, rfl⟩
      exact ⟨bytes, o, rfl, hfind.eq_some_iff.mp ho, rfl⟩
    · rintro ⟨_, o, ⟨⟩, hleast, rfl⟩
      exact ⟨o, hfind.eq_some_iff.mpr hleast, rfl⟩

theorem matchIn_eq_none_iff {r : Region} :
    matchIn contract answer r = none ↔
      ∀ bytes, answer r.base r.size = .ok bytes → ∀ o, 4 ∣ o → ¬ contract.LiveAt bytes o := by
  rw [matchIn]
  cases answer r.base r.size with
  | error e => simp
  | ok bytes => simp [(contract.findIn_lowest bytes).eq_none_iff]

theorem firstMatch_iff {select : Region → Prop} {p : Region → Bool} (hp : ∀ r, p r = true ↔ select r)
    {hit : Hit} :
    FirstMatch contract answer select regions hit ↔
      (regions.filter p).findSome? (matchIn contract answer) = some hit := by
  rw [← firstHit_iff hp]
  constructor
  · rintro ⟨order, selected, brought, lowest, passed⟩
    exact ⟨order, selected, matchIn_eq_some_iff.mpr ⟨_, _, brought, lowest, rfl⟩,
      fun q hq hselected => matchIn_eq_none_iff.mpr (passed q hq hselected)⟩
  · rintro ⟨order, selected, found, passed⟩
    obtain ⟨bytes, o, brought, lowest, rfl⟩ := matchIn_eq_some_iff.mp found
    exact ⟨order, selected, brought, lowest, fun q hq hselected => matchIn_eq_none_iff.mp (passed q hq hselected)⟩

end Repeats

namespace InputSearch

def Small (s : InputSearch) (r : Region) : Prop :=
  r.isWritable = true ∧ s.smallMin ≤ r.size ∧ r.size ≤ s.smallMax

def Modular (s : InputSearch) (r : Region) : Prop :=
  r.isWritable = true ∧ r.name ≠ none ∧ s.moduleMin ≤ r.size ∧ r.size ≤ s.moduleMax

/-- Every size of a module is small. -/
def ModulesSmall (s : InputSearch) : Prop :=
  ∀ n, s.moduleMin ≤ n → n ≤ s.moduleMax → s.smallMin ≤ n ∧ n ≤ s.smallMax

/-- What is found in a process that repeats itself: the first live match of a small region, or else that of a
region like a module. -/
def Finds (s : InputSearch) (contract : ShapeContract) (answer : Nat → Nat → Except AccessError ByteArray)
    (regions : List Region) : Except DiscoveryError Found → Prop :=
  Ranked .shapeScan .moduleScan (FirstMatch contract answer s.Small regions)
    (FirstMatch contract answer s.Modular regions)

variable {regions : List Region} {answer : Nat → Nat → Except AccessError ByteArray} {stays : σ → Prop}
variable {h : Handle σ} {contract : ShapeContract} {s : InputSearch}

theorem isSmall_iff (r : Region) : s.isSmall r = true ↔ s.Small r := by
  simp [isSmall, Small, and_assoc]

private theorem isModule_iff (r : Region) : s.isModule r = true ↔ s.Modular r := by
  simp [isModule, Modular, and_assoc, Option.isSome_iff_ne_none]

theorem finds_iff {r : Except DiscoveryError Found} :
    Finds s contract answer regions r ↔
      ranked .shapeScan .moduleScan ((regions.filter s.isSmall).findSome? (matchIn contract answer))
        ((regions.filter s.isModule).findSome? (matchIn contract answer)) = r :=
  ranked_iff (fun _ => firstMatch_iff isSmall_iff) fun _ => firstMatch_iff isModule_iff

theorem search_ranked (hr : Repeats regions answer stays) (hh : Steady stays h) (s : InputSearch)
    (contract : ShapeContract) :
    ∃ h', s.search contract h =
        (ranked .shapeScan .moduleScan ((regions.filter s.isSmall).findSome? (matchIn contract answer))
          ((regions.filter s.isModule).findSome? (matchIn contract answer)), h') ∧ Steady stays h' := by
  obtain ⟨h₁, hsmall, hh₁⟩ := hr.scanRegions_eq hh contract s.isSmall
  obtain ⟨h₂, hchanges, hh₂⟩ := hr.scanChanges_eq hh₁ s contract
  obtain ⟨h₃, hmodules, hh₃⟩ := hr.scanRegions_eq hh₂ contract s.isModule
  rw [search, scanSmall, hsmall]
  rcases (regions.filter s.isSmall).findSome? (matchIn contract answer) with ⟨⟩ | ⟨e | b⟩
  · dsimp only [answered]
    rw [hchanges]
    dsimp only
    rw [scanModules, hmodules]
    rcases (regions.filter s.isModule).findSome? (matchIn contract answer) with ⟨⟩ | ⟨e | b⟩
    · exact ⟨h₃, rfl, hh₃⟩
    · exact ⟨h₃, rfl, hh₃⟩
    · exact ⟨h₃, rfl, hh₃⟩
  · exact ⟨h₁, rfl, hh₁⟩
  · exact ⟨h₁, rfl, hh₁⟩

theorem locate_ranked (hr : Repeats regions answer stays) (hh : Steady stays h) (hinput : h.input = none)
    (s : InputSearch) (contract : ShapeContract) :
    Steady stays (s.locate contract h).2 ∧ s.Finds contract answer regions (s.locate contract h).1 := by
  obtain ⟨h', hsearch, hh'⟩ := search_ranked hr hh s contract
  rw [finds_iff, s.locate_of_none contract hinput, hsearch]
  cases ranked .shapeScan .moduleScan ((regions.filter s.isSmall).findSome? (matchIn contract answer))
    ((regions.filter s.isModule).findSome? (matchIn contract answer)) with
  | error e => exact ⟨hh', rfl⟩
  | ok found => exact ⟨⟨hh'.connected, hh'.target⟩, rfl⟩

/-- The answer is determined. -/
theorem Finds.unique {r r' : Except DiscoveryError Found} (hs : s.Finds contract answer regions r)
    (hs' : s.Finds contract answer regions r') : r = r' :=
  (finds_iff.mp hs).symm.trans (finds_iff.mp hs')

/-- An address is found as the one or the other scan says. -/
theorem Finds.cases_ok {found : Found} (hs : s.Finds contract answer regions (.ok found)) :
    (found.method = .shapeScan ∧ FirstMatch contract answer s.Small regions (.ok found.base)) ∨
      (found.method = .moduleScan ∧ (∀ o, ¬ FirstMatch contract answer s.Small regions o) ∧
        FirstMatch contract answer s.Modular regions (.ok found.base)) := by
  generalize hr : (Except.ok found : Except DiscoveryError Found) = r at hs
  rcases hs with @⟨⟨e | b⟩, ho⟩ | @⟨⟨e | b⟩, hn, ho⟩ | ⟨hn, hn'⟩
  · cases hr
  · cases hr
    exact .inl ⟨rfl, ho⟩
  · cases hr
  · cases hr
    exact .inr ⟨rfl, hn, ho⟩
  · cases hr

/-- Where every module is small, what the search for modules can find is found before. -/
theorem Finds.ne_moduleScan (hm : s.ModulesSmall) {b : Nat} :
    ¬ s.Finds contract answer regions (.ok ⟨b, .moduleScan⟩) := by
  intro hs
  obtain ⟨⟨⟩, -⟩ | ⟨-, hnone, hmodular⟩ := hs.cases_ok
  generalize (Except.ok b : Hit) = o at hmodular
  obtain @⟨before, r, behind, bytes, o, rfl, ⟨hwritable, -, hmin, hmax⟩, hbrought, hlowest, -⟩ := hmodular
  -- The first scan selects the region as well, so it has come upon something.
  have hsmall : s.Small r := ⟨hwritable, hm r.size hmin hmax⟩
  cases hfind : ((before ++ r :: behind).filter s.isSmall).findSome? (matchIn contract answer) with
  | some o => exact hnone o ((firstMatch_iff isSmall_iff).mpr hfind)
  | none =>
    have hmem : r ∈ (before ++ r :: behind).filter s.isSmall :=
      List.mem_filter.mpr ⟨List.mem_append_right before List.mem_cons_self, (isSmall_iff r).mpr hsmall⟩
    have hpassed := matchIn_eq_none_iff.mp (List.findSome?_eq_none_iff.mp hfind r hmem)
    exact hpassed bytes hbrought o hlowest.1.1 hlowest.1.2

/-- In a process that repeats itself the search comes upon the first live match of a small region, else upon
that of a region like a module, and else finds nothing; where the match has an address it answers with it, and
otherwise stops. What it has found it recalls without a call. -/
theorem locate_finds (hr : Repeats regions answer stays) (hc : h.connected = true)
    (ht : stays h.target) (hinput : h.input = none) (s : InputSearch) (contract : ShapeContract) :
    (∀ r, (s.locate contract h).1 = r ↔ s.Finds contract answer regions r) ∧
      (∀ b, (s.locate contract h).1 ≠ .ok ⟨b, .differential⟩) ∧
      (s.ModulesSmall → ∀ b, (s.locate contract h).1 ≠ .ok ⟨b, .moduleScan⟩) ∧
      standard.ModulesSmall ∧
      ∀ found, (s.locate contract h).1 = .ok found →
        (s.locate contract (s.locate contract h).2).1 = .ok found ∧
          (s.locate contract (s.locate contract h).2.recorded).2.calls = [] := by
  have hfinds := (locate_ranked hr ⟨hc, ht⟩ hinput s contract).2
  refine ⟨fun r => ⟨?_, hfinds.unique⟩, fun b hb => ?_, fun hm b hb => ?_, fun n hmin hmax => ?_,
    fun found hf => ?_⟩
  · rintro rfl
    exact hfinds
  · rw [hb] at hfinds
    obtain ⟨⟨⟩, -⟩ | ⟨⟨⟩, -⟩ := hfinds.cases_ok
  · rw [hb] at hfinds
    exact hfinds.ne_moduleScan hm
  · exact ⟨Nat.le_trans (by decide) hmin, Nat.le_trans hmax (by decide)⟩
  · have hremembered := input_of_ok hinput hf
    rw [s.locate_of_some contract hremembered,
      s.locate_of_some contract (h := (s.locate contract h).2.recorded) hremembered]
    exact ⟨rfl, rfl⟩

end InputSearch

/-- An image that has not exited repeats itself. -/
theorem ImageProcess.repeats {p : ImageProcess} (hp : p.exited = false) :
    Repeats (p.regions.map ImageRegion.describe) p.read (· = p) where
  stays_regions := by
    rintro s rfl
    rfl
  stays_read := by
    rintro s rfl address length
    rfl
  lists := by
    rintro s rfl
    exact if_neg (by simp [hp])
  answers := by
    rintro s rfl address length
    rfl
  present address length := by
    rw [ImageProcess.read, hp, if_neg Bool.false_ne_true]
    split
    · intro heq
      cases heq
    · intro heq
      cases heq

def plugged : ImageProcess :=
  ⟨[⟨0x4000, .readWrite, none, ⟨#[0, 0, 0, 0]⟩⟩,
    ⟨0x5000, .readWrite, some "input", ⟨#[0, 0, 0, 0, 0x80, 0, 0, 0]⟩⟩], false⟩

def narrowSizes : InputSearch := ⟨500, 4, 4, 8, 8, 16⟩

theorem finds_plugged :
    narrowSizes.Finds ShapeContract.standard plugged.read (plugged.regions.map ImageRegion.describe)
      (.ok ⟨0x5004, .moduleScan⟩) := by
  have hfound : (narrowSizes.locate ShapeContract.standard (attach 1 plugged)).1 =
      .ok ⟨0x5004, .moduleScan⟩ := by cbv
  exact ((InputSearch.locate_finds (plugged.repeats rfl) rfl rfl rfl narrowSizes
    ShapeContract.standard).1 _).mp hfound

def overhung : ImageProcess :=
  ⟨[⟨0xfffffffffffffffc, .readWrite, some "input", ⟨#[0, 0, 0, 0, 0x80, 0, 0, 0]⟩⟩], false⟩

/-- The region is small, can be read whole and has its first live match at the offset 4. -/
theorem stopped_overhung :
    (∀ r ∈ overhung.regions, InputSearch.Small ⟨500, 8, 8, 8, 8, 16⟩ r.describe ∧
      overhung.read r.base r.bytes.size = .ok r.bytes ∧
      IsLeast {o | 4 ∣ o ∧ ShapeContract.standard.LiveAt r.bytes o} 4) ∧
    (InputSearch.locate ⟨500, 8, 8, 8, 8, 16⟩ ShapeContract.standard (attach 1 overhung)).1 =
      .error (.stopped .overflow) := by
  refine ⟨fun r hr => ?_, by cbv⟩
  obtain rfl := List.mem_singleton.mp hr
  refine ⟨⟨rfl, Nat.le_refl 8, Nat.le_refl 8⟩, by cbv, ?_⟩
  exact (ShapeContract.standard.findIn_lowest _).eq_some_iff.mp (by cbv)

end ConsoleBridge
