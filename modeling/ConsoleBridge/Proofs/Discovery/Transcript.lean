import ConsoleBridge.Proofs.Discovery.MainMemory

/-!
# What a search makes of its calls

The answer of a search is told by the calls that it makes. One that is answered that the process is gone ends the
search with this error and without another call; a read of what is not mapped only passes over its region.
-/
namespace ConsoleBridge

open Handle

def Call.copy? : Call → Option (Nat × ByteArray)
  | .read address _ (.ok bytes) => some (address, bytes)
  | _ => none

/-- One read for each region, in their order, and nothing else. -/
def ReadEach (length : Region → Nat) : List Region → List Call → Prop :=
  List.Forall₂ fun r c => ∃ answer, c = .read r.base (length r) answer

/-- The regions are read up to the first of which the bytes give an answer, and there is none only when all have
been read. -/
def ReadsUpTo (length : Region → Nat) (hit : Nat × ByteArray → Option Hit) (regions : List Region)
    (calls : List Call) (answer : Except DiscoveryError (Option Nat)) : Prop :=
  ∃ done left, regions = done ++ left ∧ ReadEach length done calls ∧
    answer = answered ((calls.filterMap Call.copy?).findSome? hit) ∧ (answer = .ok none → left = [])

/-- The regions are listed, and those selected are read up to the first of which the bytes give an answer. -/
def ListsAndReads (select : Region → Bool) (length : Region → Nat) (hit : Nat × ByteArray → Option Hit)
    (calls : List Call) (answer : Except DiscoveryError (Option Nat)) : Prop :=
  ∃ regions reads, calls = .regions (.ok regions) :: reads ∧
    ReadsUpTo length hit (regions.filter select) reads answer

def ShapeContract.liveIn (contract : ShapeContract) (copy : Nat × ByteArray) : Option Hit :=
  (contract.findIn copy.2).map (Address.plus copy.1)

/-- The regions are listed, and each writable one of up to `sizeMax` bytes is read; what the reads bring is the
capture. -/
def Captures (sizeMax : Nat) (calls : List Call) (answer : Except AccessError Capture) : Prop :=
  ∃ regions reads, calls = .regions (.ok regions) :: reads ∧
    ReadEach Region.size (regions.filter fun r => r.isWritable && r.size ≤ sizeMax) reads ∧
    answer = .ok (Capture.ofList (reads.filterMap Call.copy?))

namespace InputSearch

/-- Two captures, one behind the other, and the first change between them. -/
def Compares (s : InputSearch) (contract : ShapeContract) (calls : List Call)
    (answer : Except DiscoveryError (Option Nat)) : Prop :=
  ∃ early late before after, calls = early ++ late ∧ Captures s.captureMax early (.ok before) ∧
    Captures s.captureMax late (.ok after) ∧ answer = answered (Capture.firstChange before after contract)

/-- The scans one behind the other, each one only when those before it came upon nothing. -/
inductive Scans (s : InputSearch) (contract : ShapeContract) : List Call → Except DiscoveryError Found → Prop
  | shapeScan {calls o}
      (found : ListsAndReads s.isSmall Region.size contract.liveIn calls (answered (some o))) :
      Scans s contract calls (foundBy .shapeScan o)
  | differential {first second o}
      (nothing : ListsAndReads s.isSmall Region.size contract.liveIn first (.ok none))
      (found : s.Compares contract second (answered (some o))) :
      Scans s contract (first ++ second) (foundBy .differential o)
  | moduleScan {first second third o}
      (nothing : ListsAndReads s.isSmall Region.size contract.liveIn first (.ok none))
      (same : s.Compares contract second (.ok none))
      (found : ListsAndReads s.isModule Region.size contract.liveIn third (answered (some o))) :
      Scans s contract (first ++ (second ++ third)) (foundBy .moduleScan o)
  | notFound {first second third}
      (nothing : ListsAndReads s.isSmall Region.size contract.liveIn first (.ok none))
      (same : s.Compares contract second (.ok none))
      (neither : ListsAndReads s.isModule Region.size contract.liveIn third (.ok none)) :
      Scans s contract (first ++ (second ++ third)) (.error .notFound)

end InputSearch

namespace Handle

variable {σ α β ε δ : Type}

/-- A search that goes by its calls, as `told` tells it, unless the process is gone or does not list its regions.
The calls are recorded in `p`; `q` is the search itself. -/
structure GoesByCalls (wrap : AccessError → ε) (told : List Call → Except ε α → Prop)
    (p : Except ε α × Handle (Recording σ)) (q : Except ε α × Handle σ) : Prop where
  same : unrecorded p = q
  lost : ∀ {front c behind}, p.2.calls = front ++ c :: behind → c.Lost →
    q.1 = .error (wrap .disconnected) ∧ behind = [] ∧ Gone q.2
  goesOn : (∀ c ∈ p.2.calls, ¬ c.Lost) → q.2.connected = true ∧
    ((∀ e, .regions (.error e) ∉ p.2.calls) → told p.2.calls q.1)

/-- The calls that a search adds to those recorded, and how it ends. -/
inductive Adding (wrap : AccessError → ε) (told : List Call → Except ε α → Prop) (h : Handle (Recording σ)) :
    Except ε α × Handle (Recording σ) → Prop
  | lost {front c h'} (answered : ∀ c ∈ front, ¬ c.Lost) (lost : c.Lost) (adds : Adds h h' (front ++ [c]))
      (gone : Gone h') : Adding wrap told h (.error (wrap .disconnected), h')
  | unlisted {front e h'} (answered : ∀ c ∈ front, ¬ c.Lost) (ne : e ≠ .disconnected)
      (adds : Adds h h' (front ++ [.regions (.error e)])) (connected : h'.connected = true) :
      Adding wrap told h (.error (wrap e), h')
  | told {calls r h'} (answered : ∀ c ∈ calls, ¬ c.Lost) (adds : Adds h h' calls)
      (connected : h'.connected = true) (holds : told calls r) : Adding wrap told h (r, h')

variable {wrap : AccessError → ε} {wrap' : AccessError → δ} {h h' : Handle (Recording σ)}
variable {told : List Call → Except ε α → Prop} {told' : List Call → Except δ β → Prop}

theorem forall_append {p : Call → Prop} {first second : List Call} (hf : ∀ c ∈ first, p c)
    (hs : ∀ c ∈ second, p c) : ∀ c ∈ first ++ second, p c :=
  fun c hc => (List.mem_append.mp hc).elim (hf c) (hs c)

/-- Calls that were answered may come in front. -/
theorem Adding.behind {first : List Call} (hfirst : ∀ c ∈ first, ¬ c.Lost) (hadds : Adds h h' first)
    {p : Except ε α × Handle (Recording σ)} (hp : Adding wrap (fun calls => told (first ++ calls)) h' p) :
    Adding wrap told h p := by
  cases hp with
  | lost answered lost adds gone =>
    exact .lost (forall_append hfirst answered) lost (List.append_assoc .. ▸ hadds.trans adds) gone
  | unlisted answered ne adds connected =>
    exact .unlisted (forall_append hfirst answered) ne (List.append_assoc .. ▸ hadds.trans adds) connected
  | told answered adds connected holds =>
    exact .told (forall_append hfirst answered) (hadds.trans adds) connected holds

theorem Adding.mono {told₁ told₂ : List Call → Except ε α → Prop} {p : Except ε α × Handle (Recording σ)}
    (hp : Adding wrap told₁ h p) (hmono : ∀ calls r, told₁ calls r → told₂ calls r) :
    Adding wrap told₂ h p := by
  cases hp with
  | lost answered lost adds gone => exact .lost answered lost adds gone
  | unlisted answered ne adds connected => exact .unlisted answered ne adds connected
  | told answered adds connected holds => exact .told answered adds connected (hmono _ _ holds)

/-- A search `q` that begins with the search `p`, and goes on behind it if that one does not fail. -/
theorem Adding.next {p : Except ε α × Handle (Recording σ)} {q : Except δ β × Handle (Recording σ)}
    (hp : Adding wrap told h p)
    (herror : ∀ {e h'}, p = (.error (wrap e), h') → q = (.error (wrap' e), h'))
    (hnext : ∀ {calls r h'}, p = (r, h') → told calls r → h'.connected = true →
      Adding wrap' (fun calls' => told' (calls ++ calls')) h' q) :
    Adding wrap' told' h q := by
  cases hp with
  | lost answered lost adds gone =>
    rw [herror rfl]
    exact .lost answered lost adds gone
  | unlisted answered ne adds connected =>
    rw [herror rfl]
    exact .unlisted answered ne adds connected
  | told answered adds connected holds => exact (hnext rfl holds connected).behind answered adds

/-- A search `q` that begins with a method `p` to look for an address, and goes on behind it only if that one
comes upon nothing. -/
theorem Adding.orElse {p : Except DiscoveryError (Option Nat) × Handle (Recording σ)} (method : Method)
    {q : Except DiscoveryError Found × Handle (Recording σ)}
    {told : List Call → Except DiscoveryError (Option Nat) → Prop}
    {told' : List Call → Except DiscoveryError Found → Prop} (hp : Adding .access told h p)
    (hanswered : ∀ calls r, told calls r → ∃ o, r = answered o)
    (herror : ∀ {e h'}, p = (.error e, h') → q = (.error e, h'))
    (hsome : ∀ {b h'}, p = (.ok (some b), h') → q = (.ok ⟨b, method⟩, h'))
    (hfound : ∀ {calls o}, told calls (answered (some o)) → told' calls (foundBy method o))
    (hnext : ∀ {calls h'}, p = (.ok none, h') → told calls (.ok none) → h'.connected = true →
      Adding .access (fun calls' => told' (calls ++ calls')) h' q) :
    Adding .access told' h q := by
  cases hp with
  | lost answered lost adds gone =>
    rw [herror rfl]
    exact .lost answered lost adds gone
  | unlisted answered ne adds connected =>
    rw [herror rfl]
    exact .unlisted answered ne adds connected
  | told answered adds connected holds =>
    obtain ⟨⟨⟩ | ⟨e | b⟩, rfl⟩ := hanswered _ _ holds
    · exact (hnext rfl holds connected).behind answered adds
    · rw [herror rfl]
      exact .told answered adds connected (hfound holds)
    · rw [hsome rfl]
      exact .told answered adds connected (hfound holds)

/-- How a search ends that adds to no call. -/
theorem Adding.goesByCalls {p : Except ε α × Handle (Recording σ)} {q : Except ε α × Handle σ}
    (hp : Adding wrap told h p) (hh : h.calls = []) (hq : unrecorded p = q) : GoesByCalls wrap told p q := by
  subst hq
  refine ⟨rfl, ?_, ?_⟩
  · intro front c behind hcalls hlost
    cases hp with
    | @lost front' c' h' answered lost adds gone =>
      rw [Adds, hh, List.nil_append] at adds
      -- Of the calls only the last one is answered that the process is gone.
      have hsplit : front' ++ [c'] = front ++ c :: behind := adds.symm.trans hcalls
      have hbehind : behind = [] := by
        by_contra hne
        rw [← List.dropLast_append_getLast hne, ← List.cons_append, ← List.append_assoc] at hsplit
        obtain ⟨rfl, -⟩ := List.append_inj' hsplit rfl
        exact answered c (by simp) hlost
      exact ⟨rfl, hbehind, ⟨gone.connected, gone.ram, gone.input⟩⟩
    | @unlisted front' e h' answered ne adds connected =>
      rw [Adds, hh, List.nil_append] at adds
      have hmem : c ∈ front' ++ [.regions (.error e)] := by
        rw [← adds, hcalls]
        simp
      rcases List.mem_append.mp hmem with hmem | hmem
      · exact absurd hlost (answered c hmem)
      · rw [List.mem_singleton.mp hmem] at hlost
        exact absurd (Except.error.inj hlost) ne
    | told answered adds connected holds =>
      rw [Adds, hh, List.nil_append] at adds
      refine absurd hlost (answered c ?_)
      rw [← adds, hcalls]
      simp
  · intro hanswered
    cases hp with
    | @lost front c h' answered lost adds gone =>
      rw [Adds, hh, List.nil_append] at adds
      refine absurd lost (hanswered c ?_)
      rw [adds]
      simp
    | @unlisted front e h' answered ne adds connected =>
      rw [Adds, hh, List.nil_append] at adds
      refine ⟨connected, fun hlisted => absurd ?_ (hlisted e)⟩
      rw [adds]
      simp
    | told answered adds connected holds =>
      rw [Adds, hh, List.nil_append] at adds
      exact ⟨connected, fun _ => adds ▸ holds⟩

variable [ProcessMemory σ]

/-- A read that was answered, with what the search does behind it. -/
theorem Adding.of_read (hc : h.connected = true) {address length : Nat} {got : Except AccessError ByteArray}
    (hr : h.read address length = (got, h')) (hne : got ≠ .error .disconnected)
    {p : Except ε α × Handle (Recording σ)}
    (hp : h'.connected = true → Adding wrap (fun calls => told (.read address length got :: calls)) h' p) :
    Adding wrap told h p := by
  have hadds : Adds h h' [.read address length got] :=
    adds_of_answer (f := (ProcessMemory.read · address length)) hc hr
  refine .behind ?_ hadds (hp (keeps_of_answer hr hne).connected)
  simpa [Call.Lost] using hne

theorem adding_of_lost (hc : h.connected = true) {address length : Nat}
    (hr : h.read address length = (.error .disconnected, h')) :
    Adding wrap told h (.error (wrap .disconnected), h') := by
  have hadds : Adds h h' [.read address length (.error .disconnected)] :=
    adds_of_answer (f := (ProcessMemory.read · address length)) hc hr
  have hlost : (Call.read address length (.error .disconnected)).Lost := rfl
  exact .lost (List.forall_mem_nil _) hlost hadds (gone_of_read hc hr)

/-- The regions were listed, with what the search does behind that. -/
theorem Adding.of_regions (hc : h.connected = true) {regions : List Region} (hr : h.regions = (.ok regions, h'))
    {p : Except ε α × Handle (Recording σ)}
    (hp : h'.connected = true → Adding wrap (fun calls => told (.regions (.ok regions) :: calls)) h' p) :
    Adding wrap told h p := by
  have hends := regions_ends hc
  rw [hr] at hends
  cases hends with
  | found keeps =>
    refine .behind ?_ (adds_of_regions hr) (hp keeps.connected)
    simp [Call.Lost]

theorem adding_of_unlisted (hc : h.connected = true) {e : AccessError} (hr : h.regions = (.error e, h')) :
    Adding wrap told h (.error (wrap e), h') := by
  have hadds : Adds h h' [.regions (.error e)] := adds_of_answer (f := ProcessMemory.regions) hc hr
  have hends := regions_ends hc
  rw [hr] at hends
  cases hends with
  | failed keeps ne => exact .unlisted (List.forall_mem_nil _) ne hadds keeps.connected
  | gone gone =>
    have hlost : (Call.regions (.error .disconnected)).Lost := rfl
    exact .lost (List.forall_mem_nil _) hlost hadds gone

end Handle

variable {σ : Type} [ProcessMemory σ] {h : Handle (Recording σ)} {length : Region → Nat}
variable {hit : Nat × ByteArray → Option Hit} {r : Region} {rest : List Region} {calls : List Call}
variable {answer : Except DiscoveryError (Option Nat)} {bytes : ByteArray}

theorem readsUpTo_nil : ReadsUpTo length hit [] [] (.ok none) := ⟨[], [], rfl, .nil, rfl, fun _ => rfl⟩

theorem readsUpTo_hit {o : Hit} (ho : hit (r.base, bytes) = some o) :
    ReadsUpTo length hit (r :: rest) [.read r.base (length r) (.ok bytes)] (answered (some o)) := by
  refine ⟨[r], rest, rfl, .cons ⟨_, rfl⟩ .nil, ?_, ?_⟩
  · simp [Call.copy?, ho]
  · obtain e | b := o
    · nofun
    · nofun

/-- A read that gives no answer may come in front. -/
theorem ReadsUpTo.cons (ha : ReadsUpTo length hit rest calls answer) {got : Except AccessError ByteArray}
    (hgot : ∀ bytes, got = .ok bytes → hit (r.base, bytes) = none) :
    ReadsUpTo length hit (r :: rest) (.read r.base (length r) got :: calls) answer := by
  obtain ⟨done, left, rfl, heach, hanswer, hall⟩ := ha
  refine ⟨r :: done, left, rfl, .cons ⟨got, rfl⟩ heach, ?_, hall⟩
  cases got with
  | error e => exact hanswer
  | ok bytes =>
    rw [hanswer, List.filterMap_cons, Call.copy?, List.findSome?_cons, hgot bytes rfl]

theorem ListsAndReads.exists_answered {select : Region → Bool}
    (ha : ListsAndReads select length hit calls answer) : ∃ o, answer = answered o := by
  obtain ⟨_, _, _, _, _, _, _, rfl, _⟩ := ha
  exact ⟨_, rfl⟩

theorem Captures.exists_ok {sizeMax : Nat} {answer : Except AccessError Capture}
    (ha : Captures sizeMax calls answer) : ∃ c, answer = .ok c := by
  obtain ⟨_, _, _, _, rfl⟩ := ha
  exact ⟨_, rfl⟩

theorem InputSearch.Compares.exists_answered {s : InputSearch} {contract : ShapeContract}
    (ha : s.Compares contract calls answer) : ∃ o, answer = answered o := by
  obtain ⟨_, _, _, _, _, _, _, rfl⟩ := ha
  exact ⟨_, rfl⟩

namespace InputSearch

private theorem adding_firstMatch (contract : ShapeContract) (hc : h.connected = true) (regions : List Region) :
    Adding .access (ReadsUpTo Region.size contract.liveIn regions) h (firstMatch contract h regions) := by
  induction regions generalizing h with
  | nil => exact .told (List.forall_mem_nil _) (.refl h) hc readsUpTo_nil
  | cons r rest ih =>
    rw [firstMatch]
    rcases hr : h.read r.base r.size with ⟨(⟨⟩ | ⟨⟩) | bytes, h'⟩
    · refine .of_read hc hr (by simp) fun hc' => (ih hc').mono fun calls answer ha => ?_
      exact ha.cons (by simp)
    · exact adding_of_lost hc hr
    · refine .of_read hc hr (by simp) fun hc' => ?_
      dsimp only
      cases hf : contract.findIn bytes with
      | some offset =>
        refine .told (List.forall_mem_nil _) (.refl h') hc' (readsUpTo_hit ?_)
        rw [ShapeContract.liveIn, hf]
        rfl
      | none =>
        refine (ih hc').mono fun calls answer ha => ha.cons fun bytes' hb => ?_
        cases hb
        rw [ShapeContract.liveIn, hf]
        rfl

theorem adding_scanRegions (contract : ShapeContract) (hc : h.connected = true) (select : Region → Bool) :
    Adding .access (ListsAndReads select Region.size contract.liveIn) h (scanRegions contract h select) := by
  rw [scanRegions]
  rcases hr : h.regions with ⟨e | regions, h'⟩
  · exact adding_of_unlisted hc hr
  · refine .of_regions hc hr fun hc' => (adding_firstMatch contract hc' _).mono fun calls answer ha => ?_
    exact ⟨regions, calls, rfl, ha⟩

end InputSearch

namespace RamSearch

private theorem adding_firstReadable (hc : h.connected = true) (regions : List Region) :
    Adding .access (ReadsUpTo (fun _ => 4) (fun copy => some (.ok copy.1)) regions) h (firstReadable h regions) := by
  induction regions generalizing h with
  | nil => exact .told (List.forall_mem_nil _) (.refl h) hc readsUpTo_nil
  | cons r rest ih =>
    rw [firstReadable]
    rcases hr : h.read r.base 4 with ⟨(⟨⟩ | ⟨⟩) | bytes, h'⟩
    · refine .of_read hc hr (by simp) fun hc' => (ih hc').mono fun calls answer ha => ?_
      exact ha.cons (by simp)
    · exact adding_of_lost hc hr
    · refine .of_read hc hr (by simp) fun hc' => ?_
      exact .told (List.forall_mem_nil _) (.refl h') hc' (readsUpTo_hit (o := .ok r.base) rfl)

private theorem adding_scanRegionSize (s : RamSearch) (hc : h.connected = true) :
    Adding .access (ListsAndReads s.fits (fun _ => 4) fun copy => some (.ok copy.1)) h (s.scanRegionSize h) := by
  rw [scanRegionSize]
  rcases hr : h.regions with ⟨e | regions, h'⟩
  · exact adding_of_unlisted hc hr
  · refine .of_regions hc hr fun hc' => (adding_firstReadable hc' _).mono fun calls answer ha => ?_
    exact ⟨regions, calls, rfl, ha⟩

end RamSearch

namespace Capture

/-- All the regions are read, and what the reads bring is put to the copies of `c`. -/
theorem adding_copyRegions (c : Capture) (hc : h.connected = true) (regions : List Region) :
    Adding id (fun calls answer => ReadEach Region.size regions calls ∧
        answer = .ok ((calls.filterMap Call.copy?).foldl (fun c r => c.insert r.1 r.2) c)) h
      (copyRegions h c regions) := by
  induction regions generalizing h c with
  | nil => exact .told (List.forall_mem_nil _) (.refl h) hc ⟨.nil, rfl⟩
  | cons r rest ih =>
    rw [copyRegions]
    rcases hr : h.read r.base r.size with ⟨(⟨⟩ | ⟨⟩) | bytes, h'⟩
    · refine .of_read hc hr (by simp) fun hc' => (ih c hc').mono fun calls answer ha => ?_
      exact ⟨.cons ⟨_, rfl⟩ ha.1, ha.2⟩
    · exact adding_of_lost hc hr
    · refine .of_read hc hr (by simp) fun hc' => (ih (c.insert r.base bytes) hc').mono fun calls answer ha => ?_
      exact ⟨.cons ⟨_, rfl⟩ ha.1, ha.2⟩

theorem adding_ofProcess (hc : h.connected = true) (sizeMax : Nat) :
    Adding id (Captures sizeMax) h (ofProcess h sizeMax) := by
  rw [ofProcess]
  rcases hr : h.regions with ⟨e | regions, h'⟩
  · exact adding_of_unlisted hc hr
  · refine .of_regions hc hr fun hc' => (adding_copyRegions empty hc' _).mono fun calls answer ha => ?_
    exact ⟨regions, calls, rfl, ha⟩

end Capture

namespace InputSearch

theorem adding_scanChanges (s : InputSearch) (contract : ShapeContract) (hc : h.connected = true) :
    Adding .access (s.Compares contract) h (s.scanChanges contract h) := by
  refine (Capture.adding_ofProcess hc s.captureMax).next (fun he => by rw [scanChanges, he]; rfl) ?_
  intro early r h₁ he₁ hearly hc₁
  obtain ⟨before, rfl⟩ := hearly.exists_ok
  refine (Capture.adding_ofProcess hc₁ s.captureMax).next (fun he₂ => by simp only [scanChanges, he₁, he₂, id]) ?_
  intro late r h₂ he₂ hlate hc₂
  obtain ⟨after, rfl⟩ := hlate.exists_ok
  simp only [scanChanges, he₁, he₂]
  exact .told (List.forall_mem_nil _) (.refl h₂) hc₂
    ⟨early, late, before, after, by rw [List.append_nil], hearly, hlate, rfl⟩

private theorem adding_search (s : InputSearch) (contract : ShapeContract) (hc : h.connected = true) :
    Adding .access (s.Scans contract) h (s.search contract h) := by
  refine (adding_scanRegions contract hc s.isSmall).orElse .shapeScan
    (fun _ _ => ListsAndReads.exists_answered) (fun he => by simp only [search, scanSmall, he])
    (fun he => by simp only [search, scanSmall, he]) .shapeScan ?_
  intro first h₁ he₁ hfirst hc₁
  refine (s.adding_scanChanges contract hc₁).orElse .differential
    (fun _ _ => Compares.exists_answered) (fun he => by simp only [search, scanSmall, he₁, he])
    (fun he => by simp only [search, scanSmall, he₁, he]) (.differential hfirst) ?_
  intro second h₂ he₂ hsecond hc₂
  refine (adding_scanRegions contract hc₂ s.isModule).orElse .moduleScan
    (fun _ _ => ListsAndReads.exists_answered) (fun he => by simp only [search, scanSmall, scanModules, he₁, he₂, he])
    (fun he => by simp only [search, scanSmall, scanModules, he₁, he₂, he]) (.moduleScan hfirst hsecond) ?_
  intro third h₃ he₃ hthird hc₃
  simp only [search, scanSmall, scanModules, he₁, he₂, he₃]
  refine .told (List.forall_mem_nil _) (.refl h₃) hc₃ ?_
  rw [List.append_nil]
  exact .notFound hfirst hsecond hthird

private theorem adding_locate (s : InputSearch) (contract : ShapeContract) (hc : h.connected = true)
    (hinput : h.input = none) : Adding .access (s.Scans contract) h (s.locate contract h) := by
  refine (s.adding_search contract hc).next (fun he => by rw [s.locate_of_none contract hinput, he]) ?_
  intro calls r h' he hcalls hc'
  rw [s.locate_of_none contract hinput, he]
  have htold : s.Scans contract (calls ++ []) r := by rwa [List.append_nil]
  cases r with
  | error e => exact .told (List.forall_mem_nil _) (.refl h') hc' htold
  | ok found => exact .told (List.forall_mem_nil _) (.refl h') hc' htold

end InputSearch

namespace Handle

variable {k : Handle σ}

/-- The searches that go by their calls: none takes a process that is gone for one in which nothing is found. -/
structure HandsOn (k : Handle σ) : Prop where
  shapeScan : ∀ (s : InputSearch) (contract : ShapeContract),
    GoesByCalls .access (ListsAndReads s.isSmall Region.size contract.liveIn)
      (s.scanSmall contract k.recorded) (s.scanSmall contract k)
  differential : ∀ (s : InputSearch) (contract : ShapeContract),
    GoesByCalls .access (s.Compares contract) (s.scanChanges contract k.recorded) (s.scanChanges contract k)
  moduleScan : ∀ (s : InputSearch) (contract : ShapeContract),
    GoesByCalls .access (ListsAndReads s.isModule Region.size contract.liveIn)
      (s.scanModules contract k.recorded) (s.scanModules contract k)
  locate : k.input = none → ∀ (s : InputSearch) (contract : ShapeContract),
    GoesByCalls .access (s.Scans contract) (s.locate contract k.recorded) (s.locate contract k)
  capture : ∀ sizeMax,
    GoesByCalls id (Captures sizeMax) (Capture.ofProcess k.recorded sizeMax) (Capture.ofProcess k sizeMax)
  regionSize : ∀ s : RamSearch,
    GoesByCalls .access (ListsAndReads s.fits (fun _ => 4) fun copy => some (.ok copy.1))
      (s.scanRegionSize k.recorded) (s.scanRegionSize k)

/-- A search on a connected handle that learns that the process is gone, by whichever call, ends there with this
error and forgets everything. One that does not learn it answers by what its reads brought, in the order of the
regions, and a read of what is not mapped brings nothing. -/
theorem handsOn (hc : k.connected = true) : HandsOn k where
  shapeScan s contract :=
    (InputSearch.adding_scanRegions contract hc s.isSmall).goesByCalls rfl
      (InputSearch.unrecorded_scanRegions contract k.recorded s.isSmall)
  differential s contract :=
    (s.adding_scanChanges contract hc).goesByCalls rfl (s.unrecorded_scanChanges contract k.recorded)
  moduleScan s contract :=
    (InputSearch.adding_scanRegions contract hc s.isModule).goesByCalls rfl
      (InputSearch.unrecorded_scanRegions contract k.recorded s.isModule)
  locate hinput s contract :=
    (s.adding_locate contract hc hinput).goesByCalls rfl (s.unrecorded_locate contract k.recorded)
  capture sizeMax :=
    (Capture.adding_ofProcess hc sizeMax).goesByCalls rfl (Capture.unrecorded_ofProcess k.recorded sizeMax)
  regionSize s := by
    refine (s.adding_scanRegionSize hc).goesByCalls rfl ?_
    have hstart : k.recorded.bare = k ∧ Unwritten k.recorded := ⟨rfl, fun _ _ _ => List.not_mem_nil⟩
    obtain ⟨k', he, hbare, -⟩ := (s.scanRegionSize_paired twins_recorded hstart).exists_eq rfl
    rw [he, ← hbare]
    rfl

def quitting : ScriptedProcess :=
  .new ⟨[⟨0x3000, .readWrite, none, ⟨#[0, 0, 0, 0]⟩⟩, ⟨0x5000, .readWrite, none, ⟨#[0, 0, 0, 0]⟩⟩], false⟩
    [⟨2, .exit⟩] [(0x3000, 0x3004)]

/-- The first capture passes over the region that is denied, and the second one meets the exit. -/
theorem handsOn_quitting :
    (attach 1 quitting).connected = true ∧ (attach 1 quitting).input = none ∧
      GoesByCalls .access (InputSearch.standard.Scans ShapeContract.standard)
        (InputSearch.standard.locate ShapeContract.standard (attach 1 quitting).recorded)
        (InputSearch.standard.locate ShapeContract.standard (attach 1 quitting)) ∧
      (InputSearch.standard.locate ShapeContract.standard (attach 1 quitting)).1 =
        .error (.access .disconnected) ∧
      (InputSearch.standard.locate ShapeContract.standard (attach 1 quitting).recorded).2.calls.length = 6 :=
  ⟨rfl, rfl, (handsOn rfl).locate rfl _ _, by cbv, by cbv⟩

end Handle

end ConsoleBridge
