import ConsoleBridge.Proofs.Controller.Slots
import ConsoleBridge.Proofs.Process.ImageMemory

/-!
# Writing where the controllers' state was found

In a process that changes by writes alone a found address lies with its word in one writable region. The
slots of the four players take three words more, which the search does not look for, so requests about every
player stay in that region only if it goes on for sixteen bytes and these are among the addresses.
-/
namespace ConsoleBridge

open Bytes Handle

/-- The word at the address lies in a writable region. -/
def Discovered (regions : List Region) (address : Nat) : Prop :=
  ∃ r ∈ regions, r.isWritable = true ∧ r.HoldsSlot address

theorem Region.HoldsSlot.holds {r : Region} {address : Nat} (hslot : r.HoldsSlot address) :
    r.holds address = true := Region.holds_iff.mpr ⟨hslot.1, Nat.lt_of_lt_of_le (by omega) hslot.2⟩

variable {σ : Type} [ProcessMemory σ]

/-- The slots of all players lie in the writable region in which an address was found, and every request
about a player that there is succeeds and leaves the bytes outside that region as they were. -/
def InputSearch.StaysInside (regions : List Region) (memory : σ → Nat → UInt8) (s : InputSearch)
    (contract : ShapeContract) (h : Handle σ) : Prop :=
  ∀ found, (s.locate contract h).1 = .ok found →
    ∃ r ∈ regions, r.isWritable = true ∧ r.holds found.base = true ∧
      (∀ player < padCount, r.HoldsSlot (found.base + 4 * player)) ∧
      ∀ requests : List PadRequest, (∀ q ∈ requests, q.Valid) →
        Confined memory r (Injector.new found.base) (s.locate contract h).2 requests

namespace InputSearch

variable {regions : List Region} {fault : Nat → Nat → Option AccessError} {memory : σ → Nat → UInt8}
variable {m : Nat → UInt8} {stays : σ → Prop} {h : Handle σ} {s : InputSearch} {contract : ShapeContract}
variable {found : Found}

theorem discovered_of_firstMatch {select : Region → Prop} {b : Nat}
    (hselect : ∀ r, select r → r.isWritable = true)
    (hb : FirstMatch contract (readAnswer fault m) select regions (.ok b)) : Discovered regions b := by
  generalize hplace : (Except.ok b : Hit) = hit at hb
  obtain @⟨before, r, behind, bytes, o, rfl, selected, brought, lowest, -⟩ := hb
  obtain ⟨-, rfl⟩ := Address.plus_eq_ok_iff.mp hplace.symm
  refine ⟨r, List.mem_append_right before List.mem_cons_self, hselect r selected, Nat.le_add_right r.base o, ?_⟩
  have hsize : bytes.size = r.size := by
    rw [readAnswer] at brought
    split at brought
    · cases brought
      exact size_copy
    · cases brought
  have hbound := lowest.1.2.bound
  rw [Region.limit]
  omega

/-- A found address is that of a word in a writable region. -/
theorem Finds.discovered (hs : s.Finds contract (readAnswer fault m) regions (.ok found)) :
    Discovered regions found.base := by
  rcases hs.cases_ok with ⟨-, small⟩ | ⟨-, -, modular⟩
  · exact discovered_of_firstMatch (fun _ hr => hr.1) small
  · exact discovered_of_firstMatch (fun _ hr => hr.1) modular

/-- The search keeps the memory, and finds and remembers words in writable regions alone. -/
theorem locate_discovered (hp : Passive regions fault memory stays) (hh : Steady stays h)
    (hinput : ∀ found ∈ h.input, Discovered regions found.base) (s : InputSearch) (contract : ShapeContract) :
    Steady stays (s.locate contract h).2 ∧
      memory (s.locate contract h).2.target = memory h.target ∧
      (∀ found, (s.locate contract h).1 = .ok found → Discovered regions found.base) ∧
      ∀ found ∈ (s.locate contract h).2.input, Discovered regions found.base := by
  cases hremembered : h.input with
  | some found =>
    rw [s.locate_of_some contract hremembered]
    refine ⟨hh, rfl, fun found' hf => ?_, hinput⟩
    cases hf
    exact hinput found hremembered
  | none =>
    -- A search only looks, so for it the process repeats itself with the memory that it has now.
    have hsteady : Steady (fun s => stays s ∧ memory s = memory h.target) h := ⟨hh.connected, hh.target, rfl⟩
    obtain ⟨hkept, hfinds⟩ := locate_ranked (hp.repeats (memory h.target)) hsteady hremembered s contract
    refine ⟨⟨hkept.connected, hkept.target.1⟩, hkept.target.2, fun found hf => ?_, fun found hf => ?_⟩
    · rw [hf] at hfinds
      exact hfinds.discovered
    · cases hresult : (s.locate contract h).1 with
      | ok found' =>
        rw [hresult] at hfinds
        cases Option.some.inj ((input_of_ok hremembered hresult).symm.trans hf)
        exact hfinds.discovered
      | error e =>
        rw [input_of_error hremembered hresult] at hf
        cases hf

/-- The found word lies in one region alone, as does what is remembered. Requests whose slots lie there stay
there, and requests about every player do so exactly if the region goes on for all slots and these are among the
addresses. -/
theorem staysInside_iff (hp : Passive regions fault memory stays) (hc : h.connected = true)
    (ht : stays h.target) (hinput : ∀ found ∈ h.input, Discovered regions found.base) (s : InputSearch)
    (contract : ShapeContract) :
    (∀ found, (s.locate contract h).1 = .ok found →
      ∃ r ∈ regions, r.isWritable = true ∧ r.HoldsSlot found.base ∧
        (∀ q ∈ regions, q.holds found.base = true → q = r) ∧
        (∀ requests : List PadRequest, (∀ q ∈ requests, q.Fits found.base r) →
          Confined memory r (Injector.new found.base) (s.locate contract h).2 requests) ∧
        ((∀ requests : List PadRequest, (∀ q ∈ requests, q.Valid) →
          Confined memory r (Injector.new found.base) (s.locate contract h).2 requests) ↔
            found.base + 4 * padCount ≤ min r.limit Address.count)) ∧
      (∀ found ∈ (s.locate contract h).2.input, Discovered regions found.base) ∧
      (s.StaysInside regions memory contract h ↔ ∀ found, (s.locate contract h).1 = .ok found →
        ∃ r ∈ regions, r.holds found.base = true ∧
          found.base + 4 * padCount ≤ min r.limit Address.count) := by
  obtain ⟨hh, -, hfound, hremembered⟩ := locate_discovered hp ⟨hc, ht⟩ hinput s contract
  refine ⟨fun found hf => ?_, hremembered, fun hstays found hf => ?_, fun hroom found hf => ?_⟩
  · obtain ⟨r, hr, hw, hslot⟩ := hfound found hf
    exact ⟨r, hr, hw, hslot, fun q hq hholds => eq_of_apart hp.apart hq hr hholds hslot.holds,
      fun requests hfits => hp.confined hh hr hw hfits, hp.forall_confined_iff hh hr hw hslot.1⟩
  · obtain ⟨r, hr, hw, hholds, hslots, hconfined⟩ := hstays found hf
    exact ⟨r, hr, hholds, (hp.forall_confined_iff hh hr hw (hslots 0 (by decide)).1).mp hconfined⟩
  · obtain ⟨r, hr, hholds, hlimit⟩ := hroom found hf
    obtain ⟨q, hq, hw, hslot⟩ := hfound found hf
    cases eq_of_apart hp.apart hr hq hholds hslot.holds
    refine ⟨r, hr, hw, hholds, fun player hplayer => ⟨?_, ?_⟩,
      (hp.forall_confined_iff hh hr hw hslot.1).mpr hlimit⟩
    · exact Nat.le_trans hslot.1 (Nat.le_add_right _ _)
    · rw [padCount] at hplayer hlimit
      omega

end InputSearch

def roomy : ImageProcess :=
  ⟨[⟨0x4000, .readWrite, none, ⟨#[0, 0, 0, 0, 0x80, 0, 0, 0, 0, 0, 0, 0, 0, 0, 0, 0, 0, 0, 0, 0]⟩⟩], false⟩

def twentyBytes : InputSearch := ⟨500, 20, 20, 20, 20, 20⟩

theorem staysInside_roomy :
    twentyBytes.StaysInside (roomy.regions.map ImageRegion.describe) ImageProcess.memory .standard
      (attach 1 roomy) := by
  have hlocate : (twentyBytes.locate .standard (attach 1 roomy)).1 = .ok ⟨0x4004, .shapeScan⟩ := by cbv
  have hfresh : ∀ found ∈ (attach 1 roomy).input, Discovered (roomy.regions.map ImageRegion.describe) found.base := by
    rintro _ ⟨⟩
  have hp := ImageProcess.passive (List.pairwise_singleton Region.Apart ⟨0x4000, 20, .readWrite, none⟩)
  refine (InputSearch.staysInside_iff hp rfl ⟨rfl, rfl⟩ hfresh twentyBytes .standard).2.2.mpr fun found hf => ?_
  rw [hlocate] at hf
  cases hf
  exact ⟨_, List.mem_singleton_self _, by decide, by decide⟩

/-- A page of zeros up to a live word at its end. -/
def lastWord (i : Nat) : UInt8 := if i = 4092 then 0x80 else 0

def fullPage (base : Nat) : ImageRegion := ⟨base, .readWrite, none, copy lastWord 0 4096⟩

def nextPage (base : Nat) : ImageRegion := ⟨base + 4096, .readWrite, none, copy (fun _ => 0x11) 0 4096⟩

def cornered (base : Nat) : ImageProcess := ⟨[fullPage base, nextPage base], false⟩

def pages (base : Nat) : List Region :=
  [⟨base, 4096, .readWrite, none⟩, ⟨base + 4096, 4096, .readWrite, none⟩]

section Cornered

variable {base a o i : Nat}

private theorem describe_cornered : (cornered base).regions.map ImageRegion.describe = pages base := by
  simp [cornered, fullPage, nextPage, pages, ImageRegion.describe]

private theorem apart_pages : (pages base).Pairwise Region.Apart := by
  refine List.pairwise_pair.mpr fun a ha => ?_
  rw [Region.holds_iff, Region.limit] at ha
  rw [Region.holds_eq_false_iff]
  exact .inl ha.2

private theorem memory_fullPage (hi : i < 4096) : (cornered base).memory (base + i) = lastWord i := by
  have hmemory : (cornered base).memory (base + i) = (fullPage base).memory (base + i) := by
    refine ImageRegion.memoryIn_of_mem (describe_cornered ▸ apart_pages) List.mem_cons_self ?_
    simp [fullPage, ImageRegion.describe, Region.holds, Region.limit, hi]
  have hbytes : (fullPage base).bytes = copy lastWord 0 4096 := rfl
  exact hmemory.trans (ImageRegion.memory_of_copy hbytes hi)

private theorem memory_nextPage (hi : i < 4096) : (cornered base).memory (base + 4096 + i) = 0x11 := by
  have hmemory : (cornered base).memory (base + 4096 + i) = (nextPage base).memory (base + 4096 + i) := by
    refine ImageRegion.memoryIn_of_mem (describe_cornered ▸ apart_pages)
      (List.mem_cons_of_mem _ List.mem_cons_self) ?_
    simp [nextPage, ImageRegion.describe, Region.holds, Region.limit, hi]
  have hbytes : (nextPage base).bytes = copy (fun _ => 0x11) 0 4096 := rfl
  exact hmemory.trans (ImageRegion.memory_of_copy hbytes hi)

private theorem liveAt_cornered (ho : o + 4 ≤ 4096) (halign : 4 ∣ o) :
    ShapeContract.standard.LiveAt (copy (cornered base).memory base 4096) o ↔ o = 4092 := by
  rw [ShapeContract.liveAt_iff (by rw [size_copy]; exact ho), getElem_copy, getElem_copy, getElem_copy,
    getElem_copy, memory_fullPage (by omega), memory_fullPage (by omega), memory_fullPage (by omega),
    memory_fullPage (by omega)]
  simp only [lastWord]
  constructor
  · intro hlive
    by_cases hlast : o = 4092
    · exact hlast
    · rw [if_neg hlast, if_neg (by omega), if_neg (by omega), if_neg (by omega)] at hlive
      cases hlive
  · rintro rfl
    decide

private theorem firstMatch_cornered (hroom : base + 8192 ≤ Address.count) :
    FirstMatch .standard (readAnswer (ImageProcess.fault (pages base)) (cornered base).memory)
      InputSearch.standard.Small (pages base) (.ok (base + 4092)) := by
  have hreadable : ImageProcess.fault (pages base) base 4096 = none := by
    simp [ImageProcess.fault, pages, Region.isReadable, Region.limit]
    decide
  have hbrought : readAnswer (ImageProcess.fault (pages base)) (cornered base).memory base 4096 =
      .ok (copy (cornered base).memory base 4096) := by rw [readAnswer, hreadable]
  have hsmall : InputSearch.standard.Small ⟨base, 4096, .readWrite, none⟩ :=
    ⟨rfl, show 0x400 ≤ 4096 by decide, show 4096 ≤ 0x100000 by decide⟩
  rw [← Address.plus_of_lt (show base + 4092 < Address.count by omega)]
  refine .intro (r := ⟨base, 4096, .readWrite, none⟩) (o := 4092) (List.nil_append _).symm hsmall hbrought
    ⟨⟨by decide, ?_⟩, ?_⟩ fun q hq => by cases hq
  · exact (liveAt_cornered (by decide) (by decide)).mpr rfl
  · rintro o ⟨halign, hlive⟩
    have hbound := hlive.bound
    rw [size_copy] at hbound
    exact Nat.le_of_eq ((liveAt_cornered hbound halign).mp hlive).symm

private theorem steady_cornered : Steady (ImageProcess.Runs (pages base)) (attach 1 (cornered base)) :=
  ⟨rfl, rfl, describe_cornered⟩

/-- The live word is found, and nothing has changed. -/
private theorem locate_cornered (hroom : base + 8192 ≤ Address.count) :
    (InputSearch.standard.locate .standard (attach 1 (cornered base))).1 = .ok ⟨base + 4092, .shapeScan⟩ ∧
      Steady (ImageProcess.Runs (pages base))
        (InputSearch.standard.locate .standard (attach 1 (cornered base))).2 ∧
      (InputSearch.standard.locate .standard (attach 1 (cornered base))).2.target.memory =
        (cornered base).memory := by
  have hr := (ImageProcess.passive (@apart_pages base)).repeats (cornered base).memory
  obtain ⟨hkept, hfinds⟩ := InputSearch.locate_ranked hr ⟨rfl, steady_cornered.target, rfl⟩ rfl
    InputSearch.standard .standard
  exact ⟨hfinds.unique (.first (firstMatch_cornered hroom)), ⟨hkept.connected, hkept.target.1⟩, hkept.target.2⟩

/-- The slot of the second player lies on the page behind the one of the first. -/
private theorem strays_cornered (hroom : base + 8192 ≤ Address.count) {h : Handle ImageProcess}
    (hh : Steady (ImageProcess.Runs (pages base)) h) :
    ((Injector.new (base + 4092)).perform h (.setStick 1 0 0)).1 = .ok () ∧
      ((Injector.new (base + 4092)).perform h (.setStick 1 0 0)).2.2.target.memory (base + 4096 + 3) = 0 := by
  have hp := ImageProcess.passive (@apart_pages base)
  have hfits : (PadRequest.setStick 1 0 0).Fits (base + 4092) ⟨base + 4096, 4096, .readWrite, none⟩ := by
    intro player hplayer
    cases List.mem_singleton.mp hplayer
    simp only [Region.HoldsSlot, Region.limit, padCount]
    omega
  obtain ⟨_, _, hperform, -⟩ := hp.perform_confined hh (List.mem_cons_of_mem _ List.mem_cons_self) rfl
    (i := Injector.new (base + 4092)) hfits
  have hok : ((Injector.new (base + 4092)).perform h (.setStick 1 0 0)).1 = .ok () := by rw [hperform]
  have hwritten := hp.of_setStick hh hok
  rw [Injector.base_new, show base + 4092 + 4 * 1 + 3 = base + 4096 + 3 by omega] at hwritten
  exact ⟨hok, hwritten⟩

private theorem confined_cornered (hroom : base + 8192 ≤ Address.count) {h : Handle ImageProcess}
    (hh : Steady (ImageProcess.Runs (pages base)) h) (hmemory : h.target.memory = (cornered base).memory) :
    ¬ Confined ImageProcess.memory ⟨base, 4096, .readWrite, none⟩ (Injector.new (base + 4092)) h
      [.setStick 1 0 0] := by
  rintro ⟨-, hkept, -⟩
  have hbehind := hkept (base + 4096 + 3) (Region.holds_eq_false_iff.mpr (.inr (Nat.le_add_right _ 3)))
  rw [(strays_cornered hroom hh).2, hmemory, memory_nextPage (by decide)] at hbehind
  cases hbehind

end Cornered

/-- A word at the end of its page is found, and what is written for the second player goes to the next. -/
theorem not_staysInside_cornered :
    Passive (pages 0x10000) (ImageProcess.fault (pages 0x10000)) ImageProcess.memory
        (ImageProcess.Runs (pages 0x10000)) ∧
      Steady (ImageProcess.Runs (pages 0x10000)) (attach 1 (cornered 0x10000)) ∧
      ¬ InputSearch.standard.StaysInside (pages 0x10000) ImageProcess.memory .standard
        (attach 1 (cornered 0x10000)) := by
  refine ⟨ImageProcess.passive apart_pages, steady_cornered, fun hstays => ?_⟩
  have hroom : 0x10000 + 8192 ≤ Address.count := by decide
  obtain ⟨hlocate, hh, hmemory⟩ := locate_cornered hroom
  obtain ⟨r, hr, -, hholds, -, hconfined⟩ := hstays _ hlocate
  rw [Region.holds_iff] at hholds
  rcases List.mem_cons.mp hr with rfl | hr
  · refine confined_cornered hroom hh hmemory (hconfined _ fun q hq player hplayer => ?_)
    cases List.mem_singleton.mp hq
    cases List.mem_singleton.mp hplayer
    decide
  · cases List.mem_singleton.mp hr
    exact absurd hholds.1 (by decide)

end ConsoleBridge
