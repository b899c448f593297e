import ConsoleBridge.Process.Scripted
import ConsoleBridge.Proofs.Discovery.Header
import ConsoleBridge.Proofs.Discovery.LostScan
import ConsoleBridge.Proofs.Process.Still

/-!
# Runs of requests on one handle

A handle should never recall an address of a process it has lost. `Faithful` states this promise for a
run of requests, whatever the process does between and during them. It is kept exactly by the runs in which
no search for main memory outlives its process.
-/
namespace ConsoleBridge

open Handle

variable {σ : Type} [ProcessMemory σ]

inductive Locator
  | ram (s : RamSearch)
  | input (s : InputSearch) (contract : ShapeContract)

def Locator.locate (l : Locator) (h : Handle σ) : Except DiscoveryError Found × Handle σ :=
  match l with
  | ram s => s.locate h
  | input s contract => s.locate contract h

/-- A request to a handle, or something that happens to the process meanwhile. -/
inductive Request (σ : Type)
  | read (address length : Nat)
  | write (address : Nat) (bytes : ByteArray)
  | regions
  | disconnect
  | scanSignature (s : RamSearch)
  | scanRegionSize (s : RamSearch)
  | locate (l : Locator)
  | meanwhile (change : σ → σ)

namespace Handle

def perform (h : Handle σ) : Request σ → Handle σ
  | .read address length => (h.read address length).2
  | .write address bytes => (h.write address bytes).2
  | .regions => h.regions.2
  | .disconnect => h.disconnect
  | .scanSignature s => (s.scanSignature h).2
  | .scanRegionSize s => (s.scanRegionSize h).2
  | .locate l => (l.locate h).2
  | .meanwhile change => { h with target := change h.target }

def run (h : Handle σ) (requests : List (Request σ)) : Handle σ := requests.foldl perform h

/-- In a run of requests nothing is recalled of a process that was lost: a handle without its process
remembers nothing, to locate something fails for the loss of the process when it is lost on the way, with
nothing remembered, and it fails so ever after. -/
structure Faithful (h : Handle σ) (requests : List (Request σ)) : Prop where
  coherent : ∀ before, before <+: requests → (h.run before).connected = false →
    (h.run before).ram = none ∧ (h.run before).input = none
  lost : ∀ before l, before ++ [.locate l] <+: requests → (h.run before).connected = true →
    (l.locate (h.run before)).2.connected = false →
      (l.locate (h.run before)).1 = .error (.access .disconnected) ∧
        (l.locate (h.run before)).2.ram = none ∧ (l.locate (h.run before)).2.input = none
  later : ∀ before between l, before ++ between ++ [.locate l] <+: requests →
    (h.run before).connected = false →
      (l.locate (h.run (before ++ between))).1 = .error (.access .disconnected)

variable {h h' : Handle σ} {requests : List (Request σ)}

theorem run_append (before behind : List (Request σ)) :
    h.run (before ++ behind) = (h.run before).run behind := List.foldl_append

theorem locate_of_gone (hg : Gone h) (l : Locator) :
    l.locate h = (.error (.access .disconnected), h) := by
  cases l with
  | ram s =>
    rw [Locator.locate, RamSearch.locate, hg.ram]
    dsimp only
    rw [s.search_of_disconnected hg.connected]
  | input s contract =>
    rw [Locator.locate, InputSearch.locate, hg.input]
    dsimp only
    rw [s.search_of_disconnected contract hg.connected]

/-- To locate something keeps the connection, or fails for the loss of the process, unless a search for main
memory outlives it. -/
theorem locate_cases (hc : h.connected = true) (l : Locator)
    (hl : ∀ s, l = .ram s → ¬ (h.ram = none ∧ s.Outlives h)) :
    (l.locate h).2.connected = true ∨
      (l.locate h).1 = .error (.access .disconnected) ∧ Gone (l.locate h).2 := by
  cases l with
  | ram s =>
    rw [Locator.locate, RamSearch.locate]
    cases hram : h.ram with
    | some found => exact .inl hc
    | none =>
      rcases RamSearch.search_cases (s := s) hc with he | ⟨o, h', -, -, ho⟩
      · dsimp only
        generalize s.search h = p at he ⊢
        cases he with
        | found keeps => exact .inl keeps.connected
        | failed keeps ne => exact .inl keeps.connected
        | gone gone => exact .inr ⟨rfl, gone⟩
      · exact absurd ⟨hram, ho⟩ (hl s rfl)
  | input s contract =>
    rw [Locator.locate, InputSearch.locate]
    cases hinput : h.input with
    | some found => exact .inl hc
    | none =>
      have he := s.search_ends contract hc
      dsimp only
      generalize s.search contract h = p at he ⊢
      cases he with
      | found keeps => exact .inl keeps.connected
      | failed keeps ne => exact .inl keeps.connected
      | gone gone => exact .inr ⟨rfl, gone⟩

/-- A handle that has lost its process stays so, whatever is asked of it. -/
theorem perform_of_gone (hg : Gone h) (r : Request σ) : Gone (h.perform r) := by
  cases r with
  | read address length =>
    rw [perform, read_of_disconnected hg.connected]
    exact hg
  | write address bytes =>
    rw [perform, write, call_of_disconnected hg.connected]
    exact hg
  | regions =>
    rw [perform, regions_of_disconnected hg.connected]
    exact hg
  | disconnect => exact gone_disconnect h
  | scanSignature s =>
    rw [perform, s.scanSignature_of_disconnected hg.connected]
    exact hg
  | scanRegionSize s =>
    rw [perform, s.scanRegionSize_of_disconnected hg.connected]
    exact hg
  | locate l =>
    rw [perform, locate_of_gone hg]
    exact hg
  | meanwhile change => exact ⟨hg.connected, hg.ram, hg.input⟩

theorem perform_of_disconnected (hc : h.connected = false) (r : Request σ) :
    (h.perform r).connected = false := by
  cases r with
  | read address length => rwa [perform, read_of_disconnected hc]
  | write address bytes => rwa [perform, write, call_of_disconnected hc]
  | regions => rwa [perform, regions_of_disconnected hc]
  | disconnect => rfl
  | scanSignature s => rwa [perform, s.scanSignature_of_disconnected hc]
  | scanRegionSize s => rwa [perform, s.scanRegionSize_of_disconnected hc]
  | locate l =>
    -- What is remembered without the process is recalled all the same.
    cases l with
    | ram s =>
      rw [perform, Locator.locate, RamSearch.locate]
      cases h.ram with
      | some found => exact hc
      | none => rwa [s.search_of_disconnected hc]
    | input s contract =>
      rw [perform, Locator.locate, InputSearch.locate]
      cases h.input with
      | some found => exact hc
      | none => rwa [s.search_of_disconnected contract hc]
  | meanwhile change => exact hc

theorem run_of_disconnected (hc : h.connected = false) (requests : List (Request σ)) :
    (h.run requests).connected = false := by
  induction requests generalizing h with
  | nil => exact hc
  | cons r rest ih => exact ih (perform_of_disconnected hc r)

private theorem run_of_gone (hg : Gone h) (requests : List (Request σ)) : Gone (h.run requests) := by
  induction requests generalizing h with
  | nil => exact hg
  | cons r rest ih => exact ih (perform_of_gone hg r)

/-- A request keeps a handle coherent, unless it is a search for main memory that outlives its process. -/
theorem perform_coherent (hh : Coherent h) (r : Request σ)
    (hr : ∀ s, r = .locate (.ram s) → ¬ (h.ram = none ∧ s.Outlives h)) : Coherent (h.perform r) := by
  cases hc : h.connected with
  | false => exact (perform_of_gone (hh.gone hc) r).coherent
  | true =>
    cases r with
    | read address length => exact (read_ends hc address length).coherent
    | write address bytes => exact (write_ends hc address bytes).coherent
    | regions => exact (regions_ends hc).coherent
    | disconnect => exact (gone_disconnect h).coherent
    | scanSignature s =>
      rcases RamSearch.scanSignature_cases (s := s) hc with he | ⟨o, h', hs, hg, -⟩
      · exact he.coherent
      · rw [perform, hs]
        exact hg.coherent
    | scanRegionSize s => exact (s.scanRegionSize_ends hc).coherent
    | locate l =>
      rcases locate_cases hc l (by rintro s rfl; exact hr s rfl) with hc' | ⟨-, hg⟩
      · exact coherent_of_connected hc'
      · exact hg.coherent
    | meanwhile change => exact coherent_of_connected hc

private theorem run_coherent (hh : Coherent h)
    (hr : ∀ before s, before ++ [.locate (.ram s)] <+: requests →
      ¬ ((h.run before).ram = none ∧ s.Outlives (h.run before))) : Coherent (h.run requests) := by
  induction requests generalizing h with
  | nil => exact hh
  | cons r rest ih =>
    apply ih
    · apply perform_coherent hh
      rintro s rfl
      exact hr [] s (by simp)
    · intro before s hb
      exact hr (r :: before) s (by simpa using hb)

private theorem connected_of_outlives {s : RamSearch} (ho : s.Outlives h) : h.connected = true := by
  obtain ⟨regions, h', hr, -⟩ := ho
  cases hc : h.connected with
  | true => rfl
  | false =>
    rw [regions_of_disconnected hc] at hr
    cases hr

/-- A search for main memory that outlives its process does not fail for the loss of it. -/
theorem locate_of_outlives {s : RamSearch} (hram : h.ram = none) (ho : s.Outlives h) :
    (s.locate h).2.connected = false ∧ (s.locate h).1 ≠ .error (.access .disconnected) := by
  obtain ⟨o, h', hs, hlost⟩ := RamSearch.search_of_outlives ho
  rw [s.locate_of_none hram, hs]
  obtain e | b := o
  · exact ⟨hlost, by simp [foundBy]⟩
  · exact ⟨hlost, by simp [foundBy]⟩

theorem Faithful.not_outlives (hf : Faithful h requests) {before : List (Request σ)} {s : RamSearch}
    (hb : before ++ [.locate (.ram s)] <+: requests) :
    ¬ ((h.run before).ram = none ∧ s.Outlives (h.run before)) := by
  rintro ⟨hram, ho⟩
  obtain ⟨hlost, hne⟩ := locate_of_outlives hram ho
  exact hne (hf.lost before (.ram s) hb (connected_of_outlives ho) hlost).1

/-- A run of requests on a fresh handle is faithful exactly when no search for main memory in it outlives its
process. -/
theorem faithful_iff (pid : Nat) (target : σ) (requests : List (Request σ)) :
    Faithful (attach pid target) requests ↔
      ∀ before s, before ++ [.locate (.ram s)] <+: requests →
        ¬ (((attach pid target).run before).ram = none ∧ s.Outlives ((attach pid target).run before)) := by
  constructor
  · exact fun hf before s hb => hf.not_outlives hb
  · intro hr
    have hcoherent : ∀ before, before <+: requests → Coherent ((attach pid target).run before) := by
      intro before hb
      apply run_coherent (coherent_of_connected rfl)
      intro before' s hb'
      exact hr before' s (hb'.trans hb)
    refine ⟨hcoherent, ?_, ?_⟩
    · intro before l hb hc hlost
      rcases locate_cases hc l (by rintro s rfl; exact hr before s hb) with hc' | ⟨he, hg⟩
      · rw [hc'] at hlost
        cases hlost
      · exact ⟨he, hg.ram, hg.input⟩
    · intro before between l hb hc
      have hbefore := (List.prefix_append before (between ++ [.locate l])).trans
        (by simpa using hb)
      have hg := run_of_gone ((hcoherent before hbefore).gone hc) between
      rw [run_append, locate_of_gone hg]

end Handle

open Bytes Signature

/-- Two anchors, the first of which points in front of the chunk, the second to a header. -/
def straddling (i : Nat) : UInt8 := if i = 796 ∨ i = 1572 then 0xB0 else if i = 1589 then 0x40 else 0

private theorem header_straddling : Header straddling 796 where
  television := by decide
  anchor := by decide
  memorySize := by decide

def straddled (base : Nat) : ImageRegion := ⟨base, .readWrite, none, copy straddling 0 1592⟩

/-- The search in chunks that are as small as they can be. -/
def narrow : RamSearch := { RamSearch.standard with chunkSize := 796 }

def vanishing (base : Nat) : ScriptedProcess := .new ⟨[straddled base], false⟩ [⟨2, .exit⟩] []

/-- The process has been read `n` times and has not exited. -/
structure Vanishes (base n : Nat) (h : Handle ScriptedProcess) : Prop where
  connected : h.connected = true
  image : h.target.image = ⟨[straddled base], false⟩
  events : h.target.events = [⟨2, .exit⟩]
  denied : h.target.denied = []
  reads : h.target.reads = n

variable {base : Nat}

private theorem limit_straddled : (straddled base).describe.limit = base + 1592 := by
  rw [Region.limit, ImageRegion.describe, straddled, size_copy]

private theorem regions_vanishing :
    ∃ h, (attach 1 (vanishing base)).regions = (.ok [(straddled base).describe], h) ∧ Vanishes base 0 h :=
  ⟨_, rfl, rfl, rfl, rfl, rfl, rfl⟩

theorem Vanishes.read {n a l : Nat} {h : Handle ScriptedProcess} (hv : Vanishes base n h) (hn : n < 2)
    (ha : base ≤ a) (hl : a + l ≤ base + 1592) :
    ∃ h', h.read a l = (.ok (copy (straddled base).memory a l), h') ∧ Vanishes base (n + 1) h' := by
  obtain ⟨pid, ⟨image, events, denied, reads, calls, room⟩, connected, ram, input⟩ := h
  obtain ⟨rfl, rfl, rfl, rfl, rfl⟩ := hv
  have hhappen : ScriptedProcess.happen
      ⟨⟨[straddled base], false⟩, [⟨2, .exit⟩], [], reads, calls, room⟩ reads =
        ⟨[straddled base], false⟩ := by
    have hne : (2 == reads) = false := by
      rw [beq_eq_false_iff_ne]
      exact Nat.ne_of_gt hn
    rw [ScriptedProcess.happen, List.filter_cons_of_neg (by simp [hne])]
    rfl
  have hread : ImageProcess.read ⟨[straddled base], false⟩ a l = .ok (copy (straddled base).memory a l) :=
    ((straddled base).read_eq rfl a l).trans (if_pos ⟨ha, limit_straddled.symm ▸ hl⟩)
  have hnext : ProcessMemory.read
      (ScriptedProcess.mk ⟨[straddled base], false⟩ [⟨2, .exit⟩] [] reads calls room) a l =
        (.ok (copy (straddled base).memory a l),
          ScriptedProcess.record ⟨⟨[straddled base], false⟩, [⟨2, .exit⟩], [], reads + 1, calls, room⟩
            ⟨.read, a, l, true⟩) := by
    change ScriptedProcess.read _ a l = _
    simp only [ScriptedProcess.read, hhappen, hread, ScriptedProcess.isDenied]
    rfl
  rw [Handle.read, call]
  dsimp only
  rw [hnext]
  cases room with
  | zero => exact ⟨_, rfl, rfl, rfl, rfl, rfl, rfl⟩
  | succ room => exact ⟨_, rfl, rfl, rfl, rfl, rfl, rfl⟩

theorem Vanishes.lost {a l : Nat} {h : Handle ScriptedProcess} (hv : Vanishes base 2 h) :
    (ProcessMemory.read h.target a l).1 = .error .disconnected := by
  obtain ⟨pid, ⟨image, events, denied, reads, calls, room⟩, connected, ram, input⟩ := h
  obtain ⟨rfl, rfl, rfl, rfl, rfl⟩ := hv
  rfl

private theorem memory_straddled {i : Nat} (hi : i < 1592) : (straddled base).memory (base + i) = straddling i :=
  ImageRegion.memory_of_copy rfl hi

private theorem anchor_straddled {i : Nat} (hi : i < 1589) :
    wordAt (straddled base).memory (base + i) = anchor ↔ i = 796 ∨ i = 1572 := by
  rw [wordAt_eq_anchor_iff, Nat.add_assoc, Nat.add_assoc, Nat.add_assoc, memory_straddled (by omega),
    memory_straddled (by omega), memory_straddled (by omega), memory_straddled (by omega)]
  simp only [straddling]
  constructor
  · rintro ⟨h, -⟩
    by_cases hi : i = 796 ∨ i = 1572
    · exact hi
    · rw [if_neg hi] at h
      split at h
      · cases h
      · cases h
  · rintro (rfl | rfl)
    · decide
    · decide

private theorem header_straddled : Header (straddled base).memory (base + 796) := by
  refine header_straddling.congr fun i hi => ?_
  have hspan : span = 796 := rfl
  rw [Nat.add_assoc]
  exact memory_straddled (by omega)

private theorem outlives_vanishing (haligned : base % 4 = 0) (hroom : base + 1592 < Address.count) :
    narrow.Outlives (attach 1 (vanishing base)) := by
  have hlimit := @limit_straddled base
  have hspan : span = 796 := rfl
  have hanchor : anchorOffset = 776 := rfl
  have hbase : (straddled base).describe.base = base := rfl
  have hstride : stride narrow.chunkSize = 796 := rfl
  obtain ⟨h₀, hregions, hv₀⟩ := @regions_vanishing base
  obtain ⟨h₁, hfirst, hv₁⟩ := hv₀.read (a := base) (l := 1592) (by omega) (by omega) (by omega)
  obtain ⟨h₂, hsecond, hv₂⟩ := hv₁.read (a := base + 796) (l := 796) (by omega) (by omega) (by omega)
  have hcomes : ∀ start < base + 1592, Comes (straddled base).describe narrow.chunkSize start := by
    intro start hstart
    refine ⟨sumsFit_iff.mpr ⟨by omega, by omega, fun _ => ?_⟩, by omega⟩
    rw [hstride, hspan]
    decide
  have hlength₁ : chunkLength (straddled base).describe narrow.chunkSize base = 1592 := by
    rw [chunkLength, hlimit, hstride, hspan]
    omega
  have hlength₂ : chunkLength (straddled base).describe narrow.chunkSize (base + 796) = 796 := by
    rw [chunkLength, hlimit, hstride, hspan]
    omega
  have hstop : ∀ a n, 796 ≤ n → chunkStop narrow.chunkSize (copy (straddled base).memory a n) = 796 := by
    intro a n hn
    rw [chunkStop, hstride, size_copy]
    omega
  have hreadable : [(straddled base).describe].filter Region.isReadable = [(straddled base).describe] := rfl
  refine ⟨_, h₀, hregions, [], (straddled base).describe, [], h₀, hreadable, rfl, ?_⟩
  refine ⟨h₁, base + 796, copy (straddled base).memory (base + 796) 796, h₂, 0, ?_,
    hcomes _ (by omega), ?_, ?_, .inl ?_⟩
  · rw [← hlength₁] at hfirst
    refine .barren (hcomes _ (by omega)) hfirst ?_ (.refl _ _)
    apply scanChunk_of_no_points
    rw [hlength₁, hstop _ _ (by omega)]
    rintro k (e | b) hik hk hp
    · obtain ⟨b, hb, -, -, hcount⟩ := baseOf?_eq_error_iff.mp hp.base
      omega
    · rw [hbase, points_copy, anchor_straddled (by omega)] at hp
      omega
  · rw [hlength₂]
    exact hsecond
  · rw [hstop _ _ (by omega)]
    refine ⟨base + 20, h₂, by omega, by omega, scanChunk_stop h₂ (by omega), hv₂.connected, ?_, by omega,
      hv₂.lost⟩
    rw [points_copy, hlimit, hbase]
    exact ⟨by omega, (@anchor_straddled base 796 (by omega)).mpr (.inl rfl), by omega, by omega, by omega,
      by omega, by omega⟩
  · rw [hstop _ _ (by omega)]
    refine ⟨776, .ok (base + 796), by omega, by omega, ?_, ?_⟩
    · rw [points_copy, hlimit, hbase, Nat.add_assoc]
      exact ⟨by omega, (@anchor_straddled base 1572 (by omega)).mpr (.inr rfl), by omega, by omega, by omega,
        by omega, by omega⟩
    · rintro _ ⟨⟩
      rw [Nat.sub_self, headerAt_copy]
      exact ⟨by omega, by omega, header_straddled⟩

theorem not_faithful_vanishing :
    ¬ Faithful (attach 1 (vanishing 0x100000)) [.locate (.ram narrow)] := by
  intro hf
  have hb : ([] ++ [.locate (.ram narrow)] : List (Request ScriptedProcess)) <+: [.locate (.ram narrow)] :=
    List.prefix_refl _
  exact hf.not_outlives hb ⟨rfl, outlives_vanishing (by decide) (by decide)⟩

end ConsoleBridge
