import ConsoleBridge.Discovery.Ram
import ConsoleBridge.Proofs.Discovery.ChunkScan
import ConsoleBridge.Proofs.Process.Recording

/-!
# Searches on twin handles

Two handles are twins when whatever is asked of the one is answered as by the other. A search for main memory
finds the same through twins and leaves them twins, for it knows a process by the answers alone.
-/
namespace ConsoleBridge

open Handle

namespace Handle

variable {σ τ α : Type} {R : Handle σ → Handle τ → Prop}

inductive Paired (R : Handle σ → Handle τ → Prop) : α × Handle σ → α × Handle τ → Prop
  | intro {a h k} (related : R h k) : Paired R (a, h) (a, k)

theorem Paired.exists_eq {p : α × Handle σ} {q : α × Handle τ} (hp : Paired R p q) {a : α} {h : Handle σ}
    (ha : p = (a, h)) : ∃ k, q = (a, k) ∧ R h k := by
  cases hp with
  | @intro _ _ k related =>
    cases ha
    exact ⟨k, rfl, related⟩

/-- Related handles are answered alike and stay related. -/
structure Twins [ProcessMemory σ] [ProcessMemory τ] (R : Handle σ → Handle τ → Prop) : Prop where
  connected : ∀ {h k}, R h k → h.connected = k.connected
  read : ∀ {h k}, R h k → ∀ address length, Paired R (h.read address length) (k.read address length)
  regions : ∀ {h k}, R h k → Paired R h.regions k.regions

end Handle

variable {σ τ : Type} [ProcessMemory σ] [ProcessMemory τ] {R : Handle σ → Handle τ → Prop}
variable {h : Handle σ} {k : Handle τ} (hR : Twins R) (hr : R h k)

namespace Signature

variable {region : Region} {start stop i size : Nat} {chunk : ByteArray} {p : Option Hit × Handle σ}

include hR hr in
theorem confirm_paired (start : Nat) (chunk : ByteArray) (base : Nat) :
    Paired R (confirm h start chunk base) (confirm k start chunk base) := by
  rw [confirm, confirm]
  split
  · exact .intro hr
  · rcases hread : h.read base span with ⟨answer, h'⟩
    obtain ⟨k', hk, hr'⟩ := (hR.read hr base span).exists_eq hread
    rw [hk]
    cases answer with
    | ok header => exact .intro hr'
    | error e => exact .intro hr'

include hR hr in
theorem Scans.paired (hrun : Scans region start chunk stop h i p) :
    Paired R p (scanChunk k region start chunk stop i) := by
  induction hrun generalizing k with
  | done hi =>
    rw [scanChunk_stop k hi]
    exact .intro hr
  | pass hi hp rest ih =>
    rw [scanChunk_pass k hi hp]
    exact ih hr
  | stray hi hp =>
    rw [scanChunk_stray k hi hp]
    exact .intro hr
  | @hit h h' i b hi hp hc =>
    obtain ⟨k', hk, hr'⟩ := (confirm_paired hR hr start chunk b).exists_eq hc
    rw [scanChunk_point k hi hp, hk]
    exact .intro hr'
  | @miss h h' i b r hi hp hc rest ih =>
    obtain ⟨k', hk, hr'⟩ := (confirm_paired hR hr start chunk b).exists_eq hc
    rw [scanChunk_point k hi hp, hk]
    exact ih hr'

include hR hr in
theorem scanChunk_paired (region : Region) (start : Nat) (chunk : ByteArray) (stop i : Nat) :
    Paired R (scanChunk h region start chunk stop i) (scanChunk k region start chunk stop i) :=
  (scans_scanChunk region start chunk stop h i).paired hR hr

include hR hr in
theorem Sweeps.paired (hrun : Sweeps region size h start p) : Paired R p (scanFrom k region size start) := by
  induction hrun generalizing k with
  | overflow hf =>
    rw [scanFrom_overflow k hf]
    exact .intro hr
  | finish hf hs =>
    rw [scanFrom_end k hf hs]
    exact .intro hr
  | @found h start chunk h₁ o h₂ hs hread hc =>
    obtain ⟨k₁, hk₁, hr₁⟩ := (hR.read hr _ _).exists_eq hread
    obtain ⟨k₂, hk₂, hr₂⟩ := (scanChunk_paired hR hr₁ region start chunk _ 0).exists_eq hc
    rw [scanFrom_chunk hs hk₁, hk₂]
    exact .intro hr₂
  | @barren h start chunk h₁ h₂ r hs hread hc rest ih =>
    obtain ⟨k₁, hk₁, hr₁⟩ := (hR.read hr _ _).exists_eq hread
    obtain ⟨k₂, hk₂, hr₂⟩ := (scanChunk_paired hR hr₁ region start chunk _ 0).exists_eq hc
    rw [scanFrom_chunk hs hk₁, hk₂]
    exact ih hr₂
  | skip hs hread rest ih =>
    obtain ⟨k₁, hk₁, hr₁⟩ := (hR.read hr _ _).exists_eq hread
    rw [scanFrom_skip hs hk₁]
    exact ih hr₁
  | lost hs hread =>
    obtain ⟨k₁, hk₁, hr₁⟩ := (hR.read hr _ _).exists_eq hread
    rw [scanFrom_lost hs hk₁]
    exact .intro hr₁

include hR hr in
theorem scan_paired (region : Region) (size : Nat) : Paired R (scan h region size) (scan k region size) :=
  (sweeps_scanFrom region size h region.base).paired hR hr

end Signature

namespace RamSearch

variable (s : RamSearch)

include hR hr in
private theorem firstSignature_paired (regions : List Region) :
    Paired R (s.firstSignature h regions) (s.firstSignature k regions) := by
  induction regions generalizing h k with
  | nil => exact .intro hr
  | cons region rest ih =>
    rw [firstSignature, firstSignature]
    rcases hscan : Signature.scan h region s.chunkSize with ⟨answer, h'⟩
    obtain ⟨k', hk, hr'⟩ := (Signature.scan_paired hR hr region s.chunkSize).exists_eq hscan
    rw [hk]
    cases answer with
    | some base => exact .intro hr'
    | none =>
      dsimp only
      rw [hR.connected hr']
      split
      · exact ih hr'
      · exact .intro hr'

include hR hr in
private theorem firstReadable_paired (regions : List Region) :
    Paired R (firstReadable h regions) (firstReadable k regions) := by
  induction regions generalizing h k with
  | nil => exact .intro hr
  | cons region rest ih =>
    rw [firstReadable, firstReadable]
    rcases hread : h.read region.base 4 with ⟨answer, h'⟩
    obtain ⟨k', hk, hr'⟩ := (hR.read hr region.base 4).exists_eq hread
    rw [hk]
    rcases answer with (⟨⟩ | ⟨⟩) | bytes
    · exact ih hr'
    · exact .intro hr'
    · exact .intro hr'

include hR hr in
private theorem scanSignature_paired : Paired R (s.scanSignature h) (s.scanSignature k) := by
  rw [scanSignature, scanSignature]
  rcases hregions : h.regions with ⟨answer, h'⟩
  obtain ⟨k', hk, hr'⟩ := (hR.regions hr).exists_eq hregions
  rw [hk]
  cases answer with
  | ok regions => exact s.firstSignature_paired hR hr' _
  | error e => exact .intro hr'

include hR hr in
theorem scanRegionSize_paired : Paired R (s.scanRegionSize h) (s.scanRegionSize k) := by
  rw [scanRegionSize, scanRegionSize]
  rcases hregions : h.regions with ⟨answer, h'⟩
  obtain ⟨k', hk, hr'⟩ := (hR.regions hr).exists_eq hregions
  rw [hk]
  cases answer with
  | ok regions => exact firstReadable_paired hR hr' _
  | error e => exact .intro hr'

include hR hr in
/-- Through twins the same main memory is found. -/
theorem search_paired : Paired R (s.search h) (s.search k) := by
  rw [search, search]
  rcases hsignature : s.scanSignature h with ⟨answer, h₁⟩
  obtain ⟨k₁, hk₁, hr₁⟩ := (s.scanSignature_paired hR hr).exists_eq hsignature
  rw [hk₁]
  rcases answer with e | ⟨⟩ | base
  · exact .intro hr₁
  · dsimp only
    rcases hsize : s.scanRegionSize h₁ with ⟨answer, h₂⟩
    obtain ⟨k₂, hk₂, hr₂⟩ := (s.scanRegionSize_paired hR hr₁).exists_eq hsize
    rw [hk₂]
    rcases answer with e | ⟨⟩ | base
    · exact .intro hr₂
    · exact .intro hr₂
    · exact .intro hr₂
  · exact .intro hr₁

end RamSearch

end ConsoleBridge
