import ConsoleBridge.Proofs.Discovery.ChunkScan
import ConsoleBridge.Proofs.Discovery.SearchEnds

/-!
# A scan for the signature that outlives its process

When the header of a candidate is read once more and the process is found gone, the scan goes on with the
rest of the chunk, which has been read before. `LosesIn` says where in a chunk this happens and `Shows` whether
the rest of the chunk then decides the scan; `Outlives` puts them together, and is the only way in which a
search for main memory ends otherwise than with this loss on a handle that has lost its process.
-/
namespace ConsoleBridge

open Handle

variable {σ : Type} [ProcessMemory σ]

namespace Signature

variable {region : Region} {size start stop i j b : Nat} {chunk : ByteArray} {h h' : Handle σ}

/-- Without the process the chunk decides the scan at one of the positions from `i` on: a header that is wholly
in the chunk is confirmed, or looking for one stops the scan. -/
def Shows (region : Region) (start : Nat) (chunk : ByteArray) (stop i : Nat) : Prop :=
  ∃ k o, i ≤ k ∧ k < stop ∧ Points region start chunk k o ∧
    ∀ b, o = .ok b → start ≤ b ∧ headerAt chunk (b - start) = true

/-- The anchors from `i` on in front of `j` bring nothing; the one at `j` points in front of the chunk, and
reading the header there finds the process gone. -/
def LosesIn (h : Handle σ) (region : Region) (start : Nat) (chunk : ByteArray) (stop i j : Nat) : Prop :=
  ∃ b h', i ≤ j ∧ j < stop ∧ scanChunk h region start chunk j i = (none, h') ∧
    h'.connected = true ∧ Points region start chunk j (.ok b) ∧ b < start ∧
    (ProcessMemory.read h'.target b span).1 = .error .disconnected

theorem Shows.later (hs : Shows region start chunk stop (i + 1)) : Shows region start chunk stop i := by
  obtain ⟨k, o, hi, hk⟩ := hs
  exact ⟨k, o, by omega, hk⟩

/-- A position that does not decide the scan itself leaves it to the later ones. -/
theorem Shows.of_not_here (hs : Shows region start chunk stop i)
    (hn : ∀ o, Points region start chunk i o → ∃ b, o = .ok b ∧
      ¬ (start ≤ b ∧ headerAt chunk (b - start) = true)) :
    Shows region start chunk stop (i + 1) := by
  obtain ⟨k, o, hi, hk, hp, hh⟩ := hs
  have hne : k ≠ i := by
    rintro rfl
    obtain ⟨b, ho, hnot⟩ := hn o hp
    exact hnot (hh b ho)
  exact ⟨k, o, by omega, hk, hp, hh⟩

theorem Points.unique {o o' : Hit} (hp : Points region start chunk i o) (hp' : Points region start chunk i o') :
    o' = o := Option.some.inj (hp'.base.symm.trans hp.base)

/-- Without the process only a header that is in the chunk can be confirmed. -/
theorem confirm_of_disconnected (hc : h.connected = false) (start : Nat) (chunk : ByteArray) (b : Nat) :
    confirm h start chunk b = (decide (start ≤ b) && headerAt chunk (b - start), h) := by
  rw [confirm]
  split
  · rename_i hin
    simp [hin.1]
  · rename_i hout
    rw [read_of_disconnected hc]
    simp only [Prod.mk.injEq, and_true]
    symm
    rw [Bool.and_eq_false_iff, decide_eq_false_iff_not]
    by_cases hb : start ≤ b
    · exact .inr (Bool.eq_false_iff.mpr fun hh => hout ⟨hb, size_of_headerAt hh⟩)
    · exact .inl hb

/-- Without the process the scan of a chunk comes upon what the chunk shows. -/
theorem Scans.of_disconnected {r : Option Hit × Handle σ} (hs : Scans region start chunk stop h i r)
    (hc : h.connected = false) : r.2 = h ∧ (r.1 ≠ none ↔ Shows region start chunk stop i) := by
  induction hs with
  | done hi =>
    refine ⟨rfl, by simp, ?_⟩
    rintro ⟨k, o, hik, hk, -⟩
    omega
  | pass hi hp rest ih =>
    obtain ⟨hh, hr⟩ := ih hc
    exact ⟨hh, hr.trans ⟨.later, fun hs => hs.of_not_here fun o ho => absurd ho (hp o)⟩⟩
  | @stray h i e hi hp => exact ⟨rfl, fun _ => ⟨i, _, Nat.le_refl i, hi, hp, nofun⟩, fun _ => by simp⟩
  | @hit h h' i b hi hp hconf =>
    rw [confirm_of_disconnected hc, Prod.mk.injEq, Bool.and_eq_true, decide_eq_true_eq] at hconf
    obtain ⟨hin, rfl⟩ := hconf
    refine ⟨rfl, fun _ => ⟨i, _, Nat.le_refl i, hi, hp, ?_⟩, fun _ => by simp⟩
    rintro _ ⟨⟩
    exact hin
  | @miss h h' i b r hi hp hconf rest ih =>
    rw [confirm_of_disconnected hc, Prod.mk.injEq, Bool.and_eq_false_iff, decide_eq_false_iff_not] at hconf
    obtain ⟨hn, rfl⟩ := hconf
    obtain ⟨hh, hr⟩ := ih hc
    refine ⟨hh, hr.trans ⟨.later, fun hs => hs.of_not_here fun o ho => ⟨b, hp.unique ho, fun hin => ?_⟩⟩⟩
    rcases hn with hn | hn
    · exact hn hin.1
    · exact Bool.false_ne_true (hn.symm.trans hin.2)

/-- With the process at hand, confirming a header keeps the connection, or finds the process gone because
the header is not in the chunk. -/
theorem confirm_cases (hc : h.connected = true) (start : Nat) (chunk : ByteArray) (b : Nat) :
    Keeps h (confirm h start chunk b).2 ∨
      ((confirm h start chunk b).1 = false ∧ Gone (confirm h start chunk b).2 ∧
        ¬ (start ≤ b ∧ b - start + span ≤ chunk.size) ∧
        (ProcessMemory.read h.target b span).1 = .error .disconnected) := by
  rw [confirm]
  split
  · exact .inl (Keeps.refl hc)
  · rename_i hout
    have hr := read_ends hc b span
    have ha := fst_read hc b span
    generalize h.read b span = p at hr ha ⊢
    cases hr with
    | found keeps => exact .inl keeps
    | failed keeps ne => exact .inl keeps
    | gone gone => exact .inr ⟨rfl, gone, hout, ha.symm⟩

theorem Scans.keeps_or_gone {r : Option Hit × Handle σ} (hs : Scans region start chunk stop h i r)
    (hc : h.connected = true) : Keeps h r.2 ∨ Gone r.2 := by
  induction hs with
  | done hi => exact .inl (Keeps.refl hc)
  | pass hi hp rest ih => exact ih hc
  | stray hi hp => exact .inl (Keeps.refl hc)
  | @hit h h' i b hi hp hconf =>
    have hcases := confirm_cases hc start chunk b
    rw [hconf] at hcases
    exact hcases.imp_right fun hg => hg.2.1
  | @miss h h' i b r hi hp hconf rest ih =>
    have hcases := confirm_cases hc start chunk b
    rw [hconf] at hcases
    rcases hcases with hk | ⟨-, hg, -⟩
    · exact (ih hk.connected).imp_left hk.trans
    · rw [(rest.of_disconnected hg.connected).1]
      exact .inr hg

/-- A scan that loses the process behind an anchor that brings nothing loses it in front of it. -/
theorem LosesIn.earlier (hl : LosesIn h' region start chunk stop (i + 1) j)
    (hs : i < j → scanChunk h region start chunk j i = scanChunk h' region start chunk j (i + 1)) :
    LosesIn h region start chunk stop i j := by
  obtain ⟨b, h'', hi, hj, hscan, hl⟩ := hl
  exact ⟨b, h'', by omega, hj, (hs (by omega)).trans hscan, hl⟩

/-- A scan of a chunk that ends without the process has lost it in the way of `LosesIn`, and comes upon what the
rest of the chunk shows. -/
theorem Scans.losesIn {r : Option Hit × Handle σ} (hs : Scans region start chunk stop h i r)
    (hsize : chunk.size = chunkLength region size start) (hstop : stop = chunkStop size chunk)
    (hc : h.connected = true) (hlost : r.2.connected = false) :
    ∃ j, LosesIn h region start chunk stop i j ∧ (r.1 ≠ none ↔ Shows region start chunk stop (j + 1)) := by
  induction hs with
  | done hi => exact absurd (hc.symm.trans hlost) Bool.noConfusion
  | pass hi hp rest ih =>
    obtain ⟨j, hl, hr⟩ := ih hc hlost
    exact ⟨j, hl.earlier fun hj => scanChunk_pass _ hj hp, hr⟩
  | stray hi hp => exact absurd (hc.symm.trans hlost) Bool.noConfusion
  | @hit h h' i b hi hp hconf =>
    have hcases := confirm_cases hc start chunk b
    rw [hconf] at hcases
    rcases hcases with hk | ⟨hfalse, -⟩
    · exact absurd (hk.connected.symm.trans hlost) Bool.noConfusion
    · cases hfalse
  | @miss h h' i b r hi hp hconf rest ih =>
    have hcases := confirm_cases hc start chunk b
    rw [hconf] at hcases
    rcases hcases with hk | ⟨-, hg, hout, hread⟩
    · obtain ⟨j, hl, hr⟩ := ih hk.connected hlost
      refine ⟨j, hl.earlier fun hj => ?_, hr⟩
      rw [scanChunk_point _ hj hp, hconf]
    · -- Only a header in front of the chunk is read once more, so the anchor is the one of `LosesIn`.
      have hb : b < start := by
        by_cases hb : start ≤ b
        · exact absurd ⟨hb, hp.inside hsize (hstop ▸ hi) hb⟩ hout
        · omega
      exact ⟨i, ⟨b, h, Nat.le_refl i, hi, scanChunk_stop h (Nat.le_refl i), hc, hp, hb, hread⟩,
        (rest.of_disconnected hg.connected).2⟩

private theorem scanChunk_of_losesIn (hl : LosesIn h region start chunk stop i j) :
    (scanChunk h region start chunk stop i).2.connected = false ∧
      ((scanChunk h region start chunk stop i).1 ≠ none ↔ Shows region start chunk stop (j + 1)) := by
  obtain ⟨b, h', hi, hj, hscan, hc, hp, hb, hread⟩ := hl
  rw [scanChunk_split hi (by omega) hscan, scanChunk_point h' hj hp, confirm_before h' hb]
  have hr := read_ends hc b span
  rw [← fst_read hc] at hread
  generalize h'.read b span = p at hr hread ⊢
  cases hr with
  | found keeps => cases hread
  | failed keeps ne =>
    cases hread
    exact absurd rfl ne
  | @gone h'' hg =>
    have hs := scans_scanChunk region start chunk stop h'' (j + 1)
    obtain ⟨hh, hr⟩ := hs.of_disconnected hg.connected
    exact ⟨(congrArg Handle.connected hh).trans hg.connected, hr⟩

/-- The handle that the search of a region comes to the chunk from `start'` on with, when it comes to the one
from `start` on with `h`: the chunks between cannot be read, or nothing is found in them. -/
inductive Reaches (region : Region) (size : Nat) : Handle σ → Nat → Handle σ → Nat → Prop
  | refl (h : Handle σ) (start : Nat) : Reaches region size h start h start
  | skip {h start address length h₁ h' start'} (hs : Comes region size start)
      (hr : h.read start (chunkLength region size start) = (.error (.unmapped address length), h₁))
      (rest : Reaches region size h₁ (start + stride size) h' start') :
      Reaches region size h start h' start'
  | barren {h start chunk h₁ h₂ h' start'} (hs : Comes region size start)
      (hr : h.read start (chunkLength region size start) = (.ok chunk, h₁))
      (hc : scanChunk h₁ region start chunk (chunkStop size chunk) 0 = (none, h₂))
      (rest : Reaches region size h₂ (start + stride size) h' start') :
      Reaches region size h start h' start'

/-- The search of a region loses the process in one of the chunks it comes to, and then either this chunk shows
something or the next one starts beyond the addresses. -/
def Outlives (h : Handle σ) (region : Region) (size start : Nat) : Prop :=
  ∃ h₁ start' chunk h₂ j, Reaches region size h start h₁ start' ∧ Comes region size start' ∧
    h₁.read start' (chunkLength region size start') = (.ok chunk, h₂) ∧
    LosesIn h₂ region start' chunk (chunkStop size chunk) 0 j ∧
    (Shows region start' chunk (chunkStop size chunk) (j + 1) ∨ Address.count ≤ start' + stride size)

/-- Of the sums for the next chunk only its start can fail to fit. -/
theorem Comes.next_iff (hs : Comes region size start) :
    sumsFit region size (start + stride size) = false ↔ Address.count ≤ start + stride size := by
  obtain ⟨-, hlimit, hlength⟩ := sumsFit_iff.mp hs.fits
  rw [← Bool.not_eq_true, sumsFit_iff, ← Nat.not_lt]
  exact not_congr ⟨And.left, fun hn => ⟨hn, hlimit, fun _ => hlength hs.inside⟩⟩

/-- Without the process the search of a region comes upon nothing but a sum that does not fit. -/
theorem Sweeps.of_disconnected {r : Option Hit × Handle σ} (hs : Sweeps region size h start r)
    (hc : h.connected = false) : r.2 = h ∧ (r.1 ≠ none ↔ sumsFit region size start = false) := by
  cases hs with
  | overflow hf => exact ⟨rfl, by simp [hf]⟩
  | finish hf hs => exact ⟨rfl, by simp [hf]⟩
  | found hs hr hscan =>
    rw [read_of_disconnected hc] at hr
    cases hr
  | barren hs hr hscan rest =>
    rw [read_of_disconnected hc] at hr
    cases hr
  | skip hs hr rest =>
    rw [read_of_disconnected hc] at hr
    cases hr
  | lost hs hr =>
    rw [read_of_disconnected hc] at hr
    cases hr
    exact ⟨rfl, by simp [hs.fits]⟩

theorem Sweeps.keeps_or_gone {r : Option Hit × Handle σ} (hs : Sweeps region size h start r)
    (hc : h.connected = true) : Keeps h r.2 ∨ Gone r.2 := by
  induction hs with
  | overflow hf => exact .inl (Keeps.refl hc)
  | finish hf hs => exact .inl (Keeps.refl hc)
  | @found h start chunk h₁ o h₂ hs hr hscan =>
    have hk := keeps_of_read hr
    have hchunk := (scans_scanChunk region start chunk (chunkStop size chunk) h₁ 0).keeps_or_gone
      hk.connected
    rw [hscan] at hchunk
    exact hchunk.imp_left hk.trans
  | @barren h start chunk h₁ h₂ r hs hr hscan rest ih =>
    have hk := keeps_of_read hr
    have hchunk := (scans_scanChunk region start chunk (chunkStop size chunk) h₁ 0).keeps_or_gone
      hk.connected
    rw [hscan] at hchunk
    rcases hchunk with hk' | hg
    · exact (ih hk'.connected).imp_left (hk.trans hk').trans
    · rw [(rest.of_disconnected hg.connected).1]
      exact .inr hg
  | skip hs hr rest ih =>
    have hk := keeps_of_unmapped hr
    exact (ih hk.connected).imp_left hk.trans
  | lost hs hr => exact .inr (gone_of_read hc hr)

/-- A chunk that is scanned without the process at the end lost it in the way of `LosesIn`. -/
theorem losesIn_of_read {h₁ h₂ : Handle σ} {o : Option Hit}
    (hr : h.read start (chunkLength region size start) = (.ok chunk, h₁))
    (hscan : scanChunk h₁ region start chunk (chunkStop size chunk) 0 = (o, h₂))
    (hlost : h₂.connected = false) :
    ∃ j, LosesIn h₁ region start chunk (chunkStop size chunk) 0 j ∧
      (o ≠ none ↔ Shows region start chunk (chunkStop size chunk) (j + 1)) := by
  have hrun := scans_scanChunk region start chunk (chunkStop size chunk) h₁ 0
  rw [hscan] at hrun
  exact hrun.losesIn (size_of_read (congrArg Prod.fst hr)) rfl (keeps_of_read hr).connected hlost

/-- What the search of a region comes upon after the process was lost it comes upon in the way of `Outlives`. -/
theorem Sweeps.outlives {r : Option Hit × Handle σ} (hs : Sweeps region size h start r)
    (hc : h.connected = true) (hfound : r.1 ≠ none) (hlost : r.2.connected = false) :
    Outlives h region size start := by
  induction hs with
  | overflow hf => exact absurd (hc.symm.trans hlost) Bool.noConfusion
  | finish hf hs => exact absurd rfl hfound
  | @found h start chunk h₁ o h₂ hs hr hscan =>
    obtain ⟨j, hl, hshows⟩ := losesIn_of_read hr hscan hlost
    exact ⟨h, start, chunk, h₁, j, .refl h start, hs, hr, hl, .inl (hshows.mp hfound)⟩
  | @barren h start chunk h₁ h₂ r hs hr hscan rest ih =>
    cases hc₂ : h₂.connected with
    | true =>
      obtain ⟨h', start', chunk', h'', j, hreach, ho⟩ := ih hc₂ hfound hlost
      exact ⟨h', start', chunk', h'', j, .barren hs hr hscan hreach, ho⟩
    | false =>
      -- The chunk showed nothing, so it is the next one that does not start at an address.
      obtain ⟨j, hl, -⟩ := losesIn_of_read hr hscan hc₂
      have hnext := (rest.of_disconnected hc₂).2.mp hfound
      exact ⟨h, start, chunk, h₁, j, .refl h start, hs, hr, hl, .inr (hs.next_iff.mp hnext)⟩
  | skip hs hr rest ih =>
    obtain ⟨h', start', chunk', h'', j, hreach, ho⟩ := ih (keeps_of_unmapped hr).connected hfound hlost
    exact ⟨h', start', chunk', h'', j, .skip hs hr hreach, ho⟩
  | lost hs hr => exact absurd rfl hfound

private theorem scanFrom_of_outlives (ho : Outlives h region size start) :
    (scanFrom h region size start).1 ≠ none ∧ (scanFrom h region size start).2.connected = false := by
  obtain ⟨h₁, start', chunk, h₂, j, hreach, hs, hr, hl, ho⟩ := ho
  induction hreach with
  | refl h start =>
    rw [scanFrom_chunk hs hr]
    obtain ⟨hlost, hshows⟩ := scanChunk_of_losesIn hl
    generalize scanChunk h₂ region start chunk (chunkStop size chunk) 0 = p at hlost hshows ⊢
    obtain ⟨⟨⟩ | o, h'⟩ := p
    · have hcount := ho.resolve_left fun hs => hshows.mpr hs rfl
      dsimp only
      rw [scanFrom_overflow h' (hs.next_iff.mpr hcount)]
      exact ⟨by simp, hlost⟩
    · exact ⟨by simp, hlost⟩
  | skip hs' hr' rest ih =>
    rw [scanFrom_skip hs' hr']
    exact ih hs hr hl ho
  | barren hs' hr' hscan rest ih =>
    rw [scanFrom_chunk hs' hr', hscan]
    exact ih hs hr hl ho

end Signature

namespace RamSearch

variable {s : RamSearch} {h h' : Handle σ}

/-- Some of the regions is searched beyond the end of the process, and nothing is found in those in front
of it. -/
def OutlivesAmong (s : RamSearch) (h : Handle σ) (regions : List Region) : Prop :=
  ∃ before region behind h', regions = before ++ region :: behind ∧
    s.firstSignature h before = (.ok none, h') ∧
    Signature.Outlives h' region s.chunkSize region.base

/-- The search for the signature comes upon something after it has lost the process. -/
def Outlives (s : RamSearch) (h : Handle σ) : Prop :=
  ∃ regions h', h.regions = (.ok regions, h') ∧ s.OutlivesAmong h' (regions.filter Region.isReadable)

private theorem firstSignature_append {before behind : List Region}
    (hb : s.firstSignature h before = (.ok none, h')) :
    s.firstSignature h (before ++ behind) = s.firstSignature h' behind := by
  induction before generalizing h with
  | nil =>
    cases hb
    rfl
  | cons region rest ih =>
    rw [firstSignature] at hb
    rw [List.cons_append, firstSignature]
    generalize Signature.scan h region s.chunkSize = p at hb ⊢
    obtain ⟨⟨⟩ | ⟨e | b⟩, h₁⟩ := p
    · dsimp only at hb ⊢
      split at hb
      · rename_i hc
        rw [if_pos hc]
        exact ih hb
      · cases hb
    · cases hb
    · cases hb

private theorem firstSignature_cases (hc : h.connected = true) (regions : List Region) :
    Ends (.access .disconnected) h (s.firstSignature h regions) ∨
      ∃ o h', s.firstSignature h regions = (answered (some o), h') ∧ Gone h' ∧ s.OutlivesAmong h regions := by
  induction regions generalizing h with
  | nil => exact .inl (.found (Keeps.refl hc))
  | cons region rest ih =>
    have hs := Signature.sweeps_scanFrom region s.chunkSize h region.base
    have hk := hs.keeps_or_gone hc
    rw [firstSignature, Signature.scan]
    rcases hscan : Signature.scanFrom h region s.chunkSize region.base with ⟨⟨⟩ | o, h₁⟩
    · rw [hscan] at hk
      rcases hk with hk | hg
      · dsimp only
        rw [if_pos hk.connected]
        refine (ih hk.connected).imp (·.of_keeps hk) ?_
        rintro ⟨o, h', hf, hg, before, region', behind, h'', rfl, hb, ho⟩
        refine ⟨o, h', hf, hg, region :: before, region', behind, h'', rfl, ?_, ho⟩
        rw [firstSignature, Signature.scan, hscan]
        dsimp only
        rw [if_pos hk.connected, hb]
      · have hd : h₁.connected = false := hg.connected
        dsimp only
        rw [if_neg (by simp [hd])]
        exact .inl (.gone hg)
    · rw [hscan] at hs hk
      rcases hk with hk | hg
      · exact .inl (hk.ends_answered _)
      · -- The scan went on although the process is gone: this is the region that outlives it.
        refine .inr ⟨o, h₁, rfl, hg, [], region, rest, h, rfl, rfl, ?_⟩
        exact hs.outlives hc (by simp) hg.connected

private theorem firstSignature_of_outlivesAmong {regions : List Region} (ho : s.OutlivesAmong h regions) :
    ∃ o h', s.firstSignature h regions = (answered (some o), h') ∧ h'.connected = false := by
  obtain ⟨before, region, behind, h', rfl, hb, ho⟩ := ho
  obtain ⟨hfound, hlost⟩ := Signature.scanFrom_of_outlives ho
  rw [firstSignature_append hb, firstSignature, Signature.scan]
  generalize Signature.scanFrom h' region s.chunkSize region.base = p at hfound hlost ⊢
  obtain ⟨⟨⟩ | o, h''⟩ := p
  · exact absurd rfl hfound
  · exact ⟨o, h'', rfl, hlost⟩

/-- The search for the signature hands on the loss of the process, unless it outlives it. -/
theorem scanSignature_cases (hc : h.connected = true) :
    Ends (.access .disconnected) h (s.scanSignature h) ∨
      ∃ o h', s.scanSignature h = (answered (some o), h') ∧ Gone h' ∧ s.Outlives h := by
  have he := regions_ends hc
  rw [scanSignature]
  rcases hr : h.regions with ⟨e | regions, h₁⟩
  · rw [hr] at he
    cases he with
    | failed keeps ne => exact .inl (.failed keeps (by simpa using ne))
    | gone gone => exact .inl (.gone gone)
  · rw [hr] at he
    cases he with
    | found keeps =>
      refine (firstSignature_cases keeps.connected _).imp (·.of_keeps keeps) ?_
      rintro ⟨o, h', hf, hg, ho⟩
      exact ⟨o, h', hf, hg, regions, h₁, hr, ho⟩

private theorem scanSignature_of_outlives (ho : s.Outlives h) :
    ∃ o h', s.scanSignature h = (answered (some o), h') ∧ h'.connected = false := by
  obtain ⟨regions, h₁, hr, ho⟩ := ho
  rw [scanSignature, hr]
  exact firstSignature_of_outlivesAmong ho

/-- What the search for the signature comes upon is the answer. -/
theorem search_of_signature {o : Hit} (hs : s.scanSignature h = (answered (some o), h')) :
    s.search h = (foundBy .signature o, h') := by
  rw [search, hs]
  obtain e | b := o
  · rfl
  · rfl

theorem search_cases (hc : h.connected = true) :
    Ends (.access .disconnected) h (s.search h) ∨
      ∃ o h', s.search h = (foundBy .signature o, h') ∧ Gone h' ∧ s.Outlives h := by
  rcases scanSignature_cases (s := s) hc with he | ⟨o, h', hf, hg, ho⟩
  · left
    apply he.orElse
    intro h' hc'
    apply (s.scanRegionSize_ends hc').orElse
    intro h'' hc''
    exact .failed (Keeps.refl hc'') (by simp)
  · exact .inr ⟨o, h', search_of_signature hf, hg, ho⟩

theorem search_of_outlives (ho : s.Outlives h) :
    ∃ o h', s.search h = (foundBy .signature o, h') ∧ h'.connected = false := by
  obtain ⟨o, h', hf, hlost⟩ := scanSignature_of_outlives ho
  exact ⟨o, h', search_of_signature hf, hlost⟩

end RamSearch

end ConsoleBridge
