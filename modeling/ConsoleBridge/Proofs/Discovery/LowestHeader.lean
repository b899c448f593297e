import Mathlib.Order.Bounds.Defs
import ConsoleBridge.Proofs.Discovery.Header
import ConsoleBridge.Proofs.Process.Still

/-!
# The lowest header in a region

On a process that holds still the search of a region answers with the lowest of the headers that it can see,
provided that its sums fit. A header can be seen when its anchor is in a chunk that can be read and when it can
be read itself if it starts in front of that chunk.
-/
namespace ConsoleBridge.Signature

open Bytes Handle

variable {σ : Type} [ProcessMemory σ]

/-- A header of booting that starts on a word and lies wholly in the region. -/
structure Candidate (memory : Nat → UInt8) (region : Region) (b : Nat) : Prop where
  aligned : b % 4 = 0
  above : region.base ≤ b
  below : b + span ≤ region.limit
  header : Header memory b

/-- The header at `b` can be seen in the chunk from `start` on. -/
structure SeenIn (readable : Nat → Nat → Prop) (region : Region) (size start b : Nat) : Prop where
  reached : start ≤ b + anchorOffset
  left : b + anchorOffset < start + stride size
  chunk : readable start (chunkLength region size start)
  again : b < start → readable b span

/-- A candidate that can be seen in one of the chunks from `start` on. -/
def SeenFrom (memory : Nat → UInt8) (readable : Nat → Nat → Prop) (region : Region) (size start b : Nat) :
    Prop :=
  Candidate memory region b ∧ ∃ k, SeenIn readable region size (start + k * stride size) b

/-- No sum that the search of the region forms goes beyond the addresses: the end of the region and one chunk more
do not. Only where the region ends too low for a header, a chunk and its overlap can be too long all the same. -/
structure SumsFit (region : Region) (size : Nat) : Prop where
  behind : region.limit + stride size < Address.count
  length : region.limit < span → stride size + span < Address.count

/-- The lowest number with the property, or nothing when no number has it. -/
inductive Lowest (P : Nat → Prop) : Option Nat → Prop
  | none (hn : ∀ b, ¬ P b) : Lowest P none
  | some {b} (hb : P b) (hl : ∀ b', P b' → b ≤ b') : Lowest P (some b)

/-- A search that is not stopped comes upon the lowest number with the property. -/
def LowestHit (P : Nat → Prop) (o : Option Hit) : Prop := ∃ r, Lowest P r ∧ o = r.map .ok

variable {memory : Nat → UInt8} {readable : Nat → Nat → Prop} {stays : σ → Prop}
variable {region : Region} {size start stop i b : Nat} {h : Handle σ} {P Q : Nat → Prop} {r : Option Nat}
variable {o : Option Hit}

theorem Lowest.of_iff (hl : Lowest P r) (hPQ : ∀ b, Q b ↔ P b) : Lowest Q r := by
  cases hl with
  | none hn => exact .none fun b hb => hn b ((hPQ b).mp hb)
  | some hb hl => exact .some ((hPQ _).mpr hb) fun b' hb' => hl b' ((hPQ b').mp hb')

theorem Lowest.eq_some_iff (hl : Lowest P r) : r = Option.some b ↔ IsLeast {b | P b} b := by
  cases hl with
  | none hn => exact ⟨nofun, fun hb => absurd hb.1 (hn b)⟩
  | some hb hl =>
    constructor
    · rintro ⟨⟩
      exact ⟨hb, fun b' hb' => hl b' hb'⟩
    · rintro ⟨hb', hl'⟩
      exact congrArg _ (Nat.le_antisymm (hl b hb') (hl' hb))

theorem Lowest.eq_none_iff (hl : Lowest P r) : r = Option.none ↔ ∀ b, ¬ P b := by
  cases hl with
  | none hn => exact ⟨fun _ => hn, fun _ => rfl⟩
  | some hb hl => exact ⟨nofun, fun hn => absurd hb (hn _)⟩

theorem LowestHit.of_iff (hl : LowestHit P o) (hPQ : ∀ b, Q b ↔ P b) : LowestHit Q o := by
  obtain ⟨r, hr, ho⟩ := hl
  exact ⟨r, hr.of_iff hPQ, ho⟩

theorem LowestHit.eq_some_iff (hl : LowestHit P o) : o = Option.some (.ok b) ↔ IsLeast {b | P b} b := by
  obtain ⟨r, hr, rfl⟩ := hl
  rw [← hr.eq_some_iff, Option.map_eq_some_iff]
  simp

theorem LowestHit.eq_none_iff (hl : LowestHit P o) : o = Option.none ↔ ∀ b, ¬ P b := by
  obtain ⟨r, hr, rfl⟩ := hl
  rw [← hr.eq_none_iff, Option.map_eq_none_iff]

/-- What a search comes upon is determined by the property. -/
theorem LowestHit.unique {o' : Option Hit} (hl : LowestHit P o) (hl' : LowestHit P o') : o = o' := by
  obtain ⟨r, hr, rfl⟩ := hl
  obtain ⟨r', hr', rfl⟩ := hl'
  congr 1
  exact Option.ext fun b => hr.eq_some_iff.trans hr'.eq_some_iff.symm

theorem anchorOffset_lt_span : anchorOffset + 4 ≤ span := by decide

theorem stride_pos (size : Nat) : 0 < stride size := Nat.lt_of_lt_of_le (by decide) (Nat.le_max_right _ _)

section Chunk

variable {chunk : ByteArray} (hs : Still memory readable stays) (hh : Steady stays h)
variable (hf : SumsFit region size) (hchunk : chunk = copy memory start (chunkLength region size start))

include hf hchunk in
/-- The anchor of a candidate points to it. -/
theorem Candidate.points (hc : Candidate memory region b) (hi : i < stride size)
    (hb : start + i = b + anchorOffset) : Points region start chunk i (.ok b) := by
  have hspan := anchorOffset_lt_span
  have hbelow := hc.below
  have hbehind := hf.behind
  rw [hchunk, points_copy]
  refine ⟨?_, hb ▸ hc.header.anchor, hb, hc.above, hc.aligned, by omega, hbelow⟩
  rw [chunkLength]
  omega

include hf hchunk in
/-- Where the sums fit, no anchor of a chunk stops the search. -/
theorem not_stray (hi : i < chunkStop size chunk) (e : Stop) : ¬ Points region start chunk i (.error e) := by
  rintro ⟨-, hb⟩
  obtain ⟨b, hb, -, -, hcount⟩ := baseOf?_eq_error_iff.mp hb
  have hspan : span = anchorOffset + 20 := rfl
  have hstride : span ≤ stride size := Nat.le_max_right _ _
  have hbehind := hf.behind
  rw [chunkStop, hchunk, size_copy, chunkLength] at hi
  omega

include hs hh hchunk in
/-- A header is confirmed exactly when it is there and, where it starts in front of the chunk, can be read. -/
theorem confirm_still (hp : Points region start chunk i (.ok b)) (hi : i < chunkStop size chunk) :
    Steady stays (confirm h start chunk b).2 ∧
      ((confirm h start chunk b).1 = true ↔ Header memory b ∧ (b < start → readable b span)) := by
  by_cases hb : start ≤ b
  · have hin := hp.inside (hchunk ▸ size_copy) hi hb
    rw [confirm_inside h hb hin]
    rw [hchunk, size_copy] at hin
    refine ⟨hh, ?_⟩
    rw [hchunk, headerAt_copy, Nat.add_sub_cancel' hb]
    exact ⟨fun hm => ⟨hm.2, fun hlt => absurd hb (by omega)⟩, fun hm => ⟨hin, hm.1⟩⟩
  · have hlt : b < start := by omega
    rw [confirm_before h hlt]
    by_cases hr : readable b span
    · obtain ⟨h', hread, hh'⟩ := hh.read_ok hs hr
      rw [hread]
      refine ⟨hh', ?_⟩
      dsimp only
      rw [headerAt_copy, Nat.zero_add, Nat.add_zero]
      exact ⟨fun hm => ⟨hm.2, fun _ => hr⟩, fun hm => ⟨Nat.le_refl _, hm.1⟩⟩
    · obtain ⟨a, n, h', hread, hh'⟩ := hh.read_error hs hr
      rw [hread]
      exact ⟨hh', nofun, fun hm => absurd (hm.2 hlt) hr⟩

/-- The candidate at `b` is seen at one of the positions from `i` on of the chunk from `start` on. -/
structure SeenBehind (memory : Nat → UInt8) (readable : Nat → Nat → Prop) (region : Region)
    (size start i b : Nat) : Prop where
  candidate : Candidate memory region b
  reached : start + i ≤ b + anchorOffset
  left : b + anchorOffset < start + stride size
  again : b < start → readable b span

/-- A position where nothing is seen can be passed. -/
theorem seenBehind_succ
    (hn : ∀ b, start + i = b + anchorOffset → ¬ SeenBehind memory readable region size start i b) (b : Nat) :
    SeenBehind memory readable region size start i b ↔
      SeenBehind memory readable region size start (i + 1) b := by
  constructor
  · intro hb
    have hne : start + i ≠ b + anchorOffset := fun heq => hn b heq hb
    have hreached := hb.reached
    exact ⟨hb.candidate, by omega, hb.left, hb.again⟩
  · intro hb
    have hreached := hb.reached
    exact ⟨hb.candidate, by omega, hb.left, hb.again⟩

include hs hh hf hchunk in
theorem Scans.lowest {p : Option Hit × Handle σ} (hrun : Scans region start chunk stop h i p)
    (hstop : stop = chunkStop size chunk) :
    Steady stays p.2 ∧ LowestHit (SeenBehind memory readable region size start i) p.1 := by
  have hspan := anchorOffset_lt_span
  induction hrun with
  | @done h i hi =>
    -- An anchor that is not in the chunk is left to the next one or lies too near the end of the region.
    refine ⟨hh, none, .none fun b hb => ?_, rfl⟩
    have hbelow := hb.candidate.below
    have hreached := hb.reached
    have hleft := hb.left
    rw [hstop, chunkStop, hchunk, size_copy, chunkLength] at hi
    omega
  | @pass h i p hi hp rest ih =>
    obtain ⟨hh', hl⟩ := ih hh
    refine ⟨hh', hl.of_iff (seenBehind_succ fun b heq hb => ?_)⟩
    have hleft := hb.left
    exact hp _ (hb.candidate.points hf hchunk (by omega) heq)
  | @stray h i e hi hp => exact absurd hp (not_stray hf hchunk (hstop ▸ hi) e)
  | @hit h h' i b hi hp hconf =>
    have hstill := confirm_still hs hh hchunk hp (hstop ▸ hi)
    rw [hconf] at hstill
    obtain ⟨hh', hiff⟩ := hstill
    obtain ⟨hheader, hagain⟩ := hiff.mp rfl
    rw [hchunk, points_copy] at hp
    obtain ⟨-, -, hpos, habove, haligned, -, hbelow⟩ := hp
    have hi' : i < stride size := by
      rw [hstop, chunkStop] at hi
      omega
    refine ⟨hh', some b, .some ⟨⟨haligned, habove, hbelow, hheader⟩, by omega, by omega, hagain⟩
      fun b' hb' => ?_, rfl⟩
    have hreached := hb'.reached
    omega
  | @miss h h' i b p hi hp hconf rest ih =>
    have hstill := confirm_still hs hh hchunk hp (hstop ▸ hi)
    rw [hconf] at hstill
    obtain ⟨hh', hiff⟩ := hstill
    obtain ⟨hh'', hl⟩ := ih hh'
    refine ⟨hh'', hl.of_iff (seenBehind_succ fun b' heq hb' => ?_)⟩
    obtain ⟨-, -, hpos, -⟩ := points_copy.mp (hchunk ▸ hp)
    obtain rfl : b' = b := by omega
    exact absurd (hiff.mpr ⟨hb'.candidate.header, hb'.again⟩) Bool.false_ne_true

end Chunk

theorem seenFrom_iff : SeenFrom memory readable region size start b ↔
    (Candidate memory region b ∧ SeenIn readable region size start b) ∨
      SeenFrom memory readable region size (start + stride size) b := by
  constructor
  · rintro ⟨hc, ⟨⟩ | k, hk⟩
    · rw [Nat.zero_mul, Nat.add_zero] at hk
      exact .inl ⟨hc, hk⟩
    · rw [Nat.succ_mul, Nat.add_comm _ (stride size), ← Nat.add_assoc] at hk
      exact .inr ⟨hc, k, hk⟩
  · rintro (⟨hc, hb⟩ | ⟨hc, k, hk⟩)
    · exact ⟨hc, 0, by rwa [Nat.zero_mul, Nat.add_zero]⟩
    · exact ⟨hc, k + 1, by rwa [Nat.succ_mul, Nat.add_comm _ (stride size), ← Nat.add_assoc]⟩

theorem seenBehind_zero (hr : readable start (chunkLength region size start)) :
    SeenBehind memory readable region size start 0 b ↔
      Candidate memory region b ∧ SeenIn readable region size start b :=
  ⟨fun hb => ⟨hb.candidate, hb.reached, hb.left, hr, hb.again⟩,
    fun hb => ⟨hb.1, hb.2.reached, hb.2.left, hb.2.again⟩⟩

/-- Nothing is seen in a chunk that cannot be read. -/
theorem seenFrom_of_denied (hr : ¬ readable start (chunkLength region size start)) :
    SeenFrom memory readable region size start b ↔
      SeenFrom memory readable region size (start + stride size) b := by
  rw [seenFrom_iff]
  exact or_iff_right fun hb => hr hb.2.chunk

/-- While the search goes on, the start of the next chunk is an address. -/
theorem SumsFit.next (hf : SumsFit region size) (hs : start < region.limit) :
    start + stride size < Address.count := by
  have hbehind := hf.behind
  omega

theorem SumsFit.sumsFit (hf : SumsFit region size) (hs : start < Address.count) :
    sumsFit region size start = true := by
  have hbehind := hf.behind
  refine sumsFit_iff.mpr ⟨hs, by omega, fun _ => ?_⟩
  by_cases hlow : region.limit < span
  · exact hf.length hlow
  · omega

theorem Sweeps.lowest {p : Option Hit × Handle σ} (hrun : Sweeps region size h start p)
    (hs : Still memory readable stays) (hh : Steady stays h) (hf : SumsFit region size)
    (hstart : start < Address.count) : LowestHit (SeenFrom memory readable region size start) p.1 := by
  have hspan := anchorOffset_lt_span
  induction hrun with
  | overflow hover => exact absurd ((hf.sumsFit hstart).symm.trans hover) Bool.noConfusion
  | @finish h start hfits hlimit =>
    refine ⟨none, .none ?_, rfl⟩
    rintro b ⟨hc, k, hk⟩
    have hbelow := hc.below
    have hreached := hk.reached
    omega
  | @found h start chunk h₁ o h₂ hcomes hr hc =>
    obtain ⟨hread, hchunk, hh₁⟩ := hh.of_ok hs hr
    have hrun := scans_scanChunk region start chunk (chunkStop size chunk) h₁ 0
    rw [hc] at hrun
    obtain ⟨-, r, hl, ho⟩ := hrun.lowest hs hh₁ hf hchunk rfl
    cases hl with
    | none hn => cases ho
    | @some b hb hl =>
      refine ⟨some b, .some (seenFrom_iff.mpr (.inl ((seenBehind_zero hread).mp hb))) fun b' hb' => ?_, ho⟩
      rcases seenFrom_iff.mp hb' with hb' | ⟨-, k, hk⟩
      · exact hl b' ((seenBehind_zero hread).mpr hb')
      · have hleft := hb.left
        have hreached := hk.reached
        omega
  | @barren h start chunk h₁ h₂ p hcomes hr hc rest ih =>
    obtain ⟨hread, hchunk, hh₁⟩ := hh.of_ok hs hr
    have hrun := scans_scanChunk region start chunk (chunkStop size chunk) h₁ 0
    rw [hc] at hrun
    obtain ⟨hh₂, hl⟩ := hrun.lowest hs hh₁ hf hchunk rfl
    have hn := hl.eq_none_iff.mp rfl
    refine (ih hh₂ (hf.next hcomes.inside)).of_iff fun b => seenFrom_iff.trans (or_iff_right fun hb => ?_)
    exact hn b ((seenBehind_zero hread).mpr hb)
  | @skip h start address length h₁ p hcomes hr rest ih =>
    obtain ⟨hdenied, -, hh₁⟩ := hh.of_error hs hr
    exact (ih hh₁ (hf.next hcomes.inside)).of_iff fun b => seenFrom_of_denied hdenied
  | lost hcomes hr => exact absurd rfl (hh.of_error hs hr).2.1

theorem scan_lowest (hs : Still memory readable stays) (hh : Steady stays h) (region : Region) (size : Nat)
    (hf : SumsFit region size) :
    LowestHit (SeenFrom memory readable region size region.base) (scan h region size).1 := by
  have hbehind := hf.behind
  exact (sweeps_scanFrom region size h region.base).lowest hs hh hf (by rw [Region.limit] at hbehind; omega)

/-- In a region that can be read everywhere every candidate is seen, whatever the size of the chunks. -/
theorem seenFrom_of_readable
    (hr : ∀ address length, region.base ≤ address → address + length ≤ region.limit →
      readable address length) :
    SeenFrom memory readable region size region.base b ↔ Candidate memory region b := by
  refine ⟨fun hb => hb.1, fun hc => ⟨hc, (b + anchorOffset - region.base) / stride size, ?_⟩⟩
  have hspan := anchorOffset_lt_span
  have habove := hc.above
  have hbelow := hc.below
  have hpos := Nat.div_add_mod' (b + anchorOffset - region.base) (stride size)
  have hrest := Nat.mod_lt (b + anchorOffset - region.base) (stride_pos size)
  refine ⟨by omega, by omega, hr _ _ (Nat.le_add_right _ _) ?_, fun _ => hr b span habove hbelow⟩
  rw [chunkLength]
  omega

def booting (i : Nat) : UInt8 := if i = 0x308 then 0xB0 else if i = 0x319 then 0x40 else 0

theorem header_booting : Header booting 0 where
  television := by decide
  anchor := by decide
  memorySize := by decide

def booted : ImageRegion := ⟨0x1000, .readWrite, none, copy booting 0 0x400⟩

theorem limit_booted : booted.describe.limit = 0x1400 := by
  have hsize : booted.bytes.size = 0x400 := size_copy
  rw [Region.limit, ImageRegion.describe, hsize]
  rfl

theorem candidate_booted : Candidate booted.memory booted.describe 0x1000 where
  aligned := rfl
  above := Nat.le_refl 0x1000
  below := by
    rw [limit_booted]
    decide
  header := by
    refine header_booting.congr fun i hi => ?_
    rw [Nat.zero_add]
    exact ImageRegion.memory_of_copy rfl (Nat.lt_trans hi (by decide))

end ConsoleBridge.Signature
