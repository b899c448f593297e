import ConsoleBridge.Discovery.Signature
import ConsoleBridge.Proofs.Process.Connection

/-!
# The scan of a region, chunk by chunk and anchor by anchor

An anchor points to where main memory would start. The scan of a chunk passes the anchors that point
nowhere and those whose header is not confirmed, and it can be cut at any position. `Scans` and `Sweeps`
are the runs of the two loops, over the anchors of a chunk and over the chunks of a region.
-/
namespace ConsoleBridge.Signature

open Handle

variable {σ : Type} [ProcessMemory σ]
variable {region : Region} {size start stop i j b : Nat} {chunk : ByteArray}

/-- The bytes from the start of one chunk to the start of the next. -/
abbrev stride (size : Nat) : Nat := max size span

/-- The bytes that are read of a region for the chunk from `start` on. -/
abbrev chunkLength (region : Region) (size start : Nat) : Nat :=
  min (stride size + span) (region.limit - start)

/-- Anchors behind these positions of a chunk are left to the next one. -/
abbrev chunkStop (size : Nat) (chunk : ByteArray) : Nat := min (stride size) chunk.size

/-- The anchor at position `i` of the chunk stands in a header in the region, and looking for it comes to `o`. -/
structure Points (region : Region) (start : Nat) (chunk : ByteArray) (i : Nat) (o : Hit) : Prop where
  anchor : anchorAt chunk i = true
  base : baseOf? region (start + i) = some o

theorem baseOf?_eq_ok_iff {address : Nat} :
    baseOf? region address = some (.ok b) ↔
      address = b + anchorOffset ∧ region.base ≤ b ∧ b % 4 = 0 ∧ b + span < Address.count ∧
        b + span ≤ region.limit := by
  rw [baseOf?]
  constructor
  · intro hb
    split at hb
    · rename_i hc
      obtain ⟨ha, hbase, hm⟩ := hc
      split at hb
      · rename_i behind hplus
        obtain ⟨hfits, rfl⟩ := Address.plus_eq_ok_iff.mp hplus
        split at hb
        · rename_i hl
          obtain rfl := Except.ok.inj (Option.some.inj hb)
          exact ⟨(Nat.sub_add_cancel ha).symm, hbase, hm, hfits, hl⟩
        · cases hb
      · cases hb
    · cases hb
  · rintro ⟨rfl, hbase, hm, hfits, hl⟩
    simp only [Nat.add_sub_cancel]
    rw [if_pos ⟨Nat.le_add_left _ _, hbase, hm⟩, Address.plus_of_lt hfits]
    exact if_pos hl

theorem baseOf?_eq_error_iff {address : Nat} {e : Stop} :
    baseOf? region address = some (.error e) ↔
      ∃ b, address = b + anchorOffset ∧ region.base ≤ b ∧ b % 4 = 0 ∧ Address.count ≤ b + span := by
  rw [baseOf?]
  constructor
  · intro hb
    split at hb
    · rename_i hc
      obtain ⟨ha, hbase, hm⟩ := hc
      split at hb
      · split at hb
        · cases hb
        · cases hb
      · rename_i e' hplus
        exact ⟨_, (Nat.sub_add_cancel ha).symm, hbase, hm, Address.plus_eq_error_iff.mp hplus⟩
    · cases hb
  · rintro ⟨b, rfl, hbase, hm, hl⟩
    simp only [Nat.add_sub_cancel]
    rw [if_pos ⟨Nat.le_add_left _ _, hbase, hm⟩, Address.plus_eq_error_iff.mpr hl]

/-- A header that starts in the chunk and whose anchor is not left to the next one is wholly read. -/
theorem Points.inside (hp : Points region start chunk i (.ok b))
    (hc : chunk.size = chunkLength region size start) (hi : i < chunkStop size chunk) (hb : start ≤ b) :
    b - start + span ≤ chunk.size := by
  obtain ⟨ha, -, -, -, hl⟩ := baseOf?_eq_ok_iff.mp hp.base
  have hspan : span = anchorOffset + 20 := rfl
  rw [chunkStop] at hi
  rw [hc, chunkLength]
  omega

theorem confirm_inside (h : Handle σ) (hb : start ≤ b) (hs : b - start + span ≤ chunk.size) :
    confirm h start chunk b = (headerAt chunk (b - start), h) := by
  rw [confirm, if_pos ⟨hb, hs⟩]

theorem confirm_before (h : Handle σ) (hb : b < start) :
    confirm h start chunk b =
      match h.read b span with
      | (.ok header, h) => (headerAt header 0, h)
      | (.error _, h) => (false, h) := by
  rewrite [confirm, if_neg (by omega)]
  rfl

theorem size_of_headerAt {bytes : ByteArray} (hh : headerAt bytes i = true) : i + span ≤ bytes.size := by
  simp only [headerAt, Bool.and_eq_true, decide_eq_true_eq] at hh
  exact hh.1.1.1

theorem scanChunk_stop (h : Handle σ) (hi : stop ≤ i) :
    scanChunk h region start chunk stop i = (none, h) := by
  rw [scanChunk, if_neg (by omega)]

theorem scanChunk_pass (h : Handle σ) (hi : i < stop) (hp : ∀ o, ¬ Points region start chunk i o) :
    scanChunk h region start chunk stop i = scanChunk h region start chunk stop (i + 1) := by
  rw [scanChunk, if_pos hi]
  split
  · rename_i ha
    cases hb : baseOf? region (start + i) with
    | none => rfl
    | some o => exact absurd ⟨ha, hb⟩ (hp o)
  · rfl

theorem scanChunk_stray (h : Handle σ) {e : Stop} (hi : i < stop)
    (hp : Points region start chunk i (.error e)) :
    scanChunk h region start chunk stop i = (some (.error e), h) := by
  rw [scanChunk, if_pos hi, if_pos hp.anchor, hp.base]

theorem scanChunk_point (h : Handle σ) (hi : i < stop) (hp : Points region start chunk i (.ok b)) :
    scanChunk h region start chunk stop i =
      match confirm h start chunk b with
      | (true, h) => (some (.ok b), h)
      | (false, h) => scanChunk h region start chunk stop (i + 1) := by
  rewrite [scanChunk, if_pos hi, if_pos hp.anchor, hp.base]
  rfl

/-- The scan of a chunk from position `i` on as a run over its anchors, with what it answers. -/
inductive Scans (region : Region) (start : Nat) (chunk : ByteArray) (stop : Nat) :
    Handle σ → Nat → Option Hit × Handle σ → Prop
  | done {h i} (hi : stop ≤ i) : Scans region start chunk stop h i (none, h)
  | pass {h i r} (hi : i < stop) (hp : ∀ o, ¬ Points region start chunk i o)
      (rest : Scans region start chunk stop h (i + 1) r) : Scans region start chunk stop h i r
  | stray {h i e} (hi : i < stop) (hp : Points region start chunk i (.error e)) :
      Scans region start chunk stop h i (some (.error e), h)
  | hit {h h' i b} (hi : i < stop) (hp : Points region start chunk i (.ok b))
      (hc : confirm h start chunk b = (true, h')) : Scans region start chunk stop h i (some (.ok b), h')
  | miss {h h' i b r} (hi : i < stop) (hp : Points region start chunk i (.ok b))
      (hc : confirm h start chunk b = (false, h'))
      (rest : Scans region start chunk stop h' (i + 1) r) : Scans region start chunk stop h i r

theorem scans_scanChunk (region : Region) (start : Nat) (chunk : ByteArray) (stop : Nat) (h : Handle σ)
    (i : Nat) : Scans region start chunk stop h i (scanChunk h region start chunk stop i) := by
  induction hn : stop - i generalizing h i with
  | zero =>
    rw [scanChunk_stop h (by omega)]
    exact .done (by omega)
  | succ n ih =>
    have hi : i < stop := by omega
    by_cases hp : ∃ o, Points region start chunk i o
    · obtain ⟨e | b, hp⟩ := hp
      · rw [scanChunk_stray h hi hp]
        exact .stray hi hp
      · rw [scanChunk_point h hi hp]
        rcases hc : confirm h start chunk b with ⟨⟨⟩ | ⟨⟩, h'⟩
        · exact .miss hi hp hc (ih h' (i + 1) (by omega))
        · exact .hit hi hp hc
    · rw [scanChunk_pass h hi (not_exists.mp hp)]
      exact .pass hi (not_exists.mp hp) (ih h (i + 1) (by omega))

theorem scanChunk_of_no_points (h : Handle σ)
    (hn : ∀ k o, i ≤ k → k < stop → ¬ Points region start chunk k o) :
    scanChunk h region start chunk stop i = (none, h) := by
  have hrun := scans_scanChunk region start chunk stop h i
  generalize scanChunk h region start chunk stop i = r at hrun ⊢
  induction hrun with
  | done hi => rfl
  | pass hi hp rest ih => exact ih fun k o hk => hn k o (by omega)
  | @stray h i e hi hp => exact absurd hp (hn i _ (Nat.le_refl i) hi)
  | @hit h h' i b hi hp hc => exact absurd hp (hn i _ (Nat.le_refl i) hi)
  | @miss h h' i b r hi hp hc rest ih => exact absurd hp (hn i _ (Nat.le_refl i) hi)

/-- Anchors that bring nothing can be cut off. -/
theorem scanChunk_split {h h' : Handle σ} (hi : i ≤ j) (hj : j ≤ stop)
    (hs : scanChunk h region start chunk j i = (none, h')) :
    scanChunk h region start chunk stop i = scanChunk h' region start chunk stop j := by
  -- The run over the anchors in front of `j`; the cut is moved along it.
  have hr := scans_scanChunk region start chunk j h i
  rw [hs] at hr
  clear hs
  generalize hn : ((none, h') : Option Hit × Handle σ) = r at hr
  induction hr with
  | done hij =>
    cases hn
    rw [Nat.le_antisymm hi hij]
  | pass hij hp rest ih =>
    rw [scanChunk_pass _ (by omega) hp]
    exact ih hij hn
  | stray hij hp => cases hn
  | hit hij hp hc => cases hn
  | miss hij hp hc rest ih =>
    rw [scanChunk_point _ (by omega) hp, hc]
    exact ih hij hn

theorem sumsFit_iff : sumsFit region size start = true ↔
    start < Address.count ∧ region.limit < Address.count ∧
      (start < region.limit → stride size + span < Address.count) := by
  simp only [sumsFit, Bool.and_eq_true, Bool.or_eq_true, decide_eq_true_eq, and_assoc, stride,
    ← Nat.not_lt, ← Decidable.imp_iff_not_or]

structure Comes (region : Region) (size start : Nat) : Prop where
  fits : sumsFit region size start = true
  inside : start < region.limit

theorem scanFrom_overflow (h : Handle σ) (hf : sumsFit region size start = false) :
    scanFrom h region size start = (some (.error .overflow), h) := by
  rw [scanFrom, if_neg (by simp [hf])]

theorem scanFrom_end (h : Handle σ) (hf : sumsFit region size start = true) (hs : region.limit ≤ start) :
    scanFrom h region size start = (none, h) := by
  rw [scanFrom, if_pos hf, if_neg (by omega)]

theorem scanFrom_chunk {h h' : Handle σ} (hs : Comes region size start)
    (hr : h.read start (chunkLength region size start) = (.ok chunk, h')) :
    scanFrom h region size start =
      match scanChunk h' region start chunk (chunkStop size chunk) 0 with
      | (some hit, h) => (some hit, h)
      | (none, h) => scanFrom h region size (start + stride size) := by
  rewrite [scanFrom, if_pos hs.fits, if_pos hs.inside]
  dsimp only
  rewrite [hr]
  rfl

theorem scanFrom_skip {h h' : Handle σ} {address length : Nat} (hs : Comes region size start)
    (hr : h.read start (chunkLength region size start) = (.error (.unmapped address length), h')) :
    scanFrom h region size start = scanFrom h' region size (start + stride size) := by
  rw [scanFrom, if_pos hs.fits, if_pos hs.inside]
  dsimp only
  rw [hr]

theorem scanFrom_lost {h h' : Handle σ} (hs : Comes region size start)
    (hr : h.read start (chunkLength region size start) = (.error .disconnected, h')) :
    scanFrom h region size start = (none, h') := by
  rw [scanFrom, if_pos hs.fits, if_pos hs.inside]
  dsimp only
  rw [hr]

/-- The search of a region from `start` on as a run over its chunks, with what it answers. -/
inductive Sweeps (region : Region) (size : Nat) : Handle σ → Nat → Option Hit × Handle σ → Prop
  | overflow {h start} (hf : sumsFit region size start = false) :
      Sweeps region size h start (some (.error .overflow), h)
  | finish {h start} (hf : sumsFit region size start = true) (hs : region.limit ≤ start) :
      Sweeps region size h start (none, h)
  | found {h start chunk h₁ o h₂} (hs : Comes region size start)
      (hr : h.read start (chunkLength region size start) = (.ok chunk, h₁))
      (hc : scanChunk h₁ region start chunk (chunkStop size chunk) 0 = (some o, h₂)) :
      Sweeps region size h start (some o, h₂)
  | barren {h start chunk h₁ h₂ r} (hs : Comes region size start)
      (hr : h.read start (chunkLength region size start) = (.ok chunk, h₁))
      (hc : scanChunk h₁ region start chunk (chunkStop size chunk) 0 = (none, h₂))
      (rest : Sweeps region size h₂ (start + stride size) r) : Sweeps region size h start r
  | skip {h start address length h₁ r} (hs : Comes region size start)
      (hr : h.read start (chunkLength region size start) = (.error (.unmapped address length), h₁))
      (rest : Sweeps region size h₁ (start + stride size) r) : Sweeps region size h start r
  | lost {h start h₁} (hs : Comes region size start)
      (hr : h.read start (chunkLength region size start) = (.error .disconnected, h₁)) :
      Sweeps region size h start (none, h₁)

theorem sweeps_scanFrom (region : Region) (size : Nat) (h : Handle σ) (start : Nat) :
    Sweeps region size h start (scanFrom h region size start) := by
  fun_induction scanFrom h region size start with
  | case1 h start hf hs stride chunk h₁ hr o h₂ hc => exact .found ⟨hf, hs⟩ hr hc
  | case2 h start hf hs stride chunk h₁ hr h₂ hc ih => exact .barren ⟨hf, hs⟩ hr hc ih
  | case3 h start hf hs stride h₁ hr => exact .lost ⟨hf, hs⟩ hr
  | case4 h start hf hs stride e h₁ he hr ih =>
    cases e with
    | unmapped => exact .skip ⟨hf, hs⟩ hr ih
    | disconnected => exact absurd rfl he
  | case5 h start hf hs => exact .finish hf (by omega)
  | case6 h start hf => exact .overflow (Bool.eq_false_iff.mpr hf)

end ConsoleBridge.Signature
