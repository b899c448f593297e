import Mathlib.Data.Prod.Lex
import Mathlib.Order.Bounds.Basic
import ConsoleBridge.Proofs.Discovery.Captures

/-!
# The first difference of two captures

The comparison of two captures answers with the least word, by region and then by place, that has changed to
something admitted, and stops where the place of this word is beyond the addresses. What is in one capture only,
what has another size, a piece behind the last whole word and a change to something that is not admitted make no
difference to it.
-/
namespace ConsoleBridge.Capture

open Bytes

/-- The word `k` of the region at `b`, which is of one size in both captures, differs. -/
def Differs (before after : Capture) (b k : Nat) : Prop :=
  ∃ old new v w, before.get? b = some old ∧ after.get? b = some new ∧ old.size = new.size ∧
    StateBytes.at? old (4 * k) = some v ∧ StateBytes.at? new (4 * k) = some w ∧ v ≠ w

/-- The word `k` of the region at `b`, which is of one size in both captures, differs and is admitted now. -/
def Candidate (contract : ShapeContract) (before after : Capture) (b k : Nat) : Prop :=
  ∃ old new, before.get? b = some old ∧ after.get? b = some new ∧ old.size = new.size ∧
    contract.ChangedAt old new (4 * k)

/-- The candidates by their regions, and in one region by their places. -/
def candidates (contract : ShapeContract) (before after : Capture) : Set (Nat ×ₗ Nat) :=
  {p | Candidate contract before after (ofLex p).1 (ofLex p).2}

inductive Unnoticed (contract : ShapeContract) (before after : Capture) : Capture → Capture → Prop
  /-- A region that the first capture does not have. -/
  | new {b bytes} (absent : before.get? b = none) : Unnoticed contract before after before (after.insert b bytes)
  /-- A region that the second capture does not have. -/
  | gone {b bytes} (absent : after.get? b = none) : Unnoticed contract before after (before.insert b bytes) after
  /-- A region of which the captures have different sizes. -/
  | resized {b old new} (absent : before.get? b = none ∨ after.get? b = none) (sizes : old.size ≠ new.size) :
      Unnoticed contract before after (before.insert b old) (after.insert b new)
  /-- Some bytes behind the last whole word of a region. -/
  | trailing {b old new tail tail'} (was : before.get? b = some old) (is : after.get? b = some new)
      (same : old.size = new.size) (whole : 4 ∣ new.size) (sizes : tail.size = tail'.size) (short : tail'.size < 4) :
      Unnoticed contract before after (before.insert b (old ++ tail)) (after.insert b (new ++ tail'))
  /-- A word that was no candidate and is changed to something that is not admitted. -/
  | broken {b k new new'} (is : after.get? b = some new) (size : new'.size = new.size)
      (others : ∀ j ≠ k, StateBytes.at? new' (4 * j) = StateBytes.at? new (4 * j))
      (refused : ∀ w, StateBytes.at? new' (4 * k) = some w → contract.admits w = false)
      (before_it : ¬ Candidate contract before after b k) :
      Unnoticed contract before after before (after.insert b new')

/-- What the comparison of two captures answers. -/
structure Compares (contract : ShapeContract) (before after : Capture) : Prop where
  least : ∀ address, firstChange before after contract = some (.ok address) ↔
    ∃ b k, IsLeast (candidates contract before after) (toLex (b, k)) ∧ b + 4 * k < Address.count ∧
      address = b + 4 * k
  beyond : ∀ stop, firstChange before after contract = some (.error stop) ↔
    ∃ b k, IsLeast (candidates contract before after) (toLex (b, k)) ∧ Address.count ≤ b + 4 * k
  nothing : firstChange before after contract = none ↔ ∀ b k, ¬ Candidate contract before after b k
  same : firstChange after after contract = none
  unnoticed : ∀ before' after', Unnoticed contract before after before' after' →
    firstChange before' after' contract = firstChange before after contract
  single : ∀ b k, Candidate contract before after b k → (∀ b' k', Differs before after b' k' → b' = b ∧ k' = k) →
    firstChange before after contract = some (Address.plus b (4 * k))

variable {contract : ShapeContract} {before after before' after' : Capture} {b k : Nat} {hit : Hit}
variable {bytes old new : ByteArray}

private theorem lookup_insertRegion (b : Nat) (bytes : ByteArray) (l : List (Nat × ByteArray)) (b' : Nat) :
    (insertRegion b bytes l).lookup b' = if b' = b then some bytes else l.lookup b' := by
  induction l with
  | nil =>
    rw [insertRegion, List.lookup_cons]
    by_cases hb : b' = b
    · simp [hb]
    · simp [hb, beq_eq_false_iff_ne.mpr hb]
  | cons q rest ih =>
    obtain ⟨base, copied⟩ := q
    rw [insertRegion]
    by_cases hb : b' = b
    · subst hb
      split
      · simp
      · split
        · simp
        · rename_i hne
          rw [List.lookup_cons, beq_eq_false_iff_ne.mpr hne, ih, if_pos rfl, if_pos rfl]
    · rw [if_neg hb]
      split
      · rw [List.lookup_cons, beq_eq_false_iff_ne.mpr hb]
      · split
        · rename_i heq
          subst heq
          rw [List.lookup_cons, List.lookup_cons, beq_eq_false_iff_ne.mpr hb]
        · rw [List.lookup_cons, List.lookup_cons, ih, if_neg hb]

/-- A region that is added is there, and the others are as they were. -/
theorem get?_insert (c : Capture) (b : Nat) (bytes : ByteArray) (b' : Nat) :
    (c.insert b bytes).get? b' = if b' = b then some bytes else c.get? b' :=
  lookup_insertRegion b bytes c.regions b'

private theorem Candidate.differs (hc : Candidate contract before after b k) : Differs before after b k := by
  obtain ⟨old, new, hold, hnew, hsize, v, w, hv, hw, hne, -⟩ := hc
  exact ⟨old, new, v, w, hold, hnew, hsize, hv, hw, hne⟩

theorem candidate_congr (hbefore : before'.get? b = before.get? b) (hafter : after'.get? b = after.get? b) :
    Candidate contract before' after' b k ↔ Candidate contract before after b k := by
  rw [Candidate, Candidate, hbefore, hafter]

theorem candidate_iff_of_new (hnew : after.get? b = some new) : Candidate contract before after b k ↔
    ∃ old, before.get? b = some old ∧ old.size = new.size ∧ contract.ChangedAt old new (4 * k) := by
  simp [Candidate, hnew]

theorem candidate_iff (hold : before.get? b = some old) (hnew : after.get? b = some new) :
    Candidate contract before after b k ↔ old.size = new.size ∧ contract.ChangedAt old new (4 * k) := by
  simp [candidate_iff_of_new hnew, hold]

theorem not_candidate_of_absent (habsent : before.get? b = none ∨ after.get? b = none) :
    ¬ Candidate contract before after b k := by
  rintro ⟨old, new, hold, hnew, -⟩
  rcases habsent with habsent | habsent
  · rw [habsent] at hold
    cases hold
  · rw [habsent] at hnew
    cases hnew

section Region

/-- In a region the comparison finds the candidate with the lowest place. -/
theorem isLeast_of_changedIn (hnew : after.get? b = some new)
    (hin : changedIn contract before (b, new) = some hit) :
    ∃ k, IsLeast {k | Candidate contract before after b k} k ∧ hit = Address.plus b (4 * k) := by
  rw [changedIn] at hin
  split at hin
  · rename_i old hold
    split at hin
    · rename_i hsize
      obtain ⟨o, ho, rfl⟩ := Option.map_eq_some_iff.mp hin
      have hleast := (changedFrom_lowest contract old new 0).eq_some_iff.mp ho
      obtain ⟨⟨-, ⟨k, rfl⟩, hchanged⟩, hlower⟩ := hleast
      refine ⟨k, ⟨(candidate_iff hold hnew).mpr ⟨hsize, hchanged⟩, fun j hj => ?_⟩, rfl⟩
      have hle := hlower ⟨by omega, ⟨j, rfl⟩, ((candidate_iff hold hnew).mp hj).2⟩
      omega
    · cases hin
  · cases hin

theorem not_candidate_of_changedIn (hnew : after.get? b = some new)
    (hin : changedIn contract before (b, new) = none) (k : Nat) : ¬ Candidate contract before after b k := by
  rintro ⟨old, new', hold, hnew', hsize, hchanged⟩
  rw [hnew, Option.some.injEq] at hnew'
  subst hnew'
  simp only [changedIn, hold, if_pos hsize, Option.map_eq_none_iff] at hin
  exact (changedFrom_lowest contract old new 0).eq_none_iff.mp hin (4 * k) ⟨by omega, ⟨k, rfl⟩, hchanged⟩

end Region

section Whole

variable (ha : after.Ordered)
include ha

theorem isLeast_of_firstChange (hfirst : firstChange before after contract = some hit) :
    ∃ b k, IsLeast (candidates contract before after) (toLex (b, k)) ∧ hit = Address.plus b (4 * k) := by
  obtain ⟨front, ⟨b, new⟩, behind, hregions, hin, hfront⟩ := List.findSome?_eq_some_iff.mp hfirst
  have hmem : ∀ q, q ∈ front ∨ q = (b, new) ∨ q ∈ behind → q ∈ after.regions := by
    intro q hq
    rw [hregions, List.mem_append, List.mem_cons]
    exact hq
  have hnew := ha.get?_of_mem (hmem (b, new) (.inr (.inl rfl)))
  obtain ⟨k, ⟨hcandidate, hlower⟩, rfl⟩ := isLeast_of_changedIn hnew hin
  refine ⟨b, k, ⟨hcandidate, ?_⟩, rfl⟩
  rintro ⟨b', k'⟩ hc
  have hc : Candidate contract before after b' k' := hc
  obtain ⟨-, new', -, hnew', -⟩ := id hc
  -- A region in front has no candidate, and one behind starts further up.
  have hplace := mem_of_get? hnew'
  rw [hregions, List.mem_append, List.mem_cons] at hplace
  refine Prod.Lex.toLex_le_toLex.mpr ?_
  rcases hplace with hplace | hplace | hplace
  · exact absurd hc (not_candidate_of_changedIn hnew' (hfront _ hplace) k')
  · cases hplace
    exact .inr ⟨rfl, hlower hc⟩
  · rw [Ordered, hregions] at ha
    have hbehind := (List.pairwise_cons.mp (List.pairwise_append.mp ha).2.1).1
    exact .inl (hbehind _ hplace)

theorem firstChange_eq_none_iff :
    firstChange before after contract = none ↔ ∀ b k, ¬ Candidate contract before after b k := by
  constructor
  · rintro hnone b k hc
    obtain ⟨-, new, -, hnew, -⟩ := id hc
    exact not_candidate_of_changedIn hnew (List.findSome?_eq_none_iff.mp hnone _ (mem_of_get? hnew)) k hc
  · intro hnone
    cases hfirst : firstChange before after contract with
    | none => rfl
    | some hit =>
      obtain ⟨b, k, ⟨hc, -⟩, -⟩ := isLeast_of_firstChange ha hfirst
      exact absurd hc (hnone b k)

theorem firstChange_eq_some_iff (hit : Hit) : firstChange before after contract = some hit ↔
    ∃ b k, IsLeast (candidates contract before after) (toLex (b, k)) ∧ hit = Address.plus b (4 * k) := by
  refine ⟨isLeast_of_firstChange ha, ?_⟩
  rintro ⟨b, k, hleast, rfl⟩
  cases hfirst : firstChange before after contract with
  | none => exact absurd hleast.1 ((firstChange_eq_none_iff ha).mp hfirst b k)
  | some hit =>
    obtain ⟨b', k', hleast', rfl⟩ := isLeast_of_firstChange ha hfirst
    have hsame := toLex.injective (hleast.unique hleast')
    cases hsame
    rfl

/-- The answer depends on the candidates alone. -/
theorem firstChange_congr (ha' : after'.Ordered)
    (hsame : ∀ b k, Candidate contract before' after' b k ↔ Candidate contract before after b k) :
    firstChange before' after' contract = firstChange before after contract := by
  have hcandidates : candidates contract before' after' = candidates contract before after :=
    Set.ext fun p => hsame (ofLex p).1 (ofLex p).2
  refine Option.ext fun hit => ?_
  rw [firstChange_eq_some_iff ha', firstChange_eq_some_iff ha, hcandidates]

end Whole

section Edits

theorem candidate_insert_of_ne {b' : Nat} (hne : b' ≠ b) (old new : ByteArray) :
    Candidate contract (before.insert b old) (after.insert b new) b' k ↔ Candidate contract before after b' k :=
  candidate_congr (by rw [get?_insert, if_neg hne]) (by rw [get?_insert, if_neg hne])

theorem candidate_insert_self : Candidate contract (before.insert b old) (after.insert b new) b k ↔
    old.size = new.size ∧ contract.ChangedAt old new (4 * k) :=
  candidate_iff (by rw [get?_insert, if_pos rfl]) (by rw [get?_insert, if_pos rfl])

/-- Some bytes behind the last whole word are part of no word. -/
theorem at?_append {front tail : ByteArray} (hwhole : 4 ∣ front.size) (hshort : tail.size < 4) (k : Nat) :
    StateBytes.at? (front ++ tail) (4 * k) = StateBytes.at? front (4 * k) := by
  by_cases hk : 4 * k + 4 ≤ front.size
  · have hk' : 4 * k + 4 ≤ (front ++ tail).size := by
      rw [ByteArray.size_append]
      omega
    rw [StateBytes.at?, StateBytes.at?, if_pos hk, if_pos hk']
    simp only [byte_append]
    rw [if_pos (by omega), if_pos (by omega), if_pos (by omega), if_pos (by omega)]
  · have hk' : ¬ 4 * k + 4 ≤ (front ++ tail).size := by
      rw [ByteArray.size_append]
      omega
    rw [StateBytes.at?_eq_none hk, StateBytes.at?_eq_none hk']

theorem Unnoticed.ordered (hu : Unnoticed contract before after before' after') (ha : after.Ordered) :
    after'.Ordered := by
  cases hu with
  | new absent => exact ha.insert
  | gone absent => exact ha
  | resized absent sizes => exact ha.insert
  | trailing was is same whole sizes short => exact ha.insert
  | broken is size others refused noCandidate => exact ha.insert

/-- No candidate comes or goes unnoticed. -/
theorem Unnoticed.candidate_iff (hu : Unnoticed contract before after before' after') (b' k' : Nat) :
    Candidate contract before' after' b' k' ↔ Candidate contract before after b' k' := by
  cases hu with
  | @new b bytes absent =>
    by_cases hb : b' = b
    · subst hb
      exact iff_of_false (not_candidate_of_absent (.inl absent)) (not_candidate_of_absent (.inl absent))
    · exact candidate_congr rfl (by rw [get?_insert, if_neg hb])
  | @gone b bytes absent =>
    by_cases hb : b' = b
    · subst hb
      exact iff_of_false (not_candidate_of_absent (.inr absent)) (not_candidate_of_absent (.inr absent))
    · exact candidate_congr (by rw [get?_insert, if_neg hb]) rfl
  | @resized b old new absent sizes =>
    by_cases hb : b' = b
    · subst hb
      refine iff_of_false (fun hc => ?_) (not_candidate_of_absent absent)
      exact sizes (candidate_insert_self.mp hc).1
    · exact candidate_insert_of_ne hb old new
  | @trailing b old new tail tail' was is same whole sizes short =>
    by_cases hb : b' = b
    · subst hb
      rw [candidate_insert_self, Capture.candidate_iff was is, ShapeContract.ChangedAt, ShapeContract.ChangedAt,
        at?_append (same ▸ whole) (sizes ▸ short), at?_append whole short]
      simp [ByteArray.size_append, same, sizes]
    · exact candidate_insert_of_ne hb _ _
  | @broken b k new new' is size others refused before_it =>
    by_cases hb : b' = b
    · subst hb
      by_cases hk : k' = k
      · subst hk
        refine iff_of_false ?_ before_it
        rintro ⟨old, now, -, hnow, -, v, w, -, hw, -, hadmits⟩
        rw [get?_insert, if_pos rfl, Option.some.injEq] at hnow
        subst hnow
        rw [refused w hw] at hadmits
        cases hadmits
      · have hnow : (after.insert b' new').get? b' = some new' := by rw [get?_insert, if_pos rfl]
        rw [candidate_iff_of_new hnow, candidate_iff_of_new is, size]
        simp only [ShapeContract.ChangedAt, others k' hk]
    · exact candidate_congr rfl (by rw [get?_insert, if_neg hb])

end Edits

/-- The comparison of two captures finds their least candidate, unless its address goes beyond them, and nothing
else makes a difference to it. -/
theorem compares (contract : ShapeContract) (before : Capture) (ha : after.Ordered) :
    Compares contract before after where
  least address := by
    rw [firstChange_eq_some_iff ha]
    simp only [eq_comm (a := Except.ok address), Address.plus_eq_ok_iff]
  beyond stop := by
    rw [firstChange_eq_some_iff ha]
    simp only [eq_comm (a := Except.error stop), Address.plus_eq_error_iff]
  nothing := firstChange_eq_none_iff ha
  same := ha.firstChange_self contract
  unnoticed before' after' hu := firstChange_congr ha (hu.ordered ha) hu.candidate_iff
  single b k hc hone := by
    refine (firstChange_eq_some_iff ha _).mpr ⟨b, k, ⟨hc, ?_⟩, rfl⟩
    rintro ⟨b', k'⟩ hc'
    obtain ⟨rfl, rfl⟩ := hone b' k' (Candidate.differs hc')
    exact le_refl _

theorem ordered_ofList (regions : List (Nat × ByteArray)) : (ofList regions).Ordered := by
  have hfold : ∀ c : Capture, c.Ordered → (regions.foldl (fun c r => c.insert r.1 r.2) c).Ordered := by
    induction regions with
    | nil => exact fun c hc => hc
    | cons r rest ih => exact fun c hc => ih _ hc.insert
  exact hfold empty ordered_empty

def pressedBefore : Capture := ofList [(0x200, zeros 8), (0x100, zeros 6)]

/-- The same regions with a press of `A` in the second, and in the first a change to no state of a controller. -/
def pressedAfter : Capture :=
  ofList [(0x200, ⟨#[0, 0, 0, 0, 0x80, 0, 0, 0]⟩), (0x100, ⟨#[0, 0x40, 0, 0, 0x80, 0]⟩)]

theorem compares_pressed : Compares .standard pressedBefore pressedAfter ∧
    firstChange pressedBefore pressedAfter .standard = some (.ok 0x204) := by
  exact ⟨compares .standard pressedBefore (ordered_ofList _), by decide +kernel⟩

def overhanging (bytes : ByteArray) : Capture := ofList [(0xfffffffffffffffc, bytes)]

/-- The only candidate has no address. -/
theorem firstChange_overhanging :
    IsLeast (candidates .standard (overhanging (zeros 8)) (overhanging ⟨#[0, 0, 0, 0, 0x80, 0, 0, 0]⟩))
        (toLex (0xfffffffffffffffc, 1)) ∧
      firstChange (overhanging (zeros 8)) (overhanging ⟨#[0, 0, 0, 0, 0x80, 0, 0, 0]⟩) .standard =
        some (.error .overflow) := by
  have hfirst : firstChange (overhanging (zeros 8)) (overhanging ⟨#[0, 0, 0, 0, 0x80, 0, 0, 0]⟩) .standard =
      some (.error .overflow) := by decide +kernel
  obtain ⟨b, k, hleast, hplus⟩ := isLeast_of_firstChange (ordered_ofList _) hfirst
  obtain ⟨old, new, -, hnew, -, v, w, -, hw, -⟩ := id hleast.1
  obtain ⟨rfl, rfl⟩ := Prod.mk.inj (List.mem_singleton.mp (mem_of_get? hnew))
  have hbound : 4 * k + 4 ≤ 8 := StateBytes.bound_of_at? hw
  have hcount : Address.count ≤ 0xfffffffffffffffc + 4 * k := Address.plus_eq_error_iff.mp hplus.symm
  have hcount' : Address.count = 0xfffffffffffffffc + 4 := rfl
  obtain rfl : k = 1 := by omega
  exact ⟨hleast, hfirst⟩

end ConsoleBridge.Capture
