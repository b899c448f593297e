import Mathlib.Data.List.Forall2
import Mathlib.Data.Nat.Digits.Defs
import ConsoleBridge.Text.Blank
import ConsoleBridge.Text.Numeral

/-!
# What numerals denote

A numeral is read exactly if it is one or more digits, behind a plus sign or not, of a value that fits a word.
Numerals that are written in hexadecimal are read back, however many zeros stand in front.
-/
namespace ConsoleBridge

namespace Numeral

variable {base acc n m d : Nat} {c : Char} {cs : List Char} {ds es : List Nat}

/-- The number that the digits `ds` make of the number in front of them. -/
def valueFrom (base acc : Nat) (ds : List Nat) : Nat := ds.foldl (fun a d => a * base + d) acc

abbrev Spells (base : Nat) (cs : List Char) (ds : List Nat) : Prop :=
  List.Forall₂ (fun c d => digit? base c = some d) cs ds

def unsigned : List Char → List Char
  | '+' :: rest => rest
  | cs => cs

/-- The text is a numeral to the given base of the value `n`, which fits a word. -/
structure Denotes (base : Nat) (cs : List Char) (n : Nat) : Prop where
  fits : n < wordLimit
  digits : ∃ ds, ds ≠ [] ∧ Spells base (unsigned cs) ds ∧ valueFrom base 0 ds = n

private theorem lt_of_digit? (hd : digit? base c = some d) : d < base := by
  rw [digit?] at hd
  split at hd
  · split at hd
    · cases hd
      assumption
    · cases hd
  · cases hd

private theorem le_valueFrom (hbase : 0 < base) : acc ≤ valueFrom base acc ds := by
  induction ds generalizing acc with
  | nil => exact Nat.le_refl acc
  | cons d ds ih =>
    calc acc ≤ acc * base := Nat.le_mul_of_pos_right acc hbase
      _ ≤ acc * base + d := Nat.le_add_right ..
      _ ≤ valueFrom base acc (d :: ds) := ih

private theorem valueFrom_append : valueFrom base acc (ds ++ es) = valueFrom base (valueFrom base acc ds) es :=
  List.foldl_append

private theorem valueFrom_replicate_zero (k : Nat) : valueFrom base 0 (List.replicate k 0) = 0 := by
  induction k with
  | zero => rfl
  | succ k ih =>
    rw [List.replicate_succ, valueFrom, List.foldl_cons, Nat.zero_mul]
    exact ih

theorem valueFrom_eq_ofDigits : valueFrom base 0 ds = Nat.ofDigits base ds.reverse := by
  rw [Nat.ofDigits_eq_foldr, List.foldr_reverse, valueFrom]
  simp [Nat.mul_comm, Nat.add_comm]

/-- The digits of a number that is written out, most significant first. -/
theorem exists_toDigits (hbase : 1 < base) (n : Nat) :
    ∃ ds, Nat.toDigits base n = ds.map Nat.digitChar ∧ ds ≠ [] ∧ (∀ d ∈ ds, d < base) ∧
      Nat.ofDigits base ds.reverse = n := by
  induction n using Nat.strongRecOn with
  | ind n ih =>
    rw [Nat.toDigits_eq_if hbase]
    split
    · next hn => exact ⟨[n], rfl, List.cons_ne_nil n [], by simpa using hn, Nat.ofDigits_singleton⟩
    · next hn =>
      have hpos : 0 < n := by omega
      obtain ⟨ds, hds, -, hlt, hvalue⟩ := ih (n / base) (Nat.div_lt_self hpos hbase)
      refine ⟨ds ++ [n % base], by simp [hds], by simp, ?_, ?_⟩
      · intro d hd
        rcases List.mem_append.mp hd with hd | hd
        · exact hlt d hd
        · rw [List.mem_singleton.mp hd]
          exact Nat.mod_lt n (Nat.zero_lt_of_lt hbase)
      · rw [List.reverse_append, List.reverse_singleton, List.singleton_append, Nat.ofDigits_cons, hvalue]
        exact Nat.mod_add_div n base

private theorem readDigits_eq_ok_iff (hacc : acc < wordLimit) :
    readDigits base acc cs = .ok n ↔ n < wordLimit ∧ ∃ ds, Spells base cs ds ∧ valueFrom base acc ds = n := by
  induction cs generalizing acc with
  | nil =>
    simp only [readDigits, Except.ok.injEq, Spells, List.forall₂_nil_left_iff, exists_eq_left, valueFrom,
      List.foldl_nil]
    constructor
    · rintro rfl
      exact ⟨hacc, rfl⟩
    · exact fun h => h.2
  | cons c cs ih =>
    rw [readDigits]
    simp only [Spells, List.forall₂_cons_left_iff]
    cases hc : digit? base c with
    | none => simp
    | some d =>
      dsimp only
      by_cases hfits : acc * base + d < wordLimit
      · rw [if_pos hfits, ih hfits]
        simp [Spells, valueFrom, and_assoc]
      · -- What has grown too large does not come back.
        rw [if_neg hfits]
        simp only [reduceCtorEq, false_iff, not_and, not_exists]
        rintro hn ds ⟨d', ds', hd', -, rfl⟩ rfl
        obtain rfl := Option.some.inj hd'
        have hgrown : acc * base + d ≤ valueFrom base acc (d :: ds') :=
          le_valueFrom (Nat.zero_lt_of_lt (lt_of_digit? hc))
        omega

/-- A sign is no digit. -/
theorem unsigned_of_spells (hs : Spells base cs ds) : unsigned cs = cs := by
  unfold unsigned
  split
  · next rest =>
    obtain ⟨d, _, hd, -⟩ := List.forall₂_cons_left_iff.mp hs
    have hnone : Hex.value? '+' = none := by decide
    rw [digit?, hnone] at hd
    cases hd
  · rfl

private theorem readNatural_eq (hcs : unsigned cs ≠ []) : readNatural base cs = readDigits base 0 (unsigned cs) := by
  rw [readNatural.eq_def]
  split
  · exact absurd rfl hcs
  · exact absurd rfl hcs
  · rfl
  · next hplus =>
    rw [unsigned]
    exact fun rest h => hplus rest h

private theorem not_ok_of_unsigned_eq_nil (hcs : unsigned cs = []) : readNatural base cs ≠ .ok n := by
  unfold unsigned at hcs
  split at hcs
  · subst hcs
    exact nofun
  · subst hcs
    exact nofun

/-- Exactly the numerals are read, with their values. -/
theorem readNatural_eq_ok_iff : readNatural base cs = .ok n ↔ Denotes base cs n := by
  by_cases hcs : unsigned cs = []
  · refine iff_of_false (not_ok_of_unsigned_eq_nil hcs) ?_
    rintro ⟨-, ds, hds, hspells, -⟩
    rw [hcs] at hspells
    exact hds (List.forall₂_nil_left_iff.mp hspells)
  · rw [readNatural_eq hcs, readDigits_eq_ok_iff (by decide)]
    constructor
    · rintro ⟨hn, ds, hspells, hvalue⟩
      refine ⟨hn, ds, ?_, hspells, hvalue⟩
      rintro rfl
      exact hcs (List.forall₂_nil_right_iff.mp hspells)
    · rintro ⟨hn, ds, -, hspells, hvalue⟩
      exact ⟨hn, ds, hspells, hvalue⟩

theorem toOption_readNatural_iff : (readNatural base cs).toOption = some n ↔ Denotes base cs n := by
  rw [← readNatural_eq_ok_iff]
  cases readNatural base cs with
  | ok m => simp [Except.toOption]
  | error e => simp [Except.toOption]

end Numeral

namespace Hex

variable {n : Nat} {c : Char}

/-- The text is one or more digits below sixteen that make up the number. -/
def Written (cs : List Char) (n : Nat) : Prop :=
  ∃ ds, cs = ds.map digit ∧ ds ≠ [] ∧ (∀ d ∈ ds, d < 16) ∧ Numeral.valueFrom 16 0 ds = n

theorem digit_facts :
    ∀ d < 16, Numeral.digit? 16 (digit d) = some d ∧ digit d ≠ '-' ∧ Blank.holds (digit d) = false := by
  decide

theorem digit_eq_digitChar : ∀ d < 16, digit d = d.digitChar := by decide

theorem digitsFrom_eq_toDigits (hn : n ≠ 0) (rest : List Char) : digitsFrom n rest = Nat.toDigits 16 n ++ rest := by
  induction n using Nat.strongRecOn generalizing rest with
  | ind n ih =>
    rw [digitsFrom, dif_neg hn, digit_eq_digitChar _ (Nat.mod_lt n (by decide)), Nat.toDigits_eq_if (by decide)]
    split
    · next hlt =>
      rw [Nat.div_eq_of_lt hlt, digitsFrom, dif_pos rfl, Nat.mod_eq_of_lt hlt]
      rfl
    · next hle =>
      rw [ih (n / 16) (by omega) (by omega), List.append_assoc]
      rfl

theorem digits_eq_toDigits (n : Nat) : digits n = Nat.toDigits 16 n := by
  rw [digits]
  split
  · next hn =>
    subst hn
    rfl
  · next hn => rw [digitsFrom_eq_toDigits hn, List.append_nil]

private theorem written_digits (n : Nat) : Written (digits n) n := by
  obtain ⟨ds, hds, hne, hlt, hvalue⟩ := Numeral.exists_toDigits (show 1 < 16 by decide) n
  refine ⟨ds, ?_, hne, hlt, Numeral.valueFrom_eq_ofDigits.trans hvalue⟩
  rw [digits_eq_toDigits, hds]
  exact List.map_congr_left fun d hd => (digit_eq_digitChar d (hlt d hd)).symm

theorem written_paddedDigits (width n : Nat) : Written (paddedDigits width n) n := by
  obtain ⟨ds, hds, hne, hlt, hvalue⟩ := written_digits n
  refine ⟨List.replicate (width - (digits n).length) 0 ++ ds, ?_, by simp [hne], ?_, ?_⟩
  · rw [paddedDigits, List.map_append, List.map_replicate, hds]
    rfl
  · intro d hd
    rcases List.mem_append.mp hd with hd | hd
    · rw [List.eq_of_mem_replicate hd]
      decide
    · exact hlt d hd
  · rw [Numeral.valueFrom_append, Numeral.valueFrom_replicate_zero, hvalue]

theorem of_mem_paddedDigits {width : Nat} (hc : c ∈ paddedDigits width n) : c ≠ '-' ∧ Blank.holds c = false := by
  obtain ⟨ds, hds, -, hlt, -⟩ := written_paddedDigits width n
  rw [hds] at hc
  obtain ⟨d, hd, rfl⟩ := List.mem_map.mp hc
  exact (digit_facts d (hlt d hd)).2

theorem paddedDigits_ne_nil (width n : Nat) : paddedDigits width n ≠ [] := by
  obtain ⟨ds, hds, hne, -, -⟩ := written_paddedDigits width n
  rw [hds]
  simpa using hne

/-- A written numeral denotes its number. -/
theorem denotes_paddedDigits {width : Nat} (hn : n < Numeral.wordLimit) :
    Numeral.Denotes 16 (paddedDigits width n) n := by
  obtain ⟨ds, hds, hne, hlt, hvalue⟩ := written_paddedDigits width n
  have hspells : Numeral.Spells 16 (paddedDigits width n) ds := by
    rw [hds, Numeral.Spells, List.forall₂_map_left_iff, List.forall₂_same]
    exact fun d hd => (digit_facts d (hlt d hd)).1
  exact ⟨hn, ds, hne, by rwa [Numeral.unsigned_of_spells hspells], hvalue⟩

end Hex

end ConsoleBridge
