import ConsoleBridge.Proofs.Text.Numerals

/-!
# Numbers as they are typed

An address is typed in hexadecimal behind `0x`, with underscores anywhere among the digits, or in decimal. Exactly what
is typed so is read, with the value of its digits, as long as this fits a word: nothing else is read and nothing wraps.
-/
namespace ConsoleBridge.Numeral

/-- The character is the digit `d` to a base, in lower or upper case. -/
def IsDigit (base : Nat) (c : Char) (d : Nat) : Prop := d < base ∧ (c = d.digitChar ∨ c = d.digitChar.toUpper)

/-- The text is one or more digits to a base, behind a plus sign or not, and they make up the number. -/
def IsNumeral (base : Nat) (cs : List Char) (n : Nat) : Prop :=
  ∃ sign digits ds, cs = sign ++ digits ∧ (sign = [] ∨ sign = ['+']) ∧ digits ≠ [] ∧
    List.Forall₂ (IsDigit base) digits ds ∧ Nat.ofDigits base ds.reverse = n

/-- How a number is typed: a hexadecimal numeral behind `0x` once the underscores are taken out, or what does not start
so and is a decimal numeral. -/
inductive Typed : List Char → Nat → Prop
  | hexadecimal {x : Char} {t : List Char} {n : Nat} (hx : x = 'x' ∨ x = 'X')
      (ht : IsNumeral 16 (t.filter (· != '_')) n) : Typed ('0' :: x :: t) n
  | decimal {cs : List Char} {n : Nat} (hcs : ∀ t, cs ≠ '0' :: 'x' :: t ∧ cs ≠ '0' :: 'X' :: t)
      (ht : IsNumeral 10 cs n) : Typed cs n

variable {base n d : Nat} {c x : Char} {cs t : List Char} {ds : List Nat}

private theorem lt_of_value? (hd : Hex.value? c = some d) : c.toNat < 103 := by
  have hnot : 103 ≤ c.toNat → ∀ a b : Char, b.toNat < 103 → ¬ (a ≤ c ∧ c ≤ b) := by
    intro hc a b hb hcb
    have hle : c.toNat ≤ b.toNat := hcb.2
    omega
  refine Nat.lt_of_not_le fun hc => ?_
  rw [Hex.value?, if_neg (hnot hc '0' '9' (by decide)), if_neg (hnot hc 'a' 'f' (by decide)),
    if_neg (hnot hc 'A' 'F' (by decide))] at hd
  cases hd

private theorem value?_eq_some_iff : Hex.value? c = some d ↔ IsDigit 16 c d := by
  constructor
  · intro hd
    have hall : ∀ k < 103, ∀ d ∈ Hex.value? (Char.ofNat k), IsDigit 16 (Char.ofNat k) d := by
      unfold IsDigit
      decide
    have hc := hall c.toNat (lt_of_value? hd) d
    rw [Char.ofNat_toNat] at hc
    exact hc hd
  · rintro ⟨hd, hc⟩
    have hall : ∀ d < 16, Hex.value? d.digitChar = some d ∧ Hex.value? d.digitChar.toUpper = some d := by decide
    rcases hc with rfl | rfl
    · exact (hall d hd).1
    · exact (hall d hd).2

private theorem digit?_eq_some_iff (hbase : base ≤ 16) : digit? base c = some d ↔ IsDigit base c d := by
  have hwide : IsDigit base c d ↔ d < base ∧ Hex.value? c = some d := by
    rw [value?_eq_some_iff, IsDigit, IsDigit]
    constructor
    · exact fun h => ⟨h.1, Nat.lt_of_lt_of_le h.1 hbase, h.2⟩
    · exact fun h => ⟨h.1, h.2.2⟩
  rw [hwide, digit?]
  cases Hex.value? c with
  | none => simp
  | some v =>
    dsimp only
    split
    · simp only [Option.some.injEq]
      constructor
      · rintro rfl
        exact ⟨‹_›, rfl⟩
      · exact fun h => h.2
    · simp only [reduceCtorEq, Option.some.injEq, false_iff]
      rintro ⟨hd, rfl⟩
      contradiction

theorem spells_eq (hbase : base ≤ 16) : Spells base cs ds = List.Forall₂ (IsDigit base) cs ds := by
  have hdigit : (fun c d => digit? base c = some d) = IsDigit base :=
    funext fun c => funext fun d => propext (digit?_eq_some_iff hbase)
  rw [Spells, hdigit]

private theorem exists_sign (cs : List Char) : ∃ sign, cs = sign ++ unsigned cs ∧ (sign = [] ∨ sign = ['+']) := by
  unfold unsigned
  split
  · exact ⟨['+'], rfl, .inr rfl⟩
  · exact ⟨[], rfl, .inl rfl⟩

private theorem denotes_iff (hbase : base ≤ 16) : Denotes base cs n ↔ n < wordLimit ∧ IsNumeral base cs n := by
  constructor
  · rintro ⟨hn, ds, hds, hspells, hvalue⟩
    rw [valueFrom_eq_ofDigits] at hvalue
    have hdigits : unsigned cs ≠ [] := by
      intro hnil
      rw [hnil] at hspells
      exact hds (List.forall₂_nil_left_iff.mp hspells)
    obtain ⟨sign, hcs, hsign⟩ := exists_sign cs
    exact ⟨hn, sign, unsigned cs, ds, hcs, hsign, hdigits, spells_eq hbase ▸ hspells, hvalue⟩
  · rintro ⟨hn, sign, digits, ds, rfl, hsign, hne, hdigits, hvalue⟩
    have hspells : Spells base digits ds := spells_eq hbase ▸ hdigits
    have hunsigned : unsigned (sign ++ digits) = digits := by
      rcases hsign with rfl | rfl
      · exact unsigned_of_spells hspells
      · rfl
    refine ⟨hn, ds, ?_, hunsigned.symm ▸ hspells, valueFrom_eq_ofDigits.trans hvalue⟩
    rintro rfl
    exact hne (List.forall₂_nil_right_iff.mp hspells)

theorem readNatural_iff (hbase : base ≤ 16) :
    readNatural base cs = .ok n ↔ n < wordLimit ∧ IsNumeral base cs n :=
  readNatural_eq_ok_iff.trans (denotes_iff hbase)

private theorem readHexOrDecimal_eq_ok_iff : readHexOrDecimal cs = .ok n ↔ n < wordLimit ∧ Typed cs n := by
  have hhex : ∀ x t, x = 'x' ∨ x = 'X' → (readNatural 16 (t.filter (· != '_')) = .ok n ↔
      n < wordLimit ∧ Typed ('0' :: x :: t) n) := by
    intro x t hx
    rw [readNatural_iff (by decide)]
    refine and_congr_right fun _ => ⟨.hexadecimal hx, fun h => ?_⟩
    cases h with
    | hexadecimal hx' ht => exact ht
    | decimal hcs ht =>
      rcases hx with rfl | rfl
      · exact absurd rfl (hcs t).1
      · exact absurd rfl (hcs t).2
  rw [readHexOrDecimal.eq_def]
  split
  · exact hhex _ _ (.inl rfl)
  · exact hhex _ _ (.inr rfl)
  · next hx hX =>
    rw [readNatural_iff (by decide)]
    refine and_congr_right fun _ => ⟨.decimal fun t => ⟨hx t, hX t⟩, fun h => ?_⟩
    cases h with
    | hexadecimal hx' ht =>
      rcases hx' with rfl | rfl
      · exact absurd rfl (hx _)
      · exact absurd rfl (hX _)
    | decimal hcs ht => exact ht

/-- A number written out in the digits of a base, all in lower case or all in upper case, is a numeral of it. -/
theorem isNumeral_toDigits (hbase : 1 < base) (n : Nat) :
    IsNumeral base (Nat.toDigits base n) n ∧ IsNumeral base ((Nat.toDigits base n).map Char.toUpper) n := by
  obtain ⟨ds, hds, hne, hlt, hvalue⟩ := exists_toDigits hbase n
  have hdigits : ∀ f : Nat → Char, (∀ d, f d = d.digitChar ∨ f d = d.digitChar.toUpper) →
      IsNumeral base (ds.map f) n := by
    intro f hf
    refine ⟨[], ds.map f, ds, rfl, .inl rfl, by simpa using hne, ?_, hvalue⟩
    rw [List.forall₂_map_left_iff, List.forall₂_same]
    exact fun d hd => ⟨hlt d hd, hf d⟩
  rw [hds, List.map_map]
  exact ⟨hdigits _ fun d => .inl rfl, hdigits _ fun d => .inr rfl⟩

theorem toDigits_ne_cons_cons (hx : x.isDigit = false) (n : Nat) (c : Char) (t : List Char) :
    Nat.toDigits 10 n ≠ c :: x :: t := by
  intro h
  have hmem : x ∈ Nat.toDigits 10 n := h ▸ List.mem_cons_of_mem c List.mem_cons_self
  have hdigit := Nat.isDigit_of_mem_toDigits (by decide) (by decide) hmem
  rw [hx] at hdigit
  cases hdigit

/-- Exactly what is typed as a number below 2 ^ 64 is read, with this value, and all else is refused. So every such
number is read back, written in hexadecimal in either case, with underscores anywhere, or in decimal. -/
theorem reads_exactly_typed :
    (∀ cs n, readHexOrDecimal cs = .ok n ↔ n < 2 ^ 64 ∧ Typed cs n) ∧
      (∀ cs, (∃ e, readHexOrDecimal cs = .error e) ↔ ∀ n < 2 ^ 64, ¬ Typed cs n) ∧
      ∀ n < 2 ^ 64,
        (∀ x t, x = 'x' ∨ x = 'X' → t.filter (· != '_') = Nat.toDigits 16 n ∨
            t.filter (· != '_') = (Nat.toDigits 16 n).map Char.toUpper →
          readHexOrDecimal ('0' :: x :: t) = .ok n) ∧
        readHexOrDecimal (Nat.toDigits 10 n) = .ok n := by
  have hlimit : wordLimit = 2 ^ 64 := rfl
  have hok : ∀ cs n, readHexOrDecimal cs = .ok n ↔ n < 2 ^ 64 ∧ Typed cs n := fun cs n =>
    hlimit ▸ readHexOrDecimal_eq_ok_iff
  refine ⟨hok, fun cs => ?_, fun n hn => ⟨fun x t hx ht => ?_, ?_⟩⟩
  · cases hread : readHexOrDecimal cs with
    | ok n =>
      have htyped := (hok cs n).mp hread
      simp only [reduceCtorEq, exists_false, false_iff, not_forall, not_not]
      exact ⟨n, htyped.1, htyped.2⟩
    | error e =>
      refine ⟨fun _ n hn htyped => ?_, fun _ => ⟨e, rfl⟩⟩
      rw [(hok cs n).mpr ⟨hn, htyped⟩] at hread
      cases hread
  · have hnumerals : IsNumeral 16 (Nat.toDigits 16 n) n ∧ IsNumeral 16 ((Nat.toDigits 16 n).map Char.toUpper) n :=
      isNumeral_toDigits (by decide) n
    refine (hok _ n).mpr ⟨hn, .hexadecimal hx ?_⟩
    rcases ht with ht | ht
    · exact ht ▸ hnumerals.1
    · exact ht ▸ hnumerals.2
  · refine (hok _ n).mpr ⟨hn, .decimal (fun t => ?_) (isNumeral_toDigits (by decide) n).1⟩
    exact ⟨toDigits_ne_cons_cons rfl n '0' t, toDigits_ne_cons_cons rfl n '0' t⟩

/-- Underscores may stand in front of the digits, between them and behind them. -/
theorem reads_underscored :
    0xDEADBEEF < 2 ^ 64 ∧ "_DEAD__BEEF_".toList.filter (· != '_') = (Nat.toDigits 16 0xDEADBEEF).map Char.toUpper ∧
      readHexOrDecimal ('0' :: 'X' :: "_DEAD__BEEF_".toList) = .ok 0xDEADBEEF := by
  have hfilter : "_DEAD__BEEF_".toList.filter (· != '_') = (Nat.toDigits 16 0xDEADBEEF).map Char.toUpper := by decide
  refine ⟨by decide, hfilter, ?_⟩
  exact (reads_exactly_typed.2.2 0xDEADBEEF (by decide)).1 'X' _ (.inr rfl) (.inr hfilter)

end ConsoleBridge.Numeral
