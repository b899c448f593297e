import Mathlib
import ConsoleBridge.Process.Live
import ConsoleBridge.Proofs.Text.Numerals

/-!
# Lines of the list of mappings

The line of a mapping is read back, whatever widths its numerals are written in and however far off its name stands:
the bounds and the protection as they are, of the name what stands in front of its first blank.
-/
namespace ConsoleBridge

namespace Blank

variable {c : Char} {cs cs' front word rest : List Char}

structure Word (cs : List Char) : Prop where
  ne_nil : cs ≠ []
  unblank : ∀ c ∈ cs, holds c = false

def Breaks (rest : List Char) : Prop := ∀ c ∈ rest.head?, holds c = true

theorem Word.append (hw : Word word) (hrest : Word rest) : Word (word ++ rest) where
  ne_nil := List.append_ne_nil_of_left_ne_nil hw.ne_nil rest
  unblank c hc := (List.mem_append.mp hc).elim (hw.unblank c) (hrest.unblank c)

theorem Word.cons (hc : holds c = false) (hcs : ∀ d ∈ cs, holds d = false) : Word (c :: cs) :=
  ⟨List.cons_ne_nil c cs, List.forall_mem_cons.mpr ⟨hc, hcs⟩⟩

private theorem words_congr (h : cs.dropWhile holds = cs'.dropWhile holds) : words cs = words cs' := by
  rw [words, words]
  split
  · next hnil => rw [← h, hnil]
  · next c rest hcons => rw [← h, hcons]

theorem words_append_of_blank (hfront : ∀ c ∈ front, holds c = true) : words (front ++ rest) = words rest :=
  words_congr (List.dropWhile_append_of_pos hfront)

private theorem words_of_blank (hcs : ∀ c ∈ cs, holds c = true) : words cs = [] := by
  have hwords : words (cs ++ []) = words [] := words_append_of_blank hcs
  rw [List.append_nil] at hwords
  rw [hwords, words]
  rfl

theorem words_cons (hc : holds c = false) :
    words (c :: cs) = (c :: cs.takeWhile (!holds ·)) :: words (cs.dropWhile (!holds ·)) := by
  have hkept : (c :: cs).dropWhile holds = c :: cs := List.dropWhile_cons_of_neg (by simp [hc])
  rw [words]
  split
  · next hnil =>
    rw [hkept] at hnil
    cases hnil
  · next d rest hcons =>
    rw [hkept] at hcons
    cases hcons
    rfl

theorem breaks_space : Breaks (' ' :: rest) := by
  simp [Breaks, holds]

theorem Breaks.append (hfront : ∀ c ∈ front, holds c = true) (hrest : Breaks rest) : Breaks (front ++ rest) := by
  cases front with
  | nil => exact hrest
  | cons c front =>
    rintro _ ⟨⟩
    exact hfront c List.mem_cons_self

/-- A word that the text ends or a blank follows is cut off. -/
theorem words_append (hw : Word word) (hrest : Breaks rest) : words (word ++ rest) = word :: words rest := by
  obtain ⟨c, cs, rfl⟩ := List.exists_cons_of_ne_nil hw.ne_nil
  obtain ⟨hc, hcs⟩ := List.forall_mem_cons.mp hw.unblank
  have hcs' : ∀ d ∈ cs, (!holds d) = true := by simpa using hcs
  have hstop : rest.takeWhile (!holds ·) = [] ∧ rest.dropWhile (!holds ·) = rest := by
    cases rest with
    | nil => exact ⟨rfl, rfl⟩
    | cons b rest =>
      have hb : ¬ (!holds b) = true := by simp [hrest b rfl]
      exact ⟨List.takeWhile_cons_of_neg hb, List.dropWhile_cons_of_neg hb⟩
  rw [List.cons_append, words_cons hc, List.takeWhile_append_of_pos hcs', List.dropWhile_append_of_pos hcs', hstop.1,
    hstop.2, List.append_nil]

theorem words_space : words (' ' :: rest) = words rest := by
  have hspace : ∀ c ∈ [' '], holds c = true := List.forall_mem_singleton.mpr rfl
  exact words_append_of_blank hspace

theorem words_append_space (hw : Word word) : words (word ++ ' ' :: rest) = word :: words rest := by
  rw [words_append hw breaks_space, words_space]

end Blank

open Blank Numeral

namespace Maps

variable {line first limit : List Char} {r : Region}

theorem splitAtDash_cons {c : Char} {cs : List Char} (hc : c ≠ '-') :
    splitAtDash (c :: cs) = (splitAtDash cs).map fun p => (c :: p.1, p.2) := by
  rw [splitAtDash]
  exact fun h => hc h

theorem splitAtDash_append (hdash : '-' ∉ first) : splitAtDash (first ++ '-' :: limit) = some (first, limit) := by
  induction first with
  | nil => rfl
  | cons c first ih =>
    rw [List.cons_append, splitAtDash_cons (Ne.symm (List.ne_of_not_mem_cons hdash)),
      ih (List.not_mem_of_not_mem_cons hdash)]
    rfl

private theorem eq_append_of_splitAtDash {cs : List Char} (h : splitAtDash cs = some (first, limit)) :
    cs = first ++ '-' :: limit ∧ '-' ∉ first := by
  induction cs generalizing first with
  | nil => cases h
  | cons c cs ih =>
    by_cases hc : c = '-'
    · subst hc
      cases h
      exact ⟨rfl, List.not_mem_nil⟩
    · rw [splitAtDash_cons hc] at h
      obtain ⟨⟨first', limit'⟩, hrest, h⟩ := Option.map_eq_some_iff.mp h
      cases h
      obtain ⟨rfl, hdash⟩ := ih hrest
      exact ⟨rfl, List.not_mem_cons_of_ne_of_not_mem (Ne.symm hc) hdash⟩

/-- The line gives the bounds of the region as hexadecimal numerals with a dash between them, and its protection,
and has the name for its sixth word. -/
inductive Describes : List Char → Region → Prop
  | intro {line first limit permissions : List Char} {rest : List (List Char)} {r : Region}
      (words_eq : words line = (first ++ '-' :: limit) :: permissions :: rest) (dash : '-' ∉ first)
      (base : Denotes 16 first r.base) (behind : Denotes 16 limit (r.base + r.size))
      (protection : protection? (String.ofList permissions).toUTF8 = some r.protection)
      (name : (rest.drop 3).head?.map String.ofList = r.name) : Describes line r

/-- Exactly the regions that lines describe are read from them. -/
theorem region?_eq_some_iff : region? line = some r ↔ Describes line r := by
  constructor
  · intro h
    rw [region?] at h
    split at h
    · next bounds permissions rest hwords =>
      simp only [Option.bind_eq_bind, Option.bind_eq_some_iff, Prod.exists] at h
      obtain ⟨first, limit, hsplit, base, hbase, behind, hbehind, h⟩ := h
      obtain ⟨rfl, hdash⟩ := eq_append_of_splitAtDash hsplit
      split at h
      · cases h
      · next hle =>
        obtain ⟨protection, hprotection, h⟩ := Option.bind_eq_some_iff.mp h
        cases h
        refine .intro hwords hdash (toOption_readNatural_iff.mp hbase) ?_ hprotection rfl
        rw [Nat.add_sub_cancel' (Nat.le_of_not_lt hle)]
        exact toOption_readNatural_iff.mp hbehind
    · cases h
  · rintro ⟨hwords, hdash, hbase, hbehind, hprotection, hname⟩
    rw [region?, hwords]
    simp only [splitAtDash_append hdash, toOption_readNatural_iff.mpr hbase,
      toOption_readNatural_iff.mpr hbehind, Option.bind_eq_bind, Option.bind_some, hprotection, hname,
      Nat.add_sub_cancel_left]
    rw [if_neg (Nat.not_lt.mpr (Nat.le_add_right ..))]
    rfl

/-- Nothing is read where the bounds are no numerals or go down. -/
theorem region?_eq_none {bounds : List (List Char)} (hwords : words line = (first ++ '-' :: limit) :: bounds)
    (hdash : '-' ∉ first) (hbounds : ∀ b e, Denotes 16 first b → Denotes 16 limit e → e < b) :
    region? line = none := by
  rw [Option.eq_none_iff_forall_not_mem]
  intro r hr
  obtain ⟨hwords', hdash', hbase, hbehind, -, -⟩ := region?_eq_some_iff.mp hr
  rw [hwords] at hwords'
  have hsame := (congrArg splitAtDash (List.cons.inj hwords').1).symm.trans (splitAtDash_append hdash)
  rw [splitAtDash_append hdash'] at hsame
  cases hsame
  exact absurd (hbounds _ _ hbase hbehind) (Nat.not_lt.mpr (Nat.le_add_right ..))

/-- How many digits the numerals of a line have at least, and how many more blanks than one stand behind them. -/
structure Layout where
  bounds : Nat
  offset : Nat
  device : Nat
  gap : Nat

end Maps

namespace Mapped

variable {m : Mapped} {l : Maps.Layout}

def boundsText (l : Maps.Layout) (m : Mapped) : List Char :=
  Hex.paddedDigits l.bounds m.base ++ '-' :: Hex.paddedDigits l.bounds m.limit

def permissions (m : Mapped) : List Char := m.protection.letters ++ [if m.isShared then 's' else 'p']

def deviceText (l : Maps.Layout) (m : Mapped) : List Char :=
  Hex.paddedDigits l.device m.device.1 ++ ':' :: Hex.paddedDigits l.device m.device.2

def nameText (l : Maps.Layout) (m : Mapped) : List Char :=
  List.replicate l.gap ' ' ++ match m.name with
    | some name => ' ' :: name.toList
    | none => []

def lineIn (l : Maps.Layout) (m : Mapped) : List Char :=
  m.boundsText l ++ ' ' :: (m.permissions ++ ' ' :: (Hex.paddedDigits l.offset m.offset ++
    ' ' :: (m.deviceText l ++ ' ' :: (Nat.toDigits 10 m.inode ++ m.nameText l))))

/-- The part of a name that stands in front of its first blank. -/
def unblankPart (name : String) : String := String.ofList (name.toList.takeWhile (!Blank.holds ·))

def region (m : Mapped) : Region := ⟨m.base, m.bytes.size, m.protection, m.name⟩

/-- The region of a mapping with its name up to the first blank. -/
def listed (m : Mapped) : Region := ⟨m.base, m.bytes.size, m.protection, m.name.map unblankPart⟩

/-- A mapping that ends where addresses do or before, with a name that begins with no blank if it has one. -/
structure Listable (m : Mapped) : Prop where
  fits : m.limit < wordLimit
  named : ∀ name ∈ m.name, ∃ c cs, name.toList = c :: cs ∧ Blank.holds c = false

/-- The kernel's lines have such a layout. -/
theorem exists_line_eq (m : Mapped) : ∃ gap, m.line = m.lineIn ⟨8, 8, 2, gap⟩ := by
  cases hname : m.name with
  | none => exact ⟨0, by simp [line, lineIn, boundsText, permissions, deviceText, nameText, hname]⟩
  | some name => exact ⟨_, by simp only [line, lineIn, boundsText, permissions, deviceText, nameText, hname,
      List.append_assoc, List.cons_append]; rfl⟩

theorem word_paddedDigits (width n : Nat) : Word (Hex.paddedDigits width n) :=
  ⟨Hex.paddedDigits_ne_nil width n, fun _ hc => (Hex.of_mem_paddedDigits hc).2⟩

theorem word_boundsText : Word (m.boundsText l) :=
  (word_paddedDigits ..).append (.cons (by decide) (word_paddedDigits ..).unblank)

theorem word_deviceText : Word (m.deviceText l) :=
  (word_paddedDigits ..).append (.cons (by decide) (word_paddedDigits ..).unblank)

theorem word_permissions : Word m.permissions := by
  have hall : m.permissions.all (!Blank.holds ·) = true := by
    rw [permissions]
    rcases m.protection with ⟨_ | _, _ | _, _ | _⟩ <;> cases m.isShared <;> rfl
  exact ⟨List.append_ne_nil_of_right_ne_nil _ (List.cons_ne_nil _ _), by simpa using hall⟩

theorem word_toDigits (n : Nat) : Word (Nat.toDigits 10 n) := by
  refine ⟨Nat.toDigits_ne_nil, fun c hc => ?_⟩
  have hdigit := Nat.isDigit_of_mem_toDigits (by decide) (by decide) hc
  simp only [Char.isDigit, Bool.and_eq_true, decide_eq_true_eq, UInt32.le_iff_toNat_le] at hdigit
  have hrange : 48 ≤ c.toNat ∧ c.toNat ≤ 57 := hdigit
  simp [Blank.holds]
  omega

private theorem protection?_permissions :
    Maps.protection? (String.ofList m.permissions).toUTF8 = some m.protection := by
  rw [permissions]
  rcases m.protection with ⟨_ | _, _ | _, _ | _⟩ <;> cases m.isShared <;> rfl

private theorem words_nameText (hm : m.Listable) : Breaks (m.nameText l) ∧
    (words (m.nameText l)).head?.map String.ofList = m.name.map unblankPart := by
  have hgap : ∀ c ∈ List.replicate l.gap ' ', Blank.holds c = true := by
    intro c hc
    rw [List.eq_of_mem_replicate hc]
    rfl
  rw [nameText]
  cases hname : m.name with
  | none =>
    rw [words_append_of_blank hgap, words_of_blank (List.forall_mem_nil _)]
    exact ⟨.append hgap nofun, rfl⟩
  | some name =>
    obtain ⟨c, cs, hcs, hc⟩ := hm.named name hname
    refine ⟨.append hgap breaks_space, ?_⟩
    rw [words_append_of_blank hgap]
    dsimp only
    rw [words_space, hcs, words_cons hc, Option.map_some, unblankPart, hcs, List.takeWhile_cons_of_pos (by simp [hc])]
    rfl

private theorem words_lineIn (hname : Breaks (m.nameText l)) :
    words (m.lineIn l) = m.boundsText l :: m.permissions :: Hex.paddedDigits l.offset m.offset :: m.deviceText l ::
      Nat.toDigits 10 m.inode :: words (m.nameText l) := by
  rw [lineIn, words_append_space word_boundsText, words_append_space word_permissions,
    words_append_space (word_paddedDigits ..), words_append_space word_deviceText,
    words_append (word_toDigits _) hname]

theorem describes_lineIn (hm : m.Listable) (l : Maps.Layout) : Maps.Describes (m.lineIn l) m.listed := by
  obtain ⟨hbreaks, hname⟩ := words_nameText (l := l) hm
  have hdash : '-' ∉ Hex.paddedDigits l.bounds m.base := fun h => (Hex.of_mem_paddedDigits h).1 rfl
  refine .intro (words_lineIn hbreaks) hdash ?_ ?_ protection?_permissions hname
  · exact Hex.denotes_paddedDigits (Nat.lt_of_le_of_lt (Nat.le_add_right ..) hm.fits)
  · exact Hex.denotes_paddedDigits hm.fits

private theorem listed_eq_region_iff :
    m.listed = m.region ↔ ∀ name ∈ m.name, ∀ c ∈ name.toList, Blank.holds c = false := by
  rw [listed, region, Region.mk.injEq]
  cases m.name with
  | none => simp
  | some name =>
    have hpart : unblankPart name = name ↔ name.toList.takeWhile (!Blank.holds ·) = name.toList := by
      rw [unblankPart, ← String.toList_inj, String.toList_ofList]
    simp [hpart]

/-- The line of a mapping is read, and gives its region exactly if no blank is in its name. Whatever is read from a
line is what the line describes, and nothing is read where the bounds are no numerals or go down. -/
theorem region?_lineIn (hm : m.Listable) (l : Maps.Layout) :
    (Maps.region? (m.lineIn l) = some m.listed ∧
      (Maps.region? (m.lineIn l) = some m.region ↔ ∀ name ∈ m.name, ∀ c ∈ name.toList, Blank.holds c = false)) ∧
    (∀ line r, Maps.region? line = some r ↔ Maps.Describes line r) ∧
    ∀ line first limit rest, words line = (first ++ '-' :: limit) :: rest → '-' ∉ first →
      (∀ b e, Denotes 16 first b → Denotes 16 limit e → e < b) → Maps.region? line = none := by
  have hread : Maps.region? (m.lineIn l) = some m.listed := Maps.region?_eq_some_iff.mpr (describes_lineIn hm l)
  refine ⟨⟨hread, ?_⟩, fun line r => Maps.region?_eq_some_iff, fun line first limit rest => Maps.region?_eq_none⟩
  rw [hread, Option.some.injEq]
  exact listed_eq_region_iff

def heap : Mapped := ⟨0x55D0C6A4D000, Bytes.zeros 16, .readWrite, false, 0, (0, 0), 0, some "[heap]"⟩

theorem region?_heap : heap.Listable ∧ Maps.region? (heap.lineIn ⟨8, 8, 2, 9⟩) = some heap.region := by
  have hname : "[heap]".toList = ['[', 'h', 'e', 'a', 'p', ']'] := rfl
  have hlistable : heap.Listable := ⟨by decide, by rintro _ ⟨⟩; exact ⟨'[', _, rfl, rfl⟩⟩
  have hunblank : ∀ name ∈ heap.name, ∀ c ∈ name.toList, Blank.holds c = false := by
    rintro _ ⟨⟩
    rw [hname]
    simp [Blank.holds]
  exact ⟨hlistable, (region?_lineIn hlistable _).1.2.mpr hunblank⟩

def plugin : Mapped :=
  ⟨0x1000, Bytes.zeros 0x1000, ⟨true, true, true⟩, false, 0, (0, 0), 0, some "/opt/My Emulator/input.so"⟩

/-- Its region is listed with another name. -/
theorem region?_plugin :
    plugin.Listable ∧
      plugin.lineIn ⟨0, 8, 2, 2⟩ = "1000-2000 rwxp 00000000 00:00 0   /opt/My Emulator/input.so".toList ∧
      Maps.region? (plugin.lineIn ⟨0, 8, 2, 2⟩) = some { plugin.region with name := some "/opt/My" } ∧
      Maps.region? (plugin.lineIn ⟨0, 8, 2, 2⟩) ≠ some plugin.region := by
  have hlimit : plugin.limit = 0x2000 := by rw [limit, plugin, Bytes.size_zeros]
  have hregion : plugin.region = ⟨0x1000, 0x1000, ⟨true, true, true⟩, some "/opt/My Emulator/input.so"⟩ := by
    rw [region, plugin, Bytes.size_zeros]
  have hline : plugin.lineIn ⟨0, 8, 2, 2⟩ = "1000-2000 rwxp 00000000 00:00 0   /opt/My Emulator/input.so".toList := by
    rw [lineIn, boundsText, hlimit, permissions, deviceText, nameText]
    dsimp only [plugin]
    cbv
  have hread : Maps.region? "1000-2000 rwxp 00000000 00:00 0   /opt/My Emulator/input.so".toList =
      some ⟨0x1000, 0x1000, ⟨true, true, true⟩, some "/opt/My"⟩ := by cbv
  have hlistable : plugin.Listable := by
    constructor
    · rw [hlimit]
      decide
    · rintro _ ⟨⟩
      exact ⟨'/', _, rfl, rfl⟩
  rw [hline, hregion, hread]
  exact ⟨hlistable, rfl, rfl, by decide⟩

end Mapped

end ConsoleBridge
