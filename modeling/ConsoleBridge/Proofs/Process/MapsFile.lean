import ConsoleBridge.Proofs.Process.MapsLine
import ConsoleBridge.Proofs.Text.Canonical

/-!
# The whole list of mappings

The list is cut into its lines, and the regions that its lines describe are read in their order up to the first line
that is no text. Whatever such a line hides is lost. The list of a running process whose names are text is read
mapping by mapping.
-/
namespace ConsoleBridge.Maps

def withoutReturn (line : ByteArray) : ByteArray :=
  if line.size ≠ 0 ∧ line.data.back? = some 13 then line.extract 0 (line.size - 1) else line

def fileOf (lines : List ByteArray) : ByteArray := ⟨(lines.flatMap fun line => line.data.toList ++ [10]).toArray⟩

/-- No line is ended inside. -/
def Whole (lines : List ByteArray) : Prop := ∀ line ∈ lines, 10 ∉ line.data.toList

def isText (line : ByteArray) : Bool := (String.fromUTF8? (withoutReturn line)).isSome

/-- The region that a line of the file describes, if it is text and describes one. -/
def lineRegion? (line : ByteArray) : Option Region :=
  (String.fromUTF8? (withoutReturn line)).bind fun s => region? s.toList

/-- No region is listed behind a line that is no text. -/
def Unhidden (lines : List ByteArray) : Prop :=
  ∀ front line behind, lines = front ++ line :: behind → isText line = false → behind.filterMap lineRegion? = []

variable {lines : List ByteArray} {line current : ByteArray} {bytes rest : List UInt8}

private theorem toList_eq (b : ByteArray) : b.toList = b.data.toList := by
  rw [ByteArray.toList, Base64.toList_loop]
  rfl

/-- Bytes up to the end of their line make up this line. -/
theorem linesFrom_append (hbytes : 10 ∉ bytes) :
    linesFrom current (bytes ++ 10 :: rest) =
      withoutReturn (current ++ ⟨bytes.toArray⟩) :: linesFrom ByteArray.empty rest := by
  induction bytes generalizing current with
  | nil =>
    have hnone : current ++ ⟨#[]⟩ = current := ByteArray.append_empty
    rw [List.nil_append, linesFrom, if_pos rfl, hnone]
    rfl
  | cons b bytes ih =>
    have hpush : current.push b ++ ⟨bytes.toArray⟩ = current ++ ⟨(b :: bytes).toArray⟩ := by
      apply ByteArray.ext
      simp
    rw [List.cons_append, linesFrom, if_neg (Ne.symm (List.ne_of_not_mem_cons hbytes)),
      ih (List.not_mem_of_not_mem_cons hbytes), hpush]

private theorem linesFrom_fileOf (hlines : Whole lines) :
    linesFrom ByteArray.empty (fileOf lines).toList = lines.map withoutReturn := by
  rw [toList_eq, fileOf]
  dsimp only
  induction lines with
  | nil => rfl
  | cons line lines ih =>
    obtain ⟨hline, hlines⟩ := List.forall_mem_cons.mp hlines
    rw [List.flatMap_cons, List.append_assoc, List.singleton_append, linesFrom_append hline, ih hlines,
      ByteArray.empty_append]
    rfl

/-- The regions of the lines in front of the first that is no text are read. -/
theorem regions_fileOf (hlines : Whole lines) :
    regions (fileOf lines) = (lines.takeWhile isText).filterMap lineRegion? := by
  rw [regions, linesFrom_fileOf hlines, List.map_map, List.takeWhile_map, List.filterMap_map]
  rfl

private theorem lineRegion?_eq_none (hline : isText line = false) : lineRegion? line = none := by
  have hnone : String.fromUTF8? (withoutReturn line) = none := by simpa [isText] using hline
  rw [lineRegion?, hnone, Option.bind_none]

theorem mem_dropWhile {front behind : List ByteArray} {l : ByteArray} (hline : isText line = false)
    (hl : l ∈ behind) : l ∈ (front ++ line :: behind).dropWhile isText := by
  induction front with
  | nil =>
    rw [List.nil_append, List.dropWhile_cons_of_neg (by simp [hline])]
    exact List.mem_cons_of_mem line hl
  | cons f front ih =>
    rw [List.cons_append, List.dropWhile_cons]
    split
    · exact ih
    · simp [hl]

/-- What is left out is nothing exactly if nothing is hidden. -/
theorem filterMap_dropWhile_eq_nil_iff :
    (lines.dropWhile isText).filterMap lineRegion? = [] ↔ Unhidden lines := by
  constructor
  · rintro hnone front line behind rfl hline
    rw [List.filterMap_eq_nil_iff] at hnone ⊢
    exact fun l hl => hnone l (mem_dropWhile hline hl)
  · intro hclear
    have hfirst := List.head?_dropWhile_not isText lines
    cases hdrop : lines.dropWhile isText with
    | nil => rfl
    | cons line behind =>
      rw [hdrop] at hfirst
      have hsplit : lines = lines.takeWhile isText ++ line :: behind := by
        rw [← hdrop, List.takeWhile_append_dropWhile]
      rw [List.filterMap_cons_none (lineRegion?_eq_none hfirst)]
      exact hclear _ line behind hsplit hfirst

/-- All regions that are listed are read exactly if none stands behind a line that is no text. -/
theorem regions_fileOf_eq_iff (hlines : Whole lines) :
    regions (fileOf lines) = (lines.takeWhile isText).filterMap lineRegion? ∧
      (regions (fileOf lines) = lines.filterMap lineRegion? ↔ Unhidden lines) := by
  refine ⟨regions_fileOf hlines, ?_⟩
  have hsplit : lines.filterMap lineRegion? =
      (lines.takeWhile isText).filterMap lineRegion? ++ (lines.dropWhile isText).filterMap lineRegion? := by
    rw [← List.filterMap_append, List.takeWhile_append_dropWhile]
  rw [regions_fileOf hlines, hsplit, List.self_eq_append_right, filterMap_dropWhile_eq_nil_iff]

def foreignLine : ByteArray := "1000-2000 rw-p 00000000 00:00 0   /opt/".toUTF8.push 0xFF

def memoryLine : ByteArray := "800000-1000000 rw-p 00000000 00:00 0".toUTF8

/-- The memory in front of such a line is found. -/
theorem regions_memoryLine :
    Whole [memoryLine, foreignLine] ∧
      regions (fileOf [memoryLine, foreignLine]) = [⟨0x800000, 0x800000, .readWrite, none⟩] := by
  have hwhole : Whole [memoryLine, foreignLine] := by
    rw [Whole, List.forall_mem_cons, List.forall_mem_singleton]
    decide
  have hread : [memoryLine, foreignLine].filterMap lineRegion? = [⟨0x800000, 0x800000, .readWrite, none⟩] := by cbv
  exact ⟨hwhole, ((regions_fileOf_eq_iff hwhole).2.mpr (filterMap_dropWhile_eq_nil_iff.mp (by cbv))).trans hread⟩

/-- The memory behind such a line is not found. -/
theorem regions_foreignLine :
    regions (fileOf [foreignLine, memoryLine]) = [] ∧
      [foreignLine, memoryLine].filterMap lineRegion? = [⟨0x800000, 0x800000, .readWrite, none⟩] := by
  constructor
  · cbv
  · cbv

/-! ## The list of a running process -/

theorem toNat_of_mem_utf8EncodeChar {b : UInt8} {c : Char} (hb : b.toNat < 0x80) (h : b ∈ String.utf8EncodeChar c) :
    c.toNat = b.toNat := by
  have hc : c.val.toNat = c.toNat := rfl
  unfold String.utf8EncodeChar at h
  simp only [hc] at h
  -- All bytes of a longer code have their highest bit set.
  split at h
  · simp at h
    subst h
    simp
    omega
  · split at h
    · simp [← UInt8.toNat_inj] at h
      omega
    · split at h
      · simp [← UInt8.toNat_inj] at h
        omega
      · simp [← UInt8.toNat_inj] at h
        omega

theorem toList_toUTF8 (cs : List Char) :
    (String.ofList cs).toUTF8.data.toList = cs.flatMap String.utf8EncodeChar := by
  rw [String.toUTF8, String.toByteArray_ofList, List.utf8Encode, List.data_toByteArray]

theorem not_mem_toUTF8 {cs : List Char} {b : UInt8} (hb : b.toNat < 0x80) (hcs : ∀ c ∈ cs, c.toNat ≠ b.toNat) :
    b ∉ (String.ofList cs).toUTF8.data.toList := by
  rw [toList_toUTF8, List.mem_flatMap]
  rintro ⟨c, hc, hbyte⟩
  exact hcs c hc (toNat_of_mem_utf8EncodeChar hb hbyte)

private theorem fromUTF8?_toUTF8 (s : String) : String.fromUTF8? s.toUTF8 = some s := dif_pos s.isValidUTF8

/-- A line of text without a carriage return describes what is read from the text. -/
theorem lineRegion?_toUTF8 {cs : List Char} (hcs : ∀ c ∈ cs, c.toNat ≠ 13) :
    isText (String.ofList cs).toUTF8 = true ∧ lineRegion? (String.ofList cs).toUTF8 = region? cs := by
  have hreturn : withoutReturn (String.ofList cs).toUTF8 = (String.ofList cs).toUTF8 := by
    refine if_neg fun h => not_mem_toUTF8 (b := 13) (by decide) hcs ?_
    exact Array.mem_toList_iff.mpr (Array.mem_of_back? h.2)
  rw [isText, lineRegion?, hreturn, fromUTF8?_toUTF8]
  exact ⟨rfl, congrArg region? String.toList_ofList⟩

end ConsoleBridge.Maps

namespace ConsoleBridge

open Maps

variable {m : Mapped}

def Mapped.OnOneLine (m : Mapped) : Prop := ∀ name ∈ m.name, ∀ c ∈ name.toList, c.toNat ≠ 10 ∧ c.toNat ≠ 13

private theorem Mapped.of_mem_lineIn {l : Layout} {c : Char} (hc : c ∈ m.lineIn l) :
    Blank.holds c = false ∨ c = ' ' ∨ ∃ name ∈ m.name, c ∈ name.toList := by
  have hname : c ∈ m.nameText l → c = ' ' ∨ ∃ name ∈ m.name, c ∈ name.toList := by
    rw [nameText, List.mem_append]
    rintro (hc | hc)
    · exact .inl (List.eq_of_mem_replicate hc)
    · cases hm : m.name with
      | none => simp [hm] at hc
      | some name =>
        rw [hm] at hc
        exact (List.mem_cons.mp hc).imp_right fun hc => ⟨name, rfl, hc⟩
  simp only [lineIn, List.mem_append, List.mem_cons] at hc
  rcases hc with hc | hc | hc | hc | hc | hc | hc | hc | hc | hc
  · exact .inl (word_boundsText.unblank c hc)
  · exact .inr (.inl hc)
  · exact .inl (word_permissions.unblank c hc)
  · exact .inr (.inl hc)
  · exact .inl ((word_paddedDigits ..).unblank c hc)
  · exact .inr (.inl hc)
  · exact .inl (word_deviceText.unblank c hc)
  · exact .inr (.inl hc)
  · exact .inl ((word_toDigits _).unblank c hc)
  · exact .inr (hname hc)

theorem Mapped.OnOneLine.of_mem_line (hm : m.OnOneLine) {c : Char} (hc : c ∈ m.line) :
    c.toNat ≠ 10 ∧ c.toNat ≠ 13 := by
  obtain ⟨gap, hline⟩ := m.exists_line_eq
  rw [hline] at hc
  rcases Mapped.of_mem_lineIn hc with hword | rfl | ⟨name, hname, hc⟩
  · constructor
    · intro h
      simp [Blank.holds, h] at hword
    · intro h
      simp [Blank.holds, h] at hword
  · decide
  · exact hm name hname c hc

private theorem Mapped.read_line (hm : m.Listable) (hone : m.OnOneLine) :
    isText (String.ofList m.line).toUTF8 = true ∧ lineRegion? (String.ofList m.line).toUTF8 = some m.listed := by
  obtain ⟨gap, hline⟩ := m.exists_line_eq
  have hread := region?_eq_some_iff.mpr (Mapped.describes_lineIn hm ⟨8, 8, 2, gap⟩)
  rw [← hline] at hread
  rw [← hread]
  exact lineRegion?_toUTF8 fun c hc => (hone.of_mem_line hc).2

namespace LiveProcess

variable {p : LiveProcess}

private theorem mapsFile_eq (p : LiveProcess) :
    p.mapsFile = fileOf (p.mappings.map fun m => (String.ofList m.line).toUTF8) := by
  apply ByteArray.ext
  apply Array.ext'
  have hend : String.utf8EncodeChar '\n' = [10] := rfl
  simp only [mapsFile, fileOf, toList_toUTF8, List.flatMap_assoc, List.flatMap_append, List.flatMap_map,
    List.flatMap_singleton, hend]

/-- A running process is listed mapping by mapping, with each name up to its first blank. -/
theorem regions_eq_listed (halive : p.isAlive = true) (hlist : ∀ m ∈ p.mappings, m.Listable ∧ m.OnOneLine) :
    p.regions = .ok (p.mappings.map Mapped.listed) := by
  have hline := fun m hm => Mapped.read_line (hlist m hm).1 (hlist m hm).2
  have hwhole : Whole (p.mappings.map fun m => (String.ofList m.line).toUTF8) := by
    rw [Whole, List.forall_mem_map]
    exact fun m hm => not_mem_toUTF8 (by decide) fun c hc => ((hlist m hm).2.of_mem_line hc).1
  have htext := List.takeWhile_eq_self_iff.mpr (List.forall_mem_map.mpr fun m hm => (hline m hm).1)
  rw [regions, if_pos halive, mapsFile_eq, regions_fileOf hwhole, htext, List.filterMap_map]
  exact congrArg _ (List.filterMap_eq_map_iff_forall_eq_some.mpr fun m hm => (hline m hm).2)

end LiveProcess

end ConsoleBridge
