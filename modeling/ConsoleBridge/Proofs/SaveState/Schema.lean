import Mathlib.Data.List.Perm.Basic
import ConsoleBridge.Proofs.SaveState.Description

/-!
# Which objects are save states

An object is a save state exactly if it follows a schema: which members it holds, how often and of which form. What
members of other names hold and where in the object a member stands does not enter, and what was read is read back from
its own text.
-/
namespace ConsoleBridge

open Json

variable {α : Type} {ms ms' : List (String × Tree)} {name : String}

section Schema

/-- The members from which a memory state can be read: main memory once, save memory at most once, each as the Base64
text that is written for some bytes, save memory also as nothing. -/
structure MemoryState.Schema (ms : List (String × Tree)) : Prop where
  rdram : ∃ text, occurrences "rdram" ms = [.string text] ∧ Base64.Canonical text
  once : (occurrences "cartridgeRam" ms).length ≤ 1
  cartridgeRam : ∀ t ∈ occurrences "cartridgeRam" ms, t = .null ∨ ∃ text, t = .string text ∧ Base64.Canonical text

/-- The members from which a save state can be read: memory and both counts once, the processors' states at most
once. -/
structure SaveState.Schema (ms : List (String × Tree)) : Prop where
  memoryState : ∃ inner, occurrences "memoryState" ms = [.object inner] ∧ MemoryState.Schema inner
  frameCount : ∃ m, occurrences "frameCount" ms = [.number m] ∧ m.Counts m.magnitude
  cycleCount : ∃ m, occurrences "cycleCount" ms = [.number m] ∧ m.Counts m.magnitude
  cpuState : (occurrences "cpuState" ms).length ≤ 1
  rspState : (occurrences "rspState" ms).length ≤ 1
  rdpState : (occurrences "rdpState" ms).length ≤ 1

variable {d : Tree → α → Prop} {occ : List Tree} {missing : α}

theorem exists_atMostOnce_iff :
    (∃ v, AtMostOnce d occ missing v) ↔ occ.length ≤ 1 ∧ ∀ t ∈ occ, ∃ v, d t v := by
  constructor
  · rintro ⟨v, ⟨rfl, -⟩ | ⟨t, rfl, hv⟩⟩
    · exact ⟨Nat.zero_le 1, List.forall_mem_nil _⟩
    · exact ⟨Nat.le_refl 1, List.forall_mem_singleton.mpr ⟨v, hv⟩⟩
  · rintro ⟨hshort, hall⟩
    cases occ with
    | nil => exact ⟨missing, .inl ⟨rfl, rfl⟩⟩
    | cons t rest =>
      obtain rfl : rest = [] := List.length_eq_zero_iff.mp (Nat.le_zero.mp (Nat.le_of_succ_le_succ hshort))
      obtain ⟨v, hv⟩ := hall t List.mem_cons_self
      exact ⟨v, .inr ⟨t, rfl, hv⟩⟩

private theorem exists_optionalBytes_iff {t : Tree} :
    (∃ o, OptionalBytes t o) ↔ t = .null ∨ ∃ text, t = .string text ∧ Base64.Canonical text := by
  simp only [Base64.canonical_iff]
  constructor
  · rintro ⟨_, _ | b⟩
    · exact .inl rfl
    · exact .inr ⟨_, rfl, b, rfl⟩
  · rintro (rfl | ⟨_, rfl, b, rfl⟩)
    · exact ⟨none, .null⟩
    · exact ⟨some b, .bytes b⟩

theorem MemoryState.exists_describedBy_iff : (∃ m : MemoryState, m.DescribedBy ms) ↔ MemoryState.Schema ms := by
  have hsave := @exists_atMostOnce_iff _ OptionalBytes (occurrences "cartridgeRam" ms) none
  simp only [exists_optionalBytes_iff] at hsave
  constructor
  · rintro ⟨m, ⟨t, hocc, rfl⟩, hm⟩
    obtain ⟨hshort, hall⟩ := hsave.mp ⟨_, hm⟩
    exact ⟨⟨_, hocc, Base64.canonical_iff.mpr ⟨_, rfl⟩⟩, hshort, hall⟩
  · rintro ⟨⟨text, hocc, hcanonical⟩, hshort, hall⟩
    obtain ⟨b, rfl⟩ := Base64.canonical_iff.mp hcanonical
    obtain ⟨save, hm⟩ := hsave.mpr ⟨hshort, hall⟩
    exact ⟨⟨b, save⟩, ⟨_, hocc, rfl⟩, hm⟩

theorem exists_once_iff {p : Tree → Prop} (h : ∀ t, (∃ v, d t v) ↔ p t) :
    (∃ v, Once d occ v) ↔ ∃ t, occ = [t] ∧ p t := by
  simp only [Once, ← h]
  grind

private theorem SaveState.exists_remembered_iff {t : Tree} :
    (∃ m, Remembered t m) ↔ ∃ inner, t = .object inner ∧ MemoryState.Schema inner := by
  simp only [Remembered, ← MemoryState.exists_describedBy_iff]
  grind

private theorem SaveState.exists_counted_iff {t : Tree} :
    (∃ n, Counted t n) ↔ ∃ m, t = .number m ∧ m.Counts m.magnitude := by
  constructor
  · rintro ⟨n, m, rfl, hm⟩
    exact ⟨m, rfl, hm.value.symm ▸ hm⟩
  · rintro ⟨m, rfl, hm⟩
    exact ⟨_, m, rfl, hm⟩

/-- Each value that the object holds for a processor has no more containers inside one another than are allowed, and
each number in it is within the range of doubles. -/
def SaveState.Decodable (ms : List (String × Tree)) : Prop :=
  ∀ name ∈ ["cpuState", "rspState", "rdpState"], ∀ t ∈ occurrences name ms, ∃ v, t.value? levels = some v

theorem SaveState.exists_describedBy_iff (h : Decodable ms) :
    (∃ s : SaveState, s.DescribedBy ms) ↔ SaveState.Schema ms := by
  have hvalue : ∀ name ∈ ["cpuState", "rspState", "rdpState"],
      ((∃ v, AtMostOnce Valued (occurrences name ms) .null v) ↔ (occurrences name ms).length ≤ 1) := fun name hname =>
    exists_atMostOnce_iff.trans (and_iff_left (h name hname))
  have hcount : ∀ name, (∃ n, Once Counted (occurrences name ms) n) ↔
      ∃ m, occurrences name ms = [.number m] ∧ m.Counts m.magnitude := fun name => by
    rw [exists_once_iff fun t => exists_counted_iff]
    grind
  have hmemory : (∃ m, Once Remembered (occurrences "memoryState" ms) m) ↔
      ∃ inner, occurrences "memoryState" ms = [.object inner] ∧ MemoryState.Schema inner := by
    rw [exists_once_iff fun t => exists_remembered_iff]
    grind
  constructor
  · rintro ⟨s, hs⟩
    exact ⟨hmemory.mp ⟨_, hs.memoryState⟩, (hcount _).mp ⟨_, hs.frameCount⟩, (hcount _).mp ⟨_, hs.cycleCount⟩,
      (hvalue _ (by simp)).mp ⟨_, hs.cpuState⟩, (hvalue _ (by simp)).mp ⟨_, hs.rspState⟩,
      (hvalue _ (by simp)).mp ⟨_, hs.rdpState⟩⟩
  · intro hs
    obtain ⟨cpu, hcpu⟩ := (hvalue _ (by simp)).mpr hs.cpuState
    obtain ⟨memory, hmemory⟩ := hmemory.mpr hs.memoryState
    obtain ⟨rsp, hrsp⟩ := (hvalue _ (by simp)).mpr hs.rspState
    obtain ⟨rdp, hrdp⟩ := (hvalue _ (by simp)).mpr hs.rdpState
    obtain ⟨frames, hframes⟩ := (hcount _).mpr hs.frameCount
    obtain ⟨cycles, hcycles⟩ := (hcount _).mpr hs.cycleCount
    exact ⟨⟨cpu, memory, rsp, rdp, frames, cycles⟩, hcpu, hmemory, hrsp, hrdp, hframes, hcycles⟩

end Schema

section Likeness

/-- The same members of the known names in another order, among any others. -/
def Rearranged (known : List String) (ms ms' : List (String × Tree)) : Prop :=
  (ms.filter (·.1 ∈ known)).Perm (ms'.filter (·.1 ∈ known))

def MemoryState.fields : List String := ["rdram", "cartridgeRam"]

def SaveState.fields : List String := ["cpuState", "memoryState", "rspState", "rdpState", "frameCount", "cycleCount"]

/-- Objects that differ in the order of their members, or in members of other names, or inside a memory state in
these ways. -/
inductive SaveState.Alike : List (String × Tree) → List (String × Tree) → Prop
  | outside {ms ms' : List (String × Tree)} (h : Rearranged SaveState.fields ms ms') : Alike ms ms'
  | inside {front back inner inner' : List (String × Tree)} (h : Rearranged MemoryState.fields inner inner') :
      Alike (front ++ ("memoryState", .object inner) :: back) (front ++ ("memoryState", .object inner') :: back)
  | trans {ms ms' ms'' : List (String × Tree)} (h : Alike ms ms') (h' : Alike ms' ms'') : Alike ms ms''

variable {known : List String} {d : Tree → α → Prop} {occ occ' : List Tree} {v missing : α}

theorem Rearranged.symm (h : Rearranged known ms ms') : Rearranged known ms' ms := List.Perm.symm h

theorem Rearranged.occurrences (h : Rearranged known ms ms') (hname : name ∈ known) :
    (occurrences name ms).Perm (occurrences name ms') := by
  have hfilter : ∀ ms : List (String × Tree),
      (ms.filter (·.1 ∈ known)).filter (·.1 = name) = ms.filter (·.1 = name) := fun ms => by
    rw [List.filter_filter]
    refine List.filter_congr fun m _ => ?_
    by_cases hm : m.1 = name
    · simp [hm, hname]
    · simp [hm]
  have hperm := (List.Perm.filter (·.1 = name) h).map (·.2)
  rwa [hfilter, hfilter] at hperm

theorem Once.perm (h : Once d occ v) (hperm : occ.Perm occ') : Once d occ' v := by
  obtain ⟨t, rfl, hv⟩ := h
  exact ⟨t, List.singleton_perm.mp hperm ▸ rfl, hv⟩

theorem AtMostOnce.perm (h : AtMostOnce d occ missing v) (hperm : occ.Perm occ') : AtMostOnce d occ' missing v := by
  rcases h with ⟨rfl, rfl⟩ | h
  · exact .inl ⟨hperm.nil_eq.symm, rfl⟩
  · exact .inr (h.perm hperm)

theorem MemoryState.DescribedBy.rearranged {m : MemoryState} (hm : m.DescribedBy ms)
    (h : Rearranged MemoryState.fields ms ms') : m.DescribedBy ms' :=
  ⟨hm.rdram.perm (h.occurrences (by simp [fields])), hm.cartridgeRam.perm (h.occurrences (by simp [fields]))⟩

theorem SaveState.DescribedBy.rearranged {s : SaveState} (hs : s.DescribedBy ms)
    (h : Rearranged SaveState.fields ms ms') : s.DescribedBy ms' where
  cpuState := hs.cpuState.perm (h.occurrences (by simp [fields]))
  memoryState := hs.memoryState.perm (h.occurrences (by simp [fields]))
  rspState := hs.rspState.perm (h.occurrences (by simp [fields]))
  rdpState := hs.rdpState.perm (h.occurrences (by simp [fields]))
  frameCount := hs.frameCount.perm (h.occurrences (by simp [fields]))
  cycleCount := hs.cycleCount.perm (h.occurrences (by simp [fields]))

theorem occurrences_inside {front back : List (String × Tree)} {t : Tree} :
    occurrences "memoryState" (front ++ ("memoryState", t) :: back) =
      occurrences "memoryState" front ++ t :: occurrences "memoryState" back := by
  rw [occurrences_append, occurrences_cons_self]

theorem occurrences_outside {front back : List (String × Tree)} {t t' : Tree} (name : String)
    (hname : "memoryState" ≠ name) :
    occurrences name (front ++ ("memoryState", t) :: back) =
      occurrences name (front ++ ("memoryState", t') :: back) := by
  rw [occurrences_append, occurrences_append, occurrences_cons_of_ne hname, occurrences_cons_of_ne hname]

theorem SaveState.DescribedBy.inside {s : SaveState} {front back inner inner' : List (String × Tree)}
    (hs : s.DescribedBy (front ++ ("memoryState", .object inner) :: back))
    (h : Rearranged MemoryState.fields inner inner') :
    s.DescribedBy (front ++ ("memoryState", .object inner') :: back) where
  cpuState := occurrences_outside "cpuState" (by decide) ▸ hs.cpuState
  rspState := occurrences_outside "rspState" (by decide) ▸ hs.rspState
  rdpState := occurrences_outside "rdpState" (by decide) ▸ hs.rdpState
  frameCount := occurrences_outside "frameCount" (by decide) ▸ hs.frameCount
  cycleCount := occurrences_outside "cycleCount" (by decide) ▸ hs.cycleCount
  memoryState := by
    obtain ⟨t, hocc, hm⟩ := hs.memoryState
    -- The memory state is the only one, so none stands in front of it or behind.
    rw [occurrences_inside] at hocc
    rcases List.append_eq_singleton_iff.mp hocc with ⟨hfront, hback⟩ | ⟨-, hback⟩
    · obtain ⟨rfl, hnone⟩ := List.cons.inj hback
      obtain ⟨_, ⟨⟩, hm⟩ := hm
      exact ⟨.object inner', by rw [occurrences_inside, hfront, hnone, List.nil_append], inner', rfl, hm.rearranged h⟩
    · cases hback

theorem SaveState.Alike.describedBy_iff {s : SaveState} (h : Alike ms ms') : s.DescribedBy ms ↔ s.DescribedBy ms' := by
  induction h with
  | outside h => exact ⟨fun hs => hs.rearranged h, fun hs => hs.rearranged h.symm⟩
  | inside h => exact ⟨fun hs => hs.inside h, fun hs => hs.inside h.symm⟩
  | trans _ _ ih ih' => exact ih.trans ih'

private theorem SaveState.Alike.nested (h : Alike ms ms') (hms : Nested ms) : Nested ms' := by
  induction h with
  | outside h => exact fun t ht => hms t ((h.occurrences (by simp [fields])).mem_iff.mpr ht)
  | @inside front back inner inner' h =>
    intro t ht
    rw [Nested, occurrences_inside] at hms
    rw [occurrences_inside, List.mem_append, List.mem_cons] at ht
    rcases ht with ht | rfl | ht
    · exact hms t (List.mem_append_left _ ht)
    · exact ⟨inner', rfl⟩
    · exact hms t (List.mem_append_right _ (List.mem_cons_of_mem _ ht))
  | trans _ _ ih ih' => exact ih' (ih hms)

end Likeness

namespace SaveState

theorem whole_of_described {occ : List Tree} {v : Value} (h : AtMostOnce Valued occ .null v) (hv : v.Integral) :
    v.Whole 126 := by
  rcases h with ⟨-, rfl⟩ | ⟨t, -, ht⟩
  · exact .null
  · exact whole_of_value ht hv

structure Integral (s : SaveState) : Prop where
  cpuState : s.cpuState.Integral
  rspState : s.rspState.Integral
  rdpState : s.rdpState.Integral

private theorem DescribedBy.portable {s : SaveState} (h : s.DescribedBy ms) (hs : s.Integral) : s.Portable := by
  obtain ⟨_, _, _, _, hframes⟩ := h.frameCount
  obtain ⟨_, _, _, _, hcycles⟩ := h.cycleCount
  exact ⟨whole_of_described h.cpuState hs.cpuState, whole_of_described h.rspState hs.rspState,
    whole_of_described h.rdpState hs.rdpState, hframes.fits, hcycles.fits⟩

/-- A JSON object of which each memory state is an object and each processor's state can be decoded is read as a save
state exactly if its members follow the schema, and then as the one that they describe. Neither the order of the
members nor members of other names matter, outside or inside the memory state, and what was read without a double in it
is read back from its own text. -/
theorem ofJson_follows_schema {text : String} (htext : (Tree.object ms).Written text) (hnested : Nested ms)
    (hdecodable : Decodable ms) :
    ((∃ s, ofJson text = .ok s) ↔ Schema ms) ∧
      (∀ s, ofJson text = .ok s ↔ s.DescribedBy ms) ∧
      (∀ ms' text', (Tree.object ms').Written text' → Alike ms ms' →
        ∀ s, ofJson text' = .ok s ↔ ofJson text = .ok s) ∧
      ∀ s, ofJson text = .ok s → s.Integral → ofJson s.toJson = .ok s := by
  have hread : ∀ s, ofJson text = .ok s ↔ s.DescribedBy ms := fun s => ofJson_eq_ok_iff htext hnested
  refine ⟨?_, hread, fun ms' text' htext' halike s => ?_, fun s hs hintegral => ?_⟩
  · simp only [hread]
    exact exists_describedBy_iff hdecodable
  · rw [hread, ofJson_eq_ok_iff htext' (halike.nested hnested)]
    exact halike.describedBy_iff.symm
  · exact ofJson_of_portable (((hread s).mp hs).portable hintegral)

/-- Counts in front of the memory, a member of another name, and nothing of the processors or of save memory. -/
theorem ofJson_follows_schema_sparse :
    let text := "\x7b\"cycleCount\":2,\"x\":null, \"memoryState\":\x7b\"rdram\":\"AQ==\"\x7d,\"frameCount\":1\x7d"
    let s : SaveState := ⟨.null, ⟨⟨#[1]⟩, none⟩, .null, .null, 1, 2⟩
    ofJson text = .ok s ∧ ofJson s.toJson = .ok s := by
  intro text s
  have hone : (NumberText.mk false ['1'] [] none).Spelled ['1'] :=
    .intro (List.forall_mem_singleton.mpr rfl) nofun nofun .none
  have htwo : (NumberText.mk false ['2'] [] none).Spelled ['2'] :=
    .intro (List.forall_mem_singleton.mpr rfl) nofun nofun .none
  have hstring : ∀ s : String, (Token.string (.ok s) none).Spelled ('"' :: (s.toList.flatMap escape ++ ['"'])) :=
    fun s => .string (spelled_flatMap s.toList)
  let ms : List (String × Tree) := [("cycleCount", .number ⟨false, ['2'], [], none⟩), ("x", .null),
    ("memoryState", .object [("rdram", .string "AQ==")]), ("frameCount", .number ⟨false, ['1'], [], none⟩)]
  obtain ⟨cs, hspelled, hcs⟩ : ∃ cs, Spelled (Tree.object ms).tokens cs ∧ cs = text.toList :=
    ⟨_, .cons .openObject <| .cons (hstring "cycleCount") <| .cons .colon <| .cons (.number htwo) <|
      .cons .comma <| .cons (hstring "x") <| .cons .colon <| .cons .null <|
      .cons .comma <| .blank (c := ' ') rfl <| .cons (hstring "memoryState") <| .cons .colon <|
      .cons .openObject <| .cons (hstring "rdram") <| .cons .colon <| .cons (hstring "AQ==") <| .cons .closeObject <|
      .cons .comma <| .cons (hstring "frameCount") <| .cons .colon <| .cons (.number hone) <| .cons .closeObject .nil,
      by decide⟩
  have htext : (Tree.object ms).Written text := by
    rw [Tree.Written, ← hcs]
    exact hspelled
  have hencode : Base64.encode ⟨#[1]⟩ = "AQ==" := by decide +kernel
  have hdescribed : s.DescribedBy ms := {
    cpuState := .inl ⟨rfl, rfl⟩
    memoryState := ⟨_, rfl, _, rfl, ⟨_, rfl, congrArg Tree.string hencode.symm⟩, .inl ⟨rfl, rfl⟩⟩
    rspState := .inl ⟨rfl, rfl⟩
    rdpState := .inl ⟨rfl, rfl⟩
    frameCount := ⟨_, rfl, _, rfl, ⟨rfl, rfl, rfl, rfl, by decide⟩⟩
    cycleCount := ⟨_, rfl, _, rfl, ⟨rfl, rfl, rfl, rfl, by decide⟩⟩ }
  have hnested : Nested ms := List.forall_mem_singleton.mpr ⟨_, rfl⟩
  have hdecodable : Decodable ms := by
    have hnone : ∀ name ∈ ["cpuState", "rspState", "rdpState"], occurrences name ms = [] := by simp [ms, occurrences]
    intro name hname t ht
    rw [hnone name hname] at ht
    cases ht
  obtain ⟨-, hread, -, hagain⟩ := ofJson_follows_schema htext hnested hdecodable
  have hs := (hread s).mpr hdescribed
  exact ⟨hs, hagain s hs ⟨.null, .null, .null⟩⟩

end SaveState

end ConsoleBridge
