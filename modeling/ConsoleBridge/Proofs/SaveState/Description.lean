import Mathlib.Data.List.Forall2
import ConsoleBridge.Proofs.Json.Decoding
import ConsoleBridge.Proofs.SaveState.RoundTrip
import ConsoleBridge.Proofs.Text.Canonical

/-!
# The save state that an object describes

Each field of a save state is filled by the members of its name alone: the first one puts its value there and a second
one is refused. So an object is read as a save state exactly if for each name the values of its members are as many as
they may be and of the right kind.
-/
namespace ConsoleBridge

open Json

variable {α σ : Type} {ms : List (String × Tree)} {name : String}

section Fields

def occurrences (name : String) (ms : List (String × Tree)) : List Tree := (ms.filter (·.1 = name)).map (·.2)

theorem occurrences_cons_self (t : Tree) : occurrences name ((name, t) :: ms) = t :: occurrences name ms := by
  simp [occurrences]

theorem occurrences_cons_of_ne {m : String × Tree} (h : m.1 ≠ name) :
    occurrences name (m :: ms) = occurrences name ms := by
  simp [occurrences, h]

theorem occurrences_append (front back : List (String × Tree)) :
    occurrences name (front ++ back) = occurrences name front ++ occurrences name back := by
  simp [occurrences]

theorem mem_occurrences {m : String × Tree} (h : m ∈ ms) : m.2 ∈ occurrences m.1 ms := by
  rw [occurrences]
  exact List.mem_map_of_mem (List.mem_filter.mpr ⟨h, decide_eq_true rfl⟩)

/-- What a member does to a field: of the field's name it has to be the first one and puts its value there, of any other
name it leaves the field as it is. -/
def Slot (name : String) (d : Tree → α → Prop) (m : String × Tree) (before after : Option α) : Prop :=
  if m.1 = name then before = none ∧ ∃ v, d m.2 v ∧ after = some v else after = before

private theorem steps_slot {d : Tree → α → Prop} {before after : Option α} :
    Steps (Slot name d) ms before after ↔
      ∃ vs, List.Forall₂ d (occurrences name ms) vs ∧ after.toList = before.toList ++ vs := by
  induction ms generalizing before with
  | nil => cases before <;> cases after <;> simp [Steps, occurrences]
  | cons m ms ih =>
    simp only [Steps, ih]
    by_cases hm : m.1 = name
    · obtain ⟨name, t⟩ := m
      subst hm
      rw [occurrences_cons_self]
      simp only [Slot, if_true]
      constructor
      · rintro ⟨_, ⟨rfl, v, hv, rfl⟩, vs, hvs, hafter⟩
        exact ⟨v :: vs, .cons hv hvs, hafter⟩
      · rintro ⟨_, hall, hafter⟩
        obtain ⟨v, vs, hv, hvs, rfl⟩ := List.forall₂_cons_left_iff.mp hall
        -- A field that is filled already would hold two values.
        have hshort : (before.toList ++ v :: vs).length ≤ 1 := by
          rw [← hafter]
          exact Option.length_toList_le
        have hbefore : before = none := by
          cases before with
          | none => rfl
          | some w => simp at hshort
        subst hbefore
        exact ⟨_, ⟨rfl, v, hv, rfl⟩, vs, hvs, hafter⟩
    · rw [occurrences_cons_of_ne hm]
      simp [Slot, hm]

/-- The first member of a name fills its field, and there is no second one. -/
theorem steps_slot_none {d : Tree → α → Prop} {after : Option α} :
    Steps (Slot name d) ms none after ↔ List.Forall₂ d (occurrences name ms) after.toList := by
  rw [steps_slot]
  simp

theorem reads_once_iff {read : Reader α} {seen : Option α} {set : α → σ} {t : Tree} {p : α → Prop}
    {rest left : List Token} {s : σ} (h : Decides read t.tokens p) :
    (∃ r, once name seen read set = .ok r ∧ Reads r (t.tokens ++ rest) s left) ↔
      (seen = none ∧ ∃ v, p v ∧ s = set v) ∧ left = rest := by
  cases seen with
  | some v => simp [once]
  | none => simp [once, h.map rest s left]

theorem reads_ignored_iff {t : Tree} {rest left : List Token} {s s' : σ} :
    (∃ r, (.ok (Reader.map (fun _ => s) skipValue) : Except ReadError (Reader σ)) = .ok r ∧
      Reads r (t.tokens ++ rest) s' left) ↔ s' = s ∧ left = rest := by
  simp [(decides_skip t).map rest s' left]

def Once (d : Tree → α → Prop) (occ : List Tree) (v : α) : Prop := ∃ t, occ = [t] ∧ d t v

/-- A field stands once and means this, or it is missing and this stands in for it. -/
def AtMostOnce (d : Tree → α → Prop) (occ : List Tree) (missing v : α) : Prop :=
  occ = [] ∧ v = missing ∨ Once d occ v

variable {d : Tree → α → Prop} {occ : List Tree} {v missing : α}

theorem forall₂_some_iff : List.Forall₂ d occ (some v).toList ↔ Once d occ v := by
  simp [Once, List.forall₂_cons_right_iff, and_comm]

theorem exists_required_iff : (∃ o : Option α, List.Forall₂ d occ o.toList ∧ o = some v) ↔ Once d occ v := by
  simp only [exists_eq_right, forall₂_some_iff]

theorem exists_optional_iff :
    (∃ o : Option α, List.Forall₂ d occ o.toList ∧ o.getD missing = v) ↔ AtMostOnce d occ missing v := by
  constructor
  · rintro ⟨_ | v, ho, rfl⟩
    · exact .inl ⟨List.forall₂_nil_right_iff.mp ho, rfl⟩
    · exact .inr (forall₂_some_iff.mp ho)
  · rintro (⟨rfl, rfl⟩ | ho)
    · exact ⟨none, .nil, rfl⟩
    · exact ⟨some v, forall₂_some_iff.mpr ho, rfl⟩

end Fields

section Bytes

private theorem bytesOfString_eq_ok_iff {s : String} {b : ByteArray} :
    bytesOfString s = .ok b ↔ s = Base64.encode b := by
  rw [← Base64.decode_eq_ok_iff, bytesOfString]
  cases Base64.decode s with
  | ok b' => simp
  | error e => simp

/-- The string that is written for bytes. -/
def Encoded (t : Tree) (b : ByteArray) : Prop := t = .string (Base64.encode b)

/-- Bytes are read exactly off the string that is written for them. -/
theorem decides_bytes (t : Tree) : Decides readBytes t.tokens (Encoded t) := by
  cases t with
  | string s =>
    have hencoded : ∀ b, Encoded (.string s) b ↔ bytesOfString s = .ok b := fun b => by
      rw [Encoded, Tree.string.injEq, bytesOfString_eq_ok_iff]
    rcases hs : bytesOfString s with e | b
    · have herror : ∀ rest, readBytes (.string (.ok s) none :: rest) = .error e := fun rest => by
        simp only [readBytes, readString, hs]
        rfl
      exact (decides_none fun rest => ⟨e, herror rest⟩).congr fun b => by simp [hencoded, hs]
    · have hread : ∀ rest, Reads readBytes (.string (.ok s) none :: rest) b rest := fun rest =>
        ⟨Nat.lt_succ_self _, by simp only [readBytes, readString, hs]; rfl⟩
      exact (decides_one hread).congr fun b => by simp [hencoded, hs, eq_comm]
  | _ => exact (decides_none fun rest => ⟨_, rfl⟩).congr fun b => by simp [Encoded]

inductive OptionalBytes : Tree → Option ByteArray → Prop
  | null : OptionalBytes .null none
  | bytes (b : ByteArray) : OptionalBytes (.string (Base64.encode b)) (some b)

private theorem readOptionalBytes_string (s : String) (rest : List Token) :
    readOptionalBytes (.string (.ok s) none :: rest) = Reader.map some readBytes (.string (.ok s) none :: rest) := by
  simp only [readOptionalBytes, readOptionalString, Reader.map, readBytes, readString]
  cases bytesOfString s with
  | ok b => rfl
  | error e => rfl

private theorem decides_optionalBytes (t : Tree) : Decides readOptionalBytes t.tokens (OptionalBytes t) := by
  cases t with
  | null =>
    have hread : ∀ rest, Reads readOptionalBytes (.null :: rest) none rest := fun rest =>
      ⟨Nat.lt_succ_self _, rfl⟩
    exact (decides_one hread).congr fun b => ⟨fun hb => hb ▸ .null, fun hb => by cases hb; rfl⟩
  | string s =>
    have hsome : Decides readOptionalBytes (Tree.string s).tokens _ := fun rest b left => by
      have hbytes := (decides_bytes (.string s)).map (f := some) rest b left
      rw [Tree.tokens, List.singleton_append] at hbytes ⊢
      rw [← hbytes, Reads, Reads, readOptionalBytes_string]
    refine hsome.congr fun b => ⟨?_, ?_⟩
    · rintro ⟨b, hb, rfl⟩
      exact hb ▸ .bytes b
    · intro hb
      cases hb with
      | bytes b => exact ⟨b, rfl, rfl⟩
  | _ => exact (decides_none fun rest => ⟨_, rfl⟩).congr fun b => iff_of_false not_false (by rintro ⟨⟩)

end Bytes

namespace MemoryState

/-- What a member does to the fields of a memory state. -/
structure Step (m : String × Tree) (s s' : Seen) : Prop where
  rdram : Slot "rdram" Encoded m s.rdram s'.rdram
  cartridgeRam : Slot "cartridgeRam" OptionalBytes m s.cartridgeRam s'.cartridgeRam

theorem readsBy_member (m : String × Tree) : ReadsBy member Step m := by
  obtain ⟨name, t⟩ := m
  intro s rest s' left
  have hstep : Step (name, t) s s' ↔
      if name = "rdram" then s.rdram = none ∧ ∃ v, Encoded t v ∧ s' = { s with rdram := some v }
      else if name = "cartridgeRam" then
        s.cartridgeRam = none ∧ ∃ v, OptionalBytes t v ∧ s' = { s with cartridgeRam := some v }
      else s' = s := by
    cases s
    cases s'
    grind [Step, Slot]
  rw [hstep, member]
  split
  · exact reads_once_iff (decides_bytes t)
  · split
    · exact reads_once_iff (decides_optionalBytes t)
    · exact reads_ignored_iff

/-- The fields fill on their own. -/
theorem steps_iff {s s' : Seen} :
    Steps Step ms s s' ↔
      Steps (Slot "rdram" Encoded) ms s.rdram s'.rdram ∧
        Steps (Slot "cartridgeRam" OptionalBytes) ms s.cartridgeRam s'.cartridgeRam := by
  induction ms generalizing s with
  | nil =>
    cases s
    cases s'
    simp [Steps]
  | cons m ms ih =>
    simp only [Steps, ih]
    constructor
    · rintro ⟨s₁, ⟨hrdram, hsave⟩, hrdrams, hsaves⟩
      exact ⟨⟨_, hrdram, hrdrams⟩, _, hsave, hsaves⟩
    · rintro ⟨⟨rdram, hrdram, hrdrams⟩, save, hsave, hsaves⟩
      exact ⟨⟨rdram, save⟩, ⟨hrdram, hsave⟩, hrdrams, hsaves⟩

/-- The memory state that the members of an object describe: main memory once, save memory at most once. -/
structure DescribedBy (m : MemoryState) (ms : List (String × Tree)) : Prop where
  rdram : Once Encoded (occurrences "rdram" ms) m.rdram
  cartridgeRam : AtMostOnce OptionalBytes (occurrences "cartridgeRam" ms) none m.cartridgeRam

theorem ofSeen_iff {s : Seen} {m : MemoryState} :
    ofSeen s = .ok m ↔ s.rdram = some m.rdram ∧ s.cartridgeRam.getD none = m.cartridgeRam := by
  obtain ⟨rdram, save⟩ := s
  obtain ⟨memory, cartridge⟩ := m
  cases rdram with
  | none => simp [ofSeen, required, bind, Except.bind]
  | some b => cases save <;> simp [ofSeen, required, bind, Except.bind, pure, Except.pure]

theorem describedBy_iff {m : MemoryState} :
    (∃ s, Steps Step ms ⟨none, none⟩ s ∧ ofSeen s = .ok m) ↔ m.DescribedBy ms := by
  simp only [steps_iff, steps_slot_none, ofSeen_iff]
  constructor
  · rintro ⟨⟨rdram, save⟩, ⟨hrdram, hsave⟩, hsome, hvalue⟩
    exact ⟨exists_required_iff.mp ⟨_, hrdram, hsome⟩, exists_optional_iff.mp ⟨_, hsave, hvalue⟩⟩
  · rintro ⟨hrdram, hsave⟩
    obtain ⟨rdram, hrdram, hsome⟩ := exists_required_iff.mpr hrdram
    obtain ⟨save, hsave, hvalue⟩ := exists_optional_iff.mpr hsave
    exact ⟨⟨rdram, save⟩, ⟨hrdram, hsave⟩, hsome, hvalue⟩

theorem reads_object_iff {ts left : List Token} {m : MemoryState} :
    Reads read (.openObject :: ts) m left ↔
      ∃ s, Reads (readMembers member ⟨none, none⟩ true) ts s left ∧ ofSeen s = .ok m := by
  constructor
  · rintro ⟨hlt, heq⟩
    obtain ⟨⟨s, left'⟩, hs, heq⟩ := exists_of_bind heq
    obtain ⟨m', hm, heq⟩ := exists_of_bind heq
    cases heq
    exact ⟨s, ⟨left'.2, hs⟩, hm⟩
  · rintro ⟨s, ⟨hlt, heq⟩, hs⟩
    refine ⟨Nat.lt_succ_of_lt hlt, ?_⟩
    simp only [read, heq, hs, bind, Except.bind]
    rfl

/-- A memory state is read off an object exactly if its members describe one. -/
theorem decides_object (ms : List (String × Tree)) : Decides read (Tree.object ms).tokens (·.DescribedBy ms) := by
  intro rest m left
  have hall : ∀ s, Reads (readMembers member ⟨none, none⟩ true) (memberTokens ms ++ rest) s left ↔
      Steps Step ms ⟨none, none⟩ s ∧ left = rest := fun s =>
    decides_members (fun m _ => readsBy_member m) ⟨none, none⟩ rest s left
  change _ ↔ m.DescribedBy ms ∧ left = rest
  rw [Tree.tokens, List.cons_append, reads_object_iff, ← describedBy_iff, ← exists_and_right]
  simp only [hall, and_right_comm]

end MemoryState

namespace SaveState

def Valued (t : Tree) (v : Value) : Prop := t.value? levels = some v

def Remembered (t : Tree) (m : MemoryState) : Prop := ∃ ms, t = .object ms ∧ m.DescribedBy ms

def Counted (t : Tree) (n : Nat) : Prop := ∃ m, t = .number m ∧ m.Counts n

/-- What a member does to the fields of a save state. -/
structure Step (m : String × Tree) (s s' : Seen) : Prop where
  cpuState : Slot "cpuState" Valued m s.cpuState s'.cpuState
  memoryState : Slot "memoryState" Remembered m s.memoryState s'.memoryState
  rspState : Slot "rspState" Valued m s.rspState s'.rspState
  rdpState : Slot "rdpState" Valued m s.rdpState s'.rdpState
  frameCount : Slot "frameCount" Counted m s.frameCount s'.frameCount
  cycleCount : Slot "cycleCount" Counted m s.cycleCount s'.cycleCount

private theorem decides_memory (ms : List (String × Tree)) :
    Decides MemoryState.read (Tree.object ms).tokens (Remembered (.object ms)) :=
  (MemoryState.decides_object ms).congr fun m => by simp [Remembered]

theorem readsBy_member (m : String × Tree) (hm : m.1 = "memoryState" → ∃ ms, m.2 = .object ms) :
    ReadsBy member Step m := by
  obtain ⟨name, t⟩ := m
  intro s rest s' left
  have hstep : Step (name, t) s s' ↔
      if name = "cpuState" then s.cpuState = none ∧ ∃ v, Valued t v ∧ s' = { s with cpuState := some v }
      else if name = "memoryState" then
        s.memoryState = none ∧ ∃ v, Remembered t v ∧ s' = { s with memoryState := some v }
      else if name = "rspState" then s.rspState = none ∧ ∃ v, Valued t v ∧ s' = { s with rspState := some v }
      else if name = "rdpState" then s.rdpState = none ∧ ∃ v, Valued t v ∧ s' = { s with rdpState := some v }
      else if name = "frameCount" then s.frameCount = none ∧ ∃ v, Counted t v ∧ s' = { s with frameCount := some v }
      else if name = "cycleCount" then s.cycleCount = none ∧ ∃ v, Counted t v ∧ s' = { s with cycleCount := some v }
      else s' = s := by
    cases s
    cases s'
    grind [Step, Slot]
  rw [hstep, member]
  split_ifs with hcpu hmemory hrsp hrdp hframes hcycles
  · exact reads_once_iff (decides_value t levels)
  · obtain ⟨ms, rfl⟩ := hm hmemory
    exact reads_once_iff (decides_memory ms)
  · exact reads_once_iff (decides_value t levels)
  · exact reads_once_iff (decides_value t levels)
  · exact reads_once_iff (decides_count t)
  · exact reads_once_iff (decides_count t)
  · exact reads_ignored_iff

-- Each field runs through the members on its own; what the six runs hold between two members makes up the state there.
theorem steps_iff {s s' : Seen} :
    Steps Step ms s s' ↔
      Steps (Slot "cpuState" Valued) ms s.cpuState s'.cpuState ∧
      Steps (Slot "memoryState" Remembered) ms s.memoryState s'.memoryState ∧
      Steps (Slot "rspState" Valued) ms s.rspState s'.rspState ∧
      Steps (Slot "rdpState" Valued) ms s.rdpState s'.rdpState ∧
      Steps (Slot "frameCount" Counted) ms s.frameCount s'.frameCount ∧
      Steps (Slot "cycleCount" Counted) ms s.cycleCount s'.cycleCount := by
  induction ms generalizing s with
  | nil =>
    cases s
    cases s'
    simp [Steps]
  | cons m ms ih =>
    simp only [Steps, ih]
    constructor
    · rintro ⟨s₁, ⟨cpu, memory, rsp, rdp, frames, cycles⟩, cpus, memories, rsps, rdps, framess, cycless⟩
      exact ⟨⟨_, cpu, cpus⟩, ⟨_, memory, memories⟩, ⟨_, rsp, rsps⟩, ⟨_, rdp, rdps⟩, ⟨_, frames, framess⟩,
        _, cycles, cycless⟩
    · rintro ⟨⟨v₁, cpu, cpus⟩, ⟨v₂, memory, memories⟩, ⟨v₃, rsp, rsps⟩, ⟨v₄, rdp, rdps⟩, ⟨v₅, frames, framess⟩,
        v₆, cycles, cycless⟩
      exact ⟨⟨v₁, v₂, v₃, v₄, v₅, v₆⟩, ⟨cpu, memory, rsp, rdp, frames, cycles⟩, cpus, memories, rsps, rdps, framess,
        cycless⟩

/-- The save state that the members of an object describe: memory and both counts once, the processors' states at most
once, each of them nothing where it is missing. -/
structure DescribedBy (s : SaveState) (ms : List (String × Tree)) : Prop where
  cpuState : AtMostOnce Valued (occurrences "cpuState" ms) .null s.cpuState
  memoryState : Once Remembered (occurrences "memoryState" ms) s.memoryState
  rspState : AtMostOnce Valued (occurrences "rspState" ms) .null s.rspState
  rdpState : AtMostOnce Valued (occurrences "rdpState" ms) .null s.rdpState
  frameCount : Once Counted (occurrences "frameCount" ms) s.frameCount
  cycleCount : Once Counted (occurrences "cycleCount" ms) s.cycleCount

theorem ofSeen_iff {seen : Seen} {s : SaveState} :
    ofSeen seen = .ok s ↔
      seen.cpuState.getD .null = s.cpuState ∧ seen.memoryState = some s.memoryState ∧
      seen.rspState.getD .null = s.rspState ∧ seen.rdpState.getD .null = s.rdpState ∧
      seen.frameCount = some s.frameCount ∧ seen.cycleCount = some s.cycleCount := by
  obtain ⟨cpu, memory, rsp, rdp, frames, cycles⟩ := seen
  obtain ⟨cpu', memory', rsp', rdp', frames', cycles'⟩ := s
  cases memory with
  | none => simp [ofSeen, required, bind, Except.bind]
  | some memory =>
    cases frames with
    | none => simp [ofSeen, required, bind, Except.bind]
    | some frames =>
      cases cycles with
      | none => simp [ofSeen, required, bind, Except.bind]
      | some cycles => simp [ofSeen, required, bind, Except.bind, pure, Except.pure]

theorem describedBy_iff {s : SaveState} :
    (∃ seen, Steps Step ms ⟨none, none, none, none, none, none⟩ seen ∧ ofSeen seen = .ok s) ↔ s.DescribedBy ms := by
  simp only [steps_iff, steps_slot_none, ofSeen_iff]
  constructor
  · rintro ⟨seen, ⟨cpu, memory, rsp, rdp, frames, cycles⟩, hcpu, hmemory, hrsp, hrdp, hframes, hcycles⟩
    exact ⟨exists_optional_iff.mp ⟨_, cpu, hcpu⟩, exists_required_iff.mp ⟨_, memory, hmemory⟩,
      exists_optional_iff.mp ⟨_, rsp, hrsp⟩, exists_optional_iff.mp ⟨_, rdp, hrdp⟩,
      exists_required_iff.mp ⟨_, frames, hframes⟩, exists_required_iff.mp ⟨_, cycles, hcycles⟩⟩
  · rintro ⟨hcpu, hmemory, hrsp, hrdp, hframes, hcycles⟩
    obtain ⟨v₁, cpu, hcpu⟩ := exists_optional_iff.mpr hcpu
    obtain ⟨v₂, memory, hmemory⟩ := exists_required_iff.mpr hmemory
    obtain ⟨v₃, rsp, hrsp⟩ := exists_optional_iff.mpr hrsp
    obtain ⟨v₄, rdp, hrdp⟩ := exists_optional_iff.mpr hrdp
    obtain ⟨v₅, frames, hframes⟩ := exists_required_iff.mpr hframes
    obtain ⟨v₆, cycles, hcycles⟩ := exists_required_iff.mpr hcycles
    exact ⟨⟨v₁, v₂, v₃, v₄, v₅, v₆⟩, ⟨cpu, memory, rsp, rdp, frames, cycles⟩, hcpu, hmemory, hrsp, hrdp, hframes,
      hcycles⟩

theorem reads_object_iff {ts left : List Token} {s : SaveState} :
    Reads read (.openObject :: ts) s left ↔
      ∃ seen, Reads (readMembers member ⟨none, none, none, none, none, none⟩ true) ts seen left ∧
        ofSeen seen = .ok s := by
  constructor
  · rintro ⟨hlt, heq⟩
    obtain ⟨⟨seen, left'⟩, hseen, heq⟩ := exists_of_bind heq
    obtain ⟨s', hs, heq⟩ := exists_of_bind heq
    cases heq
    exact ⟨seen, ⟨left'.2, hseen⟩, hs⟩
  · rintro ⟨seen, ⟨hlt, heq⟩, hs⟩
    refine ⟨Nat.lt_succ_of_lt hlt, ?_⟩
    simp only [read, heq, hs, bind, Except.bind]
    rfl

/-- Each memory state that the object holds is an object as well. -/
def Nested (ms : List (String × Tree)) : Prop := ∀ t ∈ occurrences "memoryState" ms, ∃ inner, t = .object inner

/-- A save state is read off an object exactly if its members describe one. -/
theorem decides_object (h : Nested ms) : Decides read (Tree.object ms).tokens (·.DescribedBy ms) := by
  have hmember : ∀ m ∈ ms, ReadsBy member Step m := fun m hm =>
    readsBy_member m fun hname => h m.2 (hname ▸ mem_occurrences hm)
  intro rest s left
  have hall : ∀ seen, Reads (readMembers member ⟨none, none, none, none, none, none⟩ true) (memberTokens ms ++ rest)
      seen left ↔ Steps Step ms ⟨none, none, none, none, none, none⟩ seen ∧ left = rest := fun seen =>
    decides_members hmember _ rest seen left
  change _ ↔ s.DescribedBy ms ∧ left = rest
  rw [Tree.tokens, List.cons_append, reads_object_iff, ← describedBy_iff, ← exists_and_right]
  simp only [hall, and_right_comm]

private theorem ofTokens_eq_ok_iff {ts : List Token} {s : SaveState} : ofTokens ts = .ok s ↔ Reads read ts s [] := by
  constructor
  · intro h
    obtain ⟨⟨s', left, hleft⟩, hread, h⟩ := exists_of_bind h
    cases left with
    | nil =>
      cases h
      exact ⟨hleft, hread⟩
    | cons t ts => cases h
  · rintro ⟨hlt, heq⟩
    rw [ofTokens, heq]
    rfl

/-- A text is read as a save state exactly if the object that it writes describes one. -/
theorem ofJson_eq_ok_iff {text : String} {s : SaveState} (htext : (Tree.object ms).Written text) (h : Nested ms) :
    ofJson text = .ok s ↔ s.DescribedBy ms := by
  have hread := decides_object h [] s []
  rw [List.append_nil] at hread
  rw [ofJson, htext.tokens_eq, ofTokens_eq_ok_iff, hread]
  exact and_iff_left rfl

end SaveState

end ConsoleBridge
