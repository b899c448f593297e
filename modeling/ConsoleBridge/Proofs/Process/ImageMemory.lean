import ConsoleBridge.Proofs.Process.Passive

/-!
# Images whose regions lie apart

Where the regions of an image lie apart, each address has one byte: a read brings the bytes of its span, and
a write changes those of its own span, in the region that serves it.
-/
namespace ConsoleBridge

open Bytes

namespace ImageRegion

variable {rs rs' : List ImageRegion} {required : Protection} {address length a : Nat} {bytes : ByteArray}

/-- The byte at an address, by the first region that holds it. -/
def memoryIn (rs : List ImageRegion) (a : Nat) : UInt8 :=
  match rs.find? (·.describe.holds a) with
  | some r => r.memory a
  | none => 0

theorem serves_iff {r : ImageRegion} : r.serves required address length = true ↔
    r.protection.allows required = true ∧ r.base ≤ address ∧ address + length ≤ r.describe.limit := by
  simp [serves, Region.limit, describe, and_assoc]

theorem holds_describe {r : ImageRegion} :
    r.describe.holds a = true ↔ r.base ≤ a ∧ a < r.describe.limit := Region.holds_iff

theorem memoryIn_cons (r : ImageRegion) (rs : List ImageRegion) (a : Nat) :
    memoryIn (r :: rs) a = if r.describe.holds a then r.memory a else memoryIn rs a := by
  rw [memoryIn, List.find?_cons]
  cases r.describe.holds a with
  | true => rfl
  | false => rfl

theorem memoryIn_of_mem (happart : (rs.map describe).Pairwise Region.Apart) {r : ImageRegion} (hr : r ∈ rs)
    (ha : r.describe.holds a = true) : memoryIn rs a = r.memory a := by
  induction rs with
  | nil => cases hr
  | cons q rest ih =>
    obtain ⟨hq, hrest⟩ := List.pairwise_cons.mp happart
    rw [memoryIn_cons]
    rcases List.mem_cons.mp hr with rfl | hr
    · rw [if_pos ha]
    · have hout : ¬ q.describe.holds a = true := by
        intro hqa
        have hra := hq r.describe (List.mem_map_of_mem hr) a hqa
        rw [ha] at hra
        cases hra
      rw [if_neg hout]
      exact ih hrest hr

/-- A span that a region serves is read from the memory. -/
theorem extract_eq_copy_memoryIn (happart : (rs.map describe).Pairwise Region.Apart) {r : ImageRegion}
    (hr : r ∈ rs) (hserves : r.serves required address length = true) :
    r.bytes.extract (address - r.base) (address - r.base + length) = copy (memoryIn rs) address length := by
  obtain ⟨-, hbase, hlimit⟩ := serves_iff.mp hserves
  rw [r.extract_eq_copy hbase hlimit]
  apply ByteArray.ext_getElem (by simp)
  intro i hi hi'
  rw [size_copy] at hi
  rw [getElem_copy, getElem_copy, memoryIn_of_mem happart hr (holds_describe.mpr ⟨by omega, by omega⟩)]

theorem describe_paste (r : ImageRegion) (start : Nat) (bytes : ByteArray) :
    describe { r with bytes := paste r.bytes start bytes } = r.describe := by
  simp [describe]

theorem memory_paste {r : ImageRegion} (hserves : r.serves required address bytes.size = true)
    (ha : r.describe.holds a = true) :
    memory { r with bytes := paste r.bytes (address - r.base) bytes } a =
      overwritten r.memory address bytes a := by
  obtain ⟨-, hbase, hlimit⟩ := serves_iff.mp hserves
  obtain ⟨hfrom, hto⟩ := holds_describe.mp ha
  rw [Region.limit, describe] at hlimit hto
  dsimp only at hlimit hto
  dsimp only [memory]
  rw [byte_paste, overwritten]
  by_cases hin : address ≤ a ∧ a < address + bytes.size
  · rw [if_pos (by omega), if_pos hin]
    congr 1
    omega
  · rw [if_neg (by omega), if_neg hin]
    rfl

theorem writeFirst?_ne_none_iff :
    ImageProcess.writeFirst? required address bytes rs ≠ none ↔
      ∃ r ∈ rs, r.serves required address bytes.size = true := by
  induction rs with
  | nil => simp [ImageProcess.writeFirst?]
  | cons r rest ih =>
    rw [ImageProcess.writeFirst?]
    cases hr : r.serves required address bytes.size with
    | true => simp [hr]
    | false => simpa [hr] using ih

/-- A write leaves its bytes, and the regions where they are. -/
theorem of_writeFirst? (happart : (rs.map describe).Pairwise Region.Apart)
    (hw : ImageProcess.writeFirst? required address bytes rs = some rs') :
    rs'.map describe = rs.map describe ∧ memoryIn rs' = overwritten (memoryIn rs) address bytes := by
  induction rs generalizing rs' with
  | nil => cases hw
  | cons r rest ih =>
    obtain ⟨hr, hrest⟩ := List.pairwise_cons.mp happart
    rw [ImageProcess.writeFirst?] at hw
    cases hserves : r.serves required address bytes.size with
    | true =>
      rw [if_pos hserves] at hw
      cases hw
      refine ⟨by rw [List.map_cons, List.map_cons, describe_paste], funext fun a => ?_⟩
      rw [memoryIn_cons, describe_paste, overwritten, memoryIn_cons]
      obtain ⟨-, hbase, hlimit⟩ := serves_iff.mp hserves
      by_cases ha : r.describe.holds a = true
      · rw [if_pos ha, if_pos ha, memory_paste hserves ha, overwritten]
      · have hout : ¬ (address ≤ a ∧ a < address + bytes.size) := by
          rw [holds_describe] at ha
          omega
        rw [if_neg ha, if_neg ha, if_neg hout]
    | false =>
      rw [if_neg (by simp [hserves])] at hw
      obtain ⟨rest', hw', rfl⟩ := Option.map_eq_some_iff.mp hw
      obtain ⟨hdescribe, hmemory⟩ := ih hrest hw'
      refine ⟨by rw [List.map_cons, List.map_cons, hdescribe], funext fun a => ?_⟩
      rw [memoryIn_cons, hmemory, overwritten, overwritten, memoryIn_cons]
      by_cases ha : r.describe.holds a = true
      · -- The span lies in a region behind, which is apart from this one.
        have hout : ¬ (address ≤ a ∧ a < address + bytes.size) := by
          intro hin
          have hsome : ImageProcess.writeFirst? required address bytes rest ≠ none := by simp [hw']
          obtain ⟨q, hq, hqserves⟩ := writeFirst?_ne_none_iff.mp hsome
          obtain ⟨-, hbase, hlimit⟩ := serves_iff.mp hqserves
          have hqa := hr q.describe (List.mem_map_of_mem hq) a ha
          rw [Bool.eq_false_iff, ne_eq, holds_describe] at hqa
          omega
        rw [if_pos ha, if_pos ha, if_neg hout]
      · rw [if_neg ha, if_neg ha]

end ImageRegion

namespace ImageProcess

def memory (p : ImageProcess) : Nat → UInt8 := ImageRegion.memoryIn p.regions

/-- Only what lies in a region that may be read can be read. -/
def fault (regions : List Region) (address length : Nat) : Option AccessError :=
  if regions.any fun r => r.isReadable && r.base ≤ address && address + length ≤ r.limit then none
  else some (.unmapped address length)

/-- The process has not exited and has the regions. -/
def Runs (regions : List Region) (p : ImageProcess) : Prop :=
  p.exited = false ∧ p.regions.map ImageRegion.describe = regions

variable {regions : List Region}

theorem fault_inside {r : Region} {address length : Nat} (hr : r ∈ regions) (hreadable : r.isReadable = true)
    (ha : r.base ≤ address) (hl : address + length ≤ r.limit) : fault regions address length = none :=
  if_pos (List.any_eq_true.mpr ⟨r, hr, by simp [hreadable, ha, hl]⟩)

theorem read_eq_readAnswer {p : ImageProcess} (happart : (p.regions.map ImageRegion.describe).Pairwise Region.Apart)
    (hp : p.exited = false) (address length : Nat) :
    p.read address length =
      readAnswer (fault (p.regions.map ImageRegion.describe)) p.memory address length := by
  have hany : ((p.regions.map ImageRegion.describe).any fun r =>
      r.isReadable && r.base ≤ address && address + length ≤ r.limit) =
        p.regions.any (·.serves Protection.readOnly address length) := List.any_map
  rw [read, hp, if_neg Bool.false_ne_true, readAnswer, fault, hany]
  cases hfind : p.regions.find? (·.serves Protection.readOnly address length) with
  | some r =>
    have hserves := List.find?_some hfind
    have hmem := List.mem_of_find?_eq_some hfind
    rw [if_pos (List.any_eq_true.mpr ⟨r, hmem, hserves⟩)]
    exact congrArg _ (ImageRegion.extract_eq_copy_memoryIn happart hmem hserves)
  | none =>
    rw [if_neg]
    rw [List.any_eq_true]
    rintro ⟨r, hmem, hserves⟩
    exact List.find?_eq_none.mp hfind r hmem hserves

theorem writeAs_of_exited {p : ImageProcess} (hp : p.exited = true) {required : Protection} {address : Nat}
    {bytes : ByteArray} : p.writeAs required address bytes = (.error .disconnected, p) := by
  obtain ⟨rs, _⟩ := p
  cases hp
  rfl

/-- A write is made in the first region that serves it, or fails and changes nothing. -/
theorem writeAs_cases {p : ImageProcess} (hp : p.exited = false) (required : Protection) (address : Nat)
    (bytes : ByteArray) :
    (∃ rs, writeFirst? required address bytes p.regions = some rs ∧
        p.writeAs required address bytes = (.ok (), ⟨rs, false⟩)) ∨
      writeFirst? required address bytes p.regions = none ∧
        p.writeAs required address bytes = (.error (.unmapped address bytes.size), p) := by
  obtain ⟨rs, _⟩ := p
  cases hp
  rw [writeAs]
  cases hfirst : writeFirst? required address bytes rs with
  | some rs' => exact .inl ⟨rs', rfl, rfl⟩
  | none => exact .inr ⟨rfl, rfl⟩

theorem writeAs_error {p : ImageProcess} {required : Protection} {address : Nat} {bytes : ByteArray}
    {e : AccessError} (he : (p.writeAs required address bytes).1 = .error e) :
    (p.writeAs required address bytes).2 = p := by
  cases hp : p.exited with
  | true => rw [writeAs_of_exited hp]
  | false =>
    rcases writeAs_cases hp required address bytes with ⟨rs, -, hw⟩ | ⟨-, hw⟩
    · rw [hw] at he
      cases he
    · rw [hw]

theorem writeAs_ok_iff {p : ImageProcess} (hp : p.exited = false) {required : Protection} {address : Nat}
    {bytes : ByteArray} :
    (p.writeAs required address bytes).1 = .ok () ↔
      ∃ r ∈ p.regions, r.serves required address bytes.size = true := by
  rw [← ImageRegion.writeFirst?_ne_none_iff]
  rcases writeAs_cases hp required address bytes with ⟨rs, hfirst, hw⟩ | ⟨hfirst, hw⟩
  · simp [hfirst, hw]
  · simp [hfirst, hw]

theorem of_writeAs {p : ImageProcess} (happart : (p.regions.map ImageRegion.describe).Pairwise Region.Apart)
    {required : Protection} {address : Nat} {bytes : ByteArray}
    (hok : (p.writeAs required address bytes).1 = .ok ()) :
    (p.writeAs required address bytes).2.exited = false ∧
      (p.writeAs required address bytes).2.regions.map ImageRegion.describe = p.regions.map ImageRegion.describe ∧
      (p.writeAs required address bytes).2.memory = overwritten p.memory address bytes := by
  cases hp : p.exited with
  | true =>
    rw [writeAs_of_exited hp] at hok
    cases hok
  | false =>
    rcases writeAs_cases hp required address bytes with ⟨rs, hfirst, hw⟩ | ⟨-, hw⟩
    · rw [hw]
      exact ⟨rfl, ImageRegion.of_writeFirst? happart hfirst⟩
    · rw [hw] at hok
      cases hok

/-- An image whose regions lie apart changes by writes alone. -/
theorem passive (happart : regions.Pairwise Region.Apart) :
    Passive regions (fault regions) memory (Runs regions) where
  apart := happart
  present address length := by
    rw [fault]
    split
    · simp
    · simp
  lists := by
    rintro p ⟨hp, rfl⟩
    exact if_neg (by simp [hp])
  lists_keeps := by
    rintro p hp
    exact ⟨hp, rfl⟩
  reads := by
    rintro p ⟨hp, rfl⟩ address length
    exact read_eq_readAnswer happart hp address length
  reads_keeps := by
    rintro p hp address length
    exact ⟨hp, rfl⟩
  accepts := by
    rintro p ⟨hp, rfl⟩ r hr hw address bytes hbase hlimit
    obtain ⟨q, hq, rfl⟩ := List.mem_map.mp hr
    exact (writeAs_ok_iff hp).mpr ⟨q, hq, ImageRegion.serves_iff.mpr ⟨hw, hbase, hlimit⟩⟩
  writes := by
    rintro p ⟨hp, rfl⟩ address bytes hok
    obtain ⟨hexited, hdescribe, hmemory⟩ := of_writeAs happart hok
    exact ⟨⟨hexited, hdescribe⟩, hmemory⟩

end ImageProcess

end ConsoleBridge
