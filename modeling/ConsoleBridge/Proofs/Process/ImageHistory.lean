import Mathlib.Data.List.Induction
import ConsoleBridge.Proofs.Process.ImageMemory

/-!
# What an image remembers

An image whose regions lie apart is a memory with one byte at each address: whatever is asked of it, a byte is
what the latest write or poke left there, and what the region held at first where there was none.
-/
namespace ConsoleBridge

open Bytes

inductive ImageRequest
  | read (address length : Nat)
  | write (address : Nat) (bytes : ByteArray)
  | poke (address : Nat) (bytes : ByteArray)
  | exit

namespace ImageRequest

/-- The request is for a span of a region that has to allow what is required. -/
inductive Asks : ImageRequest → Protection → Nat → Nat → Prop
  | read {address length} : Asks (.read address length) .readOnly address length
  | write {address bytes} : Asks (.write address bytes) .readWrite address bytes.size
  | poke {address bytes} : Asks (.poke address bytes) .none address bytes.size

/-- The bytes that are put into memory, and from which address on. -/
def puts : ImageRequest → Option (Nat × ByteArray)
  | .read _ _ => none
  | .write address bytes => some (address, bytes)
  | .poke address bytes => some (address, bytes)
  | .exit => none

/-- The byte that a request with this answer has left at an address. -/
def left (q : ImageRequest) (answer : Except AccessError ByteArray) (a : Nat) : Option UInt8 :=
  match answer with
  | .ok _ =>
    q.puts.bind fun (address, bytes) =>
      if address ≤ a ∧ a < address + bytes.size then some (byte bytes (a - address)) else none
  | .error _ => none

theorem left_of_none {q : ImageRequest} (hputs : q.puts = none) (answer : Except AccessError ByteArray) (a : Nat) :
    q.left answer a = none := by
  cases answer with
  | error e => rfl
  | ok v =>
    rw [left, hputs]
    rfl

theorem left_of_puts {q : ImageRequest} {address : Nat} {bytes : ByteArray} (hputs : q.puts = some (address, bytes))
    (v : ByteArray) (a : Nat) :
    q.left (.ok v) a =
      if address ≤ a ∧ a < address + bytes.size then some (byte bytes (a - address)) else none := by
  rw [left, hputs]
  rfl

end ImageRequest

/-- The byte that the latest of some answered requests has left at an address. -/
def latest (answered : List (ImageRequest × Except AccessError ByteArray)) (a : Nat) : Option UInt8 :=
  answered.reverse.findSome? fun r => r.1.left r.2 a

namespace ImageProcess

def ofRegions (rs : List ImageRegion) : ImageProcess := rs.foldl add empty

def perform (p : ImageProcess) : ImageRequest → Except AccessError ByteArray × ImageProcess
  | .read address length => (p.read address length, p)
  | .write address bytes => ((p.write address bytes).1.map fun _ => ByteArray.empty, (p.write address bytes).2)
  | .poke address bytes => ((p.poke address bytes).1.map fun _ => ByteArray.empty, (p.poke address bytes).2)
  | .exit => (.ok ByteArray.empty, p.exit)

def after (p : ImageProcess) (past : List ImageRequest) : ImageProcess :=
  past.foldl (fun p q => (p.perform q).2) p

def transcript (p : ImageProcess) : List ImageRequest → List (ImageRequest × Except AccessError ByteArray)
  | [] => []
  | q :: rest => (q, (p.perform q).1) :: (p.perform q).2.transcript rest

/-- A region as it is listed takes every access inside it that its protection promises. -/
def Accepts (p : ImageProcess) (r : Region) : Prop :=
  ∀ address length, r.base ≤ address → address + length ≤ r.limit →
    (r.isReadable = true → ∃ bytes, p.read address length = .ok bytes) ∧
      (r.isWritable = true → ∀ bytes, bytes.size = length → (p.write address bytes).1 = .ok ())

/-- A running image of the regions `rs` behind some answered requests. -/
structure Remembers (rs : List ImageRegion) (answered : List (ImageRequest × Except AccessError ByteArray))
    (p : ImageProcess) : Prop where
  serves {q required address length} (asks : ImageRequest.Asks q required address length) :
    (∃ bytes, (p.perform q).1 = .ok bytes) ↔
      ∃ r ∈ rs, r.protection.allows required = true ∧ r.base ≤ address ∧ address + length ≤ r.describe.limit
  refuses {q required address length e} (asks : ImageRequest.Asks q required address length)
    (failed : (p.perform q).1 = .error e) : e = .unmapped address length ∧ (p.perform q).2 = p
  reads {address length bytes} (read : p.read address length = .ok bytes) :
    bytes.size = length ∧ ∀ i < length, ∃ r ∈ rs, r.describe.holds (address + i) = true ∧
      byte bytes i = (latest answered (address + i)).getD (r.memory (address + i))
  writes {q address bytes v} (puts : ImageRequest.puts q = some (address, bytes)) (done : (p.perform q).1 = .ok v) :
    (p.perform q).2.memory = overwritten p.memory address bytes
  lists : ∃ listed, p.describe = .ok listed ∧ listed.Perm (rs.map ImageRegion.describe) ∧
    listed.Pairwise (fun r s => r.base ≤ s.base) ∧
    (∀ base, listed.filter (·.base = base) = (rs.map ImageRegion.describe).filter (·.base = base)) ∧
    ∀ r ∈ listed, p.Accepts r

/-- An image that has exited refuses everything and stays as it is. -/
structure Silent (p : ImageProcess) : Prop where
  refuses : ∀ q ≠ .exit, (p.perform q).1 = .error .disconnected
  lists : p.describe = .error .disconnected
  same : ∀ q, (p.perform q).2 = p

end ImageProcess

theorem Region.Apart.symm {r q : Region} (h : r.Apart q) : q.Apart r := by
  intro a hq
  rw [← Bool.not_eq_true]
  intro hr
  rw [h a hr] at hq
  cases hq

namespace ImageRegion

variable {rs rs' : List ImageRegion} {a : Nat}

theorem memoryIn_of_not_mem (hnone : ∀ r ∈ rs, ¬ r.describe.holds a = true) : memoryIn rs a = 0 := by
  rw [memoryIn, List.find?_eq_none.mpr hnone]

/-- The order of regions that lie apart does not matter to the memory. -/
theorem memoryIn_perm (hperm : rs.Perm rs') (happart : (rs.map describe).Pairwise Region.Apart) :
    memoryIn rs = memoryIn rs' := by
  have happart' := ((hperm.map describe).pairwise_iff Region.Apart.symm).mp happart
  funext a
  by_cases hsome : ∃ r ∈ rs, r.describe.holds a = true
  · obtain ⟨r, hr, ha⟩ := hsome
    rw [memoryIn_of_mem happart hr ha, memoryIn_of_mem happart' (hperm.mem_iff.mp hr) ha]
  · rw [memoryIn_of_not_mem fun r hr ha => hsome ⟨r, hr, ha⟩,
      memoryIn_of_not_mem fun r hr ha => hsome ⟨r, hperm.mem_iff.mpr hr, ha⟩]

end ImageRegion

namespace ImageProcess

variable {rs rs' : List ImageRegion} {p p' : ImageProcess} {q : ImageRequest} {past : List ImageRequest}
variable {required : Protection} {address length a : Nat} {bytes : ByteArray}

section Build

theorem insertRegion_perm (r : ImageRegion) (rs : List ImageRegion) : (insertRegion r rs).Perm (r :: rs) := by
  induction rs with
  | nil => exact .refl _
  | cons s rest ih =>
    rw [insertRegion]
    by_cases hs : s.base ≤ r.base
    · rw [if_pos hs]
      exact (ih.cons s).trans (.swap r s rest)
    · rw [if_neg hs]

private theorem insertRegion_ascending (r : ImageRegion) (hrs : rs.Pairwise fun s t => s.base ≤ t.base) :
    (insertRegion r rs).Pairwise fun s t => s.base ≤ t.base := by
  induction rs with
  | nil => exact List.pairwise_singleton _ r
  | cons s rest ih =>
    obtain ⟨hs, hrest⟩ := List.pairwise_cons.mp hrs
    rw [insertRegion]
    by_cases hle : s.base ≤ r.base
    · rw [if_pos hle]
      refine List.pairwise_cons.mpr ⟨fun t ht => ?_, ih hrest⟩
      rcases List.mem_cons.mp ((insertRegion_perm r rest).mem_iff.mp ht) with rfl | ht
      · exact hle
      · exact hs t ht
    · rw [if_neg hle]
      refine List.pairwise_cons.mpr ⟨fun t ht => ?_, hrs⟩
      rcases List.mem_cons.mp ht with rfl | ht
      · omega
      · exact Nat.le_trans (by omega) (hs t ht)

/-- A region is put behind those at its base. -/
theorem filter_insertRegion (r : ImageRegion) (hrs : rs.Pairwise fun s t => s.base ≤ t.base) (base : Nat) :
    (insertRegion r rs).filter (·.base = base) = (rs ++ [r]).filter (·.base = base) := by
  induction rs with
  | nil => rfl
  | cons s rest ih =>
    obtain ⟨hs, hrest⟩ := List.pairwise_cons.mp hrs
    rw [insertRegion]
    by_cases hle : s.base ≤ r.base
    · rw [if_pos hle, List.cons_append, List.filter_cons, List.filter_cons, ih hrest]
    · rw [if_neg hle, List.filter_append, List.filter_cons, List.filter_singleton]
      by_cases hbase : r.base = base
      · have hbehind : ∀ t ∈ s :: rest, t.base ≠ base := by
          refine List.forall_mem_cons.mpr ⟨by omega, fun t ht => ?_⟩
          have hst := hs t ht
          omega
        have hnil : (s :: rest).filter (·.base = base) = [] :=
          List.filter_eq_nil_iff.mpr fun t ht => by simp [hbehind t ht]
        rw [hnil, List.nil_append]
        simp [hbase]
      · simp [hbase]

/-- Regions that are added are there in ascending order, and at one base in the order of adding. -/
theorem regions_foldl_add (p : ImageProcess) (rs : List ImageRegion) :
    (rs.foldl add p).exited = p.exited ∧ (rs.foldl add p).regions.Perm (p.regions ++ rs) ∧
      (p.regions.Pairwise (fun s t => s.base ≤ t.base) →
        (rs.foldl add p).regions.Pairwise (fun s t => s.base ≤ t.base) ∧
          ∀ base, (rs.foldl add p).regions.filter (·.base = base) =
            (p.regions ++ rs).filter (·.base = base)) := by
  induction rs generalizing p with
  | nil =>
    rw [List.append_nil]
    exact ⟨rfl, .refl _, fun hp => ⟨hp, fun _ => rfl⟩⟩
  | cons r rest ih =>
    obtain ⟨hexited, hperm, hordered⟩ := ih (p.add r)
    refine ⟨hexited, hperm.trans ?_, fun hp => ?_⟩
    · exact ((insertRegion_perm r p.regions).append_right rest).trans List.perm_middle.symm
    · obtain ⟨hascending, hfilter⟩ := hordered (insertRegion_ascending r hp)
      refine ⟨hascending, fun base => ?_⟩
      calc (rest.foldl add (p.add r)).regions.filter (·.base = base)
          = (insertRegion r p.regions ++ rest).filter (·.base = base) := hfilter base
        _ = (p.regions ++ [r]).filter (·.base = base) ++ rest.filter (·.base = base) := by
            rw [List.filter_append, filter_insertRegion r hp]
        _ = (p.regions ++ r :: rest).filter (·.base = base) := by
            rw [← List.filter_append, List.append_assoc, List.singleton_append]

theorem exited_ofRegions (rs : List ImageRegion) : (ofRegions rs).exited = false :=
  (regions_foldl_add empty rs).1

theorem regions_ofRegions (rs : List ImageRegion) : (ofRegions rs).regions.Perm rs :=
  (regions_foldl_add empty rs).2.1

theorem ascending_ofRegions (rs : List ImageRegion) : (ofRegions rs).regions.Pairwise fun s t => s.base ≤ t.base :=
  ((regions_foldl_add empty rs).2.2 .nil).1

private theorem filter_listed (rs : List ImageRegion) (base : Nat) :
    ((ofRegions rs).regions.map ImageRegion.describe).filter (·.base = base) =
      (rs.map ImageRegion.describe).filter (·.base = base) := by
  rw [List.filter_map, List.filter_map]
  exact congrArg (List.map ImageRegion.describe) (((regions_foldl_add empty rs).2.2 .nil).2 base)

theorem ascending_listed (rs : List ImageRegion) :
    ((ofRegions rs).regions.map ImageRegion.describe).Pairwise fun r s => r.base ≤ s.base :=
  List.pairwise_map.mpr (ascending_ofRegions rs)

theorem apart_ofRegions (happart : (rs.map ImageRegion.describe).Pairwise Region.Apart) :
    ((ofRegions rs).regions.map ImageRegion.describe).Pairwise Region.Apart :=
  (((regions_ofRegions rs).map ImageRegion.describe).pairwise_iff Region.Apart.symm).mpr happart

end Build

section Step

/-- The regions of an image lie apart. -/
def Apart (p : ImageProcess) : Prop := (p.regions.map ImageRegion.describe).Pairwise Region.Apart

/-- What a request does to an image: it leaves the regions where they are, and changes the bytes that it puts there. -/
structure Steps (p : ImageProcess) (q : ImageRequest) : Prop where
  regions : (p.perform q).2.regions.map ImageRegion.describe = p.regions.map ImageRegion.describe
  exited : (p.perform q).2.exited = true ↔ p.exited = true ∨ q = .exit
  memory : ∀ a, (p.perform q).2.memory a = (q.left (p.perform q).1 a).getD (p.memory a)

/-- A request that puts bytes somewhere is a write that requires something. -/
theorem perform_of_puts (hputs : q.puts = some (address, bytes)) :
    ∃ required, q.Asks required address bytes.size ∧
      p.perform q = ((p.writeAs required address bytes).1.map fun _ => ByteArray.empty,
        (p.writeAs required address bytes).2) := by
  cases q with
  | read a n => cases hputs
  | write a b =>
    cases hputs
    exact ⟨_, .write, rfl⟩
  | poke a b =>
    cases hputs
    exact ⟨_, .poke, rfl⟩
  | exit => cases hputs

theorem perform_writes (happart : p.Apart) (hputs : q.puts = some (address, bytes))
    {v : ByteArray} (hok : (p.perform q).1 = .ok v) :
    (p.perform q).2.exited = p.exited ∧
      (p.perform q).2.regions.map ImageRegion.describe = p.regions.map ImageRegion.describe ∧
      (p.perform q).2.memory = overwritten p.memory address bytes := by
  obtain ⟨required, -, hperform⟩ := perform_of_puts (p := p) hputs
  rw [hperform] at hok ⊢
  cases hw : (p.writeAs required address bytes).1 with
  | error e =>
    rw [hw] at hok
    cases hok
  | ok =>
    obtain ⟨hexited, hregions, hmemory⟩ := of_writeAs happart hw
    refine ⟨?_, hregions, hmemory⟩
    cases hp : p.exited with
    | true =>
      rw [writeAs_of_exited hp] at hw
      cases hw
    | false => exact hexited

/-- A request that fails changes nothing. -/
theorem perform_error {e : AccessError} (he : (p.perform q).1 = .error e) : (p.perform q).2 = p := by
  cases hputs : q.puts with
  | none =>
    cases q with
    | read a n => rfl
    | write a b => cases hputs
    | poke a b => cases hputs
    | exit => cases he
  | some w =>
    obtain ⟨address, bytes⟩ := w
    obtain ⟨required, -, hperform⟩ := perform_of_puts (p := p) hputs
    rw [hperform] at he ⊢
    cases hw : (p.writeAs required address bytes).1 with
    | error e => exact writeAs_error hw
    | ok =>
      rw [hw] at he
      cases he

theorem steps (happart : p.Apart) (q : ImageRequest) : p.Steps q := by
  cases hputs : q.puts with
  | none =>
    have hleft := ImageRequest.left_of_none hputs (p.perform q).1
    cases q with
    | read a n => exact ⟨rfl, by simp [perform], fun a => by rw [hleft a]; rfl⟩
    | write a b => cases hputs
    | poke a b => cases hputs
    | exit => exact ⟨rfl, by simp [perform, exit], fun a => by rw [hleft a]; rfl⟩
  | some w =>
    obtain ⟨address, bytes⟩ := w
    have hne : q ≠ .exit := by
      rintro rfl
      cases hputs
    cases hanswer : (p.perform q).1 with
    | error e =>
      have hsame := perform_error hanswer
      refine ⟨by rw [hsame], by simp [hsame, hne], fun a => ?_⟩
      rw [hsame, hanswer]
      rfl
    | ok v =>
      obtain ⟨hexited, hregions, hmemory⟩ := perform_writes happart hputs hanswer
      refine ⟨hregions, by simp [hexited, hne], fun a => ?_⟩
      rw [hmemory, hanswer, ImageRequest.left_of_puts hputs, overwritten]
      split
      · rfl
      · rfl

end Step

section Run

theorem after_concat (p : ImageProcess) (past : List ImageRequest) (q : ImageRequest) :
    p.after (past ++ [q]) = ((p.after past).perform q).2 := by
  rw [after, List.foldl_append]
  rfl

theorem transcript_concat (p : ImageProcess) (past : List ImageRequest) (q : ImageRequest) :
    p.transcript (past ++ [q]) = p.transcript past ++ [(q, ((p.after past).perform q).1)] := by
  induction past generalizing p with
  | nil => rfl
  | cons r rest ih =>
    rw [List.cons_append, transcript, transcript, ih]
    rfl

theorem latest_concat (answered : List (ImageRequest × Except AccessError ByteArray))
    (r : ImageRequest × Except AccessError ByteArray) (a : Nat) :
    latest (answered ++ [r]) a = (r.1.left r.2 a).or (latest answered a) := by
  rw [latest, List.reverse_append, List.findSome?_append, List.reverse_singleton, List.findSome?_singleton]
  rfl

theorem regions_after (happart : p.Apart) (past : List ImageRequest) :
    (p.after past).regions.map ImageRegion.describe = p.regions.map ImageRegion.describe := by
  induction past using List.reverseRecOn with
  | nil => rfl
  | append_singleton past q ih =>
    have happart' : (p.after past).Apart := by rwa [Apart, ih]
    rw [after_concat, (steps happart' q).regions, ih]

theorem apart_after (happart : p.Apart) (past : List ImageRequest) : (p.after past).Apart := by
  rwa [Apart, regions_after happart]

theorem exited_after (happart : p.Apart) (past : List ImageRequest) :
    (p.after past).exited = true ↔ p.exited = true ∨ .exit ∈ past := by
  induction past using List.reverseRecOn with
  | nil => simp [after]
  | append_singleton past q ih =>
    rw [after_concat, (steps (apart_after happart past) q).exited, ih, List.mem_append, List.mem_singleton, or_assoc,
      eq_comm (a := q)]

/-- A byte is what the latest write to its address left, or what was there at first. -/
theorem memory_after (happart : p.Apart) (past : List ImageRequest) (a : Nat) :
    (p.after past).memory a = (latest (p.transcript past) a).getD (p.memory a) := by
  induction past using List.reverseRecOn with
  | nil => rfl
  | append_singleton past q ih =>
    rw [after_concat, (steps (apart_after happart past) q).memory, ih, transcript_concat, latest_concat,
      Option.getD_or]

end Run

section Answers

theorem exists_serves_iff : (∃ r ∈ rs, r.serves required address length = true) ↔
    ∃ r ∈ rs.map ImageRegion.describe, r.protection.allows required = true ∧ r.base ≤ address ∧
      address + length ≤ r.limit := by
  simp only [ImageRegion.serves_iff, List.mem_map, exists_exists_and_eq_and]
  rfl

theorem read_ok_iff (hp : p.exited = false) :
    (∃ bytes, p.read address length = .ok bytes) ↔
      ∃ r ∈ p.regions, r.serves Protection.readOnly address length = true := by
  rw [read, hp, if_neg Bool.false_ne_true]
  cases hfind : p.regions.find? (·.serves Protection.readOnly address length) with
  | some r =>
    have hserves := List.find?_some hfind
    exact iff_of_true ⟨_, rfl⟩ ⟨r, List.mem_of_find?_eq_some hfind, hserves⟩
  | none =>
    refine iff_of_false ?_ ?_
    · rintro ⟨bytes, hbytes⟩
      cases hbytes
    · rintro ⟨r, hr, hserves⟩
      exact List.find?_eq_none.mp hfind r hr hserves

/-- A read brings the bytes of its span. -/
theorem byte_of_read (happart : p.Apart) (hread : p.read address length = .ok bytes) {i : Nat} (hi : i < length) :
    byte bytes i = p.memory (address + i) := by
  cases hp : p.exited with
  | true =>
    rw [read, if_pos hp] at hread
    cases hread
  | false =>
    rw [read_eq_readAnswer happart hp, readAnswer] at hread
    split at hread
    · cases hread
      exact byte_copy hi
    · cases hread

theorem read_error {e : AccessError} (hp : p.exited = false) (he : p.read address length = .error e) :
    e = .unmapped address length := by
  rw [read, hp, if_neg Bool.false_ne_true] at he
  split at he
  · cases he
  · cases he
    rfl

/-- A running image serves what one of its regions serves. -/
theorem perform_ok_iff (hp : p.exited = false) (hasks : q.Asks required address length) :
    (∃ bytes, (p.perform q).1 = .ok bytes) ↔ ∃ r ∈ p.regions, r.serves required address length = true := by
  have hwrite : ∀ required bytes, (∃ v, ((p.writeAs required address bytes).1.map fun _ => ByteArray.empty) = .ok v) ↔
      ∃ r ∈ p.regions, r.serves required address bytes.size = true := by
    intro required bytes
    rw [← writeAs_ok_iff hp]
    cases (p.writeAs required address bytes).1 with
    | error e => simp [Except.map]
    | ok => simp [Except.map]
  cases hasks with
  | read => exact read_ok_iff hp
  | @write _ bytes => exact hwrite Protection.readWrite bytes
  | @poke _ bytes => exact hwrite Protection.none bytes

private theorem perform_fault {e : AccessError} (hp : p.exited = false) (hasks : q.Asks required address length)
    (he : (p.perform q).1 = .error e) : e = .unmapped address length := by
  have hwrite : ∀ required bytes,
      ((p.writeAs required address bytes).1.map fun _ => ByteArray.empty) = .error e →
        e = .unmapped address bytes.size := by
    intro required bytes he
    rcases writeAs_cases hp required address bytes with ⟨rs, -, hw⟩ | ⟨-, hw⟩
    · rw [hw] at he
      cases he
    · rw [hw] at he
      cases he
      rfl
  cases hasks with
  | read => exact read_error hp he
  | @write _ bytes => exact hwrite Protection.readWrite bytes he
  | @poke _ bytes => exact hwrite Protection.none bytes he

theorem accepts (hp : p.exited = false) {r : Region} (hr : r ∈ p.regions.map ImageRegion.describe) :
    p.Accepts r := by
  intro address length hbase hlimit
  constructor
  · exact fun hreadable => (read_ok_iff hp).mpr (exists_serves_iff.mpr ⟨r, hr, hreadable, hbase, hlimit⟩)
  · rintro hwritable bytes rfl
    exact (writeAs_ok_iff hp).mpr (exists_serves_iff.mpr ⟨r, hr, hwritable, hbase, hlimit⟩)

private theorem silent (hp : p.exited = true) : p.Silent where
  refuses q hq := by
    cases q with
    | read a n => exact if_pos hp
    | write a b =>
      rw [perform, write, writeAs_of_exited hp]
      rfl
    | poke a b =>
      rw [perform, poke, writeAs_of_exited hp]
      rfl
    | exit => exact absurd rfl hq
  lists := if_pos hp
  same q := by
    cases q with
    | read a n => rfl
    | write a b => rw [perform, write, writeAs_of_exited hp]
    | poke a b => rw [perform, poke, writeAs_of_exited hp]
    | exit =>
      obtain ⟨rs, _⟩ := p
      cases hp
      rfl

end Answers

section Order

/-- Two images with the same regions, whatever their order, and the same memory. -/
structure Alike (p p' : ImageProcess) : Prop where
  apart : p.Apart
  exited : p.exited = p'.exited
  regions : (p.regions.map ImageRegion.describe).Perm (p'.regions.map ImageRegion.describe)
  memory : p.memory = p'.memory

theorem Alike.apart' (ha : Alike p p') : p'.Apart := (ha.regions.pairwise_iff Region.Apart.symm).mp ha.apart

theorem Alike.serves (ha : Alike p p') (required : Protection) (address length : Nat) :
    (∃ r ∈ p.regions, r.serves required address length = true) ↔
      ∃ r ∈ p'.regions, r.serves required address length = true := by
  simp only [exists_serves_iff, ha.regions.mem_iff]

theorem Alike.read (ha : Alike p p') (address length : Nat) : p.read address length = p'.read address length := by
  cases hp : p.exited with
  | true => exact (if_pos hp).trans (if_pos (ha.exited ▸ hp)).symm
  | false =>
    rw [read_eq_readAnswer ha.apart hp, read_eq_readAnswer ha.apart' (ha.exited ▸ hp), ha.memory]
    have hfault : fault (p.regions.map ImageRegion.describe) = fault (p'.regions.map ImageRegion.describe) := by
      funext address length
      rw [fault, fault, ha.regions.any_eq]
    rw [hfault]

theorem Alike.writeAs (ha : Alike p p') (required : Protection) (address : Nat) (bytes : ByteArray) :
    (p.writeAs required address bytes).1 = (p'.writeAs required address bytes).1 := by
  cases hp : p.exited with
  | true => rw [writeAs_of_exited hp, writeAs_of_exited (ha.exited ▸ hp)]
  | false =>
    have hp' : p'.exited = false := ha.exited ▸ hp
    have hserves := ha.serves required address bytes.size
    rw [← ImageRegion.writeFirst?_ne_none_iff, ← ImageRegion.writeFirst?_ne_none_iff] at hserves
    rcases writeAs_cases hp required address bytes with ⟨rs, hfirst, hw⟩ | ⟨hfirst, hw⟩
    · rcases writeAs_cases hp' required address bytes with ⟨rs', -, hw'⟩ | ⟨hfirst', -⟩
      · rw [hw, hw']
      · exact absurd hfirst' (hserves.mp (by rw [hfirst]; exact Option.some_ne_none rs))
    · rcases writeAs_cases hp' required address bytes with ⟨rs', hfirst', -⟩ | ⟨-, hw'⟩
      · exact absurd hfirst (hserves.mpr (by rw [hfirst']; exact Option.some_ne_none rs'))
      · rw [hw, hw']

theorem Alike.answer (ha : Alike p p') (q : ImageRequest) : (p.perform q).1 = (p'.perform q).1 := by
  cases q with
  | read address length => exact ha.read address length
  | write address bytes =>
    have hw : (p.write address bytes).1 = (p'.write address bytes).1 := ha.writeAs Protection.readWrite address bytes
    rw [perform, perform, hw]
  | poke address bytes =>
    have hw : (p.poke address bytes).1 = (p'.poke address bytes).1 := ha.writeAs Protection.none address bytes
    rw [perform, perform, hw]
  | exit => rfl

theorem Alike.next (ha : Alike p p') (q : ImageRequest) : Alike (p.perform q).2 (p'.perform q).2 := by
  have hsteps := steps ha.apart q
  have hsteps' := steps ha.apart' q
  refine ⟨by rw [Apart, hsteps.regions]; exact ha.apart, ?_, ?_, funext fun a => ?_⟩
  · rw [Bool.eq_iff_iff, hsteps.exited, hsteps'.exited, ha.exited]
  · rw [hsteps.regions, hsteps'.regions]
    exact ha.regions
  · rw [hsteps.memory, hsteps'.memory, ha.answer, ha.memory]

theorem Alike.transcript (ha : Alike p p') (past : List ImageRequest) : p.transcript past = p'.transcript past := by
  induction past generalizing p p' with
  | nil => rfl
  | cons q rest ih => rw [ImageProcess.transcript, ImageProcess.transcript, ha.answer, ih (ha.next q)]

theorem regions_perm (hperm : rs'.Perm rs) : (ofRegions rs').regions.Perm (ofRegions rs).regions :=
  (regions_ofRegions rs').trans (hperm.trans (regions_ofRegions rs).symm)

theorem alike_ofRegions (hperm : rs'.Perm rs) (happart : (rs.map ImageRegion.describe).Pairwise Region.Apart) :
    Alike (ofRegions rs') (ofRegions rs) := by
  have hregions := regions_perm hperm
  have happart' := ((hperm.map ImageRegion.describe).pairwise_iff Region.Apart.symm).mpr happart
  exact {
    apart := apart_ofRegions happart'
    exited := (exited_ofRegions rs').trans (exited_ofRegions rs).symm
    regions := hregions.map ImageRegion.describe
    memory := ImageRegion.memoryIn_perm hregions (apart_ofRegions happart') }

/-- Regions that hold something start at different bases. -/
theorem eq_of_base_eq {regions : List Region} (happart : regions.Pairwise Region.Apart) {r s : Region}
    (hr : r ∈ regions) (hs : s ∈ regions) (hbase : r.base = s.base) (hrsome : 0 < r.size) (hssome : 0 < s.size) :
    r = s := by
  have hrholds : r.holds r.base = true := Region.holds_iff.mpr ⟨Nat.le_refl _, Nat.lt_add_of_pos_right hrsome⟩
  have hsholds : s.holds r.base = true := by
    rw [hbase]
    exact Region.holds_iff.mpr ⟨Nat.le_refl _, Nat.lt_add_of_pos_right hssome⟩
  exact eq_of_apart happart hr hs hrholds hsholds

/-- Where those listed regions that are selected start at different bases, they have one order. -/
theorem filter_listed_of_perm (hperm : rs'.Perm rs) (select : Region → Bool)
    (hsame : ∀ r ∈ rs.map ImageRegion.describe, select r = true → ∀ s ∈ rs.map ImageRegion.describe,
      select s = true → r.base = s.base → r = s) :
    ((ofRegions rs').regions.map ImageRegion.describe).filter select =
      ((ofRegions rs).regions.map ImageRegion.describe).filter select := by
  have hlisted : ∀ {r}, r ∈ (ofRegions rs).regions.map ImageRegion.describe → r ∈ rs.map ImageRegion.describe :=
    ((regions_ofRegions rs).map ImageRegion.describe).mem_iff.mp
  have hmoved := (regions_perm hperm).map ImageRegion.describe
  refine List.Perm.eq_of_pairwise (fun r s hr hs hle hle' => ?_) ((ascending_listed rs').filter _)
    ((ascending_listed rs).filter _) (hmoved.filter _)
  obtain ⟨hr, hrselected⟩ := List.mem_filter.mp hr
  obtain ⟨hs, hsselected⟩ := List.mem_filter.mp hs
  exact hsame r (hlisted (hmoved.mem_iff.mp hr)) hrselected s (hlisted hs) hsselected (Nat.le_antisymm hle hle')

/-- The listings of two images that were made of the same regions, where all that is selected has one order. -/
theorem describe_after_of_perm (hperm : rs'.Perm rs) (happart : (rs.map ImageRegion.describe).Pairwise Region.Apart)
    (past : List ImageRequest) (select : Region → Bool)
    (hsame : ∀ r ∈ rs.map ImageRegion.describe, select r = true → ∀ s ∈ rs.map ImageRegion.describe,
      select s = true → r.base = s.base → r = s) :
    ((ofRegions rs').after past).describe.map (List.filter select) =
      ((ofRegions rs).after past).describe.map (List.filter select) := by
  have halike := alike_ofRegions hperm happart
  have hexited : ((ofRegions rs').after past).exited = ((ofRegions rs).after past).exited := by
    rw [Bool.eq_iff_iff, exited_after halike.apart, exited_after halike.apart', halike.exited]
  rw [describe, describe, hexited, regions_after halike.apart, regions_after halike.apart']
  split
  · rfl
  · exact congrArg Except.ok (filter_listed_of_perm hperm select hsame)

end Order

section Remember

variable (happart : (rs.map ImageRegion.describe).Pairwise Region.Apart) (past : List ImageRequest)
include happart

theorem exited_iff : ((ofRegions rs).after past).exited = true ↔ .exit ∈ past := by
  rw [exited_after (apart_ofRegions happart), exited_ofRegions, Bool.false_eq_true, false_or]

theorem listed_perm :
    (((ofRegions rs).after past).regions.map ImageRegion.describe).Perm (rs.map ImageRegion.describe) := by
  rw [regions_after (apart_ofRegions happart)]
  exact (regions_ofRegions rs).map ImageRegion.describe

theorem serves_iff_of_perm :
    (∃ r ∈ ((ofRegions rs).after past).regions, r.serves required address length = true) ↔
      ∃ r ∈ rs, r.serves required address length = true := by
  rw [exists_serves_iff, exists_serves_iff]
  simp only [(listed_perm happart past).mem_iff]

theorem memory_of_holds {r : ImageRegion} (hr : r ∈ rs) (ha : r.describe.holds a = true) :
    ((ofRegions rs).after past).memory a = (latest ((ofRegions rs).transcript past) a).getD (r.memory a) := by
  have hbuilt := apart_ofRegions happart
  have hfirst : (ofRegions rs).memory a = r.memory a :=
    ImageRegion.memoryIn_of_mem hbuilt ((regions_ofRegions rs).mem_iff.mpr hr) ha
  rw [memory_after hbuilt, hfirst]

private theorem remembers_running (hrunning : .exit ∉ past) :
    Remembers rs ((ofRegions rs).transcript past) ((ofRegions rs).after past) := by
  have hbuilt := apart_ofRegions happart
  have hp : ((ofRegions rs).after past).exited = false := by
    rw [← Bool.not_eq_true, exited_iff happart]
    exact hrunning
  constructor
  case serves =>
    intro q required address length hasks
    rw [perform_ok_iff hp hasks, serves_iff_of_perm happart]
    simp only [ImageRegion.serves_iff]
  case refuses => exact fun hasks he => ⟨perform_fault hp hasks he, perform_error he⟩
  case reads =>
    intro address length bytes hread
    obtain ⟨r, hr, hserves⟩ := (serves_iff_of_perm happart past).mp ((read_ok_iff hp).mp ⟨bytes, hread⟩)
    obtain ⟨-, hbase, hlimit⟩ := ImageRegion.serves_iff.mp hserves
    refine ⟨size_of_read hread, fun i hi => ?_⟩
    have ha : r.describe.holds (address + i) = true := ImageRegion.holds_describe.mpr ⟨by omega, by omega⟩
    exact ⟨r, hr, ha, (byte_of_read (apart_after hbuilt past) hread hi).trans (memory_of_holds happart past hr ha)⟩
  case writes => exact fun hputs hok => (perform_writes (apart_after hbuilt past) hputs hok).2.2
  case lists =>
    have hascending : (((ofRegions rs).after past).regions.map ImageRegion.describe).Pairwise
        fun r s => r.base ≤ s.base := by
      rw [regions_after hbuilt]
      exact ascending_listed rs
    have hadded : ∀ base, (((ofRegions rs).after past).regions.map ImageRegion.describe).filter (·.base = base) =
        (rs.map ImageRegion.describe).filter (·.base = base) := by
      rw [regions_after hbuilt]
      exact filter_listed rs
    exact ⟨_, if_neg (by simp [hp]), listed_perm happart past, hascending, hadded, fun r hr => accepts hp hr⟩

/-- An image of regions that lie apart remembers what is written to it until it exits, and nothing changes then.
The order in which the regions were added does not matter, but for one thing: an empty region that starts where
another does is listed before or behind it as it was added. -/
theorem remembers :
    (.exit ∉ past → Remembers rs ((ofRegions rs).transcript past) ((ofRegions rs).after past)) ∧
      (.exit ∈ past → Silent ((ofRegions rs).after past)) ∧
      ∀ rs' : List ImageRegion, rs'.Perm rs →
        (ofRegions rs').transcript past = (ofRegions rs).transcript past ∧
          ((ofRegions rs').after past).describe.map (List.filter (0 < ·.size)) =
            ((ofRegions rs).after past).describe.map (List.filter (0 < ·.size)) ∧
          ((∀ r ∈ rs, r.bytes.size = 0 → ∀ s ∈ rs, s.base = r.base → s.describe = r.describe) →
            ((ofRegions rs').after past).describe = ((ofRegions rs).after past).describe) := by
  refine ⟨remembers_running happart past, fun hexit => silent ((exited_iff happart past).mpr hexit),
    fun rs' hperm => ⟨(alike_ofRegions hperm happart).transcript past, ?_, fun hempty => ?_⟩⟩
  · refine describe_after_of_perm hperm happart past _ fun r hr hrsome s hs hssome hbase => ?_
    rw [decide_eq_true_eq] at hrsome hssome
    exact eq_of_base_eq happart hr hs hbase hrsome hssome
  · have hlisted := describe_after_of_perm hperm happart past (fun _ => true) fun r hr _ s hs _ hbase => ?_
    · have hall : (List.filter fun _ : Region => true) = id := funext List.filter_true
      rwa [hall, Except.map_id] at hlisted
    · obtain ⟨r, hr', rfl⟩ := List.mem_map.mp hr
      obtain ⟨s, hs', rfl⟩ := List.mem_map.mp hs
      rcases Nat.eq_zero_or_pos r.bytes.size with hzero | hrsome
      · exact (hempty r hr' hzero s hs' hbase.symm).symm
      · rcases Nat.eq_zero_or_pos s.bytes.size with hzero | hssome
        · exact hempty s hs' hzero r hr' hbase
        · exact eq_of_base_eq happart hr hs hbase hrsome hssome

end Remember

def adjoining : List ImageRegion :=
  [⟨0x100, .readWrite, none, ⟨#[1, 2, 3, 4]⟩⟩, ⟨0x104, .readOnly, none, ⟨#[5, 6]⟩⟩]

def touching : List ImageRequest :=
  [.write 0x102 ⟨#[9]⟩, .write 0x104 ⟨#[9]⟩, .write 0x103 ⟨#[9, 9]⟩, .poke 0x105 ⟨#[7]⟩]

private theorem apart_adjoining : (adjoining.map ImageRegion.describe).Pairwise Region.Apart := by
  refine List.pairwise_pair.mpr fun a ha => ?_
  rw [ImageRegion.holds_describe] at ha
  rw [Region.holds_eq_false_iff]
  exact .inl ha.2

theorem remembers_adjoining :
    ((ofRegions adjoining).after touching).read 0x100 4 = .ok ⟨#[1, 2, 9, 4]⟩ ∧
      ((ofRegions adjoining).after touching).read 0x104 2 = .ok ⟨#[5, 7]⟩ ∧
      ((ofRegions adjoining).after touching).read 0x103 2 = .error (.unmapped 0x103 2) ∧
      Remembers adjoining ((ofRegions adjoining).transcript touching) ((ofRegions adjoining).after touching) ∧
      Silent ((ofRegions adjoining).after (touching ++ [.exit])) := by
  refine ⟨by decide, by decide, by decide, (remembers apart_adjoining touching).1 (by simp [touching]), ?_⟩
  exact (remembers apart_adjoining (touching ++ [.exit])).2.1 (by simp)

def coincident : List ImageRegion :=
  [⟨0x1000, .readOnly, none, ByteArray.empty⟩, ⟨0x1000, .readWrite, none, ByteArray.empty⟩]

/-- They are listed as they were added. -/
theorem describe_coincident :
    (coincident.map ImageRegion.describe).Pairwise Region.Apart ∧ coincident.reverse.Perm coincident ∧
      (ofRegions coincident.reverse).describe ≠ (ofRegions coincident).describe := by
  refine ⟨List.pairwise_pair.mpr fun a ha => ?_, List.reverse_perm coincident, by decide⟩
  rw [ImageRegion.holds_describe] at ha
  rw [Region.holds_eq_false_iff]
  exact .inl ha.2

end ImageProcess

end ConsoleBridge
