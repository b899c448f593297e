import ConsoleBridge.Proofs.Process.Still
import ConsoleBridge.Proofs.View.Spans

/-!
# Direct reads and snapshots

A snapshot of a process that holds still shows each chunk that can be read, and zeros elsewhere. Where it
shows the process, a direct read either fails or brings what the snapshot holds.
-/
namespace ConsoleBridge

open Bytes Handle
open Bus (rdramSize)

/-- The chunk that the offset lies in can be read. -/
def ChunkReadable (readable : Nat → Nat → Prop) (base offset : Nat) : Prop :=
  readable (base + Snapshot.chunkSize * (offset / Snapshot.chunkSize)) Snapshot.chunkSize

/-- An image of the first `size` bytes at `base`: the chunks that can be read, and zeros elsewhere. -/
structure Shows (memory : Nat → UInt8) (readable : Nat → Nat → Prop) (base size : Nat) (image : ByteArray) :
    Prop where
  size_eq : image.size = size
  shown : ∀ o < size, ChunkReadable readable base o → byte image o = memory (base + o)
  hidden : ∀ o < size, ¬ ChunkReadable readable base o → byte image o = 0

/-- The chunks of the bytes that are read from a console's address on can be read. -/
def Covered (readable : Nat → Nat → Prop) (base : Nat) (address : UInt32) (length : Nat) : Prop :=
  ∀ i < length, ChunkReadable readable base ((View.offsetOf address + i) % rdramSize)

/-- The first answer is a failure or the same as the second. -/
def Refines {α : Type} (r r' : Except AccessError α) : Prop := ∀ v, r = .ok v → r' = .ok v

def Coincide {α : Type} (r r' : Except AccessError α) : Prop := ∃ v, r = .ok v ∧ r' = .ok v

section Tiers

variable {σ : Type} [ProcessMemory σ]

/-- A snapshot of the memory at `base` that is made from a handle on, and the handle after it was made. -/
inductive Taken (h : Handle σ) (base : Nat) : Snapshot → Handle σ → Prop
  | first : Taken h base (Snapshot.start h base).1 (Snapshot.start h base).2
  | anew (s : Snapshot) (at_base : s.base = base) : Taken h base (s.refresh h).1 (s.refresh h).2

structure TiersRelated (R : ∀ {α : Type}, Except AccessError α → Except AccessError α → Prop)
    (covered : UInt32 → Nat → Prop) (base : Nat) (s : Snapshot) (h : Handle σ) : Prop where
  readBytes : ∀ address length, covered address length →
    R ((RamView.direct base).readBytes h address length).1.toExcept
      ((RamView.snapshot s).readBytes h address length).1.toExcept
  read8 : ∀ address, covered address 1 →
    R ((RamView.direct base).read8 h address).1 ((RamView.snapshot s).read8 h address).1
  read16 : ∀ address, covered address 2 →
    R ((RamView.direct base).read16 h address).1 ((RamView.snapshot s).read16 h address).1
  read32 : ∀ address, covered address 4 →
    R ((RamView.direct base).read32 h address).1 ((RamView.snapshot s).read32 h address).1

end Tiers

namespace RamView

theorem copy_base (memory : Nat → UInt8) (base offset length : Nat) :
    copy memory (base + offset) length = copy (fun o => memory (base + o)) offset length := by
  simp only [copy, Nat.add_assoc]

variable {σ : Type} [ProcessMemory σ]
variable {memory : Nat → UInt8} {readable : Nat → Nat → Prop} {stays : σ → Prop} {h : Handle σ}

/-- Pieces are read as they lie in memory, up to one that cannot be read. -/
theorem readSpans_cases (hs : Still memory readable stays) (hh : Steady stays h) (base : Nat)
    (acc : ByteArray) (spans : List View.Span) :
    (∃ r e h', readSpans h base acc spans = (⟨r, some e⟩, h') ∧
        ∃ s ∈ spans, ¬ readable (base + s.offset) s.length) ∨
      ∃ h', readSpans h base acc spans = (⟨acc ++ gather (fun o => memory (base + o)) spans, none⟩, h') := by
  induction spans generalizing h acc with
  | nil => exact .inr ⟨h, by rw [readSpans, gather, ByteArray.append_empty]⟩
  | cons s rest ih =>
    rw [readSpans]
    by_cases hr : readable (base + s.offset) s.length
    · obtain ⟨h₁, hread, hh₁⟩ := hh.read_ok hs hr
      rw [hread]
      rcases ih hh₁ (acc ++ copy memory (base + s.offset) s.length) with
        ⟨r, e, h', hfail, q, hq, hdenied⟩ | ⟨h', hall⟩
      · exact .inl ⟨r, e, h', hfail, q, List.mem_cons_of_mem s hq, hdenied⟩
      · refine .inr ⟨h', ?_⟩
        rw [gather, ← copy_base, ← ByteArray.append_assoc]
        exact hall
    · obtain ⟨a, n, h₁, hread, -⟩ := hh.read_error hs hr
      rw [hread]
      exact .inl ⟨_, _, h₁, rfl, s, List.mem_cons_self, hr⟩

end RamView

section Snapshot

variable {σ : Type} [ProcessMemory σ]
variable {memory : Nat → UInt8} {readable : Nat → Nat → Prop} {stays : σ → Prop} {h : Handle σ}
variable {base k : Nat} {copied bytes : ByteArray}

theorem Shows.append (hc : Shows memory readable base (Snapshot.chunkSize * k) copied)
    (hsize : bytes.size = Snapshot.chunkSize)
    (hread : readable (base + Snapshot.chunkSize * k) Snapshot.chunkSize →
      bytes = copy memory (base + Snapshot.chunkSize * k) Snapshot.chunkSize)
    (hdenied : ¬ readable (base + Snapshot.chunkSize * k) Snapshot.chunkSize →
      bytes = zeros Snapshot.chunkSize) :
    Shows memory readable base (Snapshot.chunkSize * (k + 1)) (copied ++ bytes) := by
  -- What lies behind the copied chunks lies in chunk `k`.
  have hchunk : ∀ o, Snapshot.chunkSize * k ≤ o → o < Snapshot.chunkSize * (k + 1) →
      o / Snapshot.chunkSize = k := fun o hle hlt =>
    Nat.div_eq_of_lt_le (by rwa [Nat.mul_comm]) (by rwa [Nat.mul_comm])
  rw [Nat.mul_succ] at hchunk ⊢
  constructor
  · rw [ByteArray.size_append, hc.size_eq, hsize]
  · intro o ho hreadable
    rw [byte_append, hc.size_eq]
    by_cases hbefore : o < Snapshot.chunkSize * k
    · rw [if_pos hbefore, hc.shown o hbefore hreadable]
    · rw [ChunkReadable, hchunk o (by omega) ho] at hreadable
      rw [if_neg hbefore, hread hreadable, byte_copy (by omega)]
      congr 1
      omega
  · intro o ho hhidden
    rw [byte_append, hc.size_eq]
    by_cases hbefore : o < Snapshot.chunkSize * k
    · rw [if_pos hbefore, hc.hidden o hbefore hhidden]
    · rw [ChunkReadable, hchunk o (by omega) ho] at hhidden
      rw [if_neg hbefore, hdenied hhidden, byte_zeros]

theorem Shows.copyChunk (hs : Still memory readable stays) (hh : Steady stays h)
    (hc : Shows memory readable base (Snapshot.chunkSize * k) copied) :
    ∃ bytes h', Snapshot.copyChunk h (base + Snapshot.chunkSize * k) = (bytes, h') ∧ Steady stays h' ∧
      Shows memory readable base (Snapshot.chunkSize * (k + 1)) (copied ++ bytes) := by
  rw [Snapshot.copyChunk]
  by_cases hr : readable (base + Snapshot.chunkSize * k) Snapshot.chunkSize
  · obtain ⟨h', hread, hh'⟩ := hh.read_ok hs hr
    rw [hread]
    exact ⟨_, h', rfl, hh', hc.append size_copy (fun _ => rfl) (absurd hr)⟩
  · obtain ⟨a, n, h', hread, hh'⟩ := hh.read_error hs hr
    rw [hread]
    exact ⟨_, h', rfl, hh', hc.append (size_zeros _) (absurd · hr) fun _ => rfl⟩

theorem Shows.copyChunks (hs : Still memory readable stays) (hh : Steady stays h)
    (hc : Shows memory readable base (Snapshot.chunkSize * k) copied) (count : Nat) :
    ∃ image h', Snapshot.copyChunks h (base + Snapshot.chunkSize * k) copied count = (image, h') ∧
      Steady stays h' ∧ Shows memory readable base (Snapshot.chunkSize * (k + count)) image := by
  induction count generalizing h k copied with
  | zero => exact ⟨copied, h, rfl, hh, hc⟩
  | succ count ih =>
    obtain ⟨bytes, h₁, hchunk, hh₁, hc₁⟩ := hc.copyChunk hs hh
    obtain ⟨image, h', hrest, hh', hc'⟩ := ih hh₁ hc₁
    refine ⟨image, h', ?_, hh', by rwa [Nat.add_right_comm] at hc'⟩
    rw [Snapshot.copyChunks, hchunk]
    rwa [Nat.mul_succ, ← Nat.add_assoc] at hrest

theorem shows_copy (hs : Still memory readable stays) (hh : Steady stays h) (base : Nat) :
    ∃ image h', Snapshot.copy h base = (image, h') ∧ Steady stays h' ∧
      Shows memory readable base rdramSize image := by
  have hnone : Shows memory readable base (Snapshot.chunkSize * 0) (ByteArray.emptyWithCapacity rdramSize) :=
    ⟨rfl, nofun, nofun⟩
  obtain ⟨image, h', hcopy, hh', hc⟩ := hnone.copyChunks hs hh (rdramSize / Snapshot.chunkSize)
  exact ⟨image, h', hcopy, hh', hc⟩

theorem Taken.shows {s : Snapshot} {h' : Handle σ} (hs : Still memory readable stays) (hh : Steady stays h)
    (htaken : Taken h base s h') :
    s.base = base ∧ Steady stays h' ∧ Shows memory readable base rdramSize s.image := by
  obtain ⟨image, h₁, hcopy, hh₁, hshows⟩ := shows_copy hs hh base
  cases htaken with
  | first =>
    rw [Snapshot.start, hcopy]
    exact ⟨rfl, hh₁, hshows⟩
  | anew s at_base =>
    subst at_base
    rw [Snapshot.refresh, if_pos hh.connected, hcopy]
    dsimp only
    rw [if_pos hh₁.connected]
    exact ⟨rfl, hh₁, hshows⟩

end Snapshot

section Reads

variable {σ : Type} [ProcessMemory σ]
variable {memory : Nat → UInt8} {readable : Nat → Nat → Prop} {stays : σ → Prop} {h : Handle σ}
variable {base length : Nat} {address : UInt32} {s : Snapshot}

theorem RamView.readBytes_snapshot (hshows : Shows memory readable base rdramSize s.image)
    (hcovered : Covered readable base address length) :
    (RamView.snapshot s).readBytes h address length =
      (⟨around (fun o => memory (base + o)) (View.offsetOf address) length, none⟩, h) := by
  rw [RamView.readBytes, RamView.pick_spans hshows.size_eq]
  rw [View.around_congr (g := fun o => memory (base + o)) fun i hi =>
    hshows.shown _ (Nat.mod_lt _ (by decide)) (hcovered i hi)]

theorem RamView.readBytes_direct_cases (hs : Still memory readable stays) (hh : Steady stays h) (base : Nat)
    (address : UInt32) (length : Nat) :
    (∃ r e h', (RamView.direct base).readBytes h address length = (⟨r, some e⟩, h') ∧
        ∃ q ∈ View.spans address length, ¬ readable (base + q.offset) q.length) ∨
      ∃ h', (RamView.direct base).readBytes h address length =
        (⟨around (fun o => memory (base + o)) (View.offsetOf address) length, none⟩, h') := by
  have hcases := RamView.readSpans_cases hs hh base ByteArray.empty (View.spans address length)
  rwa [ByteArray.empty_append, View.spans, View.gather_spansFrom _ (View.offsetOf_lt address)] at hcases

private theorem RamView.refines_readAs (hs : Still memory readable stays) (hh : Steady stays h)
    (hshows : Shows memory readable base rdramSize s.image)
    (hcovered : Covered readable base address length) {α : Type} (value : ByteArray → α) :
    Refines ((RamView.direct base).readAs h address length value).1
      ((RamView.snapshot s).readAs h address length value).1 := by
  intro v hv
  rw [RamView.readAs, RamView.readBytes_snapshot hshows hcovered]
  rw [RamView.readAs] at hv
  rcases RamView.readBytes_direct_cases hs hh base address length with ⟨r, e, h', hread, -⟩ | ⟨h', hread⟩
  · rw [hread] at hv
    cases hv
  · rw [hread] at hv
    exact hv

private theorem RamView.coincide_readAs (hs : Still memory readable stays) (hh : Steady stays h)
    (hshows : Shows memory readable base rdramSize s.image)
    (hall : ∀ o n, o + n ≤ rdramSize → readable (base + o) n) {α : Type} (value : ByteArray → α) :
    Coincide ((RamView.direct base).readAs h address length value).1
      ((RamView.snapshot s).readAs h address length value).1 := by
  have hcovered : Covered readable base address length := by
    intro i hi
    refine hall _ _ ?_
    have hlt : (View.offsetOf address + i) % rdramSize < rdramSize := Nat.mod_lt _ (by decide)
    rw [show rdramSize = 0x800000 from rfl] at hlt ⊢
    rw [show Snapshot.chunkSize = 0x10000 from rfl]
    omega
  rw [RamView.readAs, RamView.readAs, RamView.readBytes_snapshot hshows hcovered]
  rcases RamView.readBytes_direct_cases hs hh base address length with ⟨r, e, h', hread, q, hq, hdenied⟩ | ⟨h', hread⟩
  · exact absurd (hall _ _ (View.bound_of_mem_spansFrom hq)) hdenied
  · rw [hread]
    exact ⟨_, rfl, rfl⟩

theorem TiersRelated.of_readAs {R : ∀ {α : Type}, Except AccessError α → Except AccessError α → Prop}
    {covered : UInt32 → Nat → Prop}
    (hR : ∀ {α : Type} (value : ByteArray → α) address length, covered address length →
      R ((RamView.direct base).readAs h address length value).1
        ((RamView.snapshot s).readAs h address length value).1) :
    TiersRelated R covered base s h where
  readBytes address length hcovered := by
    have hid := hR id address length hcovered
    rwa [RamView.readAs, RamView.readAs, Except.map_id] at hid
  read8 address hcovered := hR _ address 1 hcovered
  read16 address hcovered := hR _ address 2 hcovered
  read32 address hcovered := hR _ address 4 hcovered

/-- A snapshot of a process that holds still shows what can be read. Direct reads in chunks that it shows
answer as it does or fail, and do not fail where everything can be read. -/
theorem Taken.reflects {h' : Handle σ} (hs : Still memory readable stays) (hc : h.connected = true)
    (ht : stays h.target) (htaken : Taken h base s h') :
    Shows memory readable base rdramSize s.image ∧ Steady stays h' ∧
      ∀ later : Handle σ, Steady stays later →
        TiersRelated Refines (Covered readable base) base s later ∧
          ((∀ o n, o + n ≤ rdramSize → readable (base + o) n) →
            TiersRelated Coincide (fun _ _ => True) base s later) := by
  obtain ⟨-, hh', hshows⟩ := htaken.shows hs ⟨hc, ht⟩
  refine ⟨hshows, hh', fun later hlater => ⟨.of_readAs ?_, fun hall => .of_readAs ?_⟩⟩
  · exact fun value address length hcovered => RamView.refines_readAs hs hlater hshows hcovered value
  · exact fun value address length _ => RamView.coincide_readAs hs hlater hshows hall value

end Reads

def lowerHalf (base : Nat) : ImageRegion :=
  ⟨base, .readWrite, none, copy (fun i => UInt8.ofNat (i + 1)) 0 0x400000⟩

theorem memory_lowerHalf {base i : Nat} (hi : i < 0x400000) :
    (lowerHalf base).memory (base + i) = UInt8.ofNat (i + 1) := by
  have hbytes : (lowerHalf base).bytes = copy (fun i => UInt8.ofNat (i + 1)) 0 0x400000 := rfl
  exact ImageRegion.memory_of_copy hbytes hi

theorem chunkReadable_lowerHalf {base o : Nat} :
    ChunkReadable (fun address length => (lowerHalf base).describe.base ≤ address ∧
      address + length ≤ (lowerHalf base).describe.limit) base o ↔ o < 0x400000 := by
  have hlimit : (lowerHalf base).describe.limit = base + 0x400000 := by
    rw [Region.limit, ImageRegion.describe, lowerHalf, size_copy]
  have hbase : (lowerHalf base).describe.base = base := rfl
  have hsize : Snapshot.chunkSize = 0x10000 := rfl
  rw [ChunkReadable, hlimit, hbase, hsize]
  omega

def halfMapped : Handle ImageProcess := attach 1 ⟨[lowerHalf 0x50000000], false⟩

theorem reflects_halfMapped :
    byte (Snapshot.start halfMapped 0x50000000).1.image 5 = 6 ∧
      byte (Snapshot.start halfMapped 0x50000000).1.image 0x400000 = 0 ∧
      Refines ((RamView.direct 0x50000000).read32 halfMapped 0x80000004).1
        ((RamView.snapshot (Snapshot.start halfMapped 0x50000000).1).read32 halfMapped 0x80000004).1 := by
  obtain ⟨hshows, -, hlater⟩ := Taken.reflects ((lowerHalf 0x50000000).still rfl) rfl rfl
    (.first : Taken halfMapped 0x50000000 _ _)
  refine ⟨?_, ?_, (hlater halfMapped ⟨rfl, rfl⟩).1.read32 0x80000004 fun i hi => ?_⟩
  · rw [hshows.shown 5 (by decide) (chunkReadable_lowerHalf.mpr (by decide)), memory_lowerHalf (by decide)]
    rfl
  · exact hshows.hidden 0x400000 (by decide) fun hchunk =>
      absurd (chunkReadable_lowerHalf.mp hchunk) (Nat.lt_irrefl _)
  · have hoffset : View.offsetOf 0x80000004 = 4 := by decide
    rw [chunkReadable_lowerHalf, hoffset, Nat.mod_eq_of_lt (by rw [Bus.rdramSize]; omega)]
    omega

end ConsoleBridge
