import ConsoleBridge.Proofs.Bus.ByteRuns
import ConsoleBridge.Proofs.Process.ImageMemory
import ConsoleBridge.Proofs.View.Tiers

/-!
# A console's main memory seen from outside

Where a process exposes the main memory of a console, a view of it and the console's own bus read the same bytes.
A view takes bytes as they lie, the first one most significant; the bus counts lanes from the least significant
byte of a word. So the address of a byte is flipped within its word and that of a halfword likewise.
-/
namespace ConsoleBridge

open Bytes Handle Bus

section Exposed

variable {σ : Type} [ProcessMemory σ]

/-- The process has the image at `base`: in the states `stays`, which no read inside the image leaves, such a read
brings the bytes of the image. -/
structure Exposed (image : ByteArray) (base : Nat) (stays : σ → Prop) : Prop where
  stays_read : ∀ s, stays s → ∀ o n, o + n ≤ image.size → stays (ProcessMemory.read s (base + o) n).2
  brings : ∀ s, stays s → ∀ o n, o + n ≤ image.size →
    (ProcessMemory.read s (base + o) n).1 = .ok (image.extract o (o + n))

variable {image : ByteArray} {base : Nat} {stays : σ → Prop} {h : Handle σ}

theorem Exposed.read_ok (he : Exposed image base stays) (hh : Steady stays h) {o n : Nat} (ho : o + n ≤ image.size) :
    ∃ h', h.read (base + o) n = (.ok (image.extract o (o + n)), h') ∧ Steady stays h' := by
  have hbrings := he.brings h.target hh.target o n ho
  have hstays := he.stays_read h.target hh.target o n ho
  rcases hread : ProcessMemory.read h.target (base + o) n with ⟨r, t⟩
  rw [hread] at hbrings hstays
  obtain rfl : r = .ok (image.extract o (o + n)) := hbrings
  exact ⟨{ h with target := t }, call_of_answer hh.connected hread nofun, hh.connected, hstays⟩

/-- Pieces of the image are read as they lie in it. -/
theorem Exposed.readSpans (he : Exposed image base stays) (hh : Steady stays h) (acc : ByteArray)
    {spans : List View.Span} (hspans : ∀ s ∈ spans, s.offset + s.length ≤ image.size) :
    ∃ h', RamView.readSpans h base acc spans = (⟨acc ++ RamView.pick image spans, none⟩, h') := by
  induction spans generalizing h acc with
  | nil => exact ⟨h, by rw [RamView.readSpans, RamView.pick, List.foldl_nil, ByteArray.append_empty]⟩
  | cons s rest ih =>
    obtain ⟨hs, hrest⟩ := List.forall_mem_cons.mp hspans
    obtain ⟨h₁, hread, hh₁⟩ := he.read_ok hh hs
    obtain ⟨h', hall⟩ := ih hh₁ (acc ++ image.extract s.offset (s.offset + s.length)) hrest
    refine ⟨h', ?_⟩
    rw [RamView.readSpans, hread]
    dsimp only
    rw [hall, RamView.pick_cons, ByteArray.append_assoc]

/-- Chunks of the image are copied one behind the other. -/
theorem Exposed.copyChunks (he : Exposed image base stays) (hh : Steady stays h) {count k : Nat}
    (hk : Snapshot.chunkSize * (k + count) ≤ image.size) :
    ∃ h', Snapshot.copyChunks h (base + Snapshot.chunkSize * k) (image.extract 0 (Snapshot.chunkSize * k)) count =
        (image.extract 0 (Snapshot.chunkSize * (k + count)), h') ∧ Steady stays h' := by
  induction count generalizing h k with
  | zero => exact ⟨h, rfl, hh⟩
  | succ count ih =>
    have hchunk : Snapshot.chunkSize * k + Snapshot.chunkSize ≤ image.size := by
      rw [show Snapshot.chunkSize = 0x10000 from rfl] at hk ⊢
      omega
    obtain ⟨h₁, hread, hh₁⟩ := he.read_ok hh hchunk
    obtain ⟨h', hrest, hh'⟩ := ih (k := k + 1) hh₁ (by rwa [Nat.add_right_comm])
    have hfront : image.extract 0 (Snapshot.chunkSize * k) ++
        image.extract (Snapshot.chunkSize * k) (Snapshot.chunkSize * k + Snapshot.chunkSize) =
          image.extract 0 (Snapshot.chunkSize * (k + 1)) := by
      rw [ByteArray.extract_append_extract, Nat.min_eq_left (Nat.zero_le _), Nat.max_eq_right (Nat.le_add_right ..),
        Nat.mul_succ]
    have hcopied : Snapshot.copyChunk h (base + Snapshot.chunkSize * k) =
        (image.extract (Snapshot.chunkSize * k) (Snapshot.chunkSize * k + Snapshot.chunkSize), h₁) := by
      rw [Snapshot.copyChunk, hread]
    refine ⟨h', ?_, hh'⟩
    rw [Snapshot.copyChunks, hcopied]
    rwa [← hfront, Nat.mul_succ, ← Nat.add_assoc, Nat.add_right_comm k] at hrest

theorem Exposed.copy_eq (he : Exposed image base stays) (hh : Steady stays h) (hsize : image.size = rdramSize) :
    ∃ h', Snapshot.copy h base = (image, h') ∧ Steady stays h' := by
  have hall : Snapshot.chunkSize * (0 + rdramSize / Snapshot.chunkSize) = image.size := hsize.symm
  obtain ⟨h', hcopy, hh'⟩ := he.copyChunks hh (Nat.le_of_eq hall)
  have hnone : image.extract 0 (Snapshot.chunkSize * 0) = ByteArray.emptyWithCapacity rdramSize := by
    rw [Nat.mul_zero]
    exact ByteArray.extract_same
  rw [hall, ByteArray.extract_zero_size, hnone] at hcopy
  exact ⟨h', hcopy, hh'⟩

/-- A snapshot of the process holds the image. -/
theorem Exposed.taken (he : Exposed image base stays) (hh : Steady stays h) (hsize : image.size = rdramSize)
    {s : Snapshot} {h' : Handle σ} (htaken : Taken h base s h') : s.image = image ∧ Steady stays h' := by
  obtain ⟨h₁, hcopy, hh₁⟩ := he.copy_eq hh hsize
  cases htaken with
  | first =>
    rw [Snapshot.start, hcopy]
    exact ⟨rfl, hh₁⟩
  | anew s at_base =>
    subst at_base
    rw [Snapshot.refresh, if_pos hh.connected, hcopy]
    dsimp only
    rw [if_pos hh₁.connected]
    exact ⟨rfl, hh₁⟩

/-- Whatever is read through the view is what the image holds around its end. -/
def RamView.Brings (view : RamView) (h : Handle σ) (image : ByteArray) : Prop :=
  ∀ address length,
    (view.readBytes h address length).1 = ⟨around (byte image) (View.offsetOf address) length, none⟩

theorem Snapshot.brings {s : Snapshot} (hsize : s.image.size = rdramSize) (h : Handle σ) :
    (RamView.snapshot s).Brings h s.image := by
  intro address length
  rw [RamView.readBytes, RamView.pick_spans hsize]

end Exposed

namespace Console

variable {c : Console} {a : UInt32} {i n : Nat}

section

variable (hs : c.rdram.size = rdramSize)
include hs

end

end Console

namespace RamView

variable {σ : Type} [ProcessMemory σ]

variable {view : RamView} {h : Handle σ} {c : Console}

theorem Brings.readAs {image : ByteArray} (hb : view.Brings h image) {α : Type} (a : UInt32) (n : Nat)
    (value : ByteArray → α) :
    (view.readAs h a n value).1 = .ok (value (around (byte image) (View.offsetOf a) n)) := by
  rw [RamView.readAs]
  dsimp only
  rw [hb a n]
  rfl

end RamView

end ConsoleBridge
