import ConsoleBridge.Proofs.Bytes.Storage
import ConsoleBridge.View.Basic

/-!
# Reading around the end of main memory

The pieces that a range of addresses takes lie in main memory, and their bytes one behind the other are
those from the first offset on, taken around the end.
-/
namespace ConsoleBridge

open Bytes
open Bus (rdramSize)

/-- The bytes of some pieces, one behind the other. -/
def gather (f : Nat → UInt8) : List View.Span → ByteArray
  | [] => ByteArray.empty
  | s :: rest => copy f s.offset s.length ++ gather f rest

/-- The bytes from an offset on, which go on at the beginning behind the end of main memory. -/
def around (f : Nat → UInt8) (offset length : Nat) : ByteArray :=
  copy (fun i => f ((offset + i) % rdramSize)) 0 length

namespace View

variable {f g : Nat → UInt8} {offset length : Nat} {s : Span}

theorem size_around : (around f offset length).size = length := size_copy

theorem byte_around {i : Nat} (hi : i < length) :
    byte (around f offset length) i = f ((offset + i) % rdramSize) := by
  rw [around, byte_copy hi, Nat.zero_add]

theorem around_congr (hfg : ∀ i < length, f ((offset + i) % rdramSize) = g ((offset + i) % rdramSize)) :
    around f offset length = around g offset length := by
  refine ext_byte (size_around.trans size_around.symm) fun i hi => ?_
  rw [size_around] at hi
  rw [byte_around hi, byte_around hi, hfg i hi]

/-- What is read around the end comes in two parts. -/
theorem around_split {take : Nat} (ho : offset + take ≤ rdramSize) (ht : take ≤ length)
    (hwrap : take < length → offset + take = rdramSize) :
    around f offset length = copy f offset take ++ around f 0 (length - take) := by
  refine ext_byte ?_ fun i hi => ?_
  · rw [ByteArray.size_append, size_around, size_around, size_copy]
    omega
  · rw [size_around] at hi
    rw [byte_around hi, byte_append, size_copy]
    by_cases hfront : i < take
    · rw [if_pos hfront, byte_copy hfront, Nat.mod_eq_of_lt (by omega)]
    · -- There is a second part only where the first ends with main memory.
      have hend := hwrap (by omega)
      rw [if_neg hfront, byte_around (by omega), show offset + i = rdramSize + (0 + (i - take)) by omega,
        Nat.add_mod_left]

theorem offsetOf_lt (address : UInt32) : offsetOf address < rdramSize := Nat.mod_lt _ (by decide)

/-- Every piece lies in main memory. -/
theorem bound_of_mem_spansFrom (hs : s ∈ spansFrom offset length) : s.offset + s.length ≤ rdramSize := by
  fun_induction spansFrom offset length with
  | case1 => cases hs
  | case2 offset length hpos take ih =>
    rcases List.mem_cons.mp hs with rfl | hs
    · dsimp only [take]
      omega
    · exact ih hs

/-- The pieces make up what is read around the end. -/
theorem gather_spansFrom (f : Nat → UInt8) (ho : offset < rdramSize) :
    gather f (spansFrom offset length) = around f offset length := by
  fun_induction spansFrom offset length with
  | case1 offset length hnone =>
    obtain rfl : length = 0 := by omega
    rfl
  | case2 offset length hpos take ih =>
    have hfirst : offset + take ≤ rdramSize ∧ take ≤ length ∧ (take < length → offset + take = rdramSize) := by
      dsimp only [take]
      omega
    rw [gather, ih (by decide)]
    exact (around_split hfirst.1 hfirst.2.1 hfirst.2.2).symm

end View

namespace RamView

variable {image : ByteArray} {spans : List View.Span}

private theorem foldl_pick (image acc : ByteArray) (spans : List View.Span) :
    spans.foldl (fun acc s => acc ++ image.extract s.offset (s.offset + s.length)) acc =
      acc ++ pick image spans := by
  induction spans generalizing acc with
  | nil => exact ByteArray.append_empty.symm
  | cons s rest ih => rw [pick, List.foldl_cons, List.foldl_cons, ih, ih, ByteArray.empty_append,
      ByteArray.append_assoc]

theorem pick_cons (image : ByteArray) (s : View.Span) (rest : List View.Span) :
    pick image (s :: rest) = image.extract s.offset (s.offset + s.length) ++ pick image rest := by
  rw [pick, List.foldl_cons, foldl_pick, ByteArray.empty_append]

private theorem pick_eq_gather (hspans : ∀ s ∈ spans, s.offset + s.length ≤ image.size) :
    pick image spans = gather (byte image) spans := by
  induction spans with
  | nil => rfl
  | cons s rest ih =>
    obtain ⟨hs, hrest⟩ := List.forall_mem_cons.mp hspans
    rw [pick_cons, Bytes.extract_eq_copy image s.offset hs, ih hrest, gather]

/-- What a read gathers from an image is what the image holds around its end. -/
theorem pick_spans (hsize : image.size = Bus.rdramSize) (address : UInt32) (length : Nat) :
    pick image (View.spans address length) = around (byte image) (View.offsetOf address) length := by
  have hspans : ∀ q ∈ View.spans address length, q.offset + q.length ≤ image.size := by
    rw [hsize]
    exact fun q => View.bound_of_mem_spansFrom
  rw [pick_eq_gather hspans, View.spans, View.gather_spansFrom _ (View.offsetOf_lt address)]

end RamView

end ConsoleBridge
