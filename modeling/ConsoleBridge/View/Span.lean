import ConsoleBridge.Bus.Layout

/-! # Where a console's addresses lie in an image of main memory

Main memory repeats through the whole address space, so a range of addresses that runs over the end of
the image goes on at its beginning. -/
namespace ConsoleBridge.View

def offsetOf (address : UInt32) : Nat := address.toNat % Bus.rdramSize

def foreignAddress (base : Nat) (address : UInt32) : Nat := base + offsetOf address

/-- A piece of the image. -/
structure Span where
  offset : Nat
  length : Nat
  deriving DecidableEq, Repr, Inhabited

/-- The pieces that `length` bytes from `offset` on take, in order. -/
def spansFrom (offset length : Nat) : List Span :=
  if length = 0 ∨ Bus.rdramSize ≤ offset then []
  else
    let take := min length (Bus.rdramSize - offset)
    ⟨offset, take⟩ :: spansFrom 0 (length - take)
termination_by length
decreasing_by omega

def spans (address : UInt32) (length : Nat) : List Span := spansFrom (offsetOf address) length

end ConsoleBridge.View
