/-!
# Labels

A label names a place in the code.  A named label is given by the program, a
generated one is made up by a pass and is written with a leading dot.

Labels are linearly ordered, named ones first.
-/

namespace Lowering

/-- A symbolic code address. -/
inductive Label where
  /-- A label with a fixed name, such as the entry of a function. -/
  | named (name : String)
  /-- A label that a pass made up. -/
  | generated (id : Nat)
  deriving DecidableEq, Repr, Inhabited

namespace Label

/-- The written form: the name itself, or `.L3` for a generated label. -/
def text : Label → String
  | named name => name
  | generated id => ".L" ++ toString id

/-- Named labels come before generated ones. -/
protected def order : Label → Label → Ordering
  | named a, named b => compare a b
  | named _, generated _ => .lt
  | generated _, named _ => .gt
  | generated a, generated b => compare a b

instance : Ord Label := ⟨Label.order⟩

/-- Order for sorting a list of labels. -/
def le (a b : Label) : Bool := (compare a b).isLE

end Label

end Lowering
