import RmlAlgebra.Text.Decimal

/-! # Blank node labels

In a mapping graph a blank node is written `b` and a numeral. New labels come from a supply that
counts upwards, so that labels are distinct as long as the supply starts above those in use.

A supply counts without an end. A word of 64 bits counts alike below `UInt64.size`
(`Supply.take_eq_countOff`). That limit is needed wherever new labels have to differ from those in
use, since labels in use only count below it, and is a hypothesis of every such statement.
-/

namespace RmlAlgebra

namespace Label

def ofNat (number : Nat) : String :=
  "b" ++ Nat.repr number

def digits? (term : String) : Option (List Char) :=
  match term.toList with
  | 'b' :: digits => if Text.isNumeral digits then some digits else none
  | _ => none

end Label

def isLabel (term : String) : Bool :=
  (Label.digits? term).isSome

/-- The number of a label. Numbers that need more than 64 bits are out of reach of any supply and
do not count. -/
def Label.number? (term : String) : Option Nat :=
  (Label.digits? term).bind (Text.decimalBelow? UInt64.size)

def isWebIri (term : String) : Bool :=
  "http://".toList.isPrefixOf term.toList || "https://".toList.isPrefixOf term.toList

/-- Whether a text names a node of the graph: a blank node or an IRI of the web. -/
def isNode (term : String) : Bool :=
  isLabel term || isWebIri term

/-- A supply of labels: the number of the last one that was handed out. -/
structure Supply where
  last : Nat
  deriving DecidableEq, Repr

namespace Supply

def next (supply : Supply) : String × Supply :=
  (Label.ofNat (supply.last + 1), ⟨supply.last + 1⟩)

def take : Nat → Supply → List String × Supply
  | 0, supply => ([], supply)
  | count + 1, supply =>
      let (label, supply) := supply.next
      let (labels, supply) := take count supply
      (label :: labels, supply)

end Supply

end RmlAlgebra
