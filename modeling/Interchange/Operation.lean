import Interchange.Schema.Basic

/-! # The operations that a type offers

Every type has a default; the other operations depend on its origin (`Operations.ofOrigin`) and on
whether a manifest holds values of it.
-/

namespace Interchange

inductive Operation
  | clone | populate | fromValue | toValue | parse
  deriving Repr, DecidableEq

def Operation.name : Operation → String
  | .clone => "Clone"
  | .populate => "Populate"
  | .fromValue => "FromValue"
  | .toValue => "ToValue"
  | .parse => "ParseFromDictionary"

/-- A set of values of `Operation`, one flag for each. -/
structure Operations where
  clone : Bool := false
  populate : Bool := false
  fromValue : Bool := false
  toValue : Bool := false
  parse : Bool := false
  deriving Repr, DecidableEq

namespace Operations

def has (s : Operations) : Operation → Bool
  | .clone => s.clone
  | .populate => s.populate
  | .fromValue => s.fromValue
  | .toValue => s.toValue
  | .parse => s.parse

def union (a b : Operations) : Operations where
  clone := a.clone || b.clone
  populate := a.populate || b.populate
  fromValue := a.fromValue || b.fromValue
  toValue := a.toValue || b.toValue
  parse := a.parse || b.parse

def ofOrigin (o : Schema.Origin) : Operations where
  clone := o.fromJson
  populate := o.fromJson
  fromValue := o.fromJson
  toValue := o.fromClient

end Operations

end Interchange
