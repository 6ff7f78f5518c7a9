/-
MultiHop/Query/Trail.lean

Comparing a payload with a shape along one path text.  The text tells where the comparison is:
the position of an item is written at its end before the item is inspected, and cut off again
once the item fits.  What does not fit is worded on the spot, with the text as it stands then,
and the text is left as it is.
-/
import MultiHop.Query.Kind
import MultiHop.Query.Payload

namespace MultiHop

namespace Payload

/-- The first `length` characters of a trail. -/
def cut (length : Nat) (trail : String) : String := String.ofList (trail.toList.take length)

mutual

/-- Inspects a payload at the place that `trail` names: how that ends, and the trail as it is
afterwards. -/
def inspect (trail : String) : Shape → Payload → Except String Unit × String
  | .symbol s, p =>
    if standsAt s p then (.ok (), trail)
    else (.error (Departure.message trail (.symbol s p)), trail)
  | .tuple shapes, .tuple items =>
    if shapes.length = items.length then inspectAll trail 0 shapes items
    else (.error (Departure.message trail (.arity shapes.length items.length)), trail)
  | .tuple shapes, .name s =>
    (.error (Departure.message trail (.notTuple shapes.length s)), trail)

/-- The same for the items of a tuple, from the one at `position` on. -/
def inspectAll (trail : String) (position : Nat) :
    List Shape → List Payload → Except String Unit × String
  | shape :: shapes, item :: items =>
    match inspect (trail ++ "[" ++ toString position ++ "]") shape item with
    | (.ok (), further) => inspectAll (cut trail.length further) (position + 1) shapes items
    | (.error wording, further) => (.error wording, further)
  | _, _ => (.ok (), trail)

end

end Payload

/-- Refuses a payload that is not laid out like the queries of a kind, in words. -/
def QueryKind.check (kind : QueryKind) (p : Payload) : Except String Unit :=
  match (Payload.inspect "query" kind.shape p).1 with
  | .ok () => .ok ()
  | .error wording => .error ("Malformed query: " ++ kind.tag ++ ": " ++ wording)

end MultiHop
