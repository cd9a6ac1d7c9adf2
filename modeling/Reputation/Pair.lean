import Std.Data.ExtTreeMap

/-!
# Ordered pairs of identities

A `Pair` is an observer and the partner whom it judges. Pairs are ordered by observer and then by
partner, so a map keyed by pairs lists them in this order.
-/

namespace Reputation

/-- **An observer and its partner**, by identity. -/
structure Pair where
  observer : String
  partner : String
deriving Repr, DecidableEq, Inhabited

namespace Pair

instance : Ord Pair := ⟨compareLex (compareOn observer) (compareOn partner)⟩

theorem compare_eq (p q : Pair) :
    compare p q = (compare p.observer q.observer).then (compare p.partner q.partner) := rfl

instance : Std.TransOrd Pair :=
  inferInstanceAs (Std.TransCmp (compareLex (compareOn observer) (compareOn partner)))

instance : Std.LawfulEqOrd Pair where
  eq_of_compare {p q} h := by
    obtain ⟨o, a⟩ := p
    obtain ⟨o', a'⟩ := q
    rw [compare_eq, Ordering.then_eq_eq] at h
    have ho : o = o' := Std.LawfulEqOrd.eq_of_compare h.1
    have ha : a = a' := Std.LawfulEqOrd.eq_of_compare h.2
    rw [ho, ha]

end Pair

end Reputation
