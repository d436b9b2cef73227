/-! Sets of characters, given as spans of code points. -/

namespace Versioning.Text

/-- A set of characters: the first and the last code point of each of its spans. -/
abbrev Spans := List (Nat × Nat)

/-- Whether a span holds the character. -/
def Spans.covers (spans : Spans) (c : Char) : Bool :=
  spans.any fun (first, last) => first ≤ c.toNat && c.toNat ≤ last

end Versioning.Text
