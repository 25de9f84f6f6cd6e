/-! # Letters without case

Lowering changes the letters from A to Z only. Folding also takes the two characters
outside ASCII that differ from an ASCII letter by case alone to that letter.
-/

namespace CodeSearch

namespace Text

/-- Lower the letters from A to Z. -/
def lower (s : String) : String := String.ofList (s.toList.map Char.toLower)

/-- The letter that a character folds to: the long s is an s and the Kelvin sign is a k. -/
def fold (c : Char) : Char :=
  if c = '\u017f' then 's' else if c = '\u212a' then 'k' else c.toLower

/-- The lower case of a character as far as it decides equality with an ASCII text. Of all
other characters the Kelvin sign alone has an ASCII letter as its lower case. -/
def lowerChar (c : Char) : Char := if c = '\u212a' then 'k' else c.toLower

end Text

end CodeSearch
