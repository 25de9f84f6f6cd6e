import CodeSearch.Text.Letter
import CodeSearch.Text.Word

/-! # Names of test cases

A name is that of a test case if, in any case of its letters, it has a segment that opens
with `test_`, goes on with `_test_` or `_case_` after letters and underscores only, or has
`test` before a letter; and if only word characters follow.
-/

namespace CodeSearch

namespace TestName

def isLetter (c : Char) : Bool := 'a' ≤ c && c ≤ 'z'

/-- Whether a text goes on with `lit` and then word characters only. -/
def goesOn (lit cs : List Char) : Bool :=
  lit.isPrefixOf cs && (cs.drop lit.length).all Text.isWord

/-- Whether a segment opens with `test_`; the first may start here if `fresh`. -/
def hasSegment : Bool → List Char → Bool
  | _, [] => false
  | fresh, c :: cs =>
    (fresh && goesOn ['t', 'e', 's', 't', '_'] (c :: cs)) || hasSegment (c = '_') cs

/-- Whether `lit` comes after at least one letter or underscore and nothing else. -/
def hasMiddle (lit : List Char) : List Char → Bool
  | [] => false
  | c :: cs => (isLetter c || c = '_') && (goesOn lit cs || hasMiddle lit cs)

/-- Whether a text starts with `test` and a letter. -/
def startsNamed : List Char → Bool
  | 't' :: 'e' :: 's' :: 't' :: c :: cs => isLetter c && cs.all Text.isWord
  | _ => false

/-- Whether `test` comes before a letter somewhere. -/
def hasNamed : List Char → Bool
  | [] => false
  | c :: cs => startsNamed (c :: cs) || hasNamed cs

/-- Whether folded characters name a test case. -/
def accepts (cs : List Char) : Bool :=
  hasSegment true cs || hasMiddle ['_', 't', 'e', 's', 't', '_'] cs ||
    hasMiddle ['_', 'c', 'a', 's', 'e', '_'] cs || hasNamed cs

end TestName

def isTestName (name : String) : Bool := TestName.accepts (name.toList.map Text.fold)

theorem isTestName_congr {s t : String} (h : s.toList.map Text.fold = t.toList.map Text.fold) :
    isTestName s = isTestName t := by
  simp [isTestName, h]

end CodeSearch
