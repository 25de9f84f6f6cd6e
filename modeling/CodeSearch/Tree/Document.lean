import CodeSearch.Data.Value
import CodeSearch.Tree.Outline

/-! # Trees as documents

A tree is written as its outline. An entry lists the depth of a node, its kind, the bytes it
covers, a number for its flags, and the field it stands in, if it stands in one.
-/

namespace CodeSearch

namespace Label

/-- The number of some flags, each of which has its own power of two. -/
def flags (l : Label) : Nat :=
  l.named.toNat + 2 * l.missing.toNat + 4 * l.error.toNat + 8 * l.extra.toNat

/-- Whether a flag is among those of a number. -/
def hasFlag (flag flags : Nat) : Bool := flags / flag % 2 = 1

/-- The field at the end of an entry. -/
def field? : List Value → Option (Option String)
  | [] => some none
  | [.text s] => some (some s)
  | _ => none

def ofValue? : Value → Option (Nat × Label)
  | .list (depth :: kind :: start :: stop :: flags :: rest) => do
    let flags ← flags.word?
    some (← depth.word?,
      { kind := ← kind.text?, span := ⟨← start.word?, ← stop.word?⟩
        named := hasFlag 1 flags, missing := hasFlag 2 flags, error := hasFlag 4 flags
        extra := hasFlag 8 flags, field := ← field? rest })
  | _ => none

def toValue (depth : Nat) (l : Label) : Value :=
  .list ([.integer depth, .text l.kind, .integer l.span.start, .integer l.span.stop,
    .integer l.flags] ++ (l.field.map Value.text).toList)

theorem hasFlag_flags (l : Label) :
    (hasFlag 1 l.flags, hasFlag 2 l.flags, hasFlag 4 l.flags, hasFlag 8 l.flags) =
      (l.named, l.missing, l.error, l.extra) := by
  obtain ⟨_, _, named, missing, error, extra, _⟩ := l
  cases named <;> cases missing <;> cases error <;> cases extra <;> simp [hasFlag, flags]

theorem field?_toList (field : Option String) :
    field? (field.map Value.text).toList = some field := by
  cases field <;> rfl

/-- What is written of a label is read back, if its numbers are words. -/
theorem ofValue?_toValue {depth : Nat} {l : Label} (hd : depth < wordSize)
    (hs : l.span.start < wordSize) (he : l.span.stop < wordSize) :
    ofValue? (l.toValue depth) = some (depth, l) := by
  have hf : l.flags < wordSize := by
    simp only [flags, wordSize]
    have := Bool.toNat_le l.named
    have := Bool.toNat_le l.missing
    have := Bool.toNat_le l.error
    have := Bool.toNat_le l.extra
    omega
  have flagged := hasFlag_flags l
  simp only [Prod.mk.injEq] at flagged
  simp [toValue, ofValue?, Value.word?_integer, hd, hs, he, hf, flagged, Value.text?,
    field?_toList]

end Label

namespace Tree

def ofValue? (v : Value) : Option Tree := (Value.list? Label.ofValue? v).bind ofOutline?

def toValue (t : Tree) : Value := .list ((t.outline 0).map fun (depth, l) => l.toValue depth)

end Tree

end CodeSearch
