import CodeSearch.Language
import CodeSearch.Tree.Pattern

/-! # Constructs in a tree

One pattern for each sort of construct says which nodes stand for it and where its name
is to be found.
-/

namespace CodeSearch

namespace Query

/-- A node without any demands on its children. -/
def any (kind : String) : Pattern := .node kind []

def function : Pattern :=
  .node "function_definition" [("declarator", .capture .functionDeclarator .named)]

def classDefinition : Pattern :=
  .node "class_specifier"
    [("name", .capture .className (any "type_identifier")), ("body", any "field_declaration_list")]

/-- A struct with a name and a body, or a name given to a struct with a body. -/
def struct : Pattern :=
  .oneOf
    [.node "struct_specifier"
        [("name", .capture .structName (any "type_identifier")),
          ("body", any "field_declaration_list")],
      .node "type_definition"
        [("type", .node "struct_specifier" [("body", any "field_declaration_list")]),
          ("declarator", .capture .structAlias (any "type_identifier"))]]

def wrapping (kind : String) (inner : Pattern) : Pattern := .node kind [("declarator", inner)]

def arrayName : Pattern := .capture .arrayName (any "identifier")

/-- An array of one or two dimensions, or a pointer to an array, set to a list of values. -/
def array : Pattern :=
  wrapping "declaration" <|
    .node "init_declarator"
      [("declarator",
          .oneOf
            [wrapping "array_declarator" arrayName,
              wrapping "array_declarator" (wrapping "array_declarator" arrayName),
              wrapping "pointer_declarator" (wrapping "array_declarator" arrayName)]),
        ("value", any "initializer_list")]

def comment : Pattern := .capture .comment (any "comment")

/-- The name and the pattern of each sort of construct in a language. -/
def all (l : Language) : List (String × Pattern) :=
  [("function", function)] ++ (if l.hasClasses then [("class", classDefinition)] else []) ++
    [("struct", struct), ("array", array), ("comment", comment)]

end Query

end CodeSearch
