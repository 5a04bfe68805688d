import ComponentDecl.DocComment

/-! # The namespace of a component

    A component's namespace holds three type aliases, one for each thing that
    its helper variable describes: props, events and slots. -/

namespace ComponentDecl

/-- The three aliases, in the order of the base class's type arguments. -/
inductive AliasKind where
  | props
  | events
  | slots
  deriving DecidableEq, Repr

namespace AliasKind

/-- All aliases in order. -/
def all : List AliasKind := [.props, .events, .slots]

/-- The name of the alias. -/
def name : AliasKind → String
  | .props => "Props"
  | .events => "Events"
  | .slots => "Slots"

/-- The name of the member of the helper's type. -/
def member : AliasKind → String
  | .props => "props"
  | .events => "events"
  | .slots => "slots"

/-- What the alias's doc comment says. -/
def description (k : AliasKind) (className : String) : String :=
  k.name ++ " type alias for \x7b@link " ++ className ++ "\x7d."

end AliasKind

/-- The type texts taken from the helper variable. -/
structure CapturedTypes where
  props : String
  events : String
  slots : String
  deriving DecidableEq, Repr

/-- The type text of an alias. -/
def CapturedTypes.get (types : CapturedTypes) : AliasKind → String
  | .props => types.props
  | .events => types.events
  | .slots => types.slots

namespace Namespace

/-- What the doc comment of a component's namespace says. -/
def description (className : String) : String :=
  "Event / Prop / Slot type aliases for \x7b@link " ++ className ++ "\x7d."

/-- The lines that declare one alias. -/
def aliasLines (className : String) (types : CapturedTypes) (indent : String) (k : AliasKind) :
    List String :=
  [DocComment.render (k.description className) indent,
    indent ++ "export type " ++ k.name ++ " = " ++ types.get k ++ ";"]

/-- The declaration of a component's namespace. -/
def declaration (className : String) (types : CapturedTypes) (indent : String) : String :=
  Text.joinLines
    ([DocComment.render (description className) "",
        "declare namespace " ++ className ++ " \x7b"]
      ++ AliasKind.all.flatMap (aliasLines className types indent)
      ++ ["\x7d"])

end Namespace

end ComponentDecl
