import ComponentDecl.Pass.Failure

/-! # Events of a pass

    What a pass reports while it runs. -/

namespace ComponentDecl

/-- How much an event matters. -/
inductive Level where
  | debug
  | info
  | warning
  deriving DecidableEq, Repr

/-- The word for a level. -/
def Level.word : Level → String
  | .debug => "debug"
  | .info => "info"
  | .warning => "warning"

/-- The value of an event's field. -/
inductive FieldValue where
  | absent
  | text (s : String)
  | count (n : Nat)
  | flag (b : Bool)
  deriving DecidableEq, Repr

/-- An optional text as the value of a field. -/
def FieldValue.ofOption : Option String → FieldValue
  | none => .absent
  | some s => .text s

/-- What a pass reports. -/
inductive Event where
  /-- The base class keeps its type arguments. -/
  | argumentsKept (className : String) (count : Nat) (base : String)
  /-- The default export became an ambient class. -/
  | normalized (className : String)
  /-- The helper's types were taken and the helper removed. -/
  | typesExtracted (helper : String)
  /-- The namespace was added. -/
  | namespaceBuilt (name : String)
  /-- The props have no members to document. -/
  | propsWithoutMembers (name : String) (type : Option String)
  /-- Comments were put above props. -/
  | commentsReattached (name : String) (count : Nat)
  /-- The loose aliases were removed and the class exported. -/
  | exportsReplaced (removed : Nat)
  /-- The pass failed. -/
  | failed (path : Option String) (failure : Failure) (rolledBack : Bool)
  /-- The pass succeeded. -/
  | processed (path : Option String) (className : String) (documented : Nat)
  deriving DecidableEq, Repr

namespace Event

/-- How much an event matters. -/
def level : Event → Level
  | .argumentsKept _ _ _ | .failed _ _ _ => .warning
  | .processed _ _ _ => .info
  | _ => .debug

/-- The headline of an event. -/
def title : Event → String
  | .argumentsKept _ _ _ => "Base type arguments left untouched"
  | .normalized _ => "Normalized default export"
  | .typesExtracted _ => "Extracted structural types"
  | .namespaceBuilt _ => "Built namespace"
  | .propsWithoutMembers _ _ => "Props type is not an object type literal; skipping doc comments"
  | .commentsReattached _ _ => "Reattached prop comments"
  | .exportsReplaced _ => "Rewrote exports"
  | .failed _ _ _ => "Declaration post-processing failed"
  | .processed _ _ _ => "Post-processed component declaration"

/-- The details of an event. -/
def fields : Event → List (String × FieldValue)
  | .argumentsKept className count base =>
    [("class_name", .text className), ("count", .count count), ("base", .text base)]
  | .normalized className => [("class_name", .text className)]
  | .typesExtracted helper => [("helper", .text helper)]
  | .namespaceBuilt name => [("namespace", .text name)]
  | .propsWithoutMembers name type => [("namespace", .text name), ("type", .ofOption type)]
  | .commentsReattached name count => [("namespace", .text name), ("count", .count count)]
  | .exportsReplaced removed => [("removed_aliases", .count removed)]
  | .failed path failure rolledBack =>
    [("path", .ofOption path), ("kind", .text failure.word), ("node", .ofOption failure.node),
      ("error", .text failure.message), ("rolled_back", .flag rolledBack)]
  | .processed path className documented =>
    [("path", .ofOption path), ("class_name", .text className),
      ("documented_props", .count documented)]

end Event

end ComponentDecl
