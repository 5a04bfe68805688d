/-! # Recovered comments

    The documentation that a component had in its own source: a description of
    the component and comments for its props.  Its texts consist of Unicode scalar
    values, as all texts here do.  Text with half of a surrogate pair in it, which
    has no encoding and cannot be written into a module, is left out. -/

namespace ComponentDecl

/-- Recovered documentation.  Each prop has the literal comment text to put
    above it. -/
structure Comments where
  description : Option String
  props : List (String × String)
  deriving DecidableEq, Repr

namespace Comments

/-- The comment of a prop. -/
def prop? (c : Comments) (name : String) : Option String :=
  (c.props.find? (·.1 == name)).map (·.2)

end Comments

end ComponentDecl
