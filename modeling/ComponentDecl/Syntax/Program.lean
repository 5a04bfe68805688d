import ComponentDecl.Syntax.Grammar.Statement

/-! # Whole programs

    Ties the grammar together and reads a whole text.  Reading never fails: what
    no statement explains becomes one node that marks the fault.

    There is no recovery from a fault.  From the first statement on that the
    grammar does not read, all the rest of the text is one token that marks the
    fault, and nothing in it is found: a member `a: import("m").T<number>` hides
    its own statement and every later one.  A parser that mends its input goes on
    behind such a place.  Two constructs of the language itself count as faults as
    well, the declaration `using x = y;` and the line comments that begin with
    `<!--` or `-->`.  So what is said of a module without faults is said of its
    text, and what is said of one with a fault is said of the statements before
    it. -/

namespace ComponentDecl.Syntax

open Fragment

/-- The reading of a construct, given how its parts are read. -/
def Rule.fragment (g : Grammar) : Rule → Fragment
  | .type => ComponentDecl.Syntax.type g
  | .keysType => ComponentDecl.Syntax.keysType g
  | .expression => ComponentDecl.Syntax.expression g
  | .operand => ComponentDecl.Syntax.operand g
  | .constructed => ComponentDecl.Syntax.constructed g
  | .classRest => ComponentDecl.Syntax.classRest g
  | .pattern => ComponentDecl.Syntax.pattern g
  | .statement => ComponentDecl.Syntax.statement g

/-- The grammar, for constructs nested at most `depth` deep. -/
def grammar : Nat → (r : Rule) → (s : List Char) → Option (Reading s)
  | 0, _, _ => none
  | depth + 1, r, s => spaced (r.fragment (grammar depth)) s

/-- A bound on how deep the constructs of a text can be nested: of the
    constructs that start at one character at most four contain one another. -/
def depthBound (s : List Char) : Nat :=
  4 * (s.length + 1)

/-- The text that no statement explains, all of it as one faulty token. -/
def fault : Fragment := fun s =>
  match s with
  | [] => some ⟨[], [], rfl⟩
  | c :: rest => some ⟨[.token none .error (c :: rest)], [], by simp⟩

/-- All statements of a text up to the first that the grammar does not read, and
    from there on the fault. -/
def programParts (s : List Char) : Option (Reading s) :=
  seq [opt (lexeme .hashBangLine Lexeme.hashBang),
    many (grammar (depthBound s) .statement), trivia, fault] s

/-- The tree of a text. -/
def parse (s : List Char) : Tree :=
  match programParts s with
  | some x => .node none .program (x.trees ++ if x.rest.isEmpty then [] else
      [.token none .error x.rest])
  | none => .node none .program [.token none .error s]

/-- A tree spells the text that it was read from. -/
theorem spell_parse (s : List Char) : (parse s).spell = s := by
  unfold parse
  split
  · next x _ =>
    have h := x.spelled
    by_cases hr : x.rest = []
    · simp_all
    · simp [hr, h]
  · simp

end ComponentDecl.Syntax
