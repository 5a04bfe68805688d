import ComponentDecl.Syntax.Lexeme
import ComponentDecl.Syntax.Tree

/-! # Grammar fragments

    A fragment reads a prefix of a text into trees, or refuses.  Its type says
    that nothing is lost: the trees spell exactly the prefix read.  All grammar
    rules are built from the operators of this file, so this holds of every rule
    without further proof. -/

namespace ComponentDecl.Syntax

open ComponentDecl.Syntax.Tree (spellAll)

/-- What is read from a text: trees and the text left, which together spell it. -/
structure Reading (s : List Char) where
  trees : List Tree
  rest : List Char
  spelled : spellAll trees ++ rest = s

/-- A piece of the grammar: reads a prefix of a text, or refuses it. -/
abbrev Fragment := (s : List Char) → Option (Reading s)

namespace Fragment

/-! ## Tokens -/

/-- Reads nothing. -/
def nothing : Fragment := fun s => some ⟨[], s, rfl⟩

/-- Refuses every text. -/
def refuse : Fragment := fun _ => none

/-- Reads one token of a class of lexemes, with no white space before it. -/
def lexeme (kind : Kind) (l : Lexeme) : Fragment := fun s =>
  match l s with
  | none => none
  | some n => some ⟨[.token none kind (s.take n)], s.drop n, by simp⟩

/-- Reads nothing, and only where the text left satisfies a condition. -/
def ahead (p : List Char → Bool) : Fragment := fun s =>
  if p s then some ⟨[], s, rfl⟩ else none

/-! ## Composition -/

/-- Reads with one fragment, then with another. -/
def andThen (a b : Fragment) : Fragment := fun s =>
  match a s with
  | none => none
  | some x =>
    match b x.rest with
    | none => none
    | some y => some ⟨x.trees ++ y.trees, y.rest, by simp [y.spelled, x.spelled]⟩

/-- Reads with all fragments in turn. -/
def seq : List Fragment → Fragment
  | [] => nothing
  | [a] => a
  | a :: as => andThen a (seq as)

/-- Reads with the first fragment that does not refuse. -/
def alt : List Fragment → Fragment
  | [] => refuse
  | a :: as => fun s => (a s).orElse fun _ => alt as s

/-- Reads with a fragment, or nothing where it refuses. -/
def opt (a : Fragment) : Fragment := alt [a, nothing]

/-- Reads with a fragment until it refuses or reads nothing, at most once for
    each character of `fuel`. -/
def repeatWithin : List Char → Fragment → Fragment
  | [], _ => nothing
  | _ :: fuel, a => fun s =>
    match a s with
    | none => nothing s
    | some x =>
      if x.trees.isEmpty then some x
      else match repeatWithin fuel a x.rest with
        | none => some x
        | some y => some ⟨x.trees ++ y.trees, y.rest, by simp [y.spelled, x.spelled]⟩

/-- Reads with a fragment as often as possible.  Each time it takes a character
    of the text, so the text bounds the number of times. -/
def many (a : Fragment) : Fragment := fun s => repeatWithin s a s

/-- Reads a fragment once or more, with a separator between two readings. -/
def sepBy (separator a : Fragment) : Fragment :=
  andThen a (many (andThen separator a))

/-! ## White space -/

/-- Reads white space and comments. -/
def trivia : Fragment :=
  many (alt [lexeme .blank Lexeme.space, lexeme .comment Lexeme.comment])

/-- Reads white space and comments, then with a fragment. -/
def spaced (a : Fragment) : Fragment := andThen trivia a

/-- Reads a token of a class of lexemes after white space and comments. -/
def token (kind : Kind) (l : Lexeme) : Fragment := spaced (lexeme kind l)

/-- Reads given punctuation. -/
@[inline] def sym (m : String) : Fragment := token .mark (Lexeme.exactly m.toList)

/-- Reads given punctuation, unless it goes on to be other punctuation. -/
@[inline] def symUnless (m : String) (continuations : List String) : Fragment :=
  token .mark (Lexeme.exactlyUnless m.toList (continuations.map String.toList))

/-- Reads a given keyword. -/
@[inline] def word (w : String) : Fragment := token .mark (Lexeme.exactWord w.toList)

/-- Reads one of some keywords. -/
def anyWord (ws : List String) : Fragment := alt (ws.map word)

/-- Reads a fragment once or more, with commas between two readings and
    optionally one after the last. -/
def commaList (a : Fragment) : Fragment :=
  andThen (sepBy (sym ",") a) (opt (sym ","))

/-! ## Trees -/

/-- Makes one construct of what a fragment reads.  White space and comments
    before its first token stay outside. -/
def node (kind : Kind) (a : Fragment) : Fragment :=
  spaced fun s =>
    match a s with
    | none => none
    | some x => some ⟨[.node none kind x.trees], x.rest, by simpa using x.spelled⟩

/-- Changes the last tree by a function that keeps its text. -/
def mapLast (f : Tree → Tree) (h : ∀ t, (f t).spell = t.spell) (a : Fragment) : Fragment :=
  fun s =>
    match a s with
    | none => none
    | some x =>
      match hx : x.trees.reverse with
      | [] => some x
      | t :: ts => some ⟨ts.reverse ++ [f t], x.rest, by
          have e : x.trees = ts.reverse ++ [t] := by
            rw [← List.reverse_reverse x.trees, hx, List.reverse_cons]
          have k := x.spelled
          rw [e] at k
          simpa [h] using k⟩

/-- Gives the last tree a role. -/
def role (r : Role) (a : Fragment) : Fragment :=
  mapLast (Tree.withRole r) (Tree.spell_withRole r) a

/-- A construct that continues one already read: its kind, the role of the part
    already read, and what follows that part. -/
structure Step where
  kind : Kind
  role : Option Role
  more : Fragment

/-- Gives a tree a role, if there is one to give. -/
def giveRole (r : Option Role) (t : Tree) : Tree :=
  match r with
  | none => t
  | some r => t.withRole r

theorem spell_giveRole (r : Option Role) (t : Tree) : (giveRole r t).spell = t.spell := by
  cases r <;> simp [giveRole]

/-- Extends the tree just read by the first step that does not refuse. -/
def extend (steps : List Step) {s : List Char} (x : Reading s) : Option (Reading s) :=
  match hx : x.trees.reverse with
  | [] => none
  | t :: ts => steps.findSome? fun step =>
    (step.more x.rest).map fun y =>
      ⟨ts.reverse ++ [.node none step.kind (giveRole step.role t :: y.trees)], y.rest, by
        have e : x.trees = ts.reverse ++ [t] := by
          rw [← List.reverse_reverse x.trees, hx, List.reverse_cons]
        have k := x.spelled
        rw [e] at k
        simpa [spell_giveRole, y.spelled] using k⟩

/-- Extends the tree just read until no step continues it, at most once for each
    character of `fuel`. -/
def extendWithin : List Char → List Step → {s : List Char} → Reading s → Reading s
  | [], _, _, x => x
  | _ :: fuel, steps, _, x =>
    match extend steps x with
    | none => x
    | some y => extendWithin fuel steps y

/-- Reads a first part, then wraps it in constructs as long as a step continues
    it: `a + b + c` becomes `(a + b) + c`. -/
def chain (first : Fragment) (steps : List Step) : Fragment := fun s =>
  (first s).map (extendWithin s steps)

/-- Reads a first part and wraps it at most once. -/
def chainOnce (first : Fragment) (steps : List Step) : Fragment := fun s =>
  (first s).map fun x => (extend steps x).getD x

end Fragment

end ComponentDecl.Syntax
