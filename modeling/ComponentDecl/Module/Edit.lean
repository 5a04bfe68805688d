import ComponentDecl.Module.Query

/-! # Edits

    A batch of edits replaces byte ranges of one module at once.  All ranges
    refer to the module before the batch, and a batch with a range that leaves
    the module or meets another one is refused as a whole.  The new texts consist
    of Unicode scalar values, so each of them has an encoding: half of a surrogate
    pair, which has none, is left out. -/

namespace ComponentDecl

open Syntax

/-- Replaces the bytes from `start` up to `stop` by a text. -/
structure Edit where
  start : Int
  stop : Int
  text : String
  deriving Repr, DecidableEq

/-- The range of an edit that cannot be carried out. -/
structure EditError where
  start : Int
  stop : Int
  deriving Repr, DecidableEq

/-- The wording of a refused edit. -/
def EditError.message (e : EditError) : String :=
  s!"Overlapping or out of range text edit: {e.start}-{e.stop}"

namespace Edit

/-- The order in which a batch is carried out: from the back of the module to
    its front.  Of edits with one range the first given comes first. -/
def before (a b : Edit) : Bool :=
  decide (b.start < a.start) || (a.start == b.start && decide (b.stop ≤ a.stop))

/-- Puts an edit where it belongs among edits in order. -/
def place (e : Edit) : List Edit → List Edit
  | [] => [e]
  | f :: fs => if e.before f then e :: f :: fs else f :: place e fs

/-- A batch in the order in which it is carried out. -/
def arrange (edits : List Edit) : List Edit := edits.foldr place []

/-- Replaces the range of one edit. -/
def splice (e : Edit) (source : List UInt8) : List UInt8 :=
  source.take e.start.toNat ++ Text.encode e.text ++ source.drop e.stop.toNat

/-- Carries out edits in the given order; each has to end at or before `bound`,
    where the one before it starts. -/
def applyInOrder : Nat → List Edit → List UInt8 → Except EditError (List UInt8)
  | _, [], source => .ok source
  | bound, e :: es, source =>
    if 0 ≤ e.start ∧ e.start ≤ e.stop ∧ e.stop ≤ bound then
      applyInOrder e.start.toNat es (e.splice source)
    else .error ⟨e.start, e.stop⟩

/-- Carries out a batch of edits. -/
def applyAll (edits : List Edit) (source : List UInt8) : Except EditError (List UInt8) :=
  applyInOrder source.length (arrange edits) source

/-! ## Making edits -/

/-- Replaces the text of a node. -/
def replace (n : Node) (text : String) : Edit := ⟨n.start, n.stop, text⟩

/-- Puts a text on a new line after a node. -/
def insertAfter (n : Node) (text : String) : Edit := ⟨n.stop, n.stop, "\n" ++ text⟩

end Edit

/-! ## The span of a statement -/

/-- Holds of a comment that documents what follows it. -/
def Syntax.Tree.isDocComment (t : Tree) : Bool :=
  t.kind == .comment && "/**".toList.isPrefixOf t.spell

/-- The bytes of a range. -/
def bytesBetween (source : List UInt8) (start stop : Nat) : List UInt8 :=
  (source.drop start).take (stop - start)

/-- Where a statement starts together with the doc comments attached above it,
    given what stands before it, the nearest first. -/
def attachedStart (source : List UInt8) (start : Nat) : List Site → Nat
  | [] => start
  | p :: earlier =>
    let gap := bytesBetween source p.stop start
    if p.tree.isDocComment && Text.allBlank gap && gap.count 0x0a ≤ 1 then
      attachedStart source p.start earlier
    else start

/-- The start of the line of an offset, if only blanks stand between them. -/
def lineStartIfBlank (source : List UInt8) (start : Nat) : Nat :=
  let indent := (source.take start).reverse.takeWhile (· != 0x0a)
  if Text.allBlank indent then start - indent.length else start

/-- The end of the line of an offset, its break included, if only spaces and
    tabs stand between them; else the end of the spaces and tabs. -/
def lineRestEnd (source : List UInt8) (stop : Nat) : Nat :=
  let rest := source.drop stop
  let spaces := (rest.takeWhile fun b => b == 0x20 || b == 0x09).length
  match rest.drop spaces with
  | 0x0d :: 0x0a :: _ => stop + spaces + 2
  | 0x0a :: _ => stop + spaces + 1
  | _ => stop + spaces

namespace Module

/-- The range that goes away with a statement: the doc comments attached above
    it, its indentation and the rest of its line. -/
def statementSpan (m : Module) (stmt : Node) : Nat × Nat :=
  (lineStartIfBlank m.source (attachedStart m.source stmt.start stmt.place.before),
    lineRestEnd m.source stmt.stop)

/-- Removes a statement with its span. -/
def removeStatement (m : Module) (stmt : Node) : Edit :=
  let (start, stop) := m.statementSpan stmt
  ⟨start, stop, ""⟩

/-- Removes a variable: with the comma after it, or with the comma before it if
    it is the last, or with its whole statement if it is the only one. -/
def removeVariable (m : Module) (v : Variable) : Edit :=
  let declarators := v.declaration.declarators
  let isOther (d : Node) : Bool := d.start != v.declarator.start
  let earlier := declarators.takeWhile isOther
  let later := (declarators.dropWhile isOther).drop 1
  match later, earlier.getLast? with
  | next :: _, _ => ⟨v.declarator.start, next.start, ""⟩
  | [], some previous => ⟨previous.stop, v.declarator.stop, ""⟩
  | [], none => m.removeStatement v.statement

/-- Adds a text as the last line of a module. -/
def append (m : Module) (text : String) : Edit :=
  let ended := m.source.isEmpty || m.source.getLast? == some 0x0a
  ⟨m.source.length, m.source.length, (if ended then "" else "\n") ++ text ++ "\n"⟩

/-- Carries out a batch of edits on a module. -/
def applyEdits (m : Module) (edits : List Edit) : Except EditError Module :=
  (Edit.applyAll edits m.source).map m.withSource

/-- Carries out a batch of edits on a module that is kept in place, and answers how many
    there were.  A batch that is refused leaves the module as it was. -/
def edit (edits : List Edit) : ExceptT EditError (StateM Module) Nat := do
  let m ← get
  match m.applyEdits edits with
  | .error e => throw e
  | .ok after =>
    set after
    return edits.length

/-- The text of a node with the white space and comments before it. -/
def fullText (m : Module) (n : Node) : Except Text.DecodeError String :=
  m.slice n.fullStart n.stop

end Module

end ComponentDecl
