/-! # Similarity of words

    Two words are as similar as the blocks of letters that they share: the
    longest block of both, and then, in the same way, the blocks before it and
    the blocks after it. -/

namespace ComponentDecl.Text

/-! ## Shared blocks -/

/-- How many elements two lists have in common at their start. -/
def commonStart : List Char → List Char → Nat
  | a :: as, b :: bs => if a == b then commonStart as bs + 1 else 0
  | _, _ => 0

/-- A block of two words: where it starts in each of them and its length. -/
structure Block where
  inFirst : Nat
  inSecond : Nat
  length : Nat
  deriving DecidableEq, Repr

/-- All blocks at which two words agree, in the order of their starts in the
    first word and then in the second. -/
def blocks (first second : List Char) : List Block :=
  (List.range first.length).flatMap fun i =>
    (List.range second.length).map fun j =>
      ⟨i, j, commonStart (first.drop i) (second.drop j)⟩

/-- The longest of some blocks, the first one where several are as long. -/
def longest (bs : List Block) : Block :=
  bs.foldl (fun best b => if best.length < b.length then b else best) ⟨0, 0, 0⟩

/-- How many letters two words share, for words of which one has at most `fuel`
    letters. -/
def sharedWithin : Nat → List Char → List Char → Nat
  | 0, _, _ => 0
  | fuel + 1, first, second =>
    let b := longest (blocks first second)
    if b.length = 0 then 0
    else
      sharedWithin fuel (first.take b.inFirst) (second.take b.inSecond) + b.length +
        sharedWithin fuel (first.drop (b.inFirst + b.length))
          (second.drop (b.inSecond + b.length))

/-- How many letters two words share. -/
def shared (first second : String) : Nat :=
  sharedWithin first.length first.toList second.toList

/-! ## Similar words -/

/-- Holds of words of whose letters at least three fifths are shared. -/
def isSimilar (first second : String) : Bool :=
  3 * (first.length + second.length) ≤ 10 * shared first second

/-- Holds if the first candidate is at least as similar to a word as the second
    one; of equally similar ones the later in the alphabet comes first. -/
def atLeastAsSimilar (word a b : String) : Bool :=
  let left := shared a word * (b.length + word.length)
  let right := shared b word * (a.length + word.length)
  right < left || (left == right && b ≤ a)

/-- The candidates similar to a word, the three most similar ones at most, in
    alphabetic order. -/
def similarTo (word : String) (candidates : List String) : List String :=
  let similar := (candidates.filter fun c => isSimilar c word).mergeSort (atLeastAsSimilar word)
  (similar.take 3).mergeSort fun a b => a ≤ b

end ComponentDecl.Text
