import ComponentDecl.Proofs.Module.Weave

/-! # Texts with blocks put in

    A batch whose edits only add something in front of what they cover leaves
    the text as it was, with blocks in between.  Without the blocks it is the
    former text again.

    Key theorems:
    - `Weave.inserted`: a batch that only adds
    - `Weave.insertions`: the same batch without what it covers
-/

namespace ComponentDecl

open Text

/-- A text with blocks put in, from left to right.  After each block some of the
    text follows. -/
inductive Inserted : List (List Char) → List Char → List Char → Prop where
  | none (text : List Char) : Inserted [] text text
  | block {blocks : List (List Char)} {rest out : List Char} (kept added : List Char)
    (hrest : rest ≠ []) (h : Inserted blocks rest out) :
    Inserted (added :: blocks) (kept ++ rest) (kept ++ (added ++ out))

namespace Inserted

variable {blocks blocks' : List (List Char)} {text text' out out' : List Char}

theorem prepend (before : List Char) (h : Inserted blocks text out) :
    Inserted blocks (before ++ text) (before ++ out) := by
  cases h with
  | none => exact .none _
  | block kept added hrest h =>
    rw [← List.append_assoc, ← List.append_assoc]
    exact .block (before ++ kept) added hrest h

theorem append (h : Inserted blocks text out) (h' : Inserted blocks' text' out') :
    Inserted (blocks ++ blocks') (text ++ text') (out ++ out') := by
  induction h with
  | none text => exact h'.prepend text
  | block kept added hrest _ ih =>
    have := Inserted.block kept added (List.append_ne_nil_of_left_ne_nil hrest text') ih
    simpa using this

/-- The last character stays the last one. -/
theorem getLast?_eq (h : Inserted blocks text out) : out.getLast? = text.getLast? := by
  induction h with
  | none => rfl
  | @block blocks rest out kept added hrest _ ih =>
    obtain ⟨c, hc⟩ : ∃ c, rest.getLast? = some c :=
      Option.ne_none_iff_exists'.mp fun h => hrest (List.getLast?_eq_none_iff.mp h)
    rw [List.getLast?_append, List.getLast?_append, List.getLast?_append, ih, hc]
    rfl

end Inserted

/-- A batch whose edits put a block in front of what they cover puts these blocks
    into the text.  The induction is on the edits; `before` is the text that
    stands before the next one. -/
theorem Weave.inserted {α : Type} {edit : α → Edit} {added : α → List Char} {l : List α}
    {offset : Nat} {text out : List Char} (h : Weave offset (l.map edit) text out)
    {before : List Char} (hbefore : size before = offset) (after : List Char)
    (hadds : ∀ a ∈ l, ∀ x y z, before ++ (text ++ after) = x ++ (y ++ z) →
      (edit a).start = size x → (edit a).stop = size (x ++ y) →
      (edit a).text.toList = added a ++ y ∧ y ≠ []) :
    Inserted (l.map added) text out := by
  -- The induction is on the edits; `before` grows by what the weave has gone past.
  induction l generalizing offset text out before with
  | nil =>
    cases h
    exact .none _
  | cons a l ih =>
    rw [List.forall_mem_cons] at hadds
    rw [List.map_cons] at h ⊢
    generalize hedit : edit a = e at h
    cases h with
    | @edit _ _ rest out kept gone text h =>
      have hplace : size (before ++ kept) = offset + size kept := by rw [size_append, hbefore]
      obtain ⟨htext, hgone⟩ := hadds.1 (before ++ kept) gone (rest ++ after) (by simp)
        (by rw [hedit, hplace]) (by rw [hedit, size_append, hplace])
      have hcovered : size (before ++ (kept ++ gone)) = offset + size kept + size gone := by
        rw [size_append, size_append, hbefore, Nat.add_assoc]
      have hrest := ih h hcovered
        fun a ha x y z hsplit => hadds.2 a ha x y z (by rw [← hsplit]; simp)
      have hblock := Inserted.block kept (added a)
        (List.append_ne_nil_of_left_ne_nil hgone rest) (hrest.prepend gone)
      rw [hedit] at htext
      rw [htext]
      simpa using hblock

/-- A batch whose edits put a block in front of what they cover makes the same text as one
    that puts these blocks in and covers nothing. -/
theorem Weave.insertions {α : Type} {edit : α → Edit} (added : α → String) {l : List α}
    {offset : Nat} {text out : List Char} (h : Weave offset (l.map edit) text out)
    {before : List Char} (hbefore : size before = offset)
    (hadds : ∀ a ∈ l, ∀ x y z, before ++ text = x ++ (y ++ z) →
      (edit a).start = size x → (edit a).stop = size (x ++ y) →
      (edit a).text.toList = (added a).toList ++ y) :
    Weave offset (l.map fun a => ⟨(edit a).start, (edit a).start, added a⟩) text out := by
  induction l generalizing offset text out before with
  | nil =>
    cases h
    exact .done _ _
  | cons a l ih =>
    rw [List.forall_mem_cons] at hadds
    rw [List.map_cons] at h ⊢
    generalize hedit : edit a = e at h
    cases h with
    | @edit _ _ rest out kept gone text h =>
      have hplace : size (before ++ kept) = offset + size kept := by rw [size_append, hbefore]
      have htext := hadds.1 (before ++ kept) gone rest (by simp) (by rw [hedit, hplace])
        (by rw [hedit, size_append, hplace])
      have hcovered : size (before ++ (kept ++ gone)) = offset + size kept + size gone := by
        rw [size_append, size_append, hbefore, Nat.add_assoc]
      have hrest := ih h hcovered
        fun a ha x y z hsplit => hadds.2 a ha x y z (by rw [← hsplit]; simp)
      -- What was covered is now kept in front of the next block.
      have hblock := Weave.edit kept [] (added a) (hrest.prepend gone)
      rw [hedit] at htext
      rw [htext]
      simpa using hblock

end ComponentDecl
