import ComponentDecl.Proofs.Module.Blocks
import ComponentDecl.Proofs.Module.Inserted

/-! # Modules that differ in comments

    Two modules are akin if their rows match one by one: equal gaps, and texts that
    are one text with blocks of comments put in.  In which statements such blocks may
    be and which questions the statements must answer alike is left open here.  A
    batch does not look at comments in a tree.  So if it treats matching rows alike,
    the modules that it makes are akin again: with the blocks that were there before,
    and with those that the batch has put in.

    Key theorems:
    - `settled_akin`: what a batch leaves of matching rows matches
    - `Akin.turns`: batches on the same statement of akin modules
    - `Akin.alike`: the texts of akin modules
-/

namespace ComponentDecl

open Syntax Text

/-- Blocks of text, from left to right. -/
abbrev Blocks := List (List Char)

/-! ### Texts -/

/-- Holds of two texts that are one text with blocks put in. -/
def Alike (blocks blocks' : Blocks) (s t : List Char) : Prop :=
  ∃ base, Inserted blocks base s ∧ Inserted blocks' base t

namespace Alike

variable {bs bs' cs cs' : Blocks} {s t s' t' : List Char}

theorem refl (s : List Char) : Alike [] [] s s := ⟨s, .none s, .none s⟩

theorem symm (h : Alike bs bs' s t) : Alike bs' bs t s := by
  obtain ⟨base, hs, ht⟩ := h
  exact ⟨base, ht, hs⟩

theorem append (h : Alike bs bs' s t) (h' : Alike cs cs' s' t') :
    Alike (bs ++ cs) (bs' ++ cs') (s ++ s') (t ++ t') := by
  obtain ⟨base, hs, ht⟩ := h
  obtain ⟨base', hs', ht'⟩ := h'
  exact ⟨base ++ base', hs.append hs', ht.append ht'⟩

/-- A block may come in front of the first text. -/
theorem block (h : Alike bs bs' s t) (hs : s ≠ []) (added : List Char) :
    Alike (added :: bs) bs' (added ++ s) t := by
  obtain ⟨base, hins, ht⟩ := h
  have hbase : base ≠ [] := by
    rintro rfl
    have hlast := hins.getLast?_eq
    rw [List.getLast?_nil, List.getLast?_eq_none_iff] at hlast
    exact hs hlast
  exact ⟨base, .block [] added hbase hins, ht⟩

/-- The last characters are the same. -/
theorem getLast?_eq (h : Alike bs bs' s t) : s.getLast? = t.getLast? := by
  obtain ⟨base, hs, ht⟩ := h
  rw [hs.getLast?_eq, ht.getLast?_eq]

end Alike

/-! ### Matching lists -/

/-- Holds of lists whose elements match one by one; the blocks in which they differ
    add up. -/
inductive Matches {α β : Type} (R : Blocks → Blocks → α → β → Prop) :
    Blocks → Blocks → List α → List β → Prop where
  | nil : Matches R [] [] [] []
  | cons {bs bs' cs cs' : Blocks} {a : α} {b : β} {l : List α} {k : List β} (h : R bs bs' a b)
    (hrest : Matches R cs cs' l k) : Matches R (bs ++ cs) (bs' ++ cs') (a :: l) (b :: k)

namespace Matches

variable {α β α' β' γ : Type} {R : Blocks → Blocks → α → β → Prop}
  {S : Blocks → Blocks → α' → β' → Prop} {bs bs' cs cs' : Blocks} {l l' : List α} {k k' : List β}

theorem single {a : α} {b : β} (h : R bs bs' a b) : Matches R bs bs' [a] [b] := by
  have := Matches.cons h .nil
  rwa [List.append_nil, List.append_nil] at this

theorem append (h : Matches R bs bs' l k) (h' : Matches R cs cs' l' k') :
    Matches R (bs ++ cs) (bs' ++ cs') (l ++ l') (k ++ k') := by
  induction h with
  | nil => exact h'
  | cons hab _ ih =>
    rw [List.append_assoc, List.append_assoc]
    exact .cons hab ih

theorem map {f : α → α'} {g : β → β'} (h : Matches R bs bs' l k)
    (hmap : ∀ a ∈ l, ∀ b ∈ k, ∀ cs cs', R cs cs' a b → S cs cs' (f a) (g b)) :
    Matches S bs bs' (l.map f) (k.map g) := by
  induction h with
  | nil => exact .nil
  | cons hab _ ih =>
    exact .cons (hmap _ (.head _) _ (.head _) _ _ hab)
      (ih fun a ha b hb => hmap a (.tail _ ha) b (.tail _ hb))

/-- Two images of one list match if those of each element do. -/
theorem of_map {f : γ → α} {g : γ → β} {l : List γ} (h : ∀ c ∈ l, R [] [] (f c) (g c)) :
    Matches R [] [] (l.map f) (l.map g) := by
  induction l with
  | nil => exact .nil
  | cons c l ih =>
    rw [List.forall_mem_cons] at h
    exact .cons h.1 (ih h.2)

/-- Where a question has the same answers, the first elements with a yes match, and so
    do the elements before them and after them.  The induction is on the elements before
    the first of them. -/
theorem first {p : α → Bool} {q : β → Bool} (hpq : ∀ cs cs' a b, R cs cs' a b → p a = q b)
    {a : α} {b : β} (h : Matches R bs bs' (l ++ a :: l') (k ++ b :: k'))
    (hl : ∀ c ∈ l, p c = false) (ha : p a = true) (hk : ∀ c ∈ k, q c = false) (hb : q b = true) :
    ∃ b₁ b₁' b₂ b₂' b₃ b₃', bs = b₁ ++ (b₂ ++ b₃) ∧ bs' = b₁' ++ (b₂' ++ b₃') ∧
      Matches R b₁ b₁' l k ∧ R b₂ b₂' a b ∧ Matches R b₃ b₃' l' k' := by
  induction l generalizing k bs bs' with
  | nil =>
    -- Were one of the two rows first and the other not, they would differ in the property.
    cases k with
    | nil =>
      cases h with
      | cons hab hrest => exact ⟨[], [], _, _, _, _, rfl, rfl, .nil, hab, hrest⟩
    | cons c k =>
      cases h with
      | cons hac _ =>
        have hc := hpq _ _ _ _ hac
        rw [ha, hk c (.head _)] at hc
        cases hc
  | cons c l ih =>
    rw [List.forall_mem_cons] at hl
    cases k with
    | nil =>
      cases h with
      | cons hcb _ =>
        have hc := hpq _ _ _ _ hcb
        rw [hl.1, hb] at hc
        cases hc
    | cons c' k =>
      rw [List.forall_mem_cons] at hk
      cases h with
      | cons hcc hrest =>
        obtain ⟨b₁, b₁', b₂, b₂', b₃, b₃', rfl, rfl, hbefore, hab, hafter⟩ := ih hrest hl.2 hk.2
        exact ⟨_, _, b₂, b₂', b₃, b₃', (List.append_assoc _ _ _).symm,
          (List.append_assoc _ _ _).symm, .cons hcc hbefore, hab, hafter⟩

end Matches

/-! ### Rows -/

/-- In what matching rows are alike: blocks are in or above touched statements only, and
    all statements have the same answers. -/
structure Likeness where
  touched : Tree → Bool
  answers : List (Tree → Bool)

/-- Matching rows: the same row, or a touched statement with blocks in it or above it. -/
inductive AkinRow (d : Likeness) : Blocks → Blocks → Row → Row → Prop where
  | same (docs : List Piece) (gap : List Char) {t u : Tree} (htext : t.spell = u.spell)
    (hanswers : ∀ p ∈ d.answers, p t = p u) : AkinRow d [] [] ⟨docs, ⟨t, gap⟩⟩ ⟨docs, ⟨u, gap⟩⟩
  | differs (docs docs' : List Piece) (gap : List Char) {t u : Tree} {bs bs' : Blocks}
    (ht : d.touched t = true) (hu : d.touched u = true)
    (htext : Alike bs bs' (piecesText docs ++ t.spell) (piecesText docs' ++ u.spell))
    (hanswers : ∀ p ∈ d.answers, p t = p u) :
    AkinRow d bs bs' ⟨docs, ⟨t, gap⟩⟩ ⟨docs', ⟨u, gap⟩⟩

namespace AkinRow

variable {d e : Likeness} {bs bs' : Blocks} {r q : Row}

theorem refl (d : Likeness) (r : Row) : AkinRow d [] [] r r :=
  .same r.docs r.last.gap rfl fun _ _ => rfl

theorem gap_eq (h : AkinRow d bs bs' r q) : r.last.gap = q.last.gap := by
  cases h with
  | same => rfl
  | differs => rfl

theorem answer_eq (h : AkinRow d bs bs' r q) {p : Tree → Bool} (hp : p ∈ d.answers) :
    p r.last.tree = p q.last.tree := by
  cases h with
  | same _ _ _ hanswers => exact hanswers p hp
  | differs _ _ _ _ _ _ hanswers => exact hanswers p hp

/-- The gap after matching rows may change. -/
theorem regap (h : AkinRow d bs bs' r q) (gap : List Char) :
    AkinRow d bs bs' ⟨r.docs, ⟨r.last.tree, gap⟩⟩ ⟨q.docs, ⟨q.last.tree, gap⟩⟩ := by
  cases h with
  | same docs _ htext hanswers => exact .same docs gap htext hanswers
  | differs docs docs' _ ht hu htext hanswers => exact .differs docs docs' gap ht hu htext hanswers

/-- More statements may be touched, and fewer questions asked. -/
theorem mono (h : AkinRow d bs bs' r q) (htouched : ∀ t, d.touched t = true → e.touched t = true)
    (hsub : e.answers ⊆ d.answers) : AkinRow e bs bs' r q := by
  cases h with
  | same docs gap htext hanswers => exact .same docs gap htext fun p hp => hanswers p (hsub hp)
  | differs docs docs' gap ht hu htext hanswers =>
    exact .differs docs docs' gap (htouched _ ht) (htouched _ hu) htext
      fun p hp => hanswers p (hsub hp)

/-- Rows of a statement that is not touched have no blocks. -/
theorem of_untouched (h : AkinRow d bs bs' r q) (hr : d.touched r.last.tree = false) :
    bs = [] ∧ bs' = [] ∧ r.docs = q.docs ∧ r.last.tree.spell = q.last.tree.spell := by
  cases h with
  | same docs gap htext _ => exact ⟨rfl, rfl, rfl, htext⟩
  | differs _ _ _ ht _ _ _ =>
    rw [ht] at hr
    cases hr

/-- The texts of matching rows. -/
theorem alike (h : AkinRow d bs bs' r q) : Alike bs bs' r.text q.text := by
  rw [Row.text_eq, Row.text_eq, ← List.append_assoc, ← List.append_assoc, ← h.gap_eq]
  have key : Alike bs bs' (piecesText r.docs ++ r.last.tree.spell)
      (piecesText q.docs ++ q.last.tree.spell) := by
    cases h with
    | same docs gap htext _ =>
      dsimp only
      rw [htext]
      exact .refl _
    | differs _ _ _ _ _ htext _ => exact htext
  have := key.append (.refl r.last.gap)
  rwa [List.append_nil, List.append_nil] at this

end AkinRow

/-! ### Batches on rows -/

/-- What becomes of matching rows matches, whatever gap comes after them. -/
inductive AkinFate (d : Likeness) : Blocks → Blocks → Row × Fate → Row × Fate → Prop where
  | goes {r q : Row} (hgap : r.last.gap = q.last.gap) : AkinFate d [] [] (r, .goes) (q, .goes)
  | turns {r q : Row} {edits edits' : List Edit} {ts us : List Tree} {bs bs' : Blocks}
    (hgap : r.last.gap = q.last.gap)
    (hrows : ∀ gap, Matches (AkinRow d) bs bs' (rows (r.docs ++ lined ts gap))
      (rows (q.docs ++ lined us gap))) :
    AkinFate d bs bs' (r, .turns edits ts) (q, .turns edits' us)

/-- Matching rows may turn into matching rows, each with one statement. -/
theorem AkinFate.turns_single {d : Likeness} {bs bs' : Blocks} {r q : Row}
    {edits edits' : List Edit} {t u : Tree} (hgap : r.last.gap = q.last.gap)
    (hdocs : ∀ p ∈ r.docs, p.documents = true) (hdocs' : ∀ p ∈ q.docs, p.documents = true)
    (h : ∀ gap, AkinRow d bs bs' ⟨r.docs, ⟨t, gap⟩⟩ ⟨q.docs, ⟨u, gap⟩⟩) :
    AkinFate d bs bs' (r, .turns edits [t]) (q, .turns edits' [u]) := by
  refine .turns hgap fun gap => ?_
  rw [show lined [t] gap = [⟨t, gap⟩] from rfl, show lined [u] gap = [⟨u, gap⟩] from rfl,
    rows_docs_singleton hdocs, rows_docs_singleton hdocs']
  exact .single (h gap)

theorem AkinFate.stays {d : Likeness} {bs bs' : Blocks} {r q : Row} (h : AkinRow d bs bs' r q)
    (hdocs : ∀ p ∈ r.docs, p.documents = true) (hdocs' : ∀ p ∈ q.docs, p.documents = true) :
    AkinFate d bs bs' (r, r.stays) (q, q.stays) :=
  .turns_single h.gap_eq hdocs hdocs' h.regap

/-- Matching rows match as well with other trees on the lines after them, if the last of
    these match. -/
theorem AkinRow.followed {d : Likeness} {bs bs' : Blocks} {r q : Row} (h : AkinRow d bs bs' r q)
    (hdocs : ∀ p ∈ r.docs, p.documents = true) (hdocs' : ∀ p ∈ q.docs, p.documents = true)
    (hr : r.last.tree.isPart = true) (hq : q.last.tree.isPart = true) (between : Tree) {t u : Tree}
    (htext : t.spell = u.spell) (hanswers : ∀ p ∈ d.answers, p t = p u) (gap : List Char) :
    Matches (AkinRow d) bs bs' (rows (r.docs ++ lined [r.last.tree, between, t] gap))
      (rows (q.docs ++ lined [q.last.tree, between, u] gap)) := by
  obtain ⟨front, own, hrows⟩ := rows_concat [⟨between, ['\n']⟩]
  -- A statement ends its row, so what is put behind it is in rows of its own.
  have hsplit : ∀ (r : Row) (t : Tree), (∀ p ∈ r.docs, p.documents = true) →
      r.last.tree.isPart = true → rows (r.docs ++ lined [r.last.tree, between, t] gap) =
        ⟨r.docs, ⟨r.last.tree, ['\n']⟩⟩ :: (front ++ [⟨own, ⟨t, gap⟩⟩]) := by
    intro r t hdocs hr
    have hlast : (⟨r.last.tree, ['\n']⟩ : Piece).documents = false := by
      rw [← Bool.not_eq_true]
      intro hdocuments
      rw [isPart_of_documents hdocuments] at hr
      cases hr
    have hfirst := rows_docs hdocs
      (rows_cons_of_not_documents hlast ([⟨between, ['\n']⟩] ++ [⟨t, gap⟩]))
    rw [List.append_nil, hrows] at hfirst
    exact hfirst
  rw [hsplit r t hdocs hr, hsplit q u hdocs' hq]
  have hfront : Matches (AkinRow d) [] [] (front.map id) (front.map id) :=
    .of_map fun r _ => .refl d r
  rw [List.map_id] at hfront
  have hall := Matches.cons (h.regap ['\n'])
    (hfront.append (.single (.same own gap htext hanswers)))
  simpa using hall

/-- A batch leaves the same gaps of matching rows, and rows that match.  The
    induction is on the rows; the gap before them and what an earlier row has left
    of it are the same on both sides. -/
theorem settled_akin {d : Likeness} {bs bs' : Blocks} {fs gs : List (Row × Fate)}
    (h : Matches (AkinFate d) bs bs' fs gs) (first : Bool) (gap pending : List Char) :
    (settled first gap pending fs).1 = (settled first gap pending gs).1 ∧
      Matches (AkinRow d) bs bs' (settled first gap pending fs).2
        (settled first gap pending gs).2 := by
  induction h generalizing first gap pending with
  | nil => exact ⟨rfl, .nil⟩
  | cons hfate _ ih =>
    cases hfate with
    | @goes r q hgap =>
      obtain ⟨hleft, hrows⟩ := ih false r.last.gap (afterLine r.last.gap)
      simp only [settled, ← hgap]
      exact ⟨by rw [hleft], hrows⟩
    | @turns r q _ _ ts us _ _ hgap hfirst =>
      obtain ⟨hleft, hrows⟩ := ih false r.last.gap r.last.gap
      simp only [settled, ← hgap, ← hleft]
      exact ⟨trivial, (hfirst _).append hrows⟩

/-! ### Modules -/

/-- Modules whose rows match, with given blocks in any order. -/
structure Akin (d : Likeness) (bs bs' : Blocks) (m n : Module) : Prop where
  lead : m.lead = n.lead
  rows : ∃ cs cs', cs.Perm bs ∧ cs'.Perm bs' ∧ Matches (AkinRow d) cs cs' m.rows n.rows

namespace Akin

variable {d e : Likeness} {bs bs' : Blocks} {m n m' n' : Module}

/-- The texts of akin modules. -/
theorem alike (h : Akin d bs bs' m n) :
    ∃ cs cs', cs.Perm bs ∧ cs'.Perm bs' ∧ Alike cs cs' m.chars n.chars := by
  have key : ∀ {cs cs' : Blocks} {rs qs : List Row}, Matches (AkinRow d) cs cs' rs qs →
      Alike cs cs' (rowsText rs) (rowsText qs) := by
    intro cs cs' rs qs hrows
    induction hrows with
    | nil => exact .refl _
    | @cons _ _ _ _ r q rs qs hr _ ih =>
      have hsplit : ∀ (r : Row) (rs : List Row), rowsText (r :: rs) = r.text ++ rowsText rs := by
        intro r rs
        simp [rowsText, Row.text]
      rw [hsplit, hsplit]
      exact hr.alike.append ih
  obtain ⟨cs, cs', hperm, hperm', hrows⟩ := h.rows
  refine ⟨cs, cs', hperm, hperm', ?_⟩
  rw [m.chars_rows, n.chars_rows, h.lead]
  exact (Alike.refl n.lead).append (key hrows)

/-- Batches on the rows of akin modules that treat matching rows alike. -/
theorem batch (h : Akin d bs bs' m n) {fate fate' : Row → Fate}
    (hfates : ∀ r ∈ m.rows, ∀ q ∈ n.rows, ∀ cs cs', AkinRow d cs cs' r q →
      AkinFate e cs cs' (r, fate r) (q, fate' q))
    (hm' : settled true m.lead m.lead (m.rows.map fun r => (r, fate r)) = (m'.lead, m'.rows))
    (hn' : settled true n.lead n.lead (n.rows.map fun q => (q, fate' q)) = (n'.lead, n'.rows)) :
    Akin e bs bs' m' n' := by
  obtain ⟨cs, cs', hperm, hperm', hrows⟩ := h.rows
  obtain ⟨hlead, hleft⟩ := settled_akin (hrows.map hfates) true m.lead m.lead
  rw [hm', h.lead, hn'] at hlead hleft
  exact ⟨hlead, cs, cs', hperm, hperm', hleft⟩

/-- Batches on the first statements that a question picks. -/
theorem turns (h : Akin d bs bs' m n) {p : Tree → Bool} (hpd : p ∈ d.answers)
    {stmt stmt' : Node} {fate fate' : Fate} (hm : m.TurnsFirst p stmt fate m')
    (hn : n.TurnsFirst p stmt' fate' n')
    (hmono : ∀ cs cs' r q, AkinRow d cs cs' r q → AkinRow e cs cs' r q) {added added' : Blocks}
    (hat : ∀ cs cs' r q, (∀ k ∈ r.docs, k.documents = true) → (∀ k ∈ q.docs, k.documents = true) →
      r.last.tree = stmt.tree → q.last.tree = stmt'.tree → AkinRow d cs cs' r q →
      AkinFate e (cs ++ added) (cs' ++ added') (r, fate) (q, fate')) :
    Akin e (bs ++ added) (bs' ++ added') m' n' := by
  obtain ⟨before, r, after, hsplit, hr, hpr, hbefore, hm'⟩ := hm
  obtain ⟨before', q, after', hsplit', hq, hpq, hbefore', hn'⟩ := hn
  obtain ⟨cs, cs', hperm, hperm', hrows⟩ := h.rows
  have hdocs := m.grouped_moduleRows.1
  have hdocs' := n.grouped_moduleRows.1
  rw [hsplit, hsplit'] at hrows
  rw [hsplit, List.forall_mem_append, List.forall_mem_cons] at hdocs
  rw [hsplit', List.forall_mem_append, List.forall_mem_cons] at hdocs'
  -- The property holds of matching rows alike, so the two first rows with it match.
  obtain ⟨b₁, b₁', b₂, b₂', b₃, b₃', rfl, rfl, hfront, hrow, hback⟩ :=
    hrows.first (fun _ _ _ _ hab => hab.answer_eq hpd) hbefore hpr hbefore' hpq
  -- Rows that stay match as they did.
  have hstays : ∀ {cs cs' : Blocks} {rs qs : List Row}, Matches (AkinRow d) cs cs' rs qs →
      (∀ r ∈ rs, ∀ k ∈ r.docs, k.documents = true) →
      (∀ q ∈ qs, ∀ k ∈ q.docs, k.documents = true) →
      Matches (AkinFate e) cs cs' (rs.map fun r => (r, r.stays)) (qs.map fun q => (q, q.stays)) :=
    fun hmatches hrs hqs => hmatches.map fun r hr q hq _ _ hrq =>
      .stays (hmono _ _ _ _ hrq) (hrs r hr) (hqs q hq)
  have hmatches := (hstays hfront hdocs.1 hdocs'.1).append
    (.cons (hat _ _ r q hdocs.2.1 hdocs'.2.1 (Module.last_tree hr) (Module.last_tree hq) hrow)
      (hstays hback hdocs.2.2 hdocs'.2.2))
  obtain ⟨hlead, hleft⟩ := settled_akin hmatches true m.lead m.lead
  rw [hm', h.lead, hn'] at hlead hleft
  -- What the batch adds comes last, for the order of blocks does not matter.
  have hlast : ∀ a b c x : Blocks, (a ++ (b ++ x ++ c)).Perm (a ++ (b ++ c) ++ x) := by
    intro a b c x
    rw [List.append_assoc, List.append_assoc, List.append_assoc]
    exact (List.perm_append_comm.append_left b).append_left a
  exact ⟨hlead, _, _, (hlast b₁ b₂ b₃ added).trans (hperm.append_right added),
    (hlast b₁' b₂' b₃' added').trans (hperm'.append_right added'), hleft⟩

end Akin

end ComponentDecl
