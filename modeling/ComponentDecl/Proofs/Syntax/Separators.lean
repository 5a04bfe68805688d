import ComponentDecl.Proofs.Syntax.Constructs
import ComponentDecl.Syntax.Grammar.Declaration
import Mathlib.Data.List.TakeWhile

/-! # Separators

    The variables of a declaration stand in one list.  Between two neighbours there is
    one comma, and around that comma there are only white space and comments.

    Key theorems:
    - `sepBy_spec`: what is read with separators, one reading after the other
    - `declaratorList_of_reads`: the trees that a declaration of variables is read into
-/

namespace ComponentDecl.Syntax

open Lexeme

/-! ### Whole comments -/

theorem blockCommentRest_take {s : List Char} {n : Nat} (h : blockCommentRest s = some n) :
    blockCommentRest (s.take n) = some n ∧ n ≤ s.length := by
  induction s generalizing n with
  | nil => cases h
  | cons c s ih =>
    rw [blockCommentRest.eq_def] at h
    split at h
    · next rest heq =>
      cases h
      rw [heq]
      exact ⟨rfl, by simp⟩
    · next hmark heq =>
      cases heq
      obtain ⟨k, hk, rfl⟩ := Option.map_eq_some_iff.mp h
      obtain ⟨htake, hle⟩ := ih hk
      refine ⟨?_, Nat.succ_le_succ hle⟩
      rw [List.take_succ_cons, blockCommentRest, htake]
      · rfl
      · -- A mark at the cut would stand in the whole text as well.
        rintro rest rfl hrest
        have hprefix := List.take_prefix k s
        rw [hrest] at hprefix
        obtain ⟨tail, rfl⟩ := hprefix
        exact hmark _ rfl rfl
    · next heq => cases heq

/-- A comment that is cut out of a text is a comment by itself. -/
theorem comment_take {s : List Char} {n : Nat} (h : comment s = some n) :
    comment (s.take n) = some (s.take n).length := by
  unfold comment at h
  split at h
  · next rest =>
    cases h
    have hline : (rest.take (rest.takeWhile (!isLineEnd ·)).length) =
        rest.takeWhile (!isLineEnd ·) :=
      (List.prefix_iff_eq_take.mp (List.takeWhile_prefix _)).symm
    rw [List.take_succ_cons, List.take_succ_cons, hline, comment, List.takeWhile_idem]
    rfl
  · next rest =>
    obtain ⟨k, hk, rfl⟩ := Option.map_eq_some_iff.mp h
    obtain ⟨htake, hle⟩ := blockCommentRest_take hk
    rw [List.take_succ_cons, List.take_succ_cons, comment, htake, List.length_cons,
      List.length_cons, List.length_take_of_le hle]
    rfl
  · cases h

/-- White space and comments, one after the other. -/
inductive Spacing : List Char → Prop where
  | nil : Spacing []
  | blank {text rest : List Char} (h : ∀ c ∈ text, isSpace c = true) (hrest : Spacing rest) :
      Spacing (text ++ rest)
  | comment {text rest : List Char} (h : Lexeme.comment text = some text.length)
      (hrest : Spacing rest) : Spacing (text ++ rest)

namespace Fragment

/-! ### Repeated readings -/

/-- What is read repeatedly is one reading after the other. -/
theorem many_spec {a : Fragment} {s : List Char} {r : Reading s} (h : many a s = some r) :
    ∃ parts : List (List Tree), r.trees = parts.flatten ∧
      ∀ p ∈ parts, ∃ (t : List Char) (x : Reading t), a t = some x ∧ x.trees = p := by
  have key : ∀ (fuel : List Char) {s : List Char} {r : Reading s},
      repeatWithin fuel a s = some r → ∃ parts : List (List Tree), r.trees = parts.flatten ∧
        ∀ p ∈ parts, ∃ (t : List Char) (x : Reading t), a t = some x ∧ x.trees = p := by
    intro fuel
    induction fuel with
    | nil =>
      intro s r h
      cases h
      exact ⟨[], rfl, nofun⟩
    | cons c fuel ih =>
      intro s r h
      rcases repeatWithin_spec h with ⟨htrees, -⟩ | ⟨x, hx, htrees, rfl⟩ |
        ⟨x, y, -, hx, -, hy, htrees, -⟩
      · exact ⟨[], htrees, nofun⟩
      · exact ⟨[], htrees, nofun⟩
      · obtain ⟨parts, hparts, hall⟩ := ih hy
        refine ⟨x.trees :: parts, ?_, List.forall_mem_cons.mpr ⟨⟨s, x, hx, rfl⟩, hall⟩⟩
        rw [htrees, hparts, List.flatten_cons]
  exact key s h

/-- What is read with separators: the first reading, and each of the others after a
    separator. -/
theorem sepBy_spec {separator a : Fragment} {s : List Char} {r : Reading s}
    (h : sepBy separator a s = some r) :
    ∃ (x : Reading s) (parts : List (List Tree)), a s = some x ∧
      r.trees = x.trees ++ parts.flatten ∧
      ∀ p ∈ parts, ∃ (t : List Char) (y : Reading t) (z : Reading y.rest),
        separator t = some y ∧ a y.rest = some z ∧ p = y.trees ++ z.trees := by
  obtain ⟨x, y, hx, hy, htrees, -⟩ := andThen_spec h
  obtain ⟨parts, hparts, hall⟩ := many_spec hy
  refine ⟨x, parts, hx, by rw [htrees, hparts], ?_⟩
  intro p hp
  obtain ⟨t, u, hu, rfl⟩ := hall p hp
  obtain ⟨y, z, hy, hz, htrees, -⟩ := andThen_spec hu
  exact ⟨t, y, z, hy, hz, htrees⟩

theorem sym_spec {m : String} {s : List Char} {r : Reading s} (h : sym m s = some r) :
    ∃ gap, r.trees = gap ++ [.token none .mark m.toList] ∧ ∀ t ∈ gap, IsTrivia t := by
  obtain ⟨x, y, hx, hy, htrees, -⟩ := andThen_spec h
  obtain ⟨n, hn, hread, -⟩ := lexeme_spec hy
  have htake : x.rest.take n = m.toList := by
    unfold exactly at hn
    split at hn
    · next hprefix =>
      cases hn
      exact (List.prefix_iff_eq_take.mp (List.isPrefixOf_iff_prefix.mp hprefix)).symm
    · cases hn
  exact ⟨x.trees, by rw [htrees, hread, htake], (trivia_spec hx).1⟩

theorem word_spec {w : String} {s : List Char} {r : Reading s} (h : word w s = some r) :
    ∃ gap, r.trees = gap ++ [.token none .mark w.toList] ∧ ∀ t ∈ gap, IsTrivia t := by
  obtain ⟨x, y, hx, hy, htrees, -⟩ := andThen_spec h
  obtain ⟨n, hn, hread, -⟩ := lexeme_spec hy
  have htake : x.rest.take n = w.toList := by
    unfold exactWord at hn
    split at hn
    · next hword =>
      cases hn
      have hprefix := (Bool.and_eq_true_iff.mp hword).1
      exact (List.prefix_iff_eq_take.mp (List.isPrefixOf_iff_prefix.mp hprefix)).symm
    · cases hn
  exact ⟨x.trees, by rw [htrees, hread, htake], (trivia_spec hx).1⟩

/-- A semicolon that is left out is read into white space and comments. -/
theorem reads_omittedSemicolon {P : Tree → Prop} (hP : ∀ k text, k = .blank ∨ k = .comment →
    P (.token none k text)) (e : Ending) : Reads P (omittedSemicolon e) := by
  have hlexeme : ∀ {k : Kind} {l : Lexeme}, k = .blank ∨ k = .comment →
      Reads P (lexeme k l) := by
    intro k l hk s r h t ht
    obtain ⟨n, -, htrees, -⟩ := lexeme_spec h
    rw [htrees, List.mem_singleton] at ht
    exact ht ▸ hP _ _ hk
  have hahead : ∀ p, Reads P (ahead p) := by
    intro p s r h t ht
    unfold ahead at h
    split at h
    · cases h
      cases ht
    · cases h
  -- Comments may come before the place where the semicolon is missing.
  have homitted : ∀ fuel, Reads P (omittedWithin e fuel) := by
    intro fuel
    induction fuel with
    | nil => exact hahead _
    | cons c fuel ih =>
      have hcomments : Reads P (seq [opt (lexeme .blank space), lexeme .comment comment,
          omittedWithin e fuel]) :=
        (hlexeme (Or.inl rfl)).opt.seq
          ((hlexeme (Or.inr rfl)).seq (ih.seq reads_seq_nil))
      exact (hahead _).or (hcomments.or reads_alt_nil)
  exact fun s => homitted s s

/-- A semicolon is read into marks, white space and comments. -/
theorem reads_semicolon {P : Tree → Prop} (hP : ∀ k text, k = .mark ∨ k = .blank ∨ k = .comment →
    P (.token none k text)) (e : Ending) : Reads P (semicolon e) := by
  have htrivia : ∀ t, IsTrivia t → P t := by
    rintro t (⟨text, rfl, -⟩ | ⟨text, rfl, -⟩)
    · exact hP _ _ (Or.inr (Or.inl rfl))
    · exact hP _ _ (Or.inr (Or.inr rfl))
  have hwritten : Reads P (sym ";") := reads_token htrivia fun _ _ _ => hP _ _ (Or.inl rfl)
  exact hwritten.or ((reads_omittedSemicolon (fun k text h => hP k text (Or.inr h)) e).or reads_alt_nil)

end Fragment

open Fragment

/-! ### Variables -/

/-- One comma between white space and comments. -/
def IsSeparator (ts : List Tree) : Prop :=
  ∃ before after, ts = before ++ .token none .mark [','] :: after ∧
    ∀ t ∈ before ++ after, IsTrivia t

/-- Holds of trees that hold variables: a first one, and each of the others after a
    separator.  The trees before the first and after the last are no variables. -/
structure DeclaratorList (ts lead : List Tree) (first : Tree) (more : List (List Tree × Tree))
    (ending : List Tree) : Prop where
  trees_eq : ts = lead ++ (first :: more.flatMap fun p => p.1 ++ [p.2]) ++ ending
  lead : ∀ t ∈ lead, t.kind ≠ .variableDeclarator
  first : first.kind = .variableDeclarator
  more : ∀ p ∈ more, IsSeparator p.1 ∧ p.2.kind = .variableDeclarator
  ending : ∀ t ∈ ending, t.kind ≠ .variableDeclarator

theorem DeclaratorList.ne_nil {ts lead ending : List Tree} {first : Tree}
    {more : List (List Tree × Tree)} (h : DeclaratorList ts lead first more ending) : ts ≠ [] := by
  rw [h.trees_eq]
  simp

theorem kind_ne_of_trivia {t : Tree} (h : IsTrivia t) : t.kind ≠ .variableDeclarator := by
  rcases h.kind_eq with hk | hk <;> rw [hk] <;> decide

variable {g : Grammar}

/-- Separators and variables, from the readings of a list. -/
theorem exists_more {parts : List (List Tree)}
    (h : ∀ p ∈ parts, ∃ (t : List Char) (y : Reading t) (z : Reading y.rest),
      sym "," t = some y ∧ variableDeclarator g y.rest = some z ∧ p = y.trees ++ z.trees) :
    ∃ more : List (List Tree × Tree), parts.flatten = more.flatMap (fun p => p.1 ++ [p.2]) ∧
      ∀ p ∈ more, IsSeparator p.1 ∧ p.2.kind = .variableDeclarator := by
  induction parts with
  | nil => exact ⟨[], rfl, nofun⟩
  | cons p parts ih =>
    obtain ⟨⟨t, y, z, hy, hz, rfl⟩, hparts⟩ := List.forall_mem_cons.mp h
    obtain ⟨more, hmore, hall⟩ := ih hparts
    obtain ⟨before, hcomma, hbefore⟩ := sym_spec hy
    obtain ⟨x, w, hx, -, hread, -⟩ := node_spec hz
    refine ⟨(before ++ .token none .mark [','] :: x.trees,
      .node none .variableDeclarator w.trees) :: more, ?_,
      List.forall_mem_cons.mpr ⟨⟨⟨before, x.trees, rfl, ?_⟩, rfl⟩, hall⟩⟩
    · rw [List.flatten_cons, List.flatMap_cons, hmore, hcomma, hread]
      simp
    · exact List.forall_mem_append.mpr ⟨hbefore, (trivia_spec hx).1⟩

/-- A declaration reads its keywords, a list of variables and what ends that list. -/
theorem declaratorList_of_reads {keywords : Fragment}
    (hkeywords : Reads (fun t => t.kind ≠ .variableDeclarator) keywords) {s : List Char}
    {r : Reading s} (h : seq [keywords, variableList g, variableListEnd] s = some r) :
    ∃ lead first more ending, DeclaratorList r.trees lead first more ending := by
  obtain ⟨x, rest, hx, hrest, htrees, -⟩ := seq_cons_spec h
  obtain ⟨y, z, hy, hz, hrest, -⟩ := seq_cons_spec hrest
  obtain ⟨first, parts, hfirst, hlist, hparts⟩ := sepBy_spec hy
  obtain ⟨gap, d, hgap, -, hread, -⟩ := node_spec hfirst
  obtain ⟨more, hmore, hall⟩ := exists_more hparts
  have hmarks : ∀ k text, k = Kind.mark ∨ k = .blank ∨ k = .comment →
      (Tree.token none k text).kind ≠ .variableDeclarator := by
    rintro k text (rfl | rfl | rfl) <;> nofun
  have hending : Reads (fun t => t.kind ≠ .variableDeclarator) variableListEnd :=
    (reads_semicolon hmarks _).or (Reads.or (reads_semicolon hmarks _) reads_alt_nil)
  refine ⟨x.trees ++ gap.trees, .node none .variableDeclarator d.trees, more, z.trees, ?_, ?_, rfl,
    hall, hending _ z hz⟩
  · rw [htrees, hrest, hlist, hread, hmore]
    simp
  · exact List.forall_mem_append.mpr ⟨hkeywords _ x hx,
      fun t ht => kind_ne_of_trivia ((trivia_spec hgap).1 t ht)⟩

theorem reads_word_kind_ne (w : String) :
    Reads (fun t => t.kind ≠ .variableDeclarator) (word w) :=
  reads_token (fun _ => kind_ne_of_trivia) fun _ _ _ => nofun

end ComponentDecl.Syntax
