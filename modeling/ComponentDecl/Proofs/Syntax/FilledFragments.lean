import ComponentDecl.Proofs.Syntax.GrammarEnds
import ComponentDecl.Proofs.Syntax.Separators
import Mathlib.Data.List.Basic

/-! # Full trees

    A tree is full if it has some text, if it is the white space or the comment that it
    says it is, if no comma is missing between variables, and if the same holds of every
    tree below it.  The operators of the grammar keep the property of reading full trees
    only; a construct needs one part that it cannot leave out.
-/

namespace ComponentDecl.Syntax

open Lexeme

/-! ### Full trees -/

/-- Kinds of trees of which nothing is asked but that they have some text. -/
def Kind.isOrdinary : Kind → Bool
  | .blank | .comment | .lexicalDeclaration | .variableDeclaration => false
  | _ => true

/-- The tree has text.  If it is white space, a comment or a declaration of variables,
    its text is that.  The same holds of every tree below it. -/
inductive Full : Tree → Prop where
  | token {r : Option Role} {k : Kind} {text : List Char} (h : text ≠ [])
      (hk : k.isOrdinary = true) : Full (.token r k text)
  | blank {r : Option Role} {text : List Char} (hne : text ≠ [])
      (h : ∀ c ∈ text, isSpace c = true) : Full (.token r .blank text)
  | comment {r : Option Role} {text : List Char} (h : Lexeme.comment text = some text.length) :
      Full (.token r .comment text)
  | node {r : Option Role} {k : Kind} {ts : List Tree} (hne : ts ≠ [])
      (h : ∀ t ∈ ts, Full t) (hk : k.isOrdinary = true) : Full (.node r k ts)
  | declaration {r : Option Role} {k : Kind} {ts lead ending : List Tree} {first : Tree}
      {more : List (List Tree × Tree)} (hk : k = .lexicalDeclaration ∨ k = .variableDeclaration)
      (hlist : DeclaratorList ts lead first more ending) (h : ∀ t ∈ ts, Full t) :
      Full (.node r k ts)

theorem ne_nil_of_comment {text : List Char} (h : Lexeme.comment text = some text.length) :
    text ≠ [] := by
  rintro rfl
  cases h

theorem Full.spell_ne_nil {t : Tree} (h : Full t) : t.spell ≠ [] := by
  have hnode : ∀ {r : Option Role} {k : Kind} {ts : List Tree}, ts ≠ [] →
      (∀ t ∈ ts, t.spell ≠ []) → (Tree.node r k ts).spell ≠ [] := by
    intro r k ts hne hall
    obtain ⟨t, ts, rfl⟩ := List.exists_cons_of_ne_nil hne
    simp [hall t List.mem_cons_self]
  induction h with
  | token h => simpa using h
  | blank hne => simpa using hne
  | comment h => simpa using ne_nil_of_comment h
  | node hne _ _ ih => exact hnode hne ih
  | declaration _ hlist _ ih => exact hnode hlist.ne_nil ih

theorem Full.children {t : Tree} (h : Full t) : ∀ u ∈ t.children, Full u := by
  cases h with
  | token => simp [Tree.children]
  | blank => simp [Tree.children]
  | comment => simp [Tree.children]
  | node _ h => exact h
  | declaration _ _ h => exact h

/-- Trees of white space and comments spell white space and comments. -/
theorem spacing_of_full {ts : List Tree} (h : ∀ t ∈ ts, Full t)
    (hk : ∀ t ∈ ts, t.kind = .blank ∨ t.kind = .comment) : Spacing (Tree.spellAll ts) := by
  induction ts with
  | nil => exact .nil
  | cons t ts ih =>
    obtain ⟨ht, hts⟩ := List.forall_mem_cons.mp h
    obtain ⟨hkind, hkinds⟩ := List.forall_mem_cons.mp hk
    have hrest := ih hts hkinds
    rw [Tree.spellAll_cons]
    -- No other tree has one of these kinds.
    have hother : ∀ {k : Kind}, k.isOrdinary = true → ¬(k = .blank ∨ k = .comment) := by
      rintro k hk (rfl | rfl) <;> cases hk
    cases ht with
    | token _ hordinary => exact absurd hkind (hother hordinary)
    | blank _ hspace =>
      rw [Tree.spell_token]
      exact .blank hspace hrest
    | comment hcomment =>
      rw [Tree.spell_token]
      exact .comment hcomment hrest
    | node _ _ hordinary => exact absurd hkind (hother hordinary)
    | declaration hvariables _ _ =>
      rcases hvariables with rfl | rfl <;> rcases hkind with hkind | hkind <;> cases hkind

theorem Full.withRole {t : Tree} (h : Full t) (r : Role) : Full (t.withRole r) := by
  cases h with
  | token h hk => exact .token h hk
  | blank hne h => exact .blank hne h
  | comment h => exact .comment h
  | node hne h hk => exact .node hne h hk
  | declaration hk hlist h => exact .declaration hk hlist h

/-- A tree may be taken for one of an ordinary kind. -/
theorem Full.withKind {t : Tree} (h : Full t) {k : Kind} (hk : k.isOrdinary = true) :
    Full (t.withKind k) := by
  cases h with
  | token h => exact .token h hk
  | blank hne => exact .token hne hk
  | comment h => exact .token (ne_nil_of_comment h) hk
  | node hne h => exact .node hne h hk
  | declaration _ hlist h => exact .node hlist.ne_nil h hk

theorem Full.giveRole {t : Tree} (h : Full t) (r : Option Role) :
    Full (Fragment.giveRole r t) := by
  cases r with
  | none => exact h
  | some r => exact h.withRole r

theorem Full.asTypeName {t : Tree} (h : Full t) : Full (asTypeName t) := by
  unfold Syntax.asTypeName
  split
  · next scope point last =>
    have hall := h.children
    simp only [Tree.children, List.mem_cons, List.not_mem_nil, or_false, forall_eq_or_imp,
      forall_eq] at hall
    refine .node nofun ?_ rfl
    simp only [List.mem_cons, List.not_mem_nil, or_false, forall_eq_or_imp, forall_eq]
    exact ⟨hall.1, hall.2.1, (hall.2.2.withKind rfl).withRole _⟩
  · exact h.withKind rfl
  · exact h

/-! ### Lexemes that take something -/

/-- No lexeme of the class is empty. -/
def Lexeme.Takes (l : Lexeme) : Prop :=
  ∀ s n, l s = some n → s.take n ≠ []

theorem Lexeme.Shows.takes {l : Lexeme} (hl : l.Shows) : l.Takes :=
  fun s n h => (hl s n h).ne_nil

theorem takes_of_pos {l : Lexeme} (hpos : ∀ s, l s ≠ some 0) (hnil : l [] = none) : l.Takes := by
  intro s n h htake
  rcases List.take_eq_nil_iff.mp htake with rfl | rfl
  · exact hpos s h
  · rw [hnil] at h
    cases h

theorem takes_stringChars (quote : Char) : (stringChars quote).Takes := by
  refine takes_of_pos (fun s h => ?_) rfl
  unfold stringChars at h
  cases hk : (s.takeWhile fun c => c != quote && c != '\\' && c != '\n' && c != '\r').length with
  | zero =>
    rw [hk] at h
    cases h
  | succ k =>
    rw [hk] at h
    cases h

theorem takes_templateChars : templateChars.Takes := by
  refine takes_of_pos (fun s h => ?_) rfl
  unfold templateChars at h
  cases hk : templateCharsLength s with
  | zero =>
    rw [hk] at h
    cases h
  | succ k =>
    rw [hk] at h
    cases h

theorem takes_escape : escape.Takes := by
  refine takes_of_pos (fun s h => ?_) rfl
  unfold escape at h
  grind

theorem takes_regexPattern : regexPattern.Takes := by
  refine takes_of_pos (fun s h => ?_) rfl
  unfold regexPattern at h
  split at h
  · cases h
  · cases h
  · next hslash =>
    rw [regexPatternLength.eq_def] at h
    split at h
    · split at h
      · cases h
      · obtain ⟨k, -, hk⟩ := Option.map_eq_some_iff.mp h
        omega
    · next c rest _ _ =>
      have hc : (c == '/') = false := beq_eq_false_iff_ne.mpr fun hc => hslash rest (by rw [hc])
      simp only [hc, Bool.false_and, Bool.false_eq_true, if_false] at h
      repeat' split at h
      all_goals
        first
          | cases h
          | obtain ⟨k, -, hk⟩ := Option.map_eq_some_iff.mp h
            omega
    · cases h

/-! ### Fragments that read something -/

namespace Fragment

/-- The fragment reads at least one tree. -/
def Fills (a : Fragment) : Prop :=
  ∀ s (r : Reading s), a s = some r → r.trees ≠ []

/-- The fragment reads only full trees. -/
abbrev Filled (a : Fragment) : Prop := Reads Full a

theorem Solid.fills {a : Fragment} (ha : Solid a) : Fills a := by
  intro s r h hempty
  refine (ha s r h).ne_nil ?_
  rw [hempty]
  rfl

theorem fills_token {k : Kind} {l : Lexeme} : Fills (token k l) := by
  intro s r h
  obtain ⟨x, y, -, hy, htrees, -⟩ := andThen_spec h
  obtain ⟨n, -, hread, -⟩ := lexeme_spec hy
  simp [htrees, hread]

theorem fills_node {k : Kind} {a : Fragment} : Fills (node k a) := by
  intro s r h
  obtain ⟨x, y, -, -, htrees, -⟩ := node_spec h
  simp [htrees]

theorem fills_lexeme {k : Kind} {l : Lexeme} : Fills (lexeme k l) := by
  intro s r h
  obtain ⟨n, -, hread, -⟩ := lexeme_spec h
  simp [hread]

theorem Fills.mapLast {f : Tree → Tree} {h : ∀ t, (f t).spell = t.spell} {a : Fragment}
    (ha : Fills a) : Fills (mapLast f h a) := by
  intro s r hr
  obtain ⟨x, hx, -, ⟨hempty, -⟩ | ⟨ts, t, -, htrees⟩⟩ := mapLast_spec hr
  · exact absurd hempty (ha s x hx)
  · simp [htrees]

theorem Fills.role {a : Fragment} {r : Role} (ha : Fills a) : Fills (role r a) := ha.mapLast

/-- A sequence reads something if one of its fragments does. -/
theorem fills_at {as : List Fragment} (n : Nat) {a : Fragment} (h : as[n]? = some a)
    (ha : Fills a) : Fills (seq as) := by
  induction as generalizing n with
  | nil => simp at h
  | cons b as ih =>
    intro s r hr
    obtain ⟨x, y, hx, hy, htrees, -⟩ := seq_cons_spec hr
    rw [htrees]
    cases n with
    | zero =>
      obtain rfl : b = a := by simpa using h
      exact List.append_ne_nil_of_left_ne_nil (ha _ x hx) _
    | succ n => exact List.append_ne_nil_of_right_ne_nil _ (ih n (by simpa using h) _ y hy)

theorem fills_alt {as : List Fragment} (h : List.Forall Fills as) : Fills (alt as) := by
  intro s r hr
  obtain ⟨a, ha, hread⟩ := alt_spec hr
  exact List.forall_iff_forall_mem.mp h a ha s r hread

/-! ### Fragments that read full trees -/

theorem filled_lexeme {k : Kind} {l : Lexeme} (hl : l.Takes)
    (hk : k.isOrdinary = true) : Filled (lexeme k l) := by
  intro s r h t ht
  obtain ⟨n, hn, htrees, -⟩ := lexeme_spec h
  rw [htrees, List.mem_singleton] at ht
  exact ht ▸ .token (hl s n hn) hk

theorem filled_space : Filled (lexeme .blank space) := by
  intro s r h t ht
  have hpiece : triviaPiece s = some r := by simp [triviaPiece, alt, h]
  obtain ⟨u, htrees, hu, hne⟩ := triviaPiece_spec hpiece
  obtain ⟨n, -, hread, -⟩ := lexeme_spec h
  rw [htrees, List.mem_singleton] at ht
  subst ht
  rcases hu with ⟨text, rfl, htext⟩ | ⟨text, rfl, -⟩
  · exact .blank (by simpa using hne) htext
  · rw [htrees] at hread
    cases hread

theorem filled_comment : Filled (lexeme .comment comment) := by
  intro s r h t ht
  obtain ⟨n, hn, htrees, -⟩ := lexeme_spec h
  rw [htrees, List.mem_singleton] at ht
  exact ht ▸ .comment (comment_take hn)

theorem filled_ahead (p : List Char → Bool) : Filled (ahead p) := by
  intro s r h t ht
  unfold ahead at h
  split at h
  · cases h
    cases ht
  · cases h

theorem Filled.andThen {a b : Fragment} (ha : Filled a) (hb : Filled b) :
    Filled (andThen a b) :=
  Reads.andThen ha hb

theorem filled_seq {as : List Fragment} (h : List.Forall Filled as) : Filled (seq as) := by
  rw [List.forall_iff_forall_mem] at h
  induction as with
  | nil => exact reads_seq_nil
  | cons a as ih =>
    exact (h a List.mem_cons_self).seq (ih fun b hb => h b (List.mem_cons_of_mem a hb))

theorem filled_alt {as : List Fragment} (h : List.Forall Filled as) : Filled (alt as) :=
  reads_alt (List.forall_iff_forall_mem.mp h)

theorem filled_trivia : Filled trivia :=
  Reads.many (filled_alt ⟨filled_space, filled_comment⟩)

theorem Filled.spaced {a : Fragment} (ha : Filled a) : Filled (spaced a) :=
  filled_trivia.andThen ha

theorem filled_token {k : Kind} {l : Lexeme} (hl : l.Shows)
    (hk : k.isOrdinary = true) : Filled (token k l) :=
  (filled_lexeme hl.takes hk).spaced

theorem filled_sym {m : String} (hm : lastVisible m.toList = true) :
    Filled (sym m) :=
  filled_token (shows_exactly hm) rfl

theorem filled_symUnless {m : String} {continuations : List String}
    (hm : lastVisible m.toList = true) : Filled (symUnless m continuations) :=
  filled_token (shows_exactlyUnless _ hm) rfl

theorem filled_word {w : String} (hw : lastVisible w.toList = true) :
    Filled (word w) :=
  filled_token (shows_exactWord hw) rfl

theorem filled_anyWord {ws : List String}
    (hws : ∀ w ∈ ws, lastVisible w.toList = true) : Filled (anyWord ws) := by
  refine filled_alt (List.forall_iff_forall_mem.mpr fun a ha => ?_)
  obtain ⟨w, hw, rfl⟩ := List.mem_map.mp ha
  exact filled_word (hws w hw)

theorem filled_node_of {k : Kind} {a : Fragment} (ha : ∀ s (r : Reading s), a s = some r →
    Full (.node none k r.trees)) : Filled (node k a) := by
  intro s r h t ht
  obtain ⟨x, y, hx, hy, htrees, -⟩ := node_spec h
  rw [htrees, List.mem_append, List.mem_singleton] at ht
  rcases ht with ht | rfl
  · exact filled_trivia _ x hx t ht
  · exact ha _ y hy

theorem Filled.node {k : Kind} {a : Fragment} (ha : Filled a) (hfills : Fills a)
    (hk : k.isOrdinary = true) : Filled (node k a) :=
  filled_node_of fun s r h => .node (hfills s r h) (ha s r h) hk

theorem Filled.mapLast {f : Tree → Tree} {h : ∀ t, (f t).spell = t.spell} {a : Fragment}
    (ha : Filled a) (hf : ∀ t, Full t → Full (f t)) : Filled (mapLast f h a) :=
  Reads.mapLast ha hf

theorem Filled.role {a : Fragment} {r : Role} (ha : Filled a) : Filled (role r a) :=
  ha.mapLast fun _ h => h.withRole r

theorem Filled.sepBy {separator a : Fragment} (hs : Filled separator) (ha : Filled a) :
    Filled (sepBy separator a) :=
  ha.andThen (Reads.many (hs.andThen ha))

theorem Filled.commaList {a : Fragment} (ha : Filled a) : Filled (commaList a) :=
  (Filled.sepBy (filled_sym (by decide)) ha).andThen (Reads.opt (filled_sym (by decide)))

/-- Every step of a chain makes a tree of an ordinary kind. -/
def OrdinarySteps (steps : List Step) : Prop :=
  (steps.all fun step => step.kind.isOrdinary) = true

theorem filled_extend {steps : List Step} (hsteps : List.Forall
    (fun step => Filled step.more) steps) (hkinds : OrdinarySteps steps)
    {s : List Char} {x y : Reading s} (hx : ∀ t ∈ x.trees, Full t) (h : extend steps x = some y) :
    ∀ t ∈ y.trees, Full t := by
  intro u hu
  obtain ⟨ts, t, step, hstep, more, hmore, hxt, hyt, -⟩ := extend_spec h
  have hfilled := List.forall_iff_forall_mem.mp hsteps step hstep
  rw [hxt] at hx
  rw [hyt, List.mem_append, List.mem_singleton] at hu
  rcases hu with hu | rfl
  · exact hx u (by simp [hu])
  · refine .node nofun (fun v hv => ?_) (List.all_eq_true.mp hkinds step hstep)
    rcases List.mem_cons.mp hv with rfl | hv
    · exact (hx t (by simp)).giveRole _
    · exact hfilled _ more hmore v hv

theorem Filled.chain {a : Fragment} {steps : List Step} (ha : Filled a)
    (hsteps : List.Forall (fun step => Filled step.more) steps)
    (hkinds : OrdinarySteps steps) : Filled (chain a steps) := by
  intro s r h
  obtain ⟨x, hx, rfl⟩ := Option.map_eq_some_iff.mp h
  exact extendWithin_induction (P := fun r => ∀ t ∈ r.trees, Full t)
    (fun x y hx hy => filled_extend hsteps hkinds hx hy) s x (ha s x hx)

theorem Filled.chainOnce {a : Fragment} {steps : List Step} (ha : Filled a)
    (hsteps : List.Forall (fun step => Filled step.more) steps)
    (hkinds : OrdinarySteps steps) : Filled (chainOnce a steps) := by
  intro s r h
  obtain ⟨x, hx, rfl⟩ := Option.map_eq_some_iff.mp h
  cases he : extend steps x with
  | none => exact ha s x hx
  | some y => exact filled_extend hsteps hkinds (ha s x hx) he

theorem filled_omittedSemicolon (e : Ending) : Filled (omittedSemicolon e) := by
  have key : ∀ fuel, Filled (omittedWithin e fuel) := by
    intro fuel
    induction fuel with
    | nil => exact filled_ahead _
    | cons c fuel ih =>
      exact filled_alt ⟨filled_ahead _, filled_seq ⟨filled_space.opt, filled_comment, ih⟩⟩
  exact fun s => key s s

theorem filled_semicolon (e : Ending) : Filled (semicolon e) :=
  filled_alt ⟨filled_sym (by decide), filled_omittedSemicolon e⟩

end Fragment

end ComponentDecl.Syntax
