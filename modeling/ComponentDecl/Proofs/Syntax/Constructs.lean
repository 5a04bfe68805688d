import ComponentDecl.Proofs.Syntax.FragmentEnds

/-! # One construct at a time

    White space and comments are read as far as they go, so what follows them
    starts visibly.  A fragment that makes a construct therefore reads one tree
    with visible ends, after white space and comments that belong to nothing.
-/

namespace ComponentDecl.Syntax

open Lexeme

/-! ### White space and comments -/

/-- White space as the tree of a blank token. -/
def IsBlank (t : Tree) : Prop :=
  ∃ text, t = .token none .blank text ∧ ∀ c ∈ text, isSpace c = true

/-- White space or a comment that stands by itself. -/
def IsTrivia (t : Tree) : Prop :=
  IsBlank t ∨ ∃ text, t = .token none .comment text ∧ StartsVisibly text ∧ EndsVisibly text

theorem IsTrivia.role_eq {t : Tree} (h : IsTrivia t) : t.role = none := by
  rcases h with ⟨text, rfl, -⟩ | ⟨text, rfl, -⟩ <;> rfl

theorem IsTrivia.kind_eq {t : Tree} (h : IsTrivia t) : t.kind = .blank ∨ t.kind = .comment := by
  rcases h with ⟨text, rfl, -⟩ | ⟨text, rfl, -⟩
  · exact Or.inl rfl
  · exact Or.inr rfl

/-- White space, or a tree with visible ends. -/
def IsSettled (t : Tree) : Prop :=
  IsBlank t ∨ t.kind ≠ .blank ∧ StartsVisibly t.spell ∧ EndsVisibly t.spell

theorem IsTrivia.settled {t : Tree} (h : IsTrivia t) : IsSettled t := by
  rcases h with h | ⟨text, rfl, hstarts, hends⟩
  · exact Or.inl h
  · exact Or.inr ⟨nofun, by simpa using hstarts, by simpa using hends⟩

theorem startsVisibly_of_comment {s : List Char} {n : Nat} (h : comment s = some n) :
    StartsVisibly (s.take n) := by
  unfold comment at h
  split at h
  · cases h
    exact ⟨'/', _, rfl, by decide⟩
  · next rest =>
    obtain ⟨k, -, rfl⟩ := Option.map_eq_some_iff.mp h
    exact ⟨'/', _, rfl, by decide⟩
  · cases h

namespace Fragment

open ComponentDecl.Syntax.Tree (spellAll)

/-- One piece of white space, or one comment. -/
def triviaPiece : Fragment :=
  alt [lexeme .blank space, lexeme .comment comment]

theorem triviaPiece_spec {s : List Char} {r : Reading s} (h : triviaPiece s = some r) :
    ∃ t, r.trees = [t] ∧ IsTrivia t ∧ t.spell ≠ [] := by
  obtain ⟨a, ha, hread⟩ := alt_spec h
  obtain rfl | rfl : a = lexeme .blank space ∨ a = lexeme .comment comment := by simpa using ha
  · obtain ⟨n, hn, htrees, -⟩ := lexeme_spec hread
    refine ⟨_, htrees, Or.inl ⟨_, rfl, ?_⟩, ?_⟩
    · unfold space at hn
      cases hk : (s.takeWhile isSpace).length with
      | zero =>
        rw [hk] at hn
        cases hn
      | succ k =>
        rw [hk] at hn
        cases hn
        rw [← hk, ← List.prefix_iff_eq_take.mp (List.takeWhile_prefix isSpace)]
        exact fun c hc => List.all_eq_true.mp List.all_takeWhile c hc
    · unfold space at hn
      cases s with
      | nil => cases hn
      | cons c s =>
        cases hk : ((c :: s).takeWhile isSpace).length with
        | zero =>
          rw [hk] at hn
          cases hn
        | succ k =>
          rw [hk] at hn
          cases hn
          simp
  · obtain ⟨n, hn, htrees, -⟩ := lexeme_spec hread
    have hends := shows_comment s n hn
    exact ⟨_, htrees, Or.inr ⟨_, rfl, startsVisibly_of_comment hn, hends⟩,
      by simpa using hends.ne_nil⟩

/-- Where no white space is read, none stands. -/
theorem startsVisibly_of_triviaPiece_eq_none {s : List Char} (h : triviaPiece s = none) :
    s = [] ∨ StartsVisibly s := by
  cases s with
  | nil => exact Or.inl rfl
  | cons c s =>
    refine Or.inr ⟨c, s, rfl, ?_⟩
    cases hc : isSpace c with
    | false => rfl
    | true =>
      have hspace : space (c :: s) = some ((s.takeWhile isSpace).length + 1) := by
        simp [space, hc]
      simp [triviaPiece, alt, lexeme, hspace] at h

theorem repeatWithin_triviaPiece_spec (fuel : List Char) :
    ∀ {s : List Char} {r : Reading s}, s.length ≤ fuel.length →
      repeatWithin fuel triviaPiece s = some r →
      (∀ t ∈ r.trees, IsTrivia t) ∧ (r.rest = [] ∨ StartsVisibly r.rest) := by
  induction fuel with
  | nil =>
    intro s r hfuel h
    obtain rfl : s = [] := by simpa using hfuel
    cases h
    exact ⟨by simp, Or.inl rfl⟩
  | cons c fuel ih =>
    intro s r hfuel h
    rcases repeatWithin_spec h with ⟨htrees, hrest, hstop⟩ | ⟨x, hx, htrees, rfl⟩ |
      ⟨x, y, -, hx, -, hy, htrees, hrest⟩
    · refine ⟨by simp [htrees], ?_⟩
      rw [hrest]
      exact startsVisibly_of_triviaPiece_eq_none (hstop.resolve_left (by simp))
    · obtain ⟨t, ht, -⟩ := triviaPiece_spec hx
      simp [htrees] at ht
    · obtain ⟨t, ht, htrivia, hne⟩ := triviaPiece_spec hx
      have hlength : x.rest.length ≤ fuel.length := by
        have hspelled := congrArg List.length x.spelled
        have hpos : 0 < t.spell.length := List.length_pos_iff.mpr hne
        simp only [ht, Tree.spellAll_cons, Tree.spellAll_nil, List.append_nil,
          List.length_append] at hspelled
        simp only [List.length_cons] at hfuel
        omega
      obtain ⟨hall, hend⟩ := ih hlength hy
      rw [htrees, hrest, ht]
      refine ⟨fun u hu => ?_, hend⟩
      rcases List.mem_cons.mp hu with rfl | hu
      · exact htrivia
      · exact hall u hu

/-- White space and comments are read as far as they go. -/
theorem trivia_spec {s : List Char} {r : Reading s} (h : trivia s = some r) :
    (∀ t ∈ r.trees, IsTrivia t) ∧ (r.rest = [] ∨ StartsVisibly r.rest) :=
  repeatWithin_triviaPiece_spec s (Nat.le_refl _) h

/-! ### Single constructs -/

/-- A construct that has visible ends and no role yet. -/
structure IsConstruct (t : Tree) : Prop where
  role_eq : t.role = none
  not_blank : t.kind ≠ .blank
  not_comment : t.kind ≠ .comment
  starts : StartsVisibly t.spell

/-- The fragment reads one construct, after white space and comments. -/
def Single (a : Fragment) : Prop :=
  ∀ s (r : Reading s), a s = some r →
    ∃ before t, r.trees = before ++ [t] ∧ (∀ u ∈ before, IsTrivia u) ∧ IsConstruct t

theorem single_spaced_of_tree {a : Fragment} (ha : Solid a)
    (htree : ∀ s (r : Reading s), a s = some r →
      ∃ t, r.trees = [t] ∧ t.role = none ∧ t.kind ≠ .blank ∧ t.kind ≠ .comment) :
    Single (spaced a) := by
  intro s r h
  obtain ⟨x, y, hx, hy, htrees, -⟩ := andThen_spec h
  obtain ⟨htrivia, hrest⟩ := trivia_spec hx
  obtain ⟨t, ht, hrole, hblank, hcomment⟩ := htree _ y hy
  have hends := ha _ y hy
  have hspelled := y.spelled
  rw [ht] at hends hspelled
  simp only [Tree.spellAll_cons, Tree.spellAll_nil, List.append_nil] at hends hspelled
  exact ⟨x.trees, t, by rw [htrees, ht], htrivia, hrole, hblank, hcomment,
    startsVisibly_of_append_eq hspelled hrest hends.ne_nil⟩

theorem single_token {k : Kind} {l : Lexeme} (hl : l.Shows) (hblank : k ≠ .blank)
    (hcomment : k ≠ .comment) : Single (token k l) := by
  refine single_spaced_of_tree (solid_lexeme k hl) fun s r h => ?_
  obtain ⟨n, -, htrees, -⟩ := lexeme_spec h
  exact ⟨_, htrees, rfl, hblank, hcomment⟩

theorem single_node {k : Kind} {a : Fragment} (ha : Solid a) (hblank : k ≠ .blank)
    (hcomment : k ≠ .comment) : Single (node k a) := by
  intro s r h
  obtain ⟨x, y, hx, hy, htrees, -⟩ := node_spec h
  obtain ⟨htrivia, hrest⟩ := trivia_spec hx
  refine ⟨x.trees, _, htrees, htrivia, rfl, hblank, hcomment, ?_⟩
  rw [Tree.spell_node]
  exact startsVisibly_of_append_eq y.spelled hrest (ha _ y hy).ne_nil

theorem Single.spaced {a : Fragment} (ha : Single a) : Single (spaced a) := by
  intro s r h
  obtain ⟨x, y, hx, hy, htrees, -⟩ := andThen_spec h
  obtain ⟨before, t, hy', hbefore, ht⟩ := ha _ y hy
  refine ⟨x.trees ++ before, t, by rw [htrees, hy', List.append_assoc], fun u hu => ?_, ht⟩
  exact (List.mem_append.mp hu).elim ((trivia_spec hx).1 u) (hbefore u)

theorem single_alt_nil : Single (alt []) := by
  intro s r h
  cases h

theorem Single.or {a : Fragment} {as : List Fragment} (ha : Single a) (has : Single (alt as)) :
    Single (alt (a :: as)) := by
  intro s r h
  exact (alt_cons_spec h).elim (ha s r) (has s r)

/-- Every step of a chain makes a construct. -/
def ConstructSteps (steps : List Step) : Prop :=
  (steps.all fun step => step.kind != .blank && step.kind != .comment) = true

theorem single_extend {steps : List Step} (hsteps : ConstructSteps steps) {s : List Char}
    {x y : Reading s}
    (hx : ∃ before t, x.trees = before ++ [t] ∧ (∀ u ∈ before, IsTrivia u) ∧ IsConstruct t)
    (h : extend steps x = some y) :
    ∃ before t, y.trees = before ++ [t] ∧ (∀ u ∈ before, IsTrivia u) ∧ IsConstruct t := by
  obtain ⟨before, t, hxt, hbefore, ht⟩ := hx
  obtain ⟨ts, u, step, hstep, more, -, hxt', hyt, -⟩ := extend_spec h
  obtain ⟨rfl, hu⟩ := List.append_inj' (hxt.symm.trans hxt') rfl
  obtain rfl : t = u := by simpa using hu
  have hkind := List.all_eq_true.mp hsteps step hstep
  simp only [Bool.and_eq_true, bne_iff_ne] at hkind
  obtain ⟨hblank, hcomment⟩ := hkind
  refine ⟨before, _, hyt, hbefore, rfl, hblank, hcomment, ?_⟩
  rw [Tree.spell_node, Tree.spellAll_cons, spell_giveRole]
  exact ht.starts.append _

/-! ### Fragments for whole constructs -/

/-- The fragment reads one construct, and this construct ends visibly. -/
structure Whole (a : Fragment) : Prop where
  solid : Solid a
  single : Single a

theorem whole_token {k : Kind} {l : Lexeme} (hl : l.Shows)
    (hk : k ≠ .blank ∧ k ≠ .comment) : Whole (token k l) :=
  ⟨solid_token k hl, single_token hl hk.1 hk.2⟩

theorem Solid.whole {k : Kind} {a : Fragment} (ha : Solid a)
    (hk : k ≠ .blank ∧ k ≠ .comment) : Whole (Fragment.node k a) :=
  ⟨ha.node k, single_node ha hk.1 hk.2⟩

theorem whole_alt_nil : Whole (alt []) := ⟨solid_alt_nil, single_alt_nil⟩

theorem Whole.or {a : Fragment} {as : List Fragment} (ha : Whole a) (has : Whole (alt as)) :
    Whole (alt (a :: as)) :=
  ⟨ha.solid.or has.solid, ha.single.or has.single⟩

theorem Whole.chain {a : Fragment} {steps : List Step} (ha : Whole a)
    (hsteps : TidySteps steps) (hkinds : ConstructSteps steps) : Whole (chain a steps) := by
  refine ⟨ha.solid.chain hsteps, fun s r h => ?_⟩
  obtain ⟨x, hx, rfl⟩ := Option.map_eq_some_iff.mp h
  exact extendWithin_induction (fun x y hx hy => single_extend hkinds hx hy) s x
    (ha.single s x hx)

theorem Whole.chainOnce {a : Fragment} {steps : List Step} (ha : Whole a)
    (hsteps : TidySteps steps) (hkinds : ConstructSteps steps) : Whole (chainOnce a steps) := by
  refine ⟨ha.solid.chainOnce hsteps, fun s r h => ?_⟩
  obtain ⟨x, hx, rfl⟩ := Option.map_eq_some_iff.mp h
  cases he : extend steps x with
  | none => exact ha.single s x hx
  | some y => exact single_extend hkinds (ha.single s x hx) he

/-! ### Properties of all trees read -/

/-- Every tree that the fragment reads has a property. -/
def Reads (P : Tree → Prop) (a : Fragment) : Prop :=
  ∀ s (r : Reading s), a s = some r → ∀ t ∈ r.trees, P t

variable {P : Tree → Prop}

theorem reads_seq_nil : Reads P (seq []) := by
  intro s r h t ht
  cases h
  cases ht

theorem Reads.seq {a : Fragment} {as : List Fragment} (ha : Reads P a)
    (has : Reads P (seq as)) : Reads P (seq (a :: as)) := by
  intro s r h t ht
  obtain ⟨x, y, hx, hy, htrees, -⟩ := seq_cons_spec h
  rw [htrees, List.mem_append] at ht
  exact ht.elim (ha _ x hx t) (has _ y hy t)

theorem reads_alt_nil : Reads P (alt []) := by
  intro s r h
  cases h

theorem Reads.or {a : Fragment} {as : List Fragment} (ha : Reads P a)
    (has : Reads P (alt as)) : Reads P (alt (a :: as)) := by
  intro s r h
  exact (alt_cons_spec h).elim (ha s r) (has s r)

theorem Reads.opt {a : Fragment} (ha : Reads P a) : Reads P (opt a) :=
  ha.or (Reads.or reads_seq_nil reads_alt_nil)

theorem Reads.many {a : Fragment} (ha : Reads P a) : Reads P (many a) := by
  intro s
  have key : ∀ fuel t, ∀ r : Reading t, repeatWithin fuel a t = some r → ∀ u ∈ r.trees, P u := by
    intro fuel
    induction fuel with
    | nil =>
      intro t r h u hu
      cases h
      cases hu
    | cons c fuel ih =>
      intro t r h u hu
      rcases repeatWithin_spec h with ⟨htrees, -⟩ | ⟨x, -, htrees, rfl⟩ |
        ⟨x, y, -, hx, -, hy, htrees, -⟩
      · simp [htrees] at hu
      · simp [htrees] at hu
      · rw [htrees, List.mem_append] at hu
        exact hu.elim (ha _ x hx u) (ih _ y hy u)
  exact key s s

theorem Reads.andThen {a b : Fragment} (ha : Reads P a) (hb : Reads P b) :
    Reads P (andThen a b) := by
  intro s r h t ht
  obtain ⟨x, y, hx, hy, htrees, -⟩ := andThen_spec h
  rw [htrees, List.mem_append] at ht
  exact ht.elim (ha _ x hx t) (hb _ y hy t)

theorem reads_alt {as : List Fragment} (has : ∀ a ∈ as, Reads P a) : Reads P (alt as) := by
  intro s r h
  obtain ⟨a, ha, hread⟩ := alt_spec h
  exact has a ha s r hread

theorem Reads.mapLast {f : Tree → Tree} {h : ∀ t, (f t).spell = t.spell} {a : Fragment}
    (ha : Reads P a) (hf : ∀ t, P t → P (f t)) : Reads P (mapLast f h a) := by
  intro s r hr t ht
  obtain ⟨x, hx, -, ⟨-, hempty⟩ | ⟨ts, u, hxtrees, htrees⟩⟩ := mapLast_spec hr
  · simp [hempty] at ht
  · have hall := ha s x hx
    rw [hxtrees] at hall
    rw [htrees, List.mem_append, List.mem_singleton] at ht
    rcases ht with ht | rfl
    · exact hall t (by simp [ht])
    · exact hf u (hall u (by simp))

/-- Steps that make only trees with a property keep it. -/
theorem reads_extend {steps : List Step}
    (hsteps : ∀ step ∈ steps, ∀ ts, P (.node none step.kind ts)) {s : List Char}
    {x y : Reading s} (hx : ∀ t ∈ x.trees, P t) (h : extend steps x = some y) :
    ∀ t ∈ y.trees, P t := by
  intro u hu
  obtain ⟨ts, t, step, hstep, more, -, hxt, hyt, -⟩ := extend_spec h
  rw [hxt] at hx
  rw [hyt, List.mem_append, List.mem_singleton] at hu
  rcases hu with hu | rfl
  · exact hx u (by simp [hu])
  · exact hsteps step hstep _

theorem Reads.chain {a : Fragment} {steps : List Step} (ha : Reads P a)
    (hsteps : ∀ step ∈ steps, ∀ ts, P (.node none step.kind ts)) : Reads P (chain a steps) := by
  intro s r h
  obtain ⟨x, hx, rfl⟩ := Option.map_eq_some_iff.mp h
  exact extendWithin_induction (P := fun r => ∀ t ∈ r.trees, P t)
    (fun x y hx hy => reads_extend hsteps hx hy) s x (ha s x hx)

theorem Reads.chainOnce {a : Fragment} {steps : List Step} (ha : Reads P a)
    (hsteps : ∀ step ∈ steps, ∀ ts, P (.node none step.kind ts)) :
    Reads P (chainOnce a steps) := by
  intro s r h
  obtain ⟨x, hx, rfl⟩ := Option.map_eq_some_iff.mp h
  cases he : extend steps x with
  | none => exact ha s x hx
  | some y => exact reads_extend hsteps (ha s x hx) he

variable (htrivia : ∀ t, IsTrivia t → P t)

include htrivia

theorem Reads.spaced {a : Fragment} (ha : Reads P a) : Reads P (spaced a) :=
  Reads.andThen (fun _ _ h t ht => htrivia t ((trivia_spec h).1 t ht)) ha

theorem reads_token {k : Kind} {l : Lexeme}
    (hk : ∀ s n, l s = some n → P (.token none k (s.take n))) :
    Reads P (token k l) := by
  intro s r h t ht
  obtain ⟨x, y, hx, hy, htrees, -⟩ := andThen_spec h
  rw [htrees, List.mem_append] at ht
  rcases ht with ht | ht
  · exact htrivia t ((trivia_spec hx).1 t ht)
  · obtain ⟨n, hn, hread, -⟩ := lexeme_spec hy
    rw [hread, List.mem_singleton] at ht
    exact ht ▸ hk _ _ hn

theorem reads_node {k : Kind} {a : Fragment} (hk : ∀ s (r : Reading s), a s = some r →
    P (.node none k r.trees)) : Reads P (node k a) := by
  intro s r h t ht
  obtain ⟨x, y, hx, hy, htrees, -⟩ := node_spec h
  rw [htrees, List.mem_append, List.mem_singleton] at ht
  rcases ht with ht | rfl
  · exact htrivia t ((trivia_spec hx).1 t ht)
  · exact hk _ y hy

theorem Single.reads {a : Fragment} (ha : Single a)
    (hconstruct : ∀ t, IsConstruct t → P t) : Reads P a := by
  intro s r h t ht
  obtain ⟨before, u, htrees, hbefore, hu⟩ := ha s r h
  rw [htrees, List.mem_append, List.mem_singleton] at ht
  rcases ht with ht | rfl
  · exact htrivia t (hbefore t ht)
  · exact hconstruct t hu

end Fragment

end ComponentDecl.Syntax
