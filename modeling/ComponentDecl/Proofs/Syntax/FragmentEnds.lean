import ComponentDecl.Proofs.Syntax.LexemeEnds
import ComponentDecl.Syntax.Semicolon

/-! # The ends of what fragments read

    A fragment is solid if all it reads ends visibly, and tidy if the same holds
    unless it reads nothing.  A fragment is single if it reads one construct with
    at most white space and comments before it.

    Each operator of the grammar keeps these properties.  A sequence is solid as
    soon as one of its fragments is and all after that one are tidy.
-/

namespace ComponentDecl.Syntax

open Lexeme

namespace Fragment

open ComponentDecl.Syntax.Tree (spellAll)

/-- Whatever the fragment reads ends visibly. -/
def Solid (a : Fragment) : Prop :=
  ∀ s (r : Reading s), a s = some r → EndsVisibly (spellAll r.trees)

/-- Whatever the fragment reads is empty or ends visibly. -/
def Tidy (a : Fragment) : Prop :=
  ∀ s (r : Reading s), a s = some r → spellAll r.trees = [] ∨ EndsVisibly (spellAll r.trees)

theorem Solid.tidy {a : Fragment} (ha : Solid a) : Tidy a :=
  fun s r h => Or.inr (ha s r h)

/-! ### Tokens and sequences -/

theorem tidy_nothing : Tidy nothing := by
  intro s r h
  cases h
  exact Or.inl rfl

theorem tidy_ahead (p : List Char → Bool) : Tidy (ahead p) := by
  intro s r h
  unfold ahead at h
  split at h
  · cases h
    exact Or.inl rfl
  · cases h

theorem lexeme_spec {k : Kind} {l : Lexeme} {s : List Char} {r : Reading s}
    (h : lexeme k l s = some r) :
    ∃ n, l s = some n ∧ r.trees = [.token none k (s.take n)] ∧ r.rest = s.drop n := by
  unfold lexeme at h
  split at h
  · cases h
  · next n hn =>
    cases h
    exact ⟨n, hn, rfl, rfl⟩

theorem solid_lexeme (k : Kind) {l : Lexeme} (hl : l.Shows) : Solid (lexeme k l) := by
  intro s r h
  obtain ⟨n, hn, htrees, -⟩ := lexeme_spec h
  rw [htrees]
  simpa using hl s n hn

theorem andThen_spec {a b : Fragment} {s : List Char} {r : Reading s}
    (h : andThen a b s = some r) :
    ∃ (x : Reading s) (y : Reading x.rest), a s = some x ∧ b x.rest = some y ∧
      r.trees = x.trees ++ y.trees ∧ r.rest = y.rest := by
  unfold andThen at h
  split at h
  · cases h
  · next x hx =>
    split at h
    · cases h
    · next y hy =>
      cases h
      exact ⟨x, y, hx, hy, rfl, rfl⟩

/-- A sequence reads with its first fragment, then with the others. -/
theorem seq_cons_spec {a : Fragment} {as : List Fragment} {s : List Char} {r : Reading s}
    (h : seq (a :: as) s = some r) :
    ∃ (x : Reading s) (y : Reading x.rest), a s = some x ∧ seq as x.rest = some y ∧
      r.trees = x.trees ++ y.trees ∧ r.rest = y.rest := by
  cases as with
  | nil => exact ⟨r, ⟨[], r.rest, rfl⟩, h, rfl, by simp, rfl⟩
  | cons b bs => exact andThen_spec h

theorem Solid.andThen {a b : Fragment} (ha : Solid a) (hb : Tidy b) : Solid (andThen a b) := by
  intro s r h
  obtain ⟨x, y, hx, hy, htrees, -⟩ := andThen_spec h
  rw [htrees, Tree.spellAll_append]
  rcases hb _ y hy with hempty | hends
  · rw [hempty, List.append_nil]
    exact ha s x hx
  · exact hends.prepend _

theorem solid_andThen {a b : Fragment} (hb : Solid b) : Solid (andThen a b) := by
  intro s r h
  obtain ⟨x, y, -, hy, htrees, -⟩ := andThen_spec h
  rw [htrees, Tree.spellAll_append]
  exact (hb _ y hy).prepend _

theorem Tidy.andThen {a b : Fragment} (ha : Tidy a) (hb : Tidy b) : Tidy (andThen a b) := by
  intro s r h
  obtain ⟨x, y, hx, hy, htrees, -⟩ := andThen_spec h
  rw [htrees, Tree.spellAll_append]
  rcases hb _ y hy with hempty | hends
  · rw [hempty, List.append_nil]
    exact ha s x hx
  · exact Or.inr (hends.prepend _)

theorem tidy_seq_nil : Tidy (seq []) := tidy_nothing

theorem Tidy.seq {a : Fragment} {as : List Fragment} (ha : Tidy a) (has : Tidy (seq as)) :
    Tidy (seq (a :: as)) := by
  cases as with
  | nil => exact ha
  | cons b bs => exact ha.andThen has

/-- A sequence is solid if its first fragment is and the others are tidy. -/
theorem Solid.first {a : Fragment} {as : List Fragment} (ha : Solid a) (has : Tidy (seq as)) :
    Solid (seq (a :: as)) := by
  cases as with
  | nil => exact ha
  | cons b bs => exact ha.andThen has

/-- A sequence is solid if it is so without its first fragment. -/
theorem Solid.after {a b : Fragment} {as : List Fragment} (h : Solid (seq (b :: as))) :
    Solid (seq (a :: b :: as)) :=
  solid_andThen h

/-- A sequence is solid if its last fragment is. -/
theorem solid_seq_last {as : List Fragment} {a : Fragment} (h : as.getLast? = some a)
    (ha : Solid a) : Solid (seq as) := by
  induction as with
  | nil => simp at h
  | cons b bs ih =>
    cases bs with
    | nil =>
      obtain rfl : b = a := by simpa using h
      exact ha
    | cons c cs => exact (ih (by simpa using h)).after

/-! ### Choices and repetitions -/

theorem alt_cons_spec {a : Fragment} {as : List Fragment} {s : List Char} {r : Reading s}
    (h : alt (a :: as) s = some r) : a s = some r ∨ alt as s = some r := by
  simp only [alt] at h
  cases ha : a s with
  | none =>
    rw [ha] at h
    exact Or.inr h
  | some x =>
    rw [ha] at h
    exact Or.inl h

theorem alt_spec {as : List Fragment} {s : List Char} {r : Reading s}
    (h : alt as s = some r) : ∃ a ∈ as, a s = some r := by
  induction as with
  | nil => cases h
  | cons a as ih =>
    rcases alt_cons_spec h with h | h
    · exact ⟨a, List.mem_cons_self, h⟩
    · obtain ⟨b, hb, hread⟩ := ih h
      exact ⟨b, List.mem_cons_of_mem a hb, hread⟩

theorem solid_alt_nil : Solid (alt []) := by
  intro s r h
  cases h

theorem Solid.or {a : Fragment} {as : List Fragment} (ha : Solid a) (has : Solid (alt as)) :
    Solid (alt (a :: as)) := by
  intro s r h
  exact (alt_cons_spec h).elim (ha s r) (has s r)

theorem solid_alt {as : List Fragment} (has : ∀ a ∈ as, Solid a) : Solid (alt as) := by
  intro s r h
  obtain ⟨a, ha, hread⟩ := alt_spec h
  exact has a ha s r hread

theorem tidy_alt_nil : Tidy (alt []) := solid_alt_nil.tidy

theorem Tidy.or {a : Fragment} {as : List Fragment} (ha : Tidy a) (has : Tidy (alt as)) :
    Tidy (alt (a :: as)) := by
  intro s r h
  exact (alt_cons_spec h).elim (ha s r) (has s r)

theorem Tidy.opt {a : Fragment} (ha : Tidy a) : Tidy (opt a) :=
  ha.or (tidy_nothing.or tidy_alt_nil)

theorem exists_repeatWithin (a : Fragment) (fuel s : List Char) :
    ∃ y, repeatWithin fuel a s = some y := by
  induction fuel generalizing s with
  | nil => exact ⟨_, rfl⟩
  | cons d fuel ih =>
    simp only [repeatWithin]
    cases a s with
    | none => exact ⟨_, rfl⟩
    | some z =>
      obtain ⟨y, hy⟩ := ih z.rest
      simp only [hy]
      split
      · exact ⟨_, rfl⟩
      · exact ⟨_, rfl⟩

/-- Repeated reading either stops at once or reads once and goes on. -/
theorem repeatWithin_spec {fuel : List Char} {a : Fragment} {s : List Char} {r : Reading s}
    (h : repeatWithin fuel a s = some r) :
    (r.trees = [] ∧ r.rest = s ∧ (fuel = [] ∨ a s = none)) ∨
    (∃ x : Reading s, a s = some x ∧ x.trees = [] ∧ r = x) ∨
    (∃ (x : Reading s) (y : Reading x.rest), fuel ≠ [] ∧ a s = some x ∧ x.trees ≠ [] ∧
      repeatWithin fuel.tail a x.rest = some y ∧ r.trees = x.trees ++ y.trees ∧
      r.rest = y.rest) := by
  cases fuel with
  | nil =>
    cases h
    exact Or.inl ⟨rfl, rfl, Or.inl rfl⟩
  | cons c fuel =>
    simp only [repeatWithin] at h
    split at h
    · next ha =>
      cases h
      exact Or.inl ⟨rfl, rfl, Or.inr ha⟩
    · next x hx =>
      split at h
      · next hempty =>
        cases h
        exact Or.inr (Or.inl ⟨r, hx, by simpa using hempty, rfl⟩)
      · next hne =>
        refine Or.inr (Or.inr ?_)
        have hne : x.trees ≠ [] := by simpa using hne
        obtain ⟨y, hy⟩ := exists_repeatWithin a fuel x.rest
        simp only [hy, Option.some.injEq] at h
        subst h
        exact ⟨x, y, by simp, hx, hne, hy, rfl, rfl⟩

theorem Tidy.repeatWithin {a : Fragment} (ha : Tidy a) (fuel : List Char) :
    Tidy (repeatWithin fuel a) := by
  induction fuel with
  | nil => exact tidy_nothing
  | cons c fuel ih =>
    intro s r h
    rcases repeatWithin_spec h with ⟨htrees, -⟩ | ⟨x, -, htrees, rfl⟩ |
      ⟨x, y, -, hx, -, hy, htrees, -⟩
    · exact Or.inl (by rw [htrees]; rfl)
    · exact Or.inl (by rw [htrees]; rfl)
    · rw [htrees, Tree.spellAll_append]
      rcases ih _ y hy with hempty | hends
      · rw [hempty, List.append_nil]
        exact ha s x hx
      · exact Or.inr (hends.prepend _)

theorem Tidy.many {a : Fragment} (ha : Tidy a) : Tidy (many a) :=
  fun s => ha.repeatWithin s s

theorem Solid.sepBy {separator a : Fragment} (ha : Solid a) : Solid (sepBy separator a) :=
  ha.andThen (Tidy.many (solid_andThen ha).tidy)

/-! ### White space and constructs -/

theorem Solid.spaced {a : Fragment} (ha : Solid a) : Solid (spaced a) := solid_andThen ha

theorem solid_token (k : Kind) {l : Lexeme} (hl : l.Shows) : Solid (token k l) :=
  (solid_lexeme k hl).spaced

theorem solid_sym {m : String} (hm : lastVisible m.toList = true) : Solid (sym m) :=
  solid_token _ (shows_exactly hm)

theorem solid_symUnless {m : String} (continuations : List String)
    (hm : lastVisible m.toList = true) : Solid (symUnless m continuations) :=
  solid_token _ (shows_exactlyUnless _ hm)

theorem solid_word {w : String} (hw : lastVisible w.toList = true) : Solid (word w) :=
  solid_token _ (shows_exactWord hw)

theorem node_spec {k : Kind} {a : Fragment} {s : List Char} {r : Reading s}
    (h : node k a s = some r) :
    ∃ (x : Reading s) (y : Reading x.rest), trivia s = some x ∧ a x.rest = some y ∧
      r.trees = x.trees ++ [.node none k y.trees] ∧ r.rest = y.rest := by
  unfold node spaced at h
  obtain ⟨x, y, hx, hy, htrees, hrest⟩ := andThen_spec h
  split at hy
  · cases hy
  · next z hz =>
    cases hy
    exact ⟨x, z, hx, hz, htrees, hrest⟩

theorem Solid.node (k : Kind) {a : Fragment} (ha : Solid a) : Solid (node k a) := by
  intro s r h
  obtain ⟨x, y, -, hy, htrees, -⟩ := node_spec h
  rw [htrees, Tree.spellAll_append]
  exact EndsVisibly.prepend (by simpa using ha _ y hy) _

theorem mapLast_spec {f : Tree → Tree} {h : ∀ t, (f t).spell = t.spell} {a : Fragment}
    {s : List Char} {r : Reading s} (hr : mapLast f h a s = some r) :
    ∃ x : Reading s, a s = some x ∧ r.rest = x.rest ∧
      ((x.trees = [] ∧ r.trees = []) ∨
        ∃ ts t, x.trees = ts ++ [t] ∧ r.trees = ts ++ [f t]) := by
  unfold mapLast at hr
  split at hr
  · cases hr
  · next x hx =>
    split at hr
    · next hnil =>
      cases hr
      have hnil : r.trees = [] := by simpa using hnil
      exact ⟨r, hx, rfl, Or.inl ⟨hnil, hnil⟩⟩
    · next t ts hcons =>
      cases hr
      refine ⟨x, hx, rfl, Or.inr ⟨ts.reverse, t, ?_, rfl⟩⟩
      rw [← List.reverse_reverse x.trees, hcons, List.reverse_cons]

theorem Solid.mapLast {f : Tree → Tree} {h : ∀ t, (f t).spell = t.spell} {a : Fragment}
    (ha : Solid a) : Solid (mapLast f h a) := by
  intro s r hr
  obtain ⟨x, hx, -, ⟨hx', hr'⟩ | ⟨ts, t, hx', hr'⟩⟩ := mapLast_spec hr
  · exact hr' ▸ hx' ▸ ha s x hx
  · have := ha s x hx
    rw [hx'] at this
    rw [hr']
    simpa [h t] using this

theorem Solid.role (r : Role) {a : Fragment} (ha : Solid a) : Solid (role r a) := ha.mapLast

/-! ### Chains -/

/-- Extending a reading wraps its last tree together with what one step reads. -/
theorem extend_spec {steps : List Step} {s : List Char} {x y : Reading s}
    (h : extend steps x = some y) :
    ∃ ts t, ∃ step ∈ steps, ∃ more : Reading x.rest,
      step.more x.rest = some more ∧ x.trees = ts ++ [t] ∧
      y.trees = ts ++ [.node none step.kind (giveRole step.role t :: more.trees)] ∧
      y.rest = more.rest := by
  unfold extend at h
  split at h
  · cases h
  · next t ts hcons =>
    obtain ⟨step, hstep, hmore⟩ := List.exists_of_findSome?_eq_some h
    obtain ⟨more, hread, rfl⟩ := Option.map_eq_some_iff.mp hmore
    refine ⟨ts.reverse, t, step, hstep, more, hread, ?_, rfl, rfl⟩
    rw [← List.reverse_reverse x.trees, hcons, List.reverse_cons]

/-- A property of readings that one extension keeps is kept by all. -/
theorem extendWithin_induction {steps : List Step} {s : List Char} {P : Reading s → Prop}
    (hstep : ∀ x y, P x → extend steps x = some y → P y) (fuel : List Char) :
    ∀ x : Reading s, P x → P (extendWithin fuel steps x) := by
  induction fuel with
  | nil => exact fun x hx => hx
  | cons c fuel ih =>
    intro x hx
    rw [extendWithin]
    cases he : extend steps x with
    | none => exact hx
    | some y => exact ih y (hstep x y hx he)

/-- Every step of a chain reads tidily. -/
def TidySteps (steps : List Step) : Prop :=
  ∀ step ∈ steps, Tidy step.more

theorem tidySteps_nil : TidySteps [] := by
  intro step h
  cases h

theorem TidySteps.cons {k : Kind} {r : Option Role} {a : Fragment} {steps : List Step}
    (ha : Tidy a) (h : TidySteps steps) : TidySteps (⟨k, r, a⟩ :: steps) := by
  intro step hstep
  rcases List.mem_cons.mp hstep with rfl | hstep
  · exact ha
  · exact h step hstep

theorem TidySteps.append {steps others : List Step} (h : TidySteps steps)
    (h' : TidySteps others) : TidySteps (steps ++ others) := by
  intro step hstep
  exact (List.mem_append.mp hstep).elim (h step) (h' step)

theorem TidySteps.filter {steps : List Step} (h : TidySteps steps) (p : Step → Bool) :
    TidySteps (steps.filter p) :=
  fun step hstep => h step ((List.mem_filter.mp hstep).1)

theorem endsVisibly_extend {steps : List Step} (hsteps : TidySteps steps) {s : List Char}
    {x y : Reading s} (hx : EndsVisibly (spellAll x.trees)) (h : extend steps x = some y) :
    EndsVisibly (spellAll y.trees) := by
  obtain ⟨ts, t, step, hstep, more, hmore, hxt, hyt, -⟩ := extend_spec h
  rw [hxt] at hx
  have hspell : spellAll y.trees = spellAll (ts ++ [t]) ++ spellAll more.trees := by
    simp [hyt, spell_giveRole]
  rw [hspell]
  rcases hsteps step hstep _ more hmore with hempty | hends
  · rwa [hempty, List.append_nil]
  · exact hends.prepend _

theorem Solid.chain {a : Fragment} {steps : List Step} (ha : Solid a)
    (hsteps : TidySteps steps) : Solid (chain a steps) := by
  intro s r h
  obtain ⟨x, hx, rfl⟩ := Option.map_eq_some_iff.mp h
  exact extendWithin_induction (P := fun r => EndsVisibly (spellAll r.trees))
    (fun x y hx hy => endsVisibly_extend hsteps hx hy) s x (ha s x hx)

theorem Solid.chainOnce {a : Fragment} {steps : List Step} (ha : Solid a)
    (hsteps : TidySteps steps) : Solid (chainOnce a steps) := by
  intro s r h
  obtain ⟨x, hx, rfl⟩ := Option.map_eq_some_iff.mp h
  cases he : extend steps x with
  | none => exact ha s x hx
  | some y => exact endsVisibly_extend hsteps (ha s x hx) he

/-! ### Semicolons -/

theorem tidy_omittedWithin (e : Ending) (fuel : List Char) : Tidy (omittedWithin e fuel) := by
  induction fuel with
  | nil => exact tidy_ahead _
  | cons c fuel ih =>
    have hcomment : Solid (seq [opt (lexeme .blank space), lexeme .comment comment,
        omittedWithin e fuel]) :=
      ((solid_lexeme .comment shows_comment).first (ih.seq tidy_seq_nil)).after
    exact (tidy_ahead _).or (hcomment.tidy.or tidy_alt_nil)

theorem tidy_omittedSemicolon (e : Ending) : Tidy (omittedSemicolon e) :=
  fun s => tidy_omittedWithin e s s

theorem tidy_semicolon (e : Ending) : Tidy (semicolon e) :=
  (solid_sym (by decide)).tidy.or ((tidy_omittedSemicolon e).or tidy_alt_nil)

end Fragment

end ComponentDecl.Syntax
