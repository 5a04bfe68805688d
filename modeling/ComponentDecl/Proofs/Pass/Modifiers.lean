import ComponentDecl.Proofs.Pass.Attachment
import ComponentDecl.Proofs.Syntax.Modifiers

/-! # What normalizing an export changes

    The first stage puts one head in the place of all that stands before the exported class in
    its statement: words, decorators, and also comments.  From the class to the end of the
    statement nothing changes but three type arguments of the base, if there are three.
    Outside of the statement nothing changes but that the exporting statement goes away, if it
    is another one.

    Key theorems:
    - `ExportedClass.In.leadsTo`: what stands before an exported class
    - `normalizeExport_changes`: the bytes that the first stage makes
-/

namespace ComponentDecl

open Syntax Text

variable {m : Module} {comments : Option Comments} {settings : Settings} {x : ExportedClass}

/-! ### From a statement to its class -/

namespace Syntax.Node

/-- Holds of a node and one below it if what stands between their starts may stand before a
    class. -/
def LeadsTo (n d : Node) : Prop :=
  ∃ lead after, n.Holds d (Tree.spellAll lead) after ∧ ∀ t ∈ lead, LeadsClass t

theorem LeadsTo.refl (n : Node) : n.LeadsTo n :=
  ⟨[], [], Holds.refl n, List.forall_mem_nil _⟩

theorem LeadsTo.trans {n d e : Node} (h : n.LeadsTo d) (h' : d.LeadsTo e) : n.LeadsTo e := by
  obtain ⟨lead, after, hholds, hlead⟩ := h
  obtain ⟨lead', after', hholds', hlead'⟩ := h'
  refine ⟨lead ++ lead', after' ++ after, ?_, List.forall_mem_append.mpr ⟨hlead, hlead'⟩⟩
  rw [Tree.spellAll_append]
  exact hholds.trans hholds'

/-- A wrapper leads up to the one node directly below it that may hold a class. -/
theorem leadsTo_child {n c : Node} (h : ClassLed n.tree) (hwrapper : n.kind.isWrapper = true)
    (hc : c ∈ n.children) (hkind : c.kind.bearsClass = true) :
    n.LeadsTo c ∧ ClassLed c.tree := by
  obtain ⟨front, space, back, hchildren, -, -, hstart⟩ := exists_space hc
  have hspell : n.tree.spell = Tree.spellAll (front ++ space) ++
      (c.tree.spell ++ Tree.spellAll back) := by
    rw [Tree.spell_of_children (children_ne_nil hc), hchildren, ← List.append_assoc,
      Tree.spellAll_append, Tree.spellAll_cons]
  rw [← List.append_assoc] at hchildren
  cases h with
  | plain hplain =>
    rw [show n.tree.kind.isWrapper = true from hwrapper] at hplain
    cases hplain
  | wrapper hled =>
    revert hled hchildren
    generalize n.tree.children = ts
    rintro hchildren (hnone | ⟨hlead, hled, hafter⟩)
    · have := hnone c.tree (by simp [hchildren])
      rw [show c.tree.kind.bearsClass = true from hkind] at this
      cases this
    · -- No other child bears a class, so what leads up to one leads up to this one.
      obtain ⟨rfl, rfl, -⟩ := only_unique (p := fun t => t.kind.bearsClass) hchildren
        (fun u hu => (hlead u hu).not_bearsClass) hafter hkind
      exact ⟨⟨_, _, ⟨hspell, hstart⟩, hlead⟩, hled⟩

/-- A statement that holds a class leads up to it.  The induction is on the number of wrappers
    that are taken off. -/
theorem leadsTo_unwrapWithin (fuel : Nat) {n : Node} (h : ClassLed n.tree)
    (hclass : (unwrapWithin fuel n).kind.isClass = true) : n.LeadsTo (unwrapWithin fuel n) := by
  induction fuel generalizing n with
  | zero => exact .refl n
  | succ fuel ih =>
    rw [unwrapWithin] at hclass ⊢
    split at hclass
    · next hwrapper =>
      rw [if_pos hwrapper]
      split at hclass
      · next inner hinner =>
        have hkind : inner.kind.bearsClass = true := by
          rw [Kind.bearsClass, Bool.or_eq_true]
          cases hplain : inner.kind.isWrapper with
          | true => exact Or.inl rfl
          | false =>
            rw [unwrapWithin_of_not_wrapper hplain] at hclass
            exact Or.inr hclass
        obtain ⟨hleads, hled⟩ := leadsTo_child h hwrapper (mem_children_of_held hinner) hkind
        exact hleads.trans (ih hled hclass)
      · exact .refl n
    · next hwrapper =>
      rw [if_neg hwrapper]
      exact .refl n

end Syntax.Node

theorem Module.classLed_statement (hm : m.Readable) {stmt : Node} (h : stmt ∈ m.statements) :
    ClassLed stmt.tree :=
  classLed_parse _ _ (m.mem_parse_of_statement hm h)

/-- What stands before an exported class in its statement may stand before a class. -/
theorem ExportedClass.In.leadsTo (hm : m.Readable) (hx : x.In m) : x.holding.LeadsTo x.cls := by
  have hled := m.classLed_statement hm hx.holding_mem
  have hdefault := List.find?_some hx.exporting
  have hexports := hx.exports
  have hclass := hx.kind
  revert hled hdefault hexports hclass
  generalize x.exporting = exporting, x.holding = holding, x.cls = cls
  intro hled hdefault hexports hclass
  cases hexports with
  | itself hexported =>
    have hwrapper : exporting.kind.isWrapper = true := by
      rw [Node.isDefaultExport, Bool.and_eq_true, beq_iff_eq] at hdefault
      rw [hdefault.1]
      rfl
    have hbears : cls.kind.bearsClass = true := by
      rw [Kind.bearsClass, hclass, Bool.or_true]
    exact (Node.leadsTo_child hled hwrapper (Node.mem_children_of_exported? hexported) hbears).1
  | named _ _ _ _ hunwrap =>
    subst hunwrap
    exact Node.leadsTo_unwrapWithin _ hled hclass

/-! ### Bytes around the class -/

namespace ExportedClass

/-- The bytes that go away with the exporting statement, if the class stands in another one. -/
def goneSpans (x : ExportedClass) (m : Module) : List (Nat × Nat) :=
  if x.exporting.start ≠ x.holding.start then [m.statementSpan x.exporting] else []

/-- What comes to stand from the class to the end of its statement: what stood there before,
    with the three type arguments of the base, if there are three, replaced in their order. -/
inductive Tail (x : ExportedClass) (m : Module) : List UInt8 → Prop where
  | kept (h : x.clause.baseTypeArguments.length ≠ 3) (hplaces : x.cls.start ≤ x.holding.stop) :
    Tail x m (bytesBetween m.source x.cls.start x.holding.stop)
  | named {props events slots : Node} (h : x.clause.baseTypeArguments = [props, events, slots])
    (hplaces : [x.cls.start, props.start, props.stop, events.start, events.stop, slots.start,
      slots.stop, x.holding.stop].IsChain (· ≤ ·)) :
    Tail x m (bytesBetween m.source x.cls.start props.start ++ (encode (x.name ++ ".Props") ++
      (bytesBetween m.source props.stop events.start ++ (encode (x.name ++ ".Events") ++
      (bytesBetween m.source events.stop slots.start ++ (encode (x.name ++ ".Slots") ++
      bytesBetween m.source slots.stop x.holding.stop))))))

theorem edits_bounds (hx : x.In m) (comments : Option Comments) : ∀ e ∈ x.edits comments,
    (x.holding.start : Int) ≤ e.start ∧ e.start ≤ e.stop ∧ e.stop ≤ x.holding.stop := by
  obtain ⟨rest, hweave⟩ := ExportedClass.weave hx
  rw [Node.stop_eq]
  exact (hweave (declareHead comments)).bounds

/-- The three arguments stand one after the other, from the class on. -/
theorem tail_interleave (hx : x.In m) :
    x.Tail m (Edit.interleave (m.source.take x.holding.stop) x.cls.start
      (replacements x.namedArguments)) := by
  by_cases hcount : x.clause.baseTypeArguments.length = 3
  · obtain ⟨props, events, slots, harguments⟩ := List.length_eq_three.mp hcount
    have hnamed : replacements x.namedArguments =
        [⟨props.start, props.stop, x.name ++ "." ++ "Props"⟩,
          ⟨events.start, events.stop, x.name ++ "." ++ "Events"⟩,
          ⟨slots.start, slots.stop, x.name ++ "." ++ "Slots"⟩] := by
      rw [namedArguments, harguments]
      rfl
    -- That the places follow one another is known of all edits on the statement.
    obtain ⟨rest, hweave⟩ := ExportedClass.weave hx
    have hbounds := (hweave "").bounds
    have hapart := (hweave "").apart
    rw [hnamed] at hbounds hapart ⊢
    rw [← Node.stop_eq] at hbounds
    simp only [List.forall_mem_cons, List.pairwise_cons, List.not_mem_nil, false_implies,
      implies_true, and_true, Int.ofNat_le] at hbounds hapart
    obtain ⟨-, hprops, hevents, hslots⟩ := hbounds
    obtain ⟨⟨hcls, -, -⟩, ⟨hpe, -⟩, hes, -⟩ := hapart
    have htake : ∀ {i j : Nat}, j ≤ x.holding.stop →
        bytesBetween (m.source.take x.holding.stop) i j = bytesBetween m.source i j :=
      Edit.bytesBetween_take
    have hname : ∀ s : String, x.name ++ "." ++ s = x.name ++ ("." ++ s) :=
      fun s => String.append_assoc
    simp only [Edit.interleave, Int.toNat_natCast, hname]
    rw [htake (by omega), htake (by omega), htake (by omega), List.drop_take]
    refine .named harguments ?_
    simp only [List.isChain_cons_cons, List.isChain_singleton, and_true]
    omega
  · have hnamed : x.namedArguments = [] := if_neg hcount
    rw [hnamed]
    show x.Tail m ((m.source.take x.holding.stop).drop x.cls.start)
    rw [List.drop_take]
    obtain ⟨-, hstart, hstop⟩ := List.forall_mem_cons.mp (edits_bounds hx none) |>.1
    exact .kept hcount (Int.ofNat_le.mp hstop)

/-- The span of the exporting statement does not reach into the statement of the class. -/
theorem goneSpans_apart (hm : m.Readable) (hx : x.In m) :
    (∀ s ∈ x.goneSpans m, s.2 ≤ x.holding.start) ∨
      ∀ s ∈ x.goneSpans m, x.holding.stop ≤ s.1 := by
  unfold goneSpans
  split
  · next hne =>
    have hpairs := (m.fitting_statements hm (List.Sublist.refl _)).pairwise
    have hspans : m.statements.Pairwise fun s t => (m.statementSpan s).2 ≤ (m.statementSpan t).1 ∨
        (m.statementSpan t).2 ≤ (m.statementSpan s).1 :=
      (List.pairwise_map.mp hpairs).imp fun h => Or.inl (Int.ofNat_le.mp h)
    have hsymm : Std.Symm fun s t : Node => (m.statementSpan s).2 ≤ (m.statementSpan t).1 ∨
        (m.statementSpan t).2 ≤ (m.statementSpan s).1 := ⟨fun _ _ h => h.symm⟩
    obtain ⟨before, docs, after, hspan⟩ := m.spanOf_statement hm hx.holding_mem
    obtain ⟨hstart, hstop⟩ := hspan.contains
    rcases hspans.forall hx.exporting_mem hx.holding_mem fun h => hne (by rw [h]) with h | h
    · exact Or.inl (List.forall_mem_singleton.mpr (Nat.le_trans h hstart))
    · exact Or.inr (List.forall_mem_singleton.mpr (Nat.le_trans hstop h))
  · exact Or.inl (List.forall_mem_nil _)

/-- What the edits on the class statement make of its bytes, and spans that go away before and
    behind it. -/
theorem interleave_edits (hx : x.In m) {source : List UInt8} {before after : List (Nat × Nat)}
    (hlength : x.holding.stop ≤ source.length)
    (hfits : Edit.Fitting source.length
      (before.map Edit.removal ++ (x.edits comments ++ after.map Edit.removal)))
    (hbefore : ∀ s ∈ before, s.2 ≤ x.holding.start) (hafter : ∀ s ∈ after, x.holding.stop ≤ s.1) :
    Edit.interleave source 0
        (before.map Edit.removal ++ (x.edits comments ++ after.map Edit.removal)) =
      bytesOutside before 0 (source.take x.holding.start) ++ (encode (declareHead comments) ++
        (Edit.interleave (source.take x.holding.stop) x.cls.start (replacements x.namedArguments) ++
          bytesOutside after x.holding.stop (source.drop x.holding.stop))) := by
  have hwidth : x.holding.start ≤ x.holding.stop := by
    rw [Node.stop_eq]
    exact Nat.le_add_right _ _
  have hfront : Edit.Fitting x.holding.start (before.map Edit.removal) :=
    hfits.left.of_le fun e he => by
      obtain ⟨s, hs, rfl⟩ := List.mem_map.mp he
      exact Int.ofNat_le.mpr (hbefore s hs)
  have hclass : Edit.Fitting x.holding.stop (x.edits comments) :=
    hfits.right.left.of_le fun e he => (edits_bounds hx comments e he).2.2
  have hfirst : ∀ f ∈ (x.edits comments ++ after.map Edit.removal).head?,
      (x.holding.start : Int) ≤ f.start := by
    intro f hf
    obtain rfl := Option.some.inj hf
    exact Int.le_refl _
  have hlast : ∀ s ∈ after.head?, x.holding.stop ≤ s.1 :=
    fun s hs => hafter s (List.mem_of_head? hs)
  have hlast' : ∀ f ∈ (after.map Edit.removal).head?, (x.holding.stop : Int) ≤ f.start := by
    intro f hf
    rw [List.head?_map] at hf
    obtain ⟨s, hs, rfl⟩ := Option.map_eq_some_iff.mp hf
    exact Int.ofNat_le.mpr (hlast s hs)
  have htake : (source.take x.holding.start).length = x.holding.start :=
    List.length_take_of_le (Nat.le_trans hwidth hlength)
  -- The bytes fall into those before the statement, those of it and those behind it.
  rw [Edit.interleave_append hfront (Nat.zero_le _) hfirst,
    Edit.interleave_append hclass hwidth hlast',
    Edit.interleave_removal (by rwa [htake]) fun _ _ => Nat.zero_le _,
    Edit.interleave_removal hfits.right.right hlast, List.drop_zero, edits, Edit.interleave,
    Int.toNat_natCast, Int.toNat_natCast, bytesBetween, Nat.sub_self, List.take_zero,
    List.nil_append, List.append_assoc]

theorem goneSpans_lt (hm : m.Readable) (hx : x.In m) : ∀ s ∈ x.goneSpans m, s.1 < s.2 := by
  unfold goneSpans
  split
  · obtain ⟨before, r, after, hrows, hstmt⟩ := m.exists_rows_of_statement hx.exporting_mem
    rw [hstmt]
    exact List.forall_mem_singleton.mpr (m.statementSpan_lt hm hrows)
  · exact List.forall_mem_nil _

/-- The edits of the first stage in the order of their places. -/
theorem rising_planned (hm : m.Readable) (hx : x.In m) {before after : List (Nat × Nat)}
    (hspans : before ++ after = x.goneSpans m)
    (hbefore : ∀ s ∈ before, s.2 ≤ x.holding.start) (hafter : ∀ s ∈ after, x.holding.stop ≤ s.1) :
    Rising (before.map Edit.removal ++ (x.edits comments ++ after.map Edit.removal)) := by
  have hlt := goneSpans_lt hm hx
  rw [← hspans, List.forall_mem_append] at hlt
  have hsingle : Rising ((before ++ after).map Edit.removal) := by
    rw [hspans, goneSpans]
    split
    · exact List.pairwise_singleton _ _
    · exact List.Pairwise.nil
  rw [List.map_append] at hsingle
  obtain ⟨hrises, hrises', -⟩ := List.pairwise_append.mp hsingle
  obtain ⟨hclass, hstop⟩ : Rising (x.edits comments) ∧ _ := ExportedClass.rising hm hx
  have hstart := edits_bounds hx comments
  -- The edits on the class keep between its bounds, and the spans keep out of them.
  refine List.pairwise_append.mpr ⟨hrises, List.pairwise_append.mpr ⟨hclass, hrises', ?_⟩, ?_⟩
  · intro e he f hf
    obtain ⟨s, hs, rfl⟩ := List.mem_map.mp hf
    have := hstop e he
    have := hafter s hs
    exact Or.inl (show e.start < (s.1 : Int) by omega)
  · intro e he f hf
    obtain ⟨s, hs, rfl⟩ := List.mem_map.mp he
    have hs1 := hlt.1 s hs
    have hs2 := hbefore s hs
    have hf : (x.holding.start : Int) ≤ f.start := by
      rcases List.mem_append.mp hf with hf | hf
      · exact (hstart f hf).1
      · obtain ⟨t, ht, rfl⟩ := List.mem_map.mp hf
        have := hafter t ht
        have hwidth := x.holding.stop_eq
        show (x.holding.start : Int) ≤ (t.1 : Int)
        omega
    exact Or.inl (show (s.1 : Int) < f.start by omega)

/-- A batch of these edits, in any order, makes these bytes. -/
theorem applyEdits_planned (hm : m.Readable) (hx : x.In m) {given : List Edit}
    (hgiven : given.Perm ((x.goneSpans m).map Edit.removal ++ x.edits comments)) {m' : Module}
    (happly : m.applyEdits given = .ok m') :
    m' = m.withSource (bytesOutside (x.goneSpans m) 0 (m.source.take x.holding.start) ++
      (encode (declareHead comments) ++
        (Edit.interleave (m.source.take x.holding.stop) x.cls.start
            (replacements x.namedArguments) ++
          bytesOutside (x.goneSpans m) x.holding.stop (m.source.drop x.holding.stop)))) := by
  obtain ⟨out, hout, rfl⟩ : ∃ out, Edit.applyAll given m.source = .ok out ∧
      m.withSource out = m' := by
    rw [Module.applyEdits] at happly
    cases hout : Edit.applyAll given m.source with
    | error e => rw [hout] at happly; cases happly
    | ok out => rw [hout] at happly; exact ⟨out, rfl, Except.ok.inj happly⟩
  have hlength : x.holding.stop ≤ m.source.length :=
    m.stop_le_length hm (Node.mem_children_of_mem_parts hx.holding_mem)
  have hwidth := x.holding.stop_eq
  have hmade : ∀ {before after : List (Nat × Nat)}, before ++ after = x.goneSpans m →
      (∀ s ∈ before, s.2 ≤ x.holding.start) → (∀ s ∈ after, x.holding.stop ≤ s.1) →
      given.Perm (before.map Edit.removal ++ (x.edits comments ++ after.map Edit.removal)) →
      out = bytesOutside before 0 (m.source.take x.holding.start) ++
        (encode (declareHead comments) ++
          (Edit.interleave (m.source.take x.holding.stop) x.cls.start
              (replacements x.namedArguments) ++
            bytesOutside after x.holding.stop (m.source.drop x.holding.stop))) := by
    intro before after hspans hbefore hafter hperm
    obtain ⟨hfits, rfl⟩ := Edit.eq_interleave_of_applyAll
      (rising_planned hm hx hspans hbefore hafter) hperm hout
    exact interleave_edits hx hlength hfits hbefore hafter
  congr 1
  -- The span of the exporting statement lies on one side of the class statement.
  rcases goneSpans_apart hm hx with hbefore | hafter
  · rw [hmade (List.append_nil _) hbefore (List.forall_mem_nil _) (by simpa using hgiven)]
    have hkept : bytesOutside (x.goneSpans m) x.holding.stop (m.source.drop x.holding.stop) =
        m.source.drop x.holding.stop :=
      bytesOutside_of_apart fun s hs => Or.inl ((hbefore s hs).trans (by omega))
    rw [hkept, bytesOutside_nil]
  · rw [hmade (List.nil_append _) (List.forall_mem_nil _) hafter
      (by simpa using hgiven.trans List.perm_append_comm)]
    have hkept : bytesOutside (x.goneSpans m) 0 (m.source.take x.holding.start) =
        m.source.take x.holding.start := by
      refine bytesOutside_of_apart fun s hs => Or.inr ?_
      have := hafter s hs
      rw [List.length_take]
      omega
    rw [hkept, bytesOutside_nil]

end ExportedClass

/-- The bytes between the start of a statement and the start of a node in it. -/
theorem Module.bytesBetween_lead (hm : m.Readable) {stmt d : Node} (hstmt : stmt ∈ m.statements)
    {lead after : List Char} (h : stmt.Holds d lead after) :
    bytesBetween m.source stmt.start d.start = encodeChars lead := by
  obtain ⟨front, back, hfront⟩ :=
    (Node.Below.refl.child (Node.mem_children_of_mem_parts hstmt)).holds
  have htext : m.chars = front ++ lead ++ (d.tree.spell ++ after ++ back) := by
    have hroot : m.root.tree.spell = _ := (hfront.trans h).1
    rw [show m.chars = m.root.tree.spell from rfl, hroot]
    simp
  have hstart : stmt.start = size front := by
    rw [hfront.2]
    exact Nat.zero_add _
  have hsource : m.source = encodeChars m.chars := hm
  rw [hsource, htext, h.2, hstart]
  exact bytesBetween_eq _ _ _

/-- What the first stage makes of a module that it accepts.

    - The one exported class stands in its statement behind trees that may stand before a class:
      white space, comments, decorators and marks.  The bytes of all of these go away, and the
      new head comes in their place.
    - From the class to the end of the statement only the type arguments of the base change, and
      only if there are three.
    - Outside of the statement of the class only the exporting statement goes away, if it is
      another one. -/
theorem normalizeExport_changes {plan : Plan String}
    (h : normalizeExport m comments settings = .ok plan) :
    ∃ (x : ExportedClass) (lead : List Tree) (tail : List UInt8),
      (x.In m ∧ ∀ y : ExportedClass, y.In m → y = x) ∧ (∀ t ∈ lead, LeadsClass t) ∧
      x.cls.start = x.holding.start + size (Tree.spellAll lead) ∧
      bytesBetween m.source x.holding.start x.cls.start = encodeChars (Tree.spellAll lead) ∧
      x.Tail m tail ∧
      m.applyEdits plan.edits = .ok (m.withSource
        (bytesOutside (x.goneSpans m) 0 (m.source.take x.holding.start) ++
          (encode (declareHead comments) ++ (tail ++
            bytesOutside (x.goneSpans m) x.holding.stop (m.source.drop x.holding.stop))))) := by
  have hends := normalizeExport_ends m comments settings
  rw [h] at hends
  cases hends with
  | @plans x hx _ _ _ hedits =>
    have hm := m.readable_of_statement hx.exporting_mem (Or.inr (List.find?_some hx.exporting))
    obtain ⟨m', happly, -⟩ := ExportedClass.carriedOut hm hx hedits
    have hgiven : plan.edits.Perm ((x.goneSpans m).map Edit.removal ++ x.edits comments) := by
      refine hedits.trans (.of_eq ?_)
      rw [ExportedClass.goneSpans]
      split <;> rfl
    obtain ⟨lead, after, hholds, hlead⟩ := hx.leadsTo hm
    refine ⟨x, lead, _, ⟨hx, fun y hy => hy.unique hx⟩, hlead, hholds.2,
      m.bytesBetween_lead hm hx.holding_mem hholds, ExportedClass.tail_interleave hx, ?_⟩
    rw [happly, ExportedClass.applyEdits_planned hm hx hgiven happly]

/-- A class with a decorator and a comment before it, and a comment between the type arguments of
    its base. -/
def commentedModule : Module := Module.ofText none
  "@d export default /* c */ class A extends B<P, /* q */ Q, R> \x7b\x7d"

theorem normalizeExport_changes_commented : ∃ plan x lead tail,
    normalizeExport commentedModule none Settings.standard = .ok plan ∧
      ExportedClass.In x commentedModule ∧ (∀ t ∈ lead, LeadsClass t) ∧
      encodeChars (Tree.spellAll lead) = encode "@d export default /* c */ " ∧
      x.Tail commentedModule tail ∧
      tail = encode "class A extends B<A.Props, /* q */ A.Events, A.Slots> \x7b\x7d" ∧
      commentedModule.applyEdits plan.edits =
        .ok (commentedModule.withSource (encode "declare " ++ tail)) := by
  have hplaces : commentedModule.defaultExport?.map (fun e =>
      (e.statement.start, e.declaration.map (·.start), e.declarationStatement.map (·.start),
        e.declarationStatement.map (·.stop))) = some (0, some 26, some 0, some 63) := by
    decide +kernel
  have hedits : (normalizeExport commentedModule none Settings.standard).toOption.map (·.edits) =
      some [⟨0, 26, "declare "⟩, ⟨44, 45, "A.Props"⟩, ⟨55, 56, "A.Events"⟩,
        ⟨58, 59, "A.Slots"⟩] := by
    decide +kernel
  obtain ⟨plan, hplan, hlist⟩ : ∃ plan,
      normalizeExport commentedModule none Settings.standard = .ok plan ∧ plan.edits =
        [⟨0, 26, "declare "⟩, ⟨44, 45, "A.Props"⟩, ⟨55, 56, "A.Events"⟩, ⟨58, 59, "A.Slots"⟩] := by
    revert hedits
    cases normalizeExport commentedModule none Settings.standard with
    | error f => exact nofun
    | ok plan => exact fun h => ⟨plan, rfl, Option.some.inj h⟩
  obtain ⟨x, lead, tail, ⟨hx, -⟩, hlead, -, hbytes, htail, happly⟩ := normalizeExport_changes hplan
  rw [defaultExport?_of_exports hx.exporting hx.exports hx.kind] at hplaces
  simp only [Option.map_some, Option.some.injEq, Prod.mk.injEq] at hplaces
  obtain ⟨hexporting, hcls, hstart, hstop⟩ := hplaces
  have hgone : x.goneSpans commentedModule = [] := by
    rw [ExportedClass.goneSpans, hexporting, hstart]
    rfl
  -- What is carried out can be computed, and tells the rest of the statement.
  have hall : Edit.applyAll plan.edits commentedModule.source = .ok (encode "declare " ++
      encode "class A extends B<A.Props, /* q */ A.Events, A.Slots> \x7b\x7d") := by
    rw [hlist]
    decide +kernel
  have hend : bytesOutside [] 63 (commentedModule.source.drop 63) = [] := by
    decide +kernel
  have happly : commentedModule.applyEdits plan.edits =
      .ok (commentedModule.withSource (encode "declare " ++ tail)) := by
    rwa [hgone, hstart, hstop, hend, List.append_nil, List.take_zero] at happly
  refine ⟨plan, x, lead, tail, hplan, hx, hlead, ?_, htail, ?_, happly⟩
  · rw [← hbytes, hstart, hcls]
    decide +kernel
  · rw [Module.applyEdits, hall] at happly
    have hsource := congrArg Module.source (Except.ok.inj happly)
    rw [Module.withSource_source, Module.withSource_source] at hsource
    exact (List.append_cancel_left hsource).symm

end ComponentDecl
