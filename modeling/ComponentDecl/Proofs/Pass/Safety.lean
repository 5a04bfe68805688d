import ComponentDecl.Proofs.Pass.Carried

/-! # When a pass breaks off

    Every stage hands over edits that can be carried out, and every module on the
    way of a pass is a text whose nodes cover whole characters.  So a pass ends
    with a success or with one of six failures, for every module that is a text,
    for all comments and for all settings, as long as there is room for the
    indentation.  A width has no upper bound in the settings.  One that does not fit
    into any text breaks the pass off after its second stage, and what the first two
    stages changed is not taken back.

    Key theorems:
    - `OnTheWay.sound`: what holds of every module that batches lead to
    - `processIn_breaks_for_room_only`: how a pass on a text ends
-/

namespace ComponentDecl

open Syntax Text

variable {m m' : Module} {comments : Option Comments} {settings : Settings}

/-! ### Whole characters -/

/-- The bytes between two places of a text are those of the characters there. -/
theorem slice_encodeChars (before cs after : List Char) :
    Text.slice (encodeChars (before ++ (cs ++ after))) (size before) (size (before ++ cs)) =
      encodeChars cs := by
  have hindex : ∀ part rest : List Char, encodeChars (before ++ (cs ++ after)) =
      encodeChars (part ++ rest) →
      indexIn (encodeChars (before ++ (cs ++ after))).length (size part : Nat) = size part := by
    intro part rest h
    rw [indexIn, if_neg (by omega), Int.toNat_natCast, h, encodeChars_append, List.length_append]
    exact Nat.min_eq_left (Nat.le_add_right _ _)
  have htake : (encodeChars (before ++ (cs ++ after))).take (size (before ++ cs)) =
      encodeChars (before ++ cs) := by
    rw [← List.append_assoc, encodeChars_append (before ++ cs), size, List.take_left]
  rw [Text.slice, hindex before (cs ++ after) rfl, hindex (before ++ cs) after (by simp), htake,
    encodeChars_append before, size, List.drop_left]

theorem decode_encodeChars (cs : List Char) : decode (encodeChars cs) = .ok (String.ofList cs) := by
  rw [decode, decodeChars_encodeChars]
  rfl

namespace Module

/-- A node of a readable module covers its own text. -/
theorem slice_node (hm : m.Readable) {n : Node} (h : m.root.Below n) :
    m.slice n.start n.stop = .ok n.text := by
  obtain ⟨before, after, hspell, hstart⟩ := h.holds
  have hsource : m.source = encodeChars (before ++ (n.tree.spell ++ after)) := by
    rw [← hspell]
    exact hm
  have hplace : n.start = size before := by
    rw [hstart]
    exact Nat.zero_add _
  rw [slice, hsource, Node.stop_eq, hplace, ← size_append, slice_encodeChars, decode_encodeChars]
  rfl

/-- The source up to the full start of a node, the space before the node, its text, and the
    rest. -/
theorem source_of_child (hm : m.Readable) {n c : Node} (hn : m.root.Below n)
    (hc : c ∈ n.children) :
    ∃ before space after, m.source = encodeChars (before ++ (space ++ (c.tree.spell ++ after))) ∧
      c.fullStart = size before ∧ c.start = size (before ++ space) ∧
      (Full n.tree → Spacing space) := by
  obtain ⟨front, trivia, back, hchildren, htrivia, hfull, hstart⟩ := Node.exists_space hc
  obtain ⟨before, after, hholds, hplace⟩ := hn.holds
  have hn₀ : n.start = size before := by
    rw [hplace]
    exact Nat.zero_add _
  have hspell := Tree.spell_of_children (Node.children_ne_nil hc)
  -- The full start is where the sibling before ends, or that of the parent if there is none.
  have hstarts : c.fullStart = fullStartFrom n.start c.place.before := by
    cases hn with
    | refl =>
      unfold Node.fullStart fullStartFrom
      rw [Node.parent?, Node.mem_children hc]
      cases c.place.before.find? (·.tree.kind != .comment) with
      | none => rfl
      | some previous => rfl
    | child _ hn =>
      refine fullStart_eq hc ?_
      rw [Node.mem_children hn]
      exact List.cons_ne_nil _ _
  refine ⟨before ++ Tree.spellAll front, Tree.spellAll trivia, Tree.spellAll back ++ after,
    ?_, ?_, ?_, fun h => spacing_of_full (fun t ht => h.children t ?_) htrivia⟩
  · have hall : m.source = encodeChars m.root.tree.spell := hm
    rw [hall, hholds, hspell, hchildren, Tree.spellAll_append, Tree.spellAll_append,
      Tree.spellAll_cons]
    simp only [List.append_assoc]
  · rw [hstarts, hfull, hn₀, size_append]
  · rw [hstart, hn₀, Tree.spellAll_append, ← size_append, List.append_assoc]
  · rw [hchildren]
    exact List.mem_append_right _ (List.mem_append_left _ ht)

/-- A node of a readable module is a text together with the space before it. -/
theorem fullText_node (hm : m.Readable) {n : Node} (h : m.root.Below n) :
    ∃ s, m.fullText n = .ok s := by
  cases h with
  | refl =>
    have hnone : m.root.fullStart = m.root.start := rfl
    rw [fullText, hnone]
    exact ⟨_, m.slice_node hm .refl⟩
  | @child d c hd hc =>
    obtain ⟨before, space, after, hsource, hfull, hstart, -⟩ := m.source_of_child hm hd hc
    have hstop : n.stop = size (before ++ (space ++ n.tree.spell)) := by
      rw [Node.stop_eq, hstart, ← size_append, List.append_assoc]
    rw [← List.append_assoc space] at hsource
    rw [fullText, slice, hsource, hfull, hstop, slice_encodeChars, decode_encodeChars]
    exact ⟨_, rfl⟩

/-- A search for a variable among those of its declaration finds it by its
    place. -/
theorem find?_declarator {name : String} {v : Variable} (h : m.variableNamed? name = some v) :
    v.declaration.declarators.find? (·.start == v.declarator.start) = some v.declarator := by
  obtain ⟨hstmt, hdeclaration, hkind, hmem, -⟩ := variableNamed?_spec h
  have hm : m.Readable := m.readable_of_statement hstmt
    (Or.inl fun herror => by rw [hdeclaration, herror] at hkind; cases hkind)
  have hrising := m.declarators_rising hm hstmt hdeclaration
  obtain ⟨earlier, later, hsplit⟩ := List.append_of_mem hmem
  rw [hsplit] at hrising ⊢
  have hnone : earlier.find? (·.start == v.declarator.start) = none := by
    refine List.find?_eq_none.mpr fun d hd => ?_
    have := (List.pairwise_append.mp hrising).2.2 d hd v.declarator List.mem_cons_self
    simpa using Nat.ne_of_lt this
  rw [List.find?_append, hnone, Option.none_or, List.find?_cons_of_pos (by simp)]

end Module

/-! ### Modules on the way -/

/-- Holds of the modules that batches of the stages lead to, in whatever order
    they come. -/
inductive OnTheWay (comments : Option Comments) (settings : Settings) (m : Module) :
    Module → Prop where
  | start : OnTheWay comments settings m m
  | step {m₁ m₂ : Module} {edits : List Edit} (h : OnTheWay comments settings m m₁)
    (hbatch : Batch comments settings m₁ edits) (happly : m₁.applyEdits edits = .ok m₂) :
    OnTheWay comments settings m m₂

/-- Holds of a module on which no step of a pass can crash. -/
structure SoundModule (comments : Option Comments) (settings : Settings) (m : Module) : Prop where
  /-- The bytes are a text. -/
  text : ∃ s, m.text = .ok s
  /-- Every node covers a text, its own. -/
  node : ∀ n, m.root.Below n → m.slice n.start n.stop = .ok n.text
  /-- So does every node with the space before it. -/
  full : ∀ n, m.root.Below n → ∃ s, m.fullText n = .ok s
  /-- Every variable is found among those of its declaration. -/
  declarator : ∀ name v, m.variableNamed? name = some v →
    v.declaration.declarators.find? (·.start == v.declarator.start) = some v.declarator
  /-- No batch is refused. -/
  batch : ∀ edits, Batch comments settings m edits → ∃ m', m.applyEdits edits = .ok m'

theorem soundModule_of_readable (hm : m.Readable) : SoundModule comments settings m where
  text := by
    have hsource : m.source = encodeChars m.chars := hm
    exact ⟨String.ofList m.chars, by rw [Module.text, hsource, decode_encodeChars]⟩
  node := fun _ h => m.slice_node hm h
  full := fun _ h => m.fullText_node hm h
  declarator := fun _ _ h => Module.find?_declarator h
  batch := fun _ h => h.carriedOut

/-- A batch of a text leaves a text, so all modules on the way are texts. -/
theorem OnTheWay.readable (h : OnTheWay comments settings m m') (hm : m.Readable) :
    m'.Readable := by
  induction h with
  | start => exact hm
  | step _ hbatch happly ih =>
    obtain ⟨m₂, hm₂, hreadable⟩ := hbatch.carries
    rw [happly] at hm₂
    obtain rfl := Except.ok.inj hm₂
    exact hreadable ih

theorem OnTheWay.sound (h : OnTheWay comments settings m m') (hm : m.Readable) :
    SoundModule comments settings m' :=
  soundModule_of_readable (h.readable hm)

/-- The modules of an opening are on the way. -/
theorem Opening.onTheWay (o : Opening comments settings m) :
    OnTheWay comments settings m o.normalized ∧ OnTheWay comments settings m o.extracted := by
  have hnormalized := OnTheWay.start.step (.normalize o.normalizes) o.toNormalized
  exact ⟨hnormalized, hnormalized.step (.extract o.extracts) o.toExtracted⟩

/-- All modules of a course are on the way. -/
theorem Course.onTheWay (c : Course comments settings m) :
    ∀ m' ∈ [c.normalized, c.extracted, c.joined, c.documented, c.thinned, c.exported],
      OnTheWay comments settings m m' := by
  obtain ⟨h₁, h₂⟩ := c.toOpening.onTheWay
  have h₃ := h₂.step (.build _ _) c.toJoined
  have h₄ := h₃.step (.reattach _) c.toDocumented
  have h₅ := h₄.step .drop c.toThinned
  have h₆ := h₅.step (.export _ _) c.toExported
  intro m' hm'
  simp only [List.mem_cons, List.not_mem_nil, or_false] at hm'
  rcases hm' with rfl | rfl | rfl | rfl | rfl | rfl
  · exact h₁
  · exact h₂
  · exact h₃
  · exact h₄
  · exact h₅
  · exact h₆

/-! ### Whole passes -/

/-- The six classes of failures. -/
def failureWords : List String :=
  ["missing_default_export", "default_export_not_class", "missing_heritage_clause",
    "type_argument_mismatch", "missing_helper_variable", "missing_helper_member"]

theorem Failure.word_mem (f : Failure) : f.word ∈ failureWords := by
  cases f <;> simp only [Failure.word] <;> decide

theorem readable_ofText (path : Option String) (text : String) : (Module.ofText path text).Readable :=
  Module.readable_of_source (Module.ofSource_source _ _)

/-- Holds of the ends that a pass is meant to come to: a success, or one of the six
    failures. -/
inductive WellEnded (settings : Settings) : Except Break Outcome → Prop where
  | success (className : String) (documented : Nat) :
    WellEnded settings (.ok (.success className documented))
  | failure (f : Failure) (h : f.word ∈ failureWords) :
    WellEnded settings (.ok (.failure f settings.rollbackOnFailure))

/-- A pass leaves a module on its way, and ends with a success or one of the six
    failures. -/
theorem process_outcome (comments : Option Comments) (settings : Settings) (path : Option String)
    (text : String) (events : List Event) :
    OnTheWay comments settings (Module.ofText path text)
      (process comments settings ⟨Module.ofText path text, events⟩).2.module ∧
    WellEnded settings (process comments settings ⟨Module.ofText path text, events⟩).1 := by
  have hends := process_ends comments settings ⟨Module.ofText path text, events⟩
  generalize (process comments settings ⟨Module.ofText path text, events⟩).1 = result at hends ⊢
  generalize (process comments settings ⟨Module.ofText path text, events⟩).2.module = after
    at hends ⊢
  cases hends with
  | unexported h => exact ⟨.start, .failure _ (Failure.word_mem _)⟩
  | unextracted hplan happly h =>
    refine ⟨?_, .failure _ (Failure.word_mem _)⟩
    split
    · exact .start
    · exact OnTheWay.start.step (.normalize hplan) happly
  | refused hbatch h => exact absurd h (hbatch.not_refused _)
  | completed c => exact ⟨c.onTheWay _ (by simp), .success _ _⟩

/-- A pass on a text meets no module on which a step could crash, and leaves one of those on
    its way.  With room for its indentation it ends with a success or one of the six failures,
    and so it does if one of the first two stages ends it.  In all other cases it breaks off
    behind these stages: there is no outcome, and what they changed stays, whatever the
    settings say about failures. -/
theorem processIn_breaks_for_room_only (room : Room) (comments : Option Comments)
    (settings : Settings) (path : Option String) (text : String) (events : List Event) :
    (∀ m', OnTheWay comments settings (Module.ofText path text) m' →
      SoundModule comments settings m') ∧
    OnTheWay comments settings (Module.ofText path text)
      (processIn room comments settings ⟨Module.ofText path text, events⟩).2.module ∧
    (room.holds settings.indentWidth = true ∨
        ¬Nonempty (Opening comments settings (Module.ofText path text)) →
      WellEnded settings (processIn room comments settings ⟨Module.ofText path text, events⟩).1) ∧
    ∀ o : Opening comments settings (Module.ofText path text),
      room.holds settings.indentWidth = false →
        (processIn room comments settings ⟨Module.ofText path text, events⟩).1 =
          .error .oversized ∧
        (processIn room comments settings ⟨Module.ofText path text, events⟩).2.module =
          o.extracted := by
  obtain ⟨hway, hended⟩ := process_outcome comments settings path text events
  refine ⟨fun _ h => h.sound (readable_ofText path text), ?_, fun h => ?_,
    fun o hroom => processIn_of_opening o events hroom⟩
  · -- Without room the module is the one behind the first two batches, if there are any.
    by_cases hroom : room.holds settings.indentWidth = true
    · rwa [processIn_eq_process (Or.inl hroom)]
    by_cases hopening : Nonempty (Opening comments settings (Module.ofText path text))
    · obtain ⟨o⟩ := hopening
      rw [(processIn_of_opening o events (Bool.eq_false_iff.mpr hroom)).2]
      exact o.onTheWay.2
    · rwa [processIn_eq_process (Or.inr hopening)]
  · rwa [processIn_eq_process h]

-- A width that passes every check of the settings: the helper variable is gone for good.
example : (processIn .word none { Settings.standard with indentWidth := 10 ^ 20 } ⟨Module.ofText none
    "var __propDef:{props:{},events:{},slots:{}}\nexport default class A extends B{}", []⟩).map id
      (·.module.text) = (.error .oversized, .ok "declare class A extends B{}") := by
  decide +kernel

end ComponentDecl
