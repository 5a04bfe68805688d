import ComponentDecl.Proofs.Pass.Alongside

/-! # Comments only add comments

    Two passes on one module, each with comments of its own, end alike: with the same
    failure, or with texts that differ in the comments that the passes have put in.

    Key theorems:
    - `ExtractEnds.alike`: the second stage fails alike
    - `Course.endAlike`: two passes that complete end alike
    - `process_insensitive`: two passes end alike
-/

namespace ComponentDecl

open Syntax Text

variable {m : Module} {comments comments' : Option Comments} {settings : Settings}

/-! ### The failures -/

/-- Comments change neither whether the first stage fails nor which class it finds. -/
theorem normalizeExport_congr (m : Module) (comments comments' : Option Comments)
    (settings : Settings) : (normalizeExport m comments settings).map (·.result) =
      (normalizeExport m comments' settings).map (·.result) := by
  unfold normalizeExport
  cases m.defaultExport? with
  | none => rfl
  | some exported =>
  dsimp only
  cases exported.declaration.filter (·.kind.isClass) with
  | none => rfl
  | some cls =>
  dsimp only
  cases cls.name? with
  | none => rfl
  | some name =>
  dsimp only
  cases cls.extendsClause? with
  | none => rfl
  | some clause =>
  dsimp only
  split
  · rfl
  · split <;> rfl

/-- A failure of the first stage does not depend on comments. -/
theorem normalizeExport_error {f : Failure} (h : normalizeExport m comments settings = .error f)
    (comments' : Option Comments) : normalizeExport m comments' settings = .error f := by
  have hsame := normalizeExport_congr m comments comments' settings
  rw [h] at hsame
  cases hplan : normalizeExport m comments' settings with
  | error f' =>
    rw [hplan] at hsame
    exact congrArg Except.error (Except.error.inj hsame).symm
  | ok plan =>
    rw [hplan] at hsame
    cases hsame

theorem Diagnosis.exists_missingMember {d : Diagnosis} (h : d.word = "missing_helper_member") :
    ∃ kind, d = .missingMember kind := by
  cases d with
  | missingMember kind => exact ⟨kind, rfl⟩
  | _ => exact absurd h (by decide)

theorem Diagnosis.not_sound_of_failure {d : Diagnosis} {helper : String} {f : Failure} {b : Bool}
    (h : d.SaidBy helper (.failure f b)) : d ≠ .sound := by
  rintro rfl
  have hword : f.word = "success" := h.word
  have hmem := f.word_mem
  rw [hword] at hmem
  exact absurd hmem (by decide)

/-- Failures of the second stage for which there is one diagnosis have one class and one
    message. -/
theorem ExtractEnds.alike {m₁ m₁' : Module} {f f' : Failure} {d : Diagnosis} {b b' : Bool}
    (h : ExtractEnds m₁ settings (.error f)) (h' : ExtractEnds m₁' settings (.error f'))
    (hsaid : d.SaidBy settings.helperVariable (.failure f b))
    (hsaid' : d.SaidBy settings.helperVariable (.failure f' b')) :
    f.word = f'.word ∧ f.message = f'.message := by
  refine ⟨hsaid.word.trans hsaid'.word.symm, ?_⟩
  cases h with
  | noHelper =>
    cases h' with
    | noHelper => rfl
    | noMember =>
      have hword : "missing_helper_variable" = "missing_helper_member" :=
        hsaid.word.trans hsaid'.word.symm
      exact absurd hword (by decide)
  | @noMember v _ kind' =>
    obtain ⟨kind, hkind⟩ := Diagnosis.exists_missingMember hsaid.word.symm
    obtain ⟨_, _, hfailure, hmessage⟩ := hsaid.member kind hkind
    obtain ⟨_, _, hfailure', hmessage'⟩ := hsaid'.member kind hkind
    cases hfailure
    cases hfailure'
    rw [hmessage, hmessage']

/-! ### The whole pass -/

/-- Both passes work on the same class, helper variable and statement. -/
theorem Course.WorksOn.unique {c : Course comments settings m} {c' : Course comments' settings m}
    {x x' : ExportedClass} {v v' : Variable} {home home' : Node} (hw : c.WorksOn x v home)
    (hw' : c'.WorksOn x' v' home') : x = x' ∧ v = v' ∧ home = home' := by
  obtain rfl := Option.some.inj (hw.exported.exportedClass?.symm.trans hw'.exported.exportedClass?)
  exact ⟨rfl, Option.some.inj (hw.helper.symm.trans hw'.helper),
    Option.some.inj (hw.home.symm.trans hw'.home)⟩

theorem Course.exported_text (c : Course comments settings m) (hm : m.Readable) :
    c.exported.text = .ok (String.ofList c.exported.chars) := by
  rw [Module.text, (c.onTheWay c.exported (by simp)).readable hm, decode_encodeChars]

/-- Holds of two passes that end alike: both succeed on a class of one name, and one text
    is left if the blocks that each has put in are taken out, or both fail in one way. -/
inductive EndAlike (comments comments' : Option Comments) :
    Except Break Outcome × Session → Except Break Outcome × Session → Prop where
  | success (className : String) (documented documented' : Nat) {s s' : Session}
    {text text' : String} (htext : s.module.text = .ok text) (htext' : s'.module.text = .ok text')
    {base : List Char} {blocks blocks' : Blocks} (hadded : AddedBlocks comments documented blocks)
    (hadded' : AddedBlocks comments' documented' blocks')
    (hinserted : Inserted blocks base text.toList)
    (hinserted' : Inserted blocks' base text'.toList) :
    EndAlike comments comments' (.ok (.success className documented), s)
      (.ok (.success className documented'), s')
  | failure {f f' : Failure} (hword : f.word = f'.word) (hmessage : f.message = f'.message)
    (rolledBack : Bool) (s s' : Session) :
    EndAlike comments comments' (.ok (.failure f rolledBack), s) (.ok (.failure f' rolledBack), s')

/-- Two passes that complete end alike. -/
theorem Course.endAlike (c : Course comments settings m) (c' : Course comments' settings m)
    (hcomplete : CompleteComments comments) (hcomplete' : CompleteComments comments')
    (hlocal : ReadsLocally comments settings m) (hlocal' : ReadsLocally comments' settings m)
    {s s' : Session} (hafter : s.module = c.exported) (hafter' : s'.module = c'.exported) :
    EndAlike comments comments' (.ok (.success c.className c.documentedProps), s)
      (.ok (.success c'.className c'.documentedProps), s') := by
  obtain ⟨x, v, home, hw⟩ := c.exists_worksOn hcomplete hlocal.first
  obtain ⟨x', v', home', hw'⟩ := c'.exists_worksOn hcomplete' hlocal'.first
  obtain ⟨rfl, rfl, rfl⟩ := hw.unique hw'
  obtain ⟨blocks, blocks', hadded, hadded', base, hinserted, hinserted'⟩ :=
    Course.exported_alike hw hw' hcomplete hcomplete' hlocal hlocal'
  have htext : s.module.text = .ok (String.ofList c.exported.chars) :=
    hafter ▸ c.exported_text hw.readable
  have htext' : s'.module.text = .ok (String.ofList c'.exported.chars) :=
    hafter' ▸ c'.exported_text hw.readable
  rw [hw'.name, ← hw.name]
  exact .success _ _ _ htext htext' hadded hadded' (by rwa [String.toList_ofList])
    (by rwa [String.toList_ofList])

/-- Comments only add comments: two passes on one module end alike, whatever comments
    each is given. -/
theorem process_insensitive (comments comments' : Option Comments) (settings : Settings)
    (s : Session) (hcomplete : CompleteComments comments) (hcomplete' : CompleteComments comments')
    (hlocal : ReadsLocally comments settings s.module)
    (hlocal' : ReadsLocally comments' settings s.module) :
    EndAlike comments comments' (process comments settings s) (process comments' settings s) := by
  have hends := process_ends comments settings s
  have hends' := process_ends comments' settings s
  generalize process comments settings s = ends at hends ⊢
  generalize process comments' settings s = ends' at hends' ⊢
  obtain ⟨result, after⟩ := ends
  obtain ⟨result', after'⟩ := ends'
  dsimp only at hends hends'
  generalize hafter : after.module = left at hends
  generalize hafter' : after'.module = left' at hends'
  -- The first stage fails on both sides or on none, and what the second one says is
  -- the diagnosis of the one module, so the two passes end in the same place.
  cases hends with
  | refused hbatch h => exact absurd h (hbatch.not_refused _)
  | unexported hplan =>
    have hplan' := normalizeExport_error hplan comments'
    cases hends' with
    | refused hbatch h => exact absurd h (hbatch.not_refused _)
    | unexported h =>
      obtain rfl := Except.error.inj (hplan'.symm.trans h)
      exact .failure rfl rfl _ _ _
    | unextracted h _ _ => exact absurd (hplan'.symm.trans h) nofun
    | completed c' => exact absurd (hplan'.symm.trans c'.normalizes) nofun
  | unextracted hplan happly hextract =>
    have hsaid := said_of_extractTypes hcomplete hlocal.first hplan happly hextract
    cases hends' with
    | refused hbatch h => exact absurd h (hbatch.not_refused _)
    | unexported h => exact absurd ((normalizeExport_error h comments).symm.trans hplan) nofun
    | unextracted hplan' happly' hextract' =>
      have hsaid' := said_of_extractTypes hcomplete' hlocal'.first hplan' happly' hextract'
      obtain ⟨hword, hmessage⟩ := ExtractEnds.alike (hextract ▸ extractTypes_ends _ settings)
        (hextract' ▸ extractTypes_ends _ settings) (hsaid false) (hsaid' false)
      exact .failure hword hmessage _ _ _
    | completed c' =>
      exact absurd (c'.diagnosed hcomplete' hlocal'.first)
        (Diagnosis.not_sound_of_failure (hsaid false))
  | completed c =>
    cases hends' with
    | refused hbatch h => exact absurd h (hbatch.not_refused _)
    | unexported h =>
      exact absurd ((normalizeExport_error h comments).symm.trans c.normalizes) nofun
    | unextracted hplan' happly' hextract' =>
      have hsaid' := said_of_extractTypes hcomplete' hlocal'.first hplan' happly' hextract'
      exact absurd (c.diagnosed hcomplete hlocal.first)
        (Diagnosis.not_sound_of_failure (hsaid' false))
    | completed c' => exact c.endAlike c' hcomplete hcomplete' hlocal hlocal' hafter hafter'

/-! ### The small component -/

theorem completeComments_none : CompleteComments none := ⟨nofun, nofun⟩

/-- Without comments, too, the small component is read locally. -/
theorem readsLocally_bare : ReadsLocally none smallSettings smallModule :=
  readsLocally_of_check (by decide +kernel)

/-- The small component with a description and a comment for its prop, and without
    comments. -/
theorem process_insensitive_small :
    (∃ documented s', process smallComments smallSettings ⟨smallModule, []⟩ =
      (.ok (.success "A" documented), s')) ∧
    EndAlike smallComments none (process smallComments smallSettings ⟨smallModule, []⟩)
      (process none smallSettings ⟨smallModule, []⟩) :=
  ⟨process_small, process_insensitive smallComments none smallSettings ⟨smallModule, []⟩
    completeComments_small completeComments_none readsLocally_small readsLocally_bare⟩

end ComponentDecl
