import ComponentDecl.Proofs.Module.Reach

/-! # Members of intersections

    A name that several parts of an intersection give has the signature of the last of
    them.  This needs the parts to come by that name on their own: a resolution follows a
    type name once, so a later part that refers to what an earlier one refers to
    does not win with it.

    Key theorem:
    - `Module.resolveMembers_operands`: when the last operand wins
-/

namespace ComponentDecl

open Syntax

/-- What an intersection joins: its parts, where a part that is an intersection may stand
    for its own parts. -/
inductive Syntax.Node.Operands (type : Node) : List Node → Prop where
  | parts {parts : List Node} (h : type.shape = .joins parts) : Operands type parts
  | flattened {before after parts : List Node} {part : Node}
      (h : Operands type (before ++ part :: after)) (hpart : part.shape = .joins parts) :
      Operands type (before ++ (parts ++ after))

namespace Module

variable {m : Module}

/-- Holds of a type name under which a signature of a name is found. -/
def Gives (m : Module) (type name : String) : Prop :=
  ∃ target signature, m.referent? type = some target ∧ m.Offers target signature ∧
    signature.memberName = name

/-! ### What types of a shape reach -/

theorem reaches_of_joins {t u : Node} {parts : List Node} (hshape : t.shape = .joins parts)
    (h : m.Reaches t u) : u = t ∨ ∃ p ∈ parts, m.Reaches p u := by
  rcases Relation.ReflTransGen.cases_head h with rfl | ⟨v, hstep, hreach⟩
  · exact Or.inl rfl
  · cases hstep with
    | inner h => cases hshape.symm.trans h
    | referent h => cases hshape.symm.trans h
    | part h hv =>
      obtain rfl := Shape.joins.inj (hshape.symm.trans h)
      exact Or.inr ⟨v, hv, hreach⟩

theorem reaches_of_refers {t u : Node} {name : String} (hshape : t.shape = .refers name)
    (h : m.Reaches t u) : u = t ∨ ∃ target, m.referent? name = some target ∧ m.Reaches target u := by
  rcases Relation.ReflTransGen.cases_head h with rfl | ⟨v, hstep, hreach⟩
  · exact Or.inl rfl
  · cases hstep with
    | inner h => cases hshape.symm.trans h
    | part h => cases hshape.symm.trans h
    | referent h htarget =>
      obtain rfl := Shape.refers.inj (hshape.symm.trans h)
      exact Or.inr ⟨v, htarget, hreach⟩

theorem offers_iff_part {t signature : Node} {parts : List Node} (hshape : t.shape = .joins parts) :
    m.Offers t signature ↔ ∃ p ∈ parts, m.Offers p signature := by
  refine ⟨?_, fun ⟨p, hp, hoffers⟩ => (TakesFrom.part hshape hp).offers hoffers⟩
  rintro ⟨u, signatures, hreach, hdeclares, hmem⟩
  rcases reaches_of_joins hshape hreach with rfl | ⟨p, hp, hreach⟩
  · cases hshape.symm.trans hdeclares
  · exact ⟨p, hp, u, signatures, hreach, hdeclares, hmem⟩

/-- A reference offers what it gives. -/
theorem gives_of_offers {t signature : Node} {name : String} (hshape : t.shape = .refers name)
    (h : m.Offers t signature) : m.Gives name signature.memberName := by
  obtain ⟨u, signatures, hreach, hdeclares, hmem⟩ := h
  rcases reaches_of_refers hshape hreach with rfl | ⟨target, htarget, hreach⟩
  · cases hshape.symm.trans hdeclares
  · exact ⟨target, signature, htarget, ⟨u, signatures, hreach, hdeclares, hmem⟩, rfl⟩

/-! ### What a resolution finds once more -/

theorem Resolves.nodup {followed followed' : List String} {ts : List Node} {rs : List Members}
    (h : m.Resolves followed ts rs followed') : ∀ r ∈ rs, r.names.Nodup := by
  induction h with
  | done => nofun
  | next _ _ ihfirst ihrest =>
    exact List.forall_mem_cons.mpr ⟨ihfirst _ (List.mem_singleton_self _), ihrest⟩
  | declared => exact List.forall_mem_singleton.mpr (Members.nodup_ofSignatures _)
  | joined => exact List.forall_mem_singleton.mpr (Members.nodup_mergeAll _)
  | wrapped _ _ ih | named _ _ _ _ ih => exact ih
  | unknown | known | other => exact List.forall_mem_singleton.mpr List.nodup_nil

/-- A type that does not offer a name neither finds it nor follows a type name that
    gives it. -/
theorem Resolves.of_not_offered {followed followed' : List String} {t : Node} {r : Members}
    {name : String} (h : m.Resolves followed [t] [r] followed')
    (hnot : ∀ signature, m.Offers t signature → signature.memberName ≠ name) :
    r.get? name = none ∧ ∀ type, m.Gives type name → (type ∈ followed' ↔ type ∈ followed) := by
  constructor
  · refine Members.get?_eq_none.mpr fun hname => ?_
    obtain ⟨signature, hentry⟩ := Members.mem_names.mp hname
    obtain ⟨hnamed, u, hu, hoffers⟩ := h.offers r (List.mem_singleton_self r) _ hentry
    exact hnot signature (List.mem_singleton.mp hu ▸ hoffers) hnamed
  · rintro type ⟨target, signature, htarget, ⟨v, signatures, hreach, hshape, hmem⟩, hname⟩
    refine ⟨fun hfollowed => ?_, h.mono type⟩
    rcases h.refersTo type hfollowed with hold | ⟨u, hu, w, hw, hrefers⟩
    · exact hold
    · obtain rfl := List.mem_singleton.mp hu
      have hreaches : m.Reaches u v := hw.trans (.head (.referent hrefers htarget) hreach)
      exact absurd hname (hnot signature ⟨v, signatures, hreaches, hshape, hmem⟩)

/-- Holds of followed names that agree on the type names to which a type refers, as far as
    those give a name. -/
def AgreeOn (m : Module) (t : Node) (name : String) (followed followed' : List String) : Prop :=
  ∀ type, m.RefersTo t type → m.Gives type name → (type ∈ followed ↔ type ∈ followed')

theorem AgreeOn.of_takesFrom {t u : Node} {name : String} {followed followed' : List String}
    (h : m.AgreeOn t name followed followed') (htaken : m.TakesFrom t u) :
    m.AgreeOn u name followed followed' :=
  fun type hrefers => h type (htaken.refersTo hrefers)

/-- Names followed before and after two resolutions.  The resolutions part no two type
    names that give a name: where they agreed before they agree after. -/
def KeepAgreement (m : Module) (name : String) (followed followed' after after' : List String) :
    Prop :=
  ∀ type, m.Gives type name → (type ∈ followed ↔ type ∈ followed') →
    (type ∈ after ↔ type ∈ after')

theorem KeepAgreement.agreeOn {t : Node} {name : String}
    {followed followed' after after' : List String}
    (h : m.KeepAgreement name followed followed' after after')
    (ht : m.AgreeOn t name followed followed') : m.AgreeOn t name after after' :=
  fun type hrefers hgives => h type hgives (ht type hrefers hgives)

/-- Types one after the other, when a resolution of each by itself depends on the names
    followed before only as far as those are agreed on. -/
theorem agree_inTurn {name : String} {fuel : Nat} {followed followed' : List String}
    {ts : List Node}
    (hone : ∀ followed followed' t, m.Enough fuel followed t → m.Enough fuel followed' t →
      m.AgreeOn t name followed followed' →
      (m.resolveWithin fuel followed t).1.get? name =
        (m.resolveWithin fuel followed' t).1.get? name ∧
      m.KeepAgreement name followed followed' (m.resolveWithin fuel followed t).2
        (m.resolveWithin fuel followed' t).2)
    (henough : ∀ t ∈ ts, m.Enough fuel followed t) (henough' : ∀ t ∈ ts, m.Enough fuel followed' t)
    (hagree : ∀ t ∈ ts, m.AgreeOn t name followed followed') :
    (inTurn (m.resolveWithin fuel) followed ts).1.map (·.get? name) =
      (inTurn (m.resolveWithin fuel) followed' ts).1.map (·.get? name) ∧
    m.KeepAgreement name followed followed' (inTurn (m.resolveWithin fuel) followed ts).2
      (inTurn (m.resolveWithin fuel) followed' ts).2 := by
  induction ts generalizing followed followed' with
  | nil => exact ⟨rfl, fun _ _ h => h⟩
  | cons t ts ih =>
    rw [List.forall_mem_cons] at henough henough' hagree
    obtain ⟨hfirst, hkeep⟩ := hone followed followed' t henough.1 henough'.1 hagree.1
    have hmono := (resolves_of_enough henough.1).mono
    have hmono' := (resolves_of_enough henough'.1).mono
    obtain ⟨hrest, hkeep'⟩ := ih (fun u hu => (henough.2 u hu).of_followed hmono)
      (fun u hu => (henough'.2 u hu).of_followed hmono') fun u hu => hkeep.agreeOn (hagree.2 u hu)
    exact ⟨by rw [inTurn, inTurn, List.map_cons, List.map_cons, hfirst, hrest],
      fun type hgives hsame => hkeep' type hgives (hkeep type hgives hsame)⟩

/-- The signature of a name depends on the names followed before only as far as they are
    type names to which the type refers and which give the name. -/
theorem resolveWithin_agree {name : String} {fuel : Nat} {followed followed' : List String}
    {t : Node} (henough : m.Enough fuel followed t) (henough' : m.Enough fuel followed' t)
    (hagree : m.AgreeOn t name followed followed') :
    (m.resolveWithin fuel followed t).1.get? name =
      (m.resolveWithin fuel followed' t).1.get? name ∧
    m.KeepAgreement name followed followed' (m.resolveWithin fuel followed t).2
      (m.resolveWithin fuel followed' t).2 := by
  induction fuel generalizing followed followed' t with
  | zero => exact absurd henough (Nat.not_lt_zero _)
  | succ fuel ih =>
    -- A part that offers no such member gives none, whatever was followed before.
    by_cases hoffered : ∀ signature, m.Offers t signature → signature.memberName ≠ name
    · obtain ⟨hnone, hkeep⟩ := (resolves_of_enough henough).of_not_offered hoffered
      obtain ⟨hnone', hkeep'⟩ := (resolves_of_enough henough').of_not_offered hoffered
      refine ⟨hnone.trans hnone'.symm, fun type hgives hsame => ?_⟩
      rw [hkeep type hgives, hsame, hkeep' type hgives]
    rw [resolveWithin_succ, resolveWithin_succ]
    cases hshape : t.shape with
    | declares signatures => exact ⟨rfl, fun _ _ h => h⟩
    | wraps inner =>
      have hinner := Node.mem_parts_of_wraps hshape
      exact ih (henough.part hinner) (henough'.part hinner) (hagree.of_takesFrom (.inner hshape))
    | joins parts =>
      have hparts := Node.parts_of_joins hshape
      obtain ⟨hget, hkeep⟩ := agree_inTurn (fun _ _ _ => ih)
        (fun part hpart => henough.part (hparts ▸ hpart))
        (fun part hpart => henough'.part (hparts ▸ hpart))
        fun part hpart => hagree.of_takesFrom (.part hshape hpart)
      refine ⟨?_, hkeep⟩
      have hresults := resolves_inTurn (fun _ _ => resolves_of_enough)
        fun part hpart => henough.part (hparts ▸ hpart)
      have hresults' := resolves_inTurn (fun _ _ => resolves_of_enough)
        fun part hpart => henough'.part (hparts ▸ hpart)
      dsimp only
      rw [Members.get?_mergeAll hresults.nodup, Members.get?_mergeAll hresults'.nodup, hget]
    | refers type =>
      push Not at hoffered
      obtain ⟨signature, hsignature, rfl⟩ := hoffered
      -- This reference matters, so it is followed on both sides or on neither.
      have hsame := hagree type ⟨t, .refl, hshape⟩ (gives_of_offers hshape hsignature)
      dsimp only
      by_cases hknown : type ∈ followed
      · rw [if_pos hknown, if_pos (hsame.mp hknown)]
        exact ⟨rfl, fun _ _ h => h⟩
      · have hknown' : type ∉ followed' := fun h => hknown (hsame.mpr h)
        rw [if_neg hknown, if_neg hknown']
        have hcons : ∀ other, (other ∈ followed ↔ other ∈ followed') →
            (other ∈ type :: followed ↔ other ∈ type :: followed') := by
          intro other h
          rw [List.mem_cons, List.mem_cons, h]
        cases hreferent : m.referent? type with
        | none => exact ⟨rfl, fun other _ h => hcons other h⟩
        | some target =>
          have htaken : m.TakesFrom t target := .referent hshape hreferent
          obtain ⟨hget, hkeep⟩ := ih (henough.referent hknown hreferent)
            (henough'.referent hknown' hreferent) fun other hrefers hother =>
              hcons other (hagree.of_takesFrom htaken other hrefers hother)
          exact ⟨hget, fun other hother h => hkeep other hother (hcons other h)⟩
    | other => exact ⟨rfl, fun _ _ h => h⟩

/-! ### Operands in turn -/

/-- The members of a type of the module and the references followed, where some were
    followed before. -/
def resolveFrom (m : Module) : List String → Node → Members × List String :=
  m.resolveWithin m.resolutionBound

theorem enough_from {t : Node} (h : m.root.Below t) (followed : List String) :
    m.Enough m.resolutionBound followed t :=
  (enough_of_below h).of_followed (List.forall_mem_nil fun n => n ∈ followed)

theorem resolves_from {t : Node} (h : m.root.Below t) (followed : List String) :
    m.Resolves followed [t] [(m.resolveFrom followed t).1] (m.resolveFrom followed t).2 :=
  resolves_of_enough (enough_from h followed)

theorem resolves_inTurn_from {ts : List Node} (h : ∀ t ∈ ts, m.root.Below t)
    (followed : List String) :
    m.Resolves followed ts (inTurn m.resolveFrom followed ts).1
      (inTurn m.resolveFrom followed ts).2 :=
  resolves_inTurn (fun _ _ => resolves_of_enough) fun t ht => enough_from (h t ht) followed

theorem nodup_resolveMembers {t : Node} (h : m.root.Below t) : (m.resolveMembers t).names.Nodup :=
  (resolves_from h []).nodup _ (List.mem_singleton_self _)

theorem below_part {type part : Node} {parts : List Node} (h : m.root.Below type)
    (hshape : type.shape = .joins parts) (hpart : part ∈ parts) : m.root.Below part :=
  h.child (Node.mem_children_of_mem_parts (Node.parts_of_joins hshape ▸ hpart))

/-- An intersection is resolved like its parts in turn. -/
theorem resolveFrom_joins {t : Node} {parts : List Node} (h : m.root.Below t)
    (hshape : t.shape = .joins parts) (followed : List String) :
    m.resolveFrom followed t = (Members.mergeAll (inTurn m.resolveFrom followed parts).1,
      (inTurn m.resolveFrom followed parts).2) := by
  have hparts := resolves_inTurn_from (fun _ hp => below_part h hshape hp) followed
  obtain ⟨hfound, hfollowed⟩ := (resolves_from h followed).unique (.joined hshape hparts)
  exact Prod.ext (List.cons.inj hfound).1 hfollowed

theorem inTurn_append {σ α β : Type} (call : σ → α → β × σ) (s : σ) (as bs : List α) :
    inTurn call s (as ++ bs) = ((inTurn call s as).1 ++ (inTurn call (inTurn call s as).2 bs).1,
      (inTurn call (inTurn call s as).2 bs).2) := by
  induction as generalizing s with
  | nil => rfl
  | cons a as ih => rw [List.cons_append, inTurn, ih]; rfl

theorem below_operand {type operand : Node} {operands : List Node} (h : m.root.Below type)
    (hoperands : type.Operands operands) (hoperand : operand ∈ operands) :
    m.root.Below operand := by
  induction hoperands generalizing operand with
  | parts hshape => exact below_part h hshape hoperand
  | flattened _ hpart ih =>
    rw [List.mem_append, List.mem_append] at hoperand
    rcases hoperand with hin | hin | hin
    · exact ih (List.mem_append_left _ hin)
    · exact below_part (ih (List.mem_append_right _ (.head _))) hpart hin
    · exact ih (List.mem_append_right _ (.tail _ hin))

/-- A type offers what one of its operands does. -/
theorem offers_iff_operand {type signature : Node} {operands : List Node}
    (h : type.Operands operands) :
    m.Offers type signature ↔ ∃ p ∈ operands, m.Offers p signature := by
  induction h with
  | parts hshape => exact offers_iff_part hshape
  | flattened _ hpart ih =>
    refine ih.trans ?_
    simp only [List.mem_append, List.mem_cons, or_and_right, exists_or, exists_eq_left,
      offers_iff_part hpart]

/-- An intersection gives a name the last signature that its operands give it in turn. -/
theorem get?_operands {type : Node} {operands : List Node} (h : m.root.Below type)
    (hoperands : type.Operands operands) (name : String) :
    (m.resolveMembers type).get? name =
      ((inTurn m.resolveFrom [] operands).1.map (·.get? name)).reverse.findSome? id := by
  induction hoperands with
  | parts hshape =>
    have hparts := resolves_inTurn_from (fun _ hp => below_part h hshape hp) []
    show (m.resolveFrom [] type).1.get? name = _
    rw [resolveFrom_joins h hshape, Members.get?_mergeAll hparts.nodup]
  | @flattened before after parts part hjoined hpart ih =>
    have hbelow := below_operand h hjoined (List.mem_append_right _ (.head _))
    have hparts := resolves_inTurn_from (fun _ hp => below_part hbelow hpart hp)
      (inTurn m.resolveFrom [] before).2
    rw [ih, inTurn_append, inTurn, inTurn_append, inTurn_append]
    simp only [List.map_append, List.map_cons, List.reverse_append, List.reverse_cons,
      List.findSome?_append, List.findSome?_singleton, id, Option.or_assoc,
      resolveFrom_joins hbelow hpart, Members.get?_mergeAll hparts.nodup]

/-! ### The last operand with a name -/

/-- Holds of a type and those that come before it, if no type name to which both sides refer
    gives a name. -/
def Unshared (m : Module) (before : List Node) (t : Node) (name : String) : Prop :=
  ∀ p ∈ before, ∀ type, m.RefersTo p type → m.RefersTo t type → ¬ m.Gives type name

theorem offers_of_get? {t signature : Node} {name : String} (h : m.root.Below t)
    (hget : (m.resolveMembers t).get? name = some signature) :
    m.Offers t signature ∧ signature.memberName = name := by
  obtain ⟨hname, u, hu, hoffers⟩ := (resolves_from h []).offers _ (List.mem_singleton_self _) _
    (Members.mem_of_get? hget)
  exact ⟨List.mem_singleton.mp hu ▸ hoffers, hname⟩

/-- Operands in turn give a name what they give it on their own.  The induction takes the
    operands from the last one: either it has the name, or it adds nothing to those
    before it. -/
theorem inTurn_alone {operands : List Node} {name : String}
    (hbelow : ∀ p ∈ operands, m.root.Below p)
    (hlast : ∀ before last after, operands = before ++ last :: after →
      name ∈ (m.resolveMembers last).names → (∀ p ∈ after, name ∉ (m.resolveMembers p).names) →
      m.Unshared before last name) :
    ((inTurn m.resolveFrom [] operands).1.map (·.get? name)).reverse.findSome? id =
      (operands.map fun p => (m.resolveMembers p).get? name).reverse.findSome? id := by
  induction operands using List.reverseRecOn with
  | nil => rfl
  | append_singleton before last ih =>
    obtain ⟨hbefore, hbelow'⟩ := List.forall_mem_append.mp hbelow
    have hroot := hbelow' last (List.mem_singleton_self last)
    have hturn := resolves_inTurn_from hbefore []
    -- What the last operand gives the name in its turn.
    have hsame : (m.resolveFrom (inTurn m.resolveFrom [] before).2 last).1.get? name =
        (m.resolveMembers last).get? name := by
      by_cases hname : name ∈ (m.resolveMembers last).names
      · refine (resolveWithin_agree (enough_from hroot _) (enough_of_below hroot) ?_).1
        intro type hrefers hgives
        refine ⟨fun hfollowed => ?_, nofun⟩
        obtain ⟨p, hp, hshared⟩ := (hturn.refersTo type hfollowed).resolve_left List.not_mem_nil
        exact absurd hgives (hlast before last [] rfl hname nofun p hp type hshared hrefers)
      · have hnot : ∀ signature, m.Offers last signature → signature.memberName ≠ name :=
          fun signature hoffers heq =>
            hname (((resolveMembers_reaches hroot).2.2 name).mpr ⟨signature, hoffers, heq⟩)
        rw [((resolves_from hroot _).of_not_offered hnot).1, Members.get?_eq_none.mpr hname]
    rw [inTurn_append, inTurn, inTurn, List.map_append, List.map_append, List.map_singleton,
      List.map_singleton, List.reverse_append, List.reverse_append, List.reverse_singleton,
      List.reverse_singleton, List.findSome?_append, List.findSome?_append, hsame]
    by_cases hname : name ∈ (m.resolveMembers last).names
    · obtain ⟨signature, hsignature⟩ := Members.exists_get? hname
      rw [hsignature]
      rfl
    · rw [Members.get?_eq_none.mpr hname]
      refine ih hbefore fun start p after hsplit hp hafter => ?_
      refine hlast start p (after ++ [last]) (by rw [hsplit]; simp) hp ?_
      exact List.forall_mem_append.mpr ⟨hafter, List.forall_mem_singleton.mpr hname⟩

/-- Where all signatures of a name that a type offers are one, that is the signature of
    the name. -/
theorem get?_of_one {type : Node} {operands : List Node} {name : String}
    (h : m.root.Below type) (hoperands : type.Operands operands)
    (hone : ∀ signature signature', m.Offers type signature → m.Offers type signature' →
      signature.memberName = name → signature'.memberName = name → signature = signature') :
    (m.resolveMembers type).get? name =
      (operands.map fun p => (m.resolveMembers p).get? name).reverse.findSome? id := by
  have hbelow : ∀ p ∈ operands, m.root.Below p := fun p hp => below_operand h hoperands hp
  cases hlast : (operands.map fun p => (m.resolveMembers p).get? name).reverse.findSome? id with
  | none =>
    refine Members.get?_eq_none.mpr fun hname => ?_
    obtain ⟨signature, hoffers, hnamed⟩ := ((resolveMembers_reaches h).2.2 name).mp hname
    obtain ⟨p, hp, hoffersp⟩ := (offers_iff_operand hoperands).mp hoffers
    have hnames := ((resolveMembers_reaches (hbelow p hp)).2.2 name).mpr ⟨signature, hoffersp, hnamed⟩
    refine absurd hnames (Members.get?_eq_none.mp ?_)
    exact List.findSome?_eq_none_iff.mp hlast _
      (List.mem_reverse.mpr (List.mem_map.mpr ⟨p, hp, rfl⟩))
  | some signature =>
    obtain ⟨found, hfound, hsome⟩ := List.exists_of_findSome?_eq_some hlast
    obtain ⟨p, hp, rfl⟩ := List.mem_map.mp (List.mem_reverse.mp hfound)
    obtain ⟨hoffersp, hnamed⟩ := offers_of_get? (hbelow p hp) hsome
    have hoffers := (offers_iff_operand hoperands).mpr ⟨p, hp, hoffersp⟩
    have hname := ((resolveMembers_reaches h).2.2 name).mpr ⟨signature, hoffers, hnamed⟩
    obtain ⟨signature', hget⟩ := Members.exists_get? hname
    obtain ⟨hoffers', hnamed'⟩ := offers_of_get? h hget
    rw [hget, hone signature' signature hoffers' hoffers hnamed' hnamed]

/-- A name has in an intersection the signature that it has when the members of the
    operands are merged from left to right, each operand resolved on its own: if the last
    operand that has the name shares no type name that gives it with an operand before,
    or if all signatures of the name are one. -/
theorem resolveMembers_operands {type : Node} {operands : List Node} {name : String}
    (h : m.root.Below type) (hoperands : type.Operands operands)
    (hlast : (∀ before last after, operands = before ++ last :: after →
        name ∈ (m.resolveMembers last).names → (∀ p ∈ after, name ∉ (m.resolveMembers p).names) →
        m.Unshared before last name) ∨
      ∀ signature signature', m.Offers type signature → m.Offers type signature' →
        signature.memberName = name → signature'.memberName = name → signature = signature') :
    (m.resolveMembers type).get? name =
      (Members.mergeAll (operands.map m.resolveMembers)).get? name := by
  have hbelow : ∀ p ∈ operands, m.root.Below p := fun p hp => below_operand h hoperands hp
  have hnodup : ∀ r ∈ operands.map m.resolveMembers, r.names.Nodup :=
    List.forall_mem_map.mpr fun p hp => nodup_resolveMembers (hbelow p hp)
  rw [Members.get?_mergeAll hnodup, List.map_map]
  rcases hlast with hlast | hone
  · rw [get?_operands h hoperands, inTurn_alone hbelow hlast]
    rfl
  · exact get?_of_one h hoperands hone

/-- An intersection of which one part is an object type and the other refers to one name
    twice. -/
def joinedModule : Module := Module.ofText none "type A={a:1}\ntype B=A&A&{a:2}"

/-- An object type refers to nothing. -/
theorem unshared_of_declares {t : Node} {signatures : List Node}
    (hshape : t.shape = .declares signatures) (before : List Node) (name : String) :
    m.Unshared before t name := by
  rintro - - type - ⟨u, hreach, hrefers⟩
  rcases Relation.ReflTransGen.cases_head hreach with rfl | ⟨v, hstep, -⟩
  · cases hshape.symm.trans hrefers
  · cases hstep <;> simp_all

theorem resolveMembers_operands_joined : ∃ type p q, joinedModule.referent? "B" = some type ∧
    type.Operands [p, q] ∧ joinedModule.root.Below type ∧
    (∀ before last after, [p, q] = before ++ last :: after →
      "a" ∈ (joinedModule.resolveMembers last).names →
      (∀ r ∈ after, "a" ∉ (joinedModule.resolveMembers r).names) →
      joinedModule.Unshared before last "a") ∧
    (joinedModule.resolveMembers type).get? "a" =
      (Members.mergeAll ([p, q].map joinedModule.resolveMembers)).get? "a" := by
  -- Only kinds and names are computed; the nodes themselves stay abstract.
  have hcomputed : (joinedModule.referent? "B").map (fun t => (t.kind, t.parts.map fun part =>
      (part.kind, (joinedModule.resolveMembers part).names))) =
      some (.intersectionType, [(.intersectionType, ["a"]), (.objectType, ["a"])]) := by
    decide +kernel
  obtain ⟨type, htype, hfacts⟩ := Option.map_eq_some_iff.mp hcomputed
  obtain ⟨hkind, hparts⟩ := Prod.mk.inj hfacts
  obtain ⟨p, rest, hsplit, -, hrest⟩ := List.map_eq_cons_iff.mp hparts
  obtain ⟨q, rest, rfl, hq, hnil⟩ := List.map_eq_cons_iff.mp hrest
  obtain rfl := List.map_eq_nil_iff.mp hnil
  obtain ⟨hobject, hnames⟩ := Prod.mk.inj hq
  have hoperands : type.Operands [p, q] := .parts (by simp [Node.shape, hkind, hsplit])
  have hunshared : joinedModule.Unshared [p] q "a" :=
    unshared_of_declares (show q.shape = .declares (q.partsOf .propertySignature) by
      simp [Node.shape, hobject]) _ _
  have hlast : ∀ before last after, [p, q] = before ++ last :: after →
      "a" ∈ (joinedModule.resolveMembers last).names →
      (∀ r ∈ after, "a" ∉ (joinedModule.resolveMembers r).names) →
      joinedModule.Unshared before last "a" := by
    intro before last after heq _ hafter
    rcases before with _ | ⟨first, _ | ⟨second, before⟩⟩
    · obtain ⟨-, rfl⟩ := List.cons.inj heq
      exact absurd (by rw [hnames]; exact .head _) (hafter q (List.mem_singleton_self q))
    · obtain ⟨hfirst, heq⟩ := List.cons.inj heq
      obtain ⟨hsecond, -⟩ := List.cons.inj heq
      exact hfirst ▸ hsecond ▸ hunshared
    · simp at heq
  have hbelow := below_referent? htype
  exact ⟨type, p, q, htype, hoperands, hbelow, hlast,
    resolveMembers_operands hbelow hoperands (Or.inl hlast)⟩

/-- A reference that comes again does not win over what stands in between. -/
example : let m := Module.ofText none "type A={a:1}\ntype B=A&{a:2}&A"
    (m.referent? "B").map (fun t => (m.resolveMembers t).map fun entry => entry.2.text) =
      some ["a:2"] := by
  decide +kernel

end Module

end ComponentDecl
