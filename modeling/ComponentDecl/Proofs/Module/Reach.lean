import ComponentDecl.Proofs.Module.Members
import ComponentDecl.Proofs.Module.Resolution
import Mathlib.Logic.Relation

/-! # Which members a type reaches

    The references of declared types may lead back to themselves.  A resolution ends all
    the same, for it follows no name twice; and it misses nothing, for what a name that it
    passes over has to offer is found where the name was followed.

    Key theorem:
    - `Module.resolveMembers_reaches`: a resolution ends, and the names that it finds are
        those of the signatures that the type reaches
-/

namespace ComponentDecl

open Syntax

/-! ### Shapes of types -/

/-- Where the members of a type come from. -/
inductive Syntax.Shape where
  | declares (signatures : List Node)
  | wraps (inner : Node)
  | joins (parts : List Node)
  | refers (name : String)
  | other

/-- Object types and interfaces declare members themselves; parentheses, intersections and
    type names take those of other types. -/
def Syntax.Node.shape (t : Node) : Shape :=
  match t.kind with
  | .objectType | .interfaceBody => .declares (t.partsOf .propertySignature)
  | .parenthesizedType =>
    match t.parts.head? with
    | some inner => .wraps inner
    | none => .other
  | .intersectionType => .joins t.parts
  | _ =>
    match t.reference? with
    | some name => .refers name
    | none => .other

namespace Module

/-- The type that a name stands for: the value of the first alias or the body of the
    first interface of the name, whichever is declared first. -/
def referent? (m : Module) (name : String) : Option Node :=
  (m.typeNamed? name).bind fun declared =>
    declared.child? (if declared.kind = .interfaceDeclaration then .body else .value)

variable (m : Module)

/-- A type takes members from the type in its parentheses, from each part of an
    intersection and from what its name stands for. -/
inductive TakesFrom (t : Node) : Node → Prop where
  | inner {inner : Node} (h : t.shape = .wraps inner) : TakesFrom t inner
  | part {parts : List Node} {part : Node} (h : t.shape = .joins parts) (hpart : part ∈ parts) :
      TakesFrom t part
  | referent {name : String} {target : Node} (h : t.shape = .refers name)
      (htarget : m.referent? name = some target) : TakesFrom t target

/-- Types from which a type takes members in any number of steps. -/
def Reaches : Node → Node → Prop := Relation.ReflTransGen m.TakesFrom

/-- The property signatures that a type reaches. -/
def Offers (t signature : Node) : Prop :=
  ∃ u signatures, m.Reaches t u ∧ u.shape = .declares signatures ∧ signature ∈ signatures

/-- The type names to which a type refers, in any number of steps. -/
def RefersTo (t : Node) (name : String) : Prop := ∃ u, m.Reaches t u ∧ u.shape = .refers name

variable {m}

theorem TakesFrom.offers {t u signature : Node} (h : m.TakesFrom t u) (hu : m.Offers u signature) :
    m.Offers t signature := by
  obtain ⟨v, signatures, hreach, hshape, hmem⟩ := hu
  exact ⟨v, signatures, .head h hreach, hshape, hmem⟩

theorem TakesFrom.refersTo {t u : Node} {name : String} (h : m.TakesFrom t u)
    (hu : m.RefersTo u name) : m.RefersTo t name := by
  obtain ⟨v, hreach, hshape⟩ := hu
  exact ⟨v, .head h hreach, hshape⟩

theorem below_referent? {name : String} {target : Node} (h : m.referent? name = some target) :
    m.root.Below target := by
  obtain ⟨declared, hdeclared, htarget⟩ := Option.bind_eq_some_iff.mp h
  obtain ⟨stmt, hstmt, rfl, -⟩ := declarationOfKind?_spec hdeclared
  have hbelow : m.root.Below stmt := .child .refl (Node.mem_children_of_mem_parts hstmt)
  exact (hbelow.trans (Node.below_unwrap stmt)).child (Node.mem_children_of_child? htarget)

/-- The type that a name stands for is no higher than the module. -/
theorem referent?_bounds {name : String} {target : Node} (h : m.referent? name = some target) :
    name ∈ m.declaredNames ∧ target.tree.height < m.tree.height := by
  obtain ⟨declared, hdeclared, htarget⟩ := Option.bind_eq_some_iff.mp h
  obtain ⟨hname, hheight⟩ := typeNamed?_bounds (congrArg (Option.map Node.tree) hdeclared)
  have htree := congrArg (Option.map Node.tree) htarget
  rw [Node.child?_tree] at htree
  exact ⟨hname, Nat.lt_of_lt_of_le (Tree.height_lt_of_child? htree) hheight⟩

end Module

namespace Syntax.Node

theorem height_lt_of_mem_parts {t u : Node} (h : u ∈ t.parts) : u.tree.height < t.tree.height :=
  Tree.height_lt_of_mem_parts (parts_tree t ▸ List.mem_map_of_mem h)

theorem mem_parts_of_wraps {t inner : Node} (h : t.shape = .wraps inner) : inner ∈ t.parts := by
  unfold shape at h
  split at h
  · cases h
  · cases h
  · split at h
    · next hhead => exact Shape.wraps.inj h ▸ List.mem_of_head? hhead
    · cases h
  · cases h
  · split at h <;> cases h

theorem parts_of_joins {t : Node} {parts : List Node} (h : t.shape = .joins parts) :
    parts = t.parts := by
  unfold shape at h
  split at h
  · cases h
  · cases h
  · split at h <;> cases h
  · exact (Shape.joins.inj h).symm
  · split at h <;> cases h

end Syntax.Node

/-! ### Resolutions without a bound -/

/-- Results of one call after the other, each with what the one before it leaves. -/
def inTurn {σ α β : Type} (call : σ → α → β × σ) (s : σ) : List α → List β × σ
  | [] => ([], s)
  | a :: as => ((call s a).1 :: (inTurn call (call s a).2 as).1, (inTurn call (call s a).2 as).2)

namespace Module

variable {m : Module}

/-- What a resolution does with a type, by its shape. -/
theorem resolveWithin_succ (m : Module) (fuel : Nat) (followed : List String) (t : Node) :
    m.resolveWithin (fuel + 1) followed t =
      match t.shape with
      | .declares signatures => (Members.ofSignatures signatures, followed)
      | .wraps inner => m.resolveWithin fuel followed inner
      | .joins parts =>
        (Members.mergeAll (inTurn (m.resolveWithin fuel) followed parts).1,
          (inTurn (m.resolveWithin fuel) followed parts).2)
      | .refers name =>
        if name ∈ followed then ([], followed)
        else
          match m.referent? name with
          | none => ([], name :: followed)
          | some target => m.resolveWithin fuel (name :: followed) target
      | .other => ([], followed) := by
  -- The definition carries the members along with the references; `inTurn` collects them first.
  have hparts : ∀ (parts : List Node) (acc : Members × List String),
      parts.foldl (fun acc part => (acc.1.merge (m.resolveWithin fuel acc.2 part).1,
        (m.resolveWithin fuel acc.2 part).2)) acc =
      ((inTurn (m.resolveWithin fuel) acc.2 parts).1.foldl Members.merge acc.1,
        (inTurn (m.resolveWithin fuel) acc.2 parts).2) := by
    intro parts
    induction parts with
    | nil => exact fun _ => rfl
    | cons part parts ih => exact fun acc => ih _
  rw [resolveWithin]
  split
  · next hkind => simp only [Node.shape, hkind]
  · next hkind => simp only [Node.shape, hkind]
  · next hkind =>
    simp only [Node.shape, hkind]
    cases t.parts.head? <;> rfl
  · next hkind =>
    simp only [Node.shape, hkind]
    exact hparts t.parts ([], followed)
  · have hshape : t.shape = match t.reference? with
        | some name => .refers name
        | none => .other := by
      unfold Node.shape
      split <;> first | contradiction | rfl
    rw [hshape]
    cases t.reference? with
    | none => rfl
    | some name =>
      simp only [List.contains_eq_mem, decide_eq_true_eq, referent?]
      cases m.typeNamed? name with
      | none => rfl
      | some declared =>
        cases htarget : declared.child?
            (if declared.kind = .interfaceDeclaration then .body else .value) <;>
          simp only [Option.bind_some, htarget]

/-- Types resolved one after the other, with the names followed before, the members of
    each and the names followed in the end.  No bound on the steps stands in these rules:
    a resolution that would not end has no derivation. -/
inductive Resolves (m : Module) :
    List String → List Node → List Members → List String → Prop where
  | done {followed : List String} : Resolves m followed [] [] followed
  | next {followed followed₁ followed' : List String} {t : Node} {ts : List Node} {r : Members}
      {rs : List Members} (first : Resolves m followed [t] [r] followed₁)
      (rest : Resolves m followed₁ ts rs followed') : Resolves m followed (t :: ts) (r :: rs) followed'
  | declared {followed : List String} {t : Node} {signatures : List Node}
      (h : t.shape = .declares signatures) :
      Resolves m followed [t] [.ofSignatures signatures] followed
  | wrapped {followed followed' : List String} {t inner : Node} {r : Members}
      (h : t.shape = .wraps inner) (hinner : Resolves m followed [inner] [r] followed') :
      Resolves m followed [t] [r] followed'
  | joined {followed followed' : List String} {t : Node} {parts : List Node} {rs : List Members}
      (h : t.shape = .joins parts) (hparts : Resolves m followed parts rs followed') :
      Resolves m followed [t] [.mergeAll rs] followed'
  | named {followed followed' : List String} {t target : Node} {name : String} {r : Members}
      (h : t.shape = .refers name) (hnew : name ∉ followed)
      (hreferent : m.referent? name = some target)
      (htarget : Resolves m (name :: followed) [target] [r] followed') :
      Resolves m followed [t] [r] followed'
  | unknown {followed : List String} {t : Node} {name : String} (h : t.shape = .refers name)
      (hnew : name ∉ followed) (hreferent : m.referent? name = none) :
      Resolves m followed [t] [[]] (name :: followed)
  | known {followed : List String} {t : Node} {name : String} (h : t.shape = .refers name)
      (hknown : name ∈ followed) : Resolves m followed [t] [[]] followed
  | other {followed : List String} {t : Node} (h : t.shape = .other) :
      Resolves m followed [t] [[]] followed

namespace Resolves

variable {followed followed' : List String} {ts : List Node} {rs : List Members}

theorem mono (h : m.Resolves followed ts rs followed') : ∀ name ∈ followed, name ∈ followed' := by
  induction h with
  | done | declared | known | other => exact fun _ hn => hn
  | next _ _ ihfirst ihrest => exact fun n hn => ihrest n (ihfirst n hn)
  | wrapped _ _ ih | joined _ _ ih => exact ih
  | named _ _ _ _ ih => exact fun n hn => ih n (List.mem_cons_of_mem _ hn)
  | unknown => exact fun n hn => List.mem_cons_of_mem _ hn

/-- Only names to which a type refers are followed. -/
theorem refersTo (h : m.Resolves followed ts rs followed') :
    ∀ name ∈ followed', name ∈ followed ∨ ∃ t ∈ ts, m.RefersTo t name := by
  induction h with
  | done | declared | known | other => exact fun _ hn => Or.inl hn
  | next _ _ ihfirst ihrest =>
    intro n hn
    rcases ihrest n hn with hn | ⟨t, ht, href⟩
    · rcases ihfirst n hn with hn | ⟨t, ht, href⟩
      · exact Or.inl hn
      · exact Or.inr ⟨t, List.mem_cons.mpr (Or.inl (List.mem_singleton.mp ht)), href⟩
    · exact Or.inr ⟨t, List.mem_cons_of_mem _ ht, href⟩
  | wrapped h _ ih =>
    refine fun n hn => (ih n hn).imp_right fun ⟨u, hu, href⟩ => ?_
    obtain rfl := List.mem_singleton.mp hu
    exact ⟨_, List.mem_singleton_self _, (TakesFrom.inner h).refersTo href⟩
  | joined h _ ih =>
    refine fun n hn => (ih n hn).imp_right fun ⟨u, hu, href⟩ => ?_
    exact ⟨_, List.mem_singleton_self _, (TakesFrom.part h hu).refersTo href⟩
  | named h _ hreferent _ ih =>
    intro n hn
    rcases ih n hn with hn | ⟨u, hu, href⟩
    · rcases List.mem_cons.mp hn with rfl | hn
      · exact Or.inr ⟨_, List.mem_singleton_self _, _, .refl, h⟩
      · exact Or.inl hn
    · obtain rfl := List.mem_singleton.mp hu
      exact Or.inr ⟨_, List.mem_singleton_self _, (TakesFrom.referent h hreferent).refersTo href⟩
  | unknown h =>
    intro n hn
    rcases List.mem_cons.mp hn with rfl | hn
    · exact Or.inr ⟨_, List.mem_singleton_self _, _, .refl, h⟩
    · exact Or.inl hn

/-- Only signatures that a type reaches are found. -/
theorem offers (h : m.Resolves followed ts rs followed') :
    ∀ r ∈ rs, r.Given fun signature => ∃ t ∈ ts, m.Offers t signature := by
  induction h with
  | done => nofun
  | next _ _ ihfirst ihrest =>
    refine List.forall_mem_cons.mpr ⟨?_, fun r hr => (ihrest r hr).mono ?_⟩
    · refine (ihfirst _ (List.mem_singleton_self _)).mono fun _ ⟨t, ht, hoffers⟩ => ?_
      exact ⟨t, List.mem_cons.mpr (Or.inl (List.mem_singleton.mp ht)), hoffers⟩
    · exact fun _ ⟨t, ht, hoffers⟩ => ⟨t, List.mem_cons_of_mem _ ht, hoffers⟩
  | declared h =>
    refine List.forall_mem_singleton.mpr ((Members.given_ofSignatures _).mono fun _ hs => ?_)
    exact ⟨_, List.mem_singleton_self _, _, _, .refl, h, hs⟩
  | wrapped h _ ih =>
    refine fun r hr => (ih r hr).mono fun _ ⟨u, hu, hoffers⟩ => ?_
    obtain rfl := List.mem_singleton.mp hu
    exact ⟨_, List.mem_singleton_self _, (TakesFrom.inner h).offers hoffers⟩
  | joined h _ ih =>
    refine List.forall_mem_singleton.mpr (Members.Given.mergeAll fun r hr => (ih r hr).mono ?_)
    exact fun _ ⟨u, hu, hoffers⟩ => ⟨_, List.mem_singleton_self _, (TakesFrom.part h hu).offers hoffers⟩
  | named h _ hreferent _ ih =>
    refine fun r hr => (ih r hr).mono fun _ ⟨u, hu, hoffers⟩ => ?_
    obtain rfl := List.mem_singleton.mp hu
    exact ⟨_, List.mem_singleton_self _, (TakesFrom.referent h hreferent).offers hoffers⟩
  | unknown | known | other => exact List.forall_mem_singleton.mpr nofun

end Resolves

/-! ### Nothing is missed -/

/-- The types that a resolution has gone through.  With a type it has gone through those
    from which the type takes members, unless the name of the type was followed before. -/
structure Explored (m : Module) (followed : List String) (ts : List Node) (rs : List Members)
    (followed' : List String) (seen : Node → Prop) : Prop where
  start : ∀ t ∈ ts, seen t
  takes : ∀ t u, seen t → m.TakesFrom t u → seen u ∨ ∃ name ∈ followed, t.shape = .refers name
  found : ∀ t signatures, seen t → t.shape = .declares signatures →
    ∀ s ∈ signatures, ∃ r ∈ rs, s.memberName ∈ r.names
  referents : ∀ name ∈ followed', name ∉ followed →
    ∀ target, m.referent? name = some target → seen target

namespace Explored

variable {followed followed₁ followed' : List String} {ts : List Node} {rs : List Members}
  {seen seen' : Node → Prop} {t : Node} {r : Members}

/-- A type by itself, from which a resolution has gone nowhere. -/
theorem single (htakes : ∀ u, m.TakesFrom t u → ∃ name ∈ followed, t.shape = .refers name)
    (hfound : ∀ signatures, t.shape = .declares signatures →
      ∀ s ∈ signatures, s.memberName ∈ r.names) :
    Explored m followed [t] [r] followed (· = t) where
  start := by simp
  takes := by
    rintro t u rfl htaken
    exact Or.inr (htakes u htaken)
  found := by
    rintro t signatures rfl hshape s hs
    exact ⟨r, List.mem_singleton_self r, hfound signatures hshape s hs⟩
  referents name hname hnew := absurd hname hnew

/-- A type that takes members from those that a resolution has gone through. -/
theorem above (h : Explored m followed ts rs followed' seen)
    (htakes : ∀ u, m.TakesFrom t u → u ∈ ts) (hown : ∀ signatures, t.shape ≠ .declares signatures)
    (hnames : ∀ r' ∈ rs, ∀ name ∈ r'.names, name ∈ r.names) :
    Explored m followed [t] [r] followed' fun u => u = t ∨ seen u where
  start := by simp
  takes := by
    rintro u v (rfl | hu) htaken
    · exact Or.inl (Or.inr (h.start v (htakes v htaken)))
    · exact (h.takes u v hu htaken).imp_left Or.inr
  found := by
    rintro u signatures (rfl | hu) hshape s hs
    · exact absurd hshape (hown signatures)
    · obtain ⟨r', hr', hname⟩ := h.found u signatures hu hshape s hs
      exact ⟨r, List.mem_singleton_self r, hnames r' hr' _ hname⟩
  referents name hname hnew target htarget := Or.inr (h.referents name hname hnew target htarget)

/-- What is passed over since its name was followed before is what the earlier part of
    the resolution went through. -/
theorem append (h : Explored m followed [t] [r] followed₁ seen)
    (h' : Explored m followed₁ ts rs followed' seen') :
    Explored m followed (t :: ts) (r :: rs) followed' fun u => seen u ∨ seen' u where
  start := List.forall_mem_cons.mpr
    ⟨Or.inl (h.start t (List.mem_singleton_self t)), fun u hu => Or.inr (h'.start u hu)⟩
  takes := by
    rintro u v (hu | hu) htaken
    · exact (h.takes u v hu htaken).imp_left Or.inl
    · rcases h'.takes u v hu htaken with hv | ⟨name, hname, hshape⟩
      · exact Or.inl (Or.inr hv)
      · -- A name followed before either part excuses both; one that the first part followed
        -- was explored there.
        by_cases hold : name ∈ followed
        · exact Or.inr ⟨name, hold, hshape⟩
        · cases htaken with
          | inner hinner => cases hshape.symm.trans hinner
          | part hjoins => cases hshape.symm.trans hjoins
          | referent hrefers htarget =>
            obtain rfl := Shape.refers.inj (hshape.symm.trans hrefers)
            exact Or.inl (Or.inl (h.referents name hname hold v htarget))
  found := by
    rintro u signatures (hu | hu) hshape s hs
    · obtain ⟨r', hr', hname⟩ := h.found u signatures hu hshape s hs
      exact ⟨r', List.mem_cons.mpr (Or.inl (List.mem_singleton.mp hr')), hname⟩
    · obtain ⟨r', hr', hname⟩ := h'.found u signatures hu hshape s hs
      exact ⟨r', List.mem_cons_of_mem _ hr', hname⟩
  referents name hname hnew target htarget := by
    by_cases hfirst : name ∈ followed₁
    · exact Or.inl (h.referents name hfirst hnew target htarget)
    · exact Or.inr (h'.referents name hname hfirst target htarget)

/-- A type name, when a resolution has gone through what it stands for. -/
theorem named {name : String} {target : Node}
    (h : Explored m (name :: followed) [target] [r] followed' seen) (hshape : t.shape = .refers name)
    (hreferent : m.referent? name = some target) :
    Explored m followed [t] [r] followed' fun u => u = t ∨ seen u where
  start := by simp
  takes := by
    have htarget := h.start target (List.mem_singleton_self target)
    -- Below the target the name counted as followed.  It no longer does, but the target is seen.
    have hnamed : ∀ u v, u.shape = .refers name → m.TakesFrom u v → seen v := by
      intro u v hu htaken
      cases htaken with
      | inner hinner => cases hu.symm.trans hinner
      | part hjoins => cases hu.symm.trans hjoins
      | referent hrefers hv =>
        obtain rfl := Shape.refers.inj (hu.symm.trans hrefers)
        exact Option.some.inj (hreferent.symm.trans hv) ▸ htarget
    rintro u v (rfl | hu) htaken
    · exact Or.inl (Or.inr (hnamed u v hshape htaken))
    · rcases h.takes u v hu htaken with hv | ⟨other, hother, hrefers⟩
      · exact Or.inl (Or.inr hv)
      · rcases List.mem_cons.mp hother with rfl | hother
        · exact Or.inl (Or.inr (hnamed u v hrefers htaken))
        · exact Or.inr ⟨other, hother, hrefers⟩
  found := by
    rintro u signatures (rfl | hu) hdeclares s hs
    · cases hshape.symm.trans hdeclares
    · exact h.found u signatures hu hdeclares s hs
  referents other hother hnew target' htarget' := by
    by_cases hname : other = name
    · subst hname
      exact Or.inr (Option.some.inj (hreferent.symm.trans htarget') ▸
        h.start target (List.mem_singleton_self target))
    · exact Or.inr (h.referents other hother (by simp [hname, hnew]) target' htarget')

/-- With no name followed before, every type that is reached was gone through. -/
theorem reaches (h : Explored m [] ts rs followed' seen) {t u : Node} (ht : t ∈ ts)
    (hreach : m.Reaches t u) : seen u := by
  induction hreach with
  | refl => exact h.start t ht
  | tail _ hstep ih =>
    rcases h.takes _ _ ih hstep with hu | ⟨_, hname, -⟩
    · exact hu
    · cases hname

end Explored

theorem Resolves.explored {followed followed' : List String} {ts : List Node} {rs : List Members}
    (h : m.Resolves followed ts rs followed') : ∃ seen, Explored m followed ts rs followed' seen := by
  induction h with
  | done => exact ⟨fun _ => False, nofun, nofun, nofun, fun _ hname hnew => absurd hname hnew⟩
  | next _ _ ihfirst ihrest =>
    obtain ⟨seen, hfirst⟩ := ihfirst
    obtain ⟨seen', hrest⟩ := ihrest
    exact ⟨_, hfirst.append hrest⟩
  | @declared followed t signatures h =>
    refine ⟨_, .single (fun u htaken => ?_) fun signatures' h' s hs => ?_⟩
    · cases htaken <;> simp_all
    · obtain rfl := Shape.declares.inj (h.symm.trans h')
      exact Members.mem_names_ofSignatures.mpr ⟨s, hs, rfl⟩
  | wrapped h _ ih =>
    obtain ⟨seen, ih⟩ := ih
    refine ⟨_, ih.above (fun u htaken => ?_) (by simp [h]) (by simp)⟩
    cases htaken <;> simp_all
  | joined h _ ih =>
    obtain ⟨seen, ih⟩ := ih
    refine ⟨_, ih.above (fun u htaken => ?_) (by simp [h]) fun r hr name hname => ?_⟩
    · cases htaken <;> simp_all
    · exact Members.mem_names_mergeAll.mpr ⟨r, hr, hname⟩
  | named h _ hreferent _ ih =>
    obtain ⟨seen, ih⟩ := ih
    exact ⟨_, ih.named h hreferent⟩
  | @unknown followed t name h hnew hreferent =>
    refine ⟨(· = t), by simp, ?_, ?_, fun other hother hold target htarget => ?_⟩
    · rintro u v rfl htaken
      cases htaken <;> simp_all
    · rintro u signatures rfl hdeclares
      cases h.symm.trans hdeclares
    · obtain rfl : other = name := (List.mem_cons.mp hother).resolve_right hold
      cases hreferent.symm.trans htarget
  | @known followed t name h hknown =>
    exact ⟨_, .single (fun _ _ => ⟨name, hknown, h⟩) (by simp [h])⟩
  | other h =>
    refine ⟨_, .single (fun u htaken => ?_) (by simp [h])⟩
    cases htaken <;> simp_all

/-! ### A resolution ends -/

/-- Fuel that no path of a resolution uses up. -/
def Enough (m : Module) (fuel : Nat) (followed : List String) (t : Node) : Prop :=
  unfollowed m.declaredNames followed * (m.tree.height + 1) + t.tree.height < fuel

namespace Enough

variable {fuel : Nat} {followed followed' : List String} {t u : Node}

theorem of_followed (h : m.Enough fuel followed t) (hmore : ∀ n ∈ followed, n ∈ followed') :
    m.Enough fuel followed' t := by
  have hle := Nat.mul_le_mul_right (m.tree.height + 1) (@unfollowed_le m.declaredNames _ _ hmore)
  unfold Enough at h ⊢
  omega

theorem part (h : m.Enough (fuel + 1) followed t) (hu : u ∈ t.parts) : m.Enough fuel followed u := by
  have hlt := Node.height_lt_of_mem_parts hu
  unfold Enough at h ⊢
  omega

/-- The referent of a name may be as high as the module, but one name less is left. -/
theorem referent (h : m.Enough (fuel + 1) followed t) {name : String} (hnew : name ∉ followed)
    (hreferent : m.referent? name = some u) : m.Enough fuel (name :: followed) u := by
  obtain ⟨hname, hheight⟩ := referent?_bounds hreferent
  have hmul := Nat.mul_le_mul_right (m.tree.height + 1) (unfollowed_cons_lt hname hnew)
  rw [Nat.succ_mul] at hmul
  unfold Enough at h ⊢
  omega

end Enough

theorem resolves_inTurn {fuel : Nat} {followed : List String} {ts : List Node}
    (hone : ∀ followed t, m.Enough fuel followed t → m.Resolves followed [t]
      [(m.resolveWithin fuel followed t).1] (m.resolveWithin fuel followed t).2)
    (henough : ∀ t ∈ ts, m.Enough fuel followed t) :
    m.Resolves followed ts (inTurn (m.resolveWithin fuel) followed ts).1
      (inTurn (m.resolveWithin fuel) followed ts).2 := by
  induction ts generalizing followed with
  | nil => exact .done
  | cons t ts ih =>
    obtain ⟨ht, hts⟩ := List.forall_mem_cons.mp henough
    have hfirst := hone followed t ht
    exact .next hfirst (ih fun u hu => (hts u hu).of_followed hfirst.mono)

/-- With enough fuel a resolution does not stop before its end. -/
theorem resolves_of_enough {fuel : Nat} {followed : List String} {t : Node}
    (h : m.Enough fuel followed t) :
    m.Resolves followed [t] [(m.resolveWithin fuel followed t).1]
      (m.resolveWithin fuel followed t).2 := by
  induction fuel generalizing followed t with
  | zero => exact absurd h (Nat.not_lt_zero _)
  | succ fuel ih =>
    rw [resolveWithin_succ]
    cases hshape : t.shape with
    | declares signatures => exact .declared hshape
    | wraps inner => exact .wrapped hshape (ih (h.part (Node.mem_parts_of_wraps hshape)))
    | joins parts =>
      refine .joined hshape (resolves_inTurn (fun _ _ => ih) fun part hpart => ?_)
      exact h.part (Node.parts_of_joins hshape ▸ hpart)
    | refers name =>
      dsimp only
      split
      · next hknown => exact .known hshape hknown
      · next hnew =>
        cases hreferent : m.referent? name with
        | none => exact .unknown hshape hnew hreferent
        | some target => exact .named hshape hnew hreferent (ih (h.referent hnew hreferent))
    | other => exact .other hshape

/-- Any fuel from some amount on gives what is derived. -/
theorem Resolves.eq_inTurn {followed followed' : List String} {ts : List Node} {rs : List Members}
    (h : m.Resolves followed ts rs followed') :
    ∃ least, ∀ fuel, least ≤ fuel → inTurn (m.resolveWithin fuel) followed ts = (rs, followed') := by
  -- A type by itself takes one more step than what it takes members from.
  have step : ∀ {followed t r followed'} (least : Nat),
      (∀ fuel, least ≤ fuel → m.resolveWithin (fuel + 1) followed t = (r, followed')) →
      ∃ least, ∀ fuel, least ≤ fuel →
        inTurn (m.resolveWithin fuel) followed [t] = ([r], followed') := by
    intro followed t r followed' least hsucc
    refine ⟨least + 1, fun fuel hfuel => ?_⟩
    obtain ⟨fuel, rfl⟩ := Nat.exists_eq_add_of_le' (Nat.le_of_add_left_le hfuel)
    simp only [inTurn, hsucc fuel (Nat.le_of_succ_le_succ hfuel)]
  have single : ∀ {followed t r followed'} {fuel : Nat},
      inTurn (m.resolveWithin fuel) followed [t] = ([r], followed') →
      m.resolveWithin fuel followed t = (r, followed') := by
    intro followed t r followed' fuel h
    simp only [inTurn, Prod.mk.injEq, List.cons.injEq, and_true] at h
    exact Prod.ext h.1 h.2
  induction h with
  | done => exact ⟨0, fun _ _ => rfl⟩
  | next _ _ ihfirst ihrest =>
    obtain ⟨least, hfirst⟩ := ihfirst
    obtain ⟨least', hrest⟩ := ihrest
    refine ⟨max least least', fun fuel hfuel => ?_⟩
    rw [inTurn, single (hfirst fuel (by omega)), hrest fuel (by omega)]
  | declared h => exact step 0 fun fuel _ => by rw [resolveWithin_succ, h]
  | wrapped h _ ih =>
    obtain ⟨least, ih⟩ := ih
    exact step least fun fuel hfuel => by rw [resolveWithin_succ, h]; exact single (ih fuel hfuel)
  | joined h _ ih =>
    obtain ⟨least, ih⟩ := ih
    exact step least fun fuel hfuel => by rw [resolveWithin_succ, h]; simp only [ih fuel hfuel]
  | named h hnew hreferent _ ih =>
    obtain ⟨least, ih⟩ := ih
    refine step least fun fuel hfuel => ?_
    simp only [resolveWithin_succ, h, if_neg hnew, hreferent]
    exact single (ih fuel hfuel)
  | unknown h hnew hreferent =>
    exact step 0 fun fuel _ => by simp only [resolveWithin_succ, h, if_neg hnew, hreferent]
  | known h hknown => exact step 0 fun fuel _ => by simp only [resolveWithin_succ, h, if_pos hknown]
  | other h => exact step 0 fun fuel _ => by rw [resolveWithin_succ, h]

/-- A resolution has one result. -/
theorem Resolves.unique {followed followed₁ followed₂ : List String} {ts : List Node}
    {rs₁ rs₂ : List Members} (h₁ : m.Resolves followed ts rs₁ followed₁)
    (h₂ : m.Resolves followed ts rs₂ followed₂) : rs₁ = rs₂ ∧ followed₁ = followed₂ := by
  obtain ⟨least₁, h₁⟩ := h₁.eq_inTurn
  obtain ⟨least₂, h₂⟩ := h₂.eq_inTurn
  have heq := (h₁ _ (Nat.le_max_left least₁ least₂)).symm.trans (h₂ _ (Nat.le_max_right _ _))
  exact Prod.mk.inj heq

/-! ### The members of a type -/

theorem enough_of_below {type : Node} (h : m.root.Below type) :
    m.Enough m.resolutionBound [] type := m.lt_resolutionBound h.height_le

/-- However the declared types refer to each other, the resolution of a type of a module
    ends, with one result.  The names that it finds are those of the property signatures
    that the type reaches, through parentheses, parts of intersections and type names. -/
theorem resolveMembers_reaches {type : Node} (h : m.root.Below type) :
    (∃ followed, m.Resolves [] [type] [m.resolveMembers type] followed) ∧
    (∀ found followed, m.Resolves [] [type] [found] followed → found = m.resolveMembers type) ∧
    ∀ name, name ∈ (m.resolveMembers type).names ↔
      ∃ signature, m.Offers type signature ∧ signature.memberName = name := by
  have hresolves := resolves_of_enough (enough_of_below h)
  obtain ⟨seen, hexplored⟩ := hresolves.explored
  refine ⟨⟨_, hresolves⟩, fun found followed hfound => ?_, fun name => ⟨fun hname => ?_, ?_⟩⟩
  · exact (List.cons.inj (hfound.unique hresolves).1).1
  · obtain ⟨signature, hentry⟩ := Members.mem_names.mp hname
    obtain ⟨hnamed, t, ht, hoffers⟩ := hresolves.offers _ (List.mem_singleton_self _) _ hentry
    exact ⟨signature, List.mem_singleton.mp ht ▸ hoffers, hnamed⟩
  · rintro ⟨signature, ⟨u, signatures, hreach, hshape, hmem⟩, rfl⟩
    have hseen := hexplored.reaches (List.mem_singleton_self type) hreach
    obtain ⟨r, hr, hname⟩ := hexplored.found u signatures hseen hshape signature hmem
    obtain rfl := List.mem_singleton.mp hr
    exact hname

/-- Types that refer to each other and to themselves. -/
def cyclicModule : Module := Module.ofText none
  "type A={a:1}&B\ninterface I{i:A}\ntype B=(A&I&B&{b:2})"

theorem resolveMembers_reaches_cyclic : ∃ type, cyclicModule.referent? "A" = some type ∧
    cyclicModule.root.Below type ∧
    (∃ followed, cyclicModule.Resolves [] [type] [cyclicModule.resolveMembers type] followed) ∧
    ∀ name, (∃ signature, cyclicModule.Offers type signature ∧ signature.memberName = name) ↔
      name ∈ ["a", "i", "b"] := by
  obtain ⟨type, htype⟩ : ∃ type, cyclicModule.referent? "A" = some type :=
    Option.isSome_iff_exists.mp (by decide +kernel)
  have hnames : (cyclicModule.referent? "A").map (fun t => (cyclicModule.resolveMembers t).names) =
      some ["a", "i", "b"] := by
    decide +kernel
  rw [htype, Option.map_some, Option.some.injEq] at hnames
  have hbelow := below_referent? htype
  obtain ⟨hends, -, hreaches⟩ := resolveMembers_reaches hbelow
  exact ⟨type, htype, hbelow, hends, fun name => by rw [← hreaches, hnames]⟩

end Module

end ComponentDecl
