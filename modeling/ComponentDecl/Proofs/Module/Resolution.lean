import ComponentDecl.Member
import ComponentDecl.Proofs.Module.Lookup

/-! # Which members are found

    The members of a type depend on the trees of the type and of the declared
    types alone.  The fuel of a resolution does not matter once there is enough:
    a path only descends between two references, and follows each declared name
    at most once.  So a type has the same members in two modules that declare the
    same types.

    Key theorems:
    - `resolveIn_stable`: enough fuel is as good as more
    - `Module.resolveMembers_tree`: the members of a type, as trees
-/

namespace ComponentDecl

open Syntax

/-! ### Questions on trees -/

namespace Syntax.Tree

/-- The type inside an annotation, or the tree itself when it is no
    annotation. -/
def annotatedType? (t : Tree) : Option Tree :=
  if t.kind = .typeClause then t.parts.head? else some t

/-- The name of a property without quotes. -/
def memberName (t : Tree) : String := Text.stripQuotes (((t.child? .name).map (·.text)).getD "")

/-- The type of a property as written. -/
def memberTypeText (t : Tree) : String :=
  let written := Text.strip ((((t.child? .type).bind (·.annotatedType?)).map (·.text)).getD "")
  if written.isEmpty then "any" else written

/-- The type name that a type refers to, if it is a reference. -/
def reference? (t : Tree) : Option String :=
  match t.kind with
  | .typeIdentifier => some t.text
  | .genericType =>
    let name := ((t.child? .name).map (·.text)).getD ""
    if name.isEmpty then none else some name
  | _ => none

/-- What a declaration gives a name to. -/
def target? (t : Tree) : Option Tree :=
  t.child? (if t.kind = .interfaceDeclaration then .body else .value)

end Syntax.Tree

namespace Syntax.Node

theorem annotatedType?_tree (n : Node) :
    n.annotatedType?.map tree = n.tree.annotatedType? := by
  rw [Tree.annotatedType?, ← parts_tree, List.head?_map]
  show Option.map tree (if n.tree.kind = _ then _ else _) = _
  split <;> rfl

theorem type?_tree (n : Node) : ((n.child? .type).bind (·.annotatedType?)).map tree =
    (n.tree.child? .type).bind (·.annotatedType?) := by
  rw [← child?_tree]
  cases n.child? .type with
  | none => rfl
  | some c => exact annotatedType?_tree c

theorem memberName_tree (n : Node) : n.memberName = n.tree.memberName := by
  rw [Tree.memberName, ← child?_tree, Option.map_map]
  rfl

theorem memberTypeText_tree (n : Node) : n.memberTypeText = n.tree.memberTypeText := by
  rw [Tree.memberTypeText, ← type?_tree, Option.map_map]
  rfl

theorem reference?_tree (n : Node) : n.reference? = n.tree.reference? := by
  unfold Tree.reference?
  rw [← child?_tree, Option.map_map]
  rfl

end Syntax.Node

/-! ### Entries by name -/

/-- Gives a name a value; a name already there keeps its place. -/
def insertEntry {α : Type} (entries : List (String × α)) (name : String) (a : α) :
    List (String × α) :=
  if entries.any (·.1 == name) then
    entries.map fun entry => if entry.1 == name then (name, a) else entry
  else entries ++ [(name, a)]

/-- Entries overridden and continued by later ones. -/
def mergeEntries {α : Type} (entries later : List (String × α)) : List (String × α) :=
  later.foldl (fun acc entry => insertEntry acc entry.1 entry.2) entries

/-- Entries with other values. -/
def mapEntries {α β : Type} (f : α → β) (entries : List (String × α)) : List (String × β) :=
  entries.map fun entry => (entry.1, f entry.2)

theorem mapEntries_insert {α β : Type} (f : α → β) (entries : List (String × α)) (name : String)
    (a : α) :
    mapEntries f (insertEntry entries name a) = insertEntry (mapEntries f entries) name (f a) := by
  have hany : (mapEntries f entries).any (·.1 == name) = entries.any (·.1 == name) := by
    rw [mapEntries, List.any_map]
    rfl
  rw [insertEntry, insertEntry, hany]
  split
  · rw [mapEntries, mapEntries, List.map_map, List.map_map]
    refine List.map_congr_left fun entry _ => ?_
    dsimp only [Function.comp]
    split <;> rfl
  · rw [mapEntries, List.map_append]
    rfl

theorem mapEntries_merge {α β : Type} (f : α → β) (entries later : List (String × α)) :
    mapEntries f (mergeEntries entries later) =
      mergeEntries (mapEntries f entries) (mapEntries f later) := by
  induction later generalizing entries with
  | nil => rfl
  | cons entry later ih =>
    show mapEntries f (mergeEntries (insertEntry entries entry.1 entry.2) later) =
      mergeEntries (insertEntry (mapEntries f entries) entry.1 (f entry.2)) (mapEntries f later)
    rw [ih, mapEntries_insert]

/-- The members that property signatures declare. -/
def signatureEntries (ts : List Tree) : List (String × Tree) :=
  ts.foldl (fun acc t => insertEntry acc t.memberName t) []

theorem ofSignatures_tree (ns : List Node) :
    mapEntries Node.tree (Members.ofSignatures ns) = signatureEntries (ns.map Node.tree) := by
  have key : ∀ acc : Members, mapEntries Node.tree
      (ns.foldl (fun acc signature => Members.insert acc signature.memberName signature) acc) =
      (ns.map Node.tree).foldl (fun acc t => insertEntry acc t.memberName t)
        (mapEntries Node.tree acc) := by
    induction ns with
    | nil => exact fun _ => rfl
    | cons n ns ih =>
      intro acc
      rw [List.foldl_cons, ih, List.map_cons, List.foldl_cons, n.memberName_tree,
        ← mapEntries_insert]
      rfl
  exact key []

/-! ### Resolution among trees -/

/-- The members of a type and the references followed so far, given what the
    names of types declare. -/
def resolveIn (types : String → Option Tree) :
    Nat → List String → Tree → List (String × Tree) × List String
  | 0, followed, _ => ([], followed)
  | fuel + 1, followed, t =>
    match t.kind with
    | .objectType | .interfaceBody =>
      (signatureEntries (t.parts.filter (·.kind == .propertySignature)), followed)
    | .parenthesizedType =>
      match t.parts.head? with
      | some inner => resolveIn types fuel followed inner
      | none => ([], followed)
    | .intersectionType =>
      t.parts.foldl
        (fun acc part =>
          let found := resolveIn types fuel acc.2 part
          (mergeEntries acc.1 found.1, found.2))
        ([], followed)
    | _ =>
      match t.reference? with
      | none => ([], followed)
      | some name =>
        if followed.contains name then ([], followed)
        else
          match (types name).bind (·.target?) with
          | none => ([], name :: followed)
          | some target => resolveIn types fuel (name :: followed) target

/-- Parts that are resolved one after the other, among nodes and among their trees. -/
theorem mapEntries_foldl {find : List String → Node → Members × List String}
    {findIn : List String → Tree → List (String × Tree) × List String}
    (h : ∀ followed part, (mapEntries Node.tree (find followed part).1, (find followed part).2) =
      findIn followed part.tree) (parts : List Node) (acc : Members × List String) :
    (mapEntries Node.tree (parts.foldl (fun acc part =>
          (acc.1.merge (find acc.2 part).1, (find acc.2 part).2)) acc).1,
        (parts.foldl (fun acc part =>
          (acc.1.merge (find acc.2 part).1, (find acc.2 part).2)) acc).2) =
      (parts.map Node.tree).foldl (fun acc part =>
          (mergeEntries acc.1 (findIn acc.2 part).1, (findIn acc.2 part).2))
        (mapEntries Node.tree acc.1, acc.2) := by
  induction parts generalizing acc with
  | nil => rfl
  | cons part parts ih =>
    rw [List.foldl_cons, ih, List.map_cons, List.foldl_cons]
    dsimp only
    rw [← h acc.2 part]
    dsimp only
    rw [← mapEntries_merge]
    rfl

/-- A resolution among nodes finds what one among their trees finds. -/
theorem Module.resolveWithin_tree (m : Module) (fuel : Nat) (followed : List String)
    (type : Node) :
    (mapEntries Node.tree (m.resolveWithin fuel followed type).1,
        (m.resolveWithin fuel followed type).2) =
      resolveIn (fun name => (m.typeNamed? name).map Node.tree) fuel followed type.tree := by
  induction fuel generalizing followed type with
  | zero => rfl
  | succ fuel ih =>
    -- only one side is unfolded before the split, so that it splits one match
    unfold Module.resolveWithin
    have hkind : type.kind = type.tree.kind := rfl
    rw [hkind]
    split
    · next h =>
      rw [resolveIn]
      simp only [h]
      rw [ofSignatures_tree, Node.partsOf_tree]
    · next h =>
      rw [resolveIn]
      simp only [h]
      rw [ofSignatures_tree, Node.partsOf_tree]
    · next h =>
      rw [resolveIn]
      simp only [h]
      rw [← Node.parts_tree, List.head?_map]
      cases type.parts.head? with
      | none => rfl
      | some inner => exact ih followed inner
    · next h =>
      rw [resolveIn]
      simp only [h]
      rw [← Node.parts_tree]
      exact mapEntries_foldl (fun followed part => ih followed part) type.parts ([], followed)
    · rw [resolveIn]
      simp only
      rw [Node.reference?_tree]
      cases type.tree.reference? with
      | none => rfl
      | some name =>
        dsimp only
        split
        · rfl
        cases m.typeNamed? name with
        | none => rfl
        | some declared =>
          dsimp only [Option.map_some, Option.bind_some]
          have htarget : (declared.child? (if declared.kind = .interfaceDeclaration then
              Role.body else Role.value)).map Node.tree = declared.tree.target? :=
            Node.child?_tree declared _
          rw [← htarget]
          cases declared.child? (if declared.kind = .interfaceDeclaration then
              Role.body else Role.value) with
          | none => rfl
          | some target => exact ih (name :: followed) target

/-! ### Enough fuel -/

namespace Syntax.Tree

theorem height_le_heightAll {t : Tree} {ts : List Tree} (h : t ∈ ts) : t.height ≤ heightAll ts := by
  induction ts with
  | nil => cases h
  | cons u ts ih =>
    rw [heightAll]
    rcases List.mem_cons.mp h with rfl | h
    · exact Nat.le_max_left _ _
    · exact Nat.le_trans (ih h) (Nat.le_max_right _ _)

theorem height_lt_of_mem_nodes {t u : Tree} (h : u ∈ t.nodes) : u.height < t.height := by
  have hchild := (List.mem_filter.mp h).1
  cases t with
  | token r k text => cases hchild
  | node r k cs =>
    rw [height]
    exact Nat.lt_succ_of_le (height_le_heightAll hchild)

theorem height_lt_of_mem_parts {t u : Tree} (h : u ∈ t.parts) : u.height < t.height :=
  height_lt_of_mem_nodes (List.mem_filter.mp h).1

theorem height_lt_of_child? {t u : Tree} {r : Role} (h : t.child? r = some u) :
    u.height < t.height :=
  height_lt_of_mem_nodes (List.mem_of_find?_eq_some h)

theorem height_unwrapWithin_le (fuel : Nat) (t : Tree) : (unwrapWithin fuel t).height ≤ t.height := by
  induction fuel generalizing t with
  | zero => exact Nat.le_refl _
  | succ fuel ih =>
    rw [unwrapWithin]
    split
    · split
      · next inner h =>
        have hlt : inner.height < t.height := by
          rcases Option.or_eq_some_iff.mp h with h | ⟨-, h⟩
          · exact height_lt_of_child? h
          · exact height_lt_of_mem_parts (List.mem_of_head? h)
        exact Nat.le_trans (ih inner) (Nat.le_of_lt hlt)
      · exact Nat.le_refl _
    · exact Nat.le_refl _

end Syntax.Tree

theorem Syntax.Node.Below.height_le {n d : Node} (h : n.Below d) :
    d.tree.height ≤ n.tree.height := by
  induction h with
  | refl => exact Nat.le_refl _
  | child _ hc ih =>
    have hmem : _ ∈ Tree.nodes _ := Node.children_tree _ ▸ List.mem_map_of_mem hc
    exact Nat.le_trans (Nat.le_of_lt (Tree.height_lt_of_mem_nodes hmem)) ih

/-- The number of names that have not been followed. -/
def unfollowed (names followed : List String) : Nat := names.countP fun n => !followed.contains n

theorem unfollowed_le {names followed followed' : List String}
    (h : ∀ n ∈ followed, n ∈ followed') : unfollowed names followed' ≤ unfollowed names followed := by
  refine List.countP_mono_left fun n _ hn => ?_
  simp only [List.contains_eq_mem, Bool.not_eq_true', decide_eq_false_iff_not] at hn ⊢
  exact fun hmem => hn (h n hmem)

/-- Following a name leaves one less. -/
theorem unfollowed_cons_lt {names followed : List String} {name : String} (hname : name ∈ names)
    (hfollowed : name ∉ followed) :
    unfollowed names (name :: followed) < unfollowed names followed := by
  obtain ⟨before, after, rfl⟩ := List.append_of_mem hname
  have hmore : ∀ n ∈ followed, n ∈ name :: followed := fun n hn => List.mem_cons_of_mem _ hn
  have hbefore := @unfollowed_le before _ _ hmore
  have hafter := @unfollowed_le after _ _ hmore
  unfold unfollowed at *
  rw [List.countP_append, List.countP_append, List.countP_cons_of_neg (by simp),
    List.countP_cons_of_pos (by simpa using hfollowed)]
  omega

variable {types : String → Option Tree}

/-- No reference is forgotten. -/
theorem resolveIn_follows (fuel : Nat) (followed : List String) (t : Tree) :
    ∀ n ∈ followed, n ∈ (resolveIn types fuel followed t).2 := by
  induction fuel generalizing followed t with
  | zero => exact fun n hn => hn
  | succ fuel ih =>
    intro n hn
    unfold resolveIn
    split
    · exact hn
    · exact hn
    · split
      · exact ih followed _ n hn
      · exact hn
    · -- Over the operands the names that are followed only grow.
      have key : ∀ (parts : List Tree) (acc : List (String × Tree) × List String), n ∈ acc.2 →
          n ∈ (parts.foldl (fun acc part => (mergeEntries acc.1 (resolveIn types fuel acc.2 part).1,
            (resolveIn types fuel acc.2 part).2)) acc).2 := by
        intro parts
        induction parts with
        | nil => exact fun _ h => h
        | cons part parts ihparts =>
          intro acc h
          rw [List.foldl_cons]
          exact ihparts _ (ih acc.2 part n h)
      exact key t.parts ([], followed) hn
    · split
      · exact hn
      · split
        · exact hn
        · split
          · exact List.mem_cons_of_mem _ hn
          · exact ih _ _ n (List.mem_cons_of_mem _ hn)

/-- More fuel than a path can use changes nothing.  A path uses its fuel on the
    way down one type, and for each name that it has not followed on the way down
    the type that the name declares. -/
theorem resolveIn_stable {names : List String} {bound : Nat}
    (htypes : ∀ name d, types name = some d → name ∈ names ∧ d.height ≤ bound)
    {fuel fuel' : Nat} {followed : List String} {t : Tree}
    (henough : unfollowed names followed * (bound + 1) + t.height < fuel) (hmore : fuel ≤ fuel') :
    resolveIn types fuel' followed t = resolveIn types fuel followed t := by
  induction fuel generalizing fuel' followed t with
  | zero => exact absurd henough (Nat.not_lt_zero _)
  | succ fuel ih =>
    cases fuel' with
    | zero => exact absurd hmore (Nat.not_succ_le_zero _)
    | succ fuel' =>
    have hmore := Nat.le_of_succ_le_succ hmore
    unfold resolveIn
    split
    · rfl
    · rfl
    · cases hinner : t.parts.head? with
      | none => rfl
      | some inner =>
        have := Tree.height_lt_of_mem_parts (List.mem_of_head? hinner)
        exact ih (by omega) hmore
    · -- The references followed only grow from part to part, so the fuel is still enough.
      have key : ∀ (parts : List Tree) (acc : List (String × Tree) × List String),
          (∀ part ∈ parts, part.height < t.height) → (∀ n ∈ followed, n ∈ acc.2) →
          parts.foldl (fun acc part => (mergeEntries acc.1 (resolveIn types fuel' acc.2 part).1,
            (resolveIn types fuel' acc.2 part).2)) acc =
          parts.foldl (fun acc part => (mergeEntries acc.1 (resolveIn types fuel acc.2 part).1,
            (resolveIn types fuel acc.2 part).2)) acc := by
        intro parts
        induction parts with
        | nil => exact fun _ _ _ => rfl
        | cons part parts ihparts =>
          intro acc hparts hacc
          have hparts := List.forall_mem_cons.mp hparts
          have hle := Nat.mul_le_mul_right (bound + 1) (@unfollowed_le names _ _ hacc)
          have hsame : resolveIn types fuel' acc.2 part = resolveIn types fuel acc.2 part :=
            ih (by have := hparts.1; omega) hmore
          rw [List.foldl_cons, List.foldl_cons, hsame]
          exact ihparts _ hparts.2 fun n hn => resolveIn_follows fuel acc.2 part n (hacc n hn)
      exact key t.parts ([], followed) (fun part h => Tree.height_lt_of_mem_parts h) fun n hn => hn
    · cases t.reference? with
      | none => rfl
      | some name =>
        dsimp only
        split
        · rfl
        next hnew =>
        cases hdeclared : types name with
        | none => rfl
        | some d =>
          cases htarget : d.target? with
          | none => simp only [Option.bind_some, htarget]
          | some target =>
            simp only [Option.bind_some, htarget]
            -- One name less is left to follow, which pays for the way down its type.
            obtain ⟨hname, hheight⟩ := htypes name d hdeclared
            have hlt := unfollowed_cons_lt hname (by simpa using hnew)
            have hmul := Nat.mul_le_mul_right (bound + 1) hlt
            rw [Nat.succ_mul] at hmul
            have := Tree.height_lt_of_child? htarget
            exact ih (by omega) hmore

/-! ### Members of a type in a module -/

namespace Module

/-- The names of the statements of a module. -/
def declaredNames (m : Module) : List String :=
  m.tree.parts.map fun t => t.unwrap.name?.getD ""

theorem typeNamed?_bounds {m : Module} {name : String} {d : Tree}
    (h : (m.typeNamed? name).map Node.tree = some d) :
    name ∈ m.declaredNames ∧ d.height ≤ m.tree.height := by
  rw [m.typeNamed?_tree] at h
  obtain ⟨t, ht, hd⟩ := List.exists_of_findSome?_eq_some h
  split at hd
  · next hcond =>
    obtain rfl := Option.some.inj hd
    rw [Bool.and_eq_true, beq_iff_eq] at hcond
    refine ⟨List.mem_map.mpr ⟨t, ht, by rw [hcond.2]; rfl⟩, ?_⟩
    have := Tree.height_unwrapWithin_le t.height t
    have := Tree.height_lt_of_mem_parts ht
    rw [Tree.unwrap]
    omega
  · cases hd

/-- The bound of a module is enough for its types. -/
theorem lt_resolutionBound (m : Module) {type : Node} (h : type.tree.height ≤ m.tree.height) :
    unfollowed m.declaredNames [] * (m.tree.height + 1) + type.tree.height < m.resolutionBound := by
  have hnames : unfollowed m.declaredNames [] ≤ m.statements.length := by
    rw [← List.length_map Node.tree, m.statements_tree, ← List.length_map
      (fun t : Tree => t.unwrap.name?.getD "")]
    exact List.countP_le_length
  have hmul := Nat.mul_le_mul_right (m.tree.height + 1) hnames
  rw [resolutionBound, Nat.succ_mul]
  omega

/-- The members of a type of a module, as trees: what any resolution with the
    fuel of the module or more finds. -/
theorem resolveMembers_tree (m : Module) {type : Node} (hheight : type.tree.height ≤ m.tree.height)
    {fuel : Nat} (hfuel : m.resolutionBound ≤ fuel) :
    mapEntries Node.tree (m.resolveMembers type) =
      (resolveIn (fun name => (m.typeNamed? name).map Node.tree) fuel [] type.tree).1 := by
  have hstable := @resolveIn_stable (fun name => (m.typeNamed? name).map Node.tree) _ _
    (fun name d h => typeNamed?_bounds h) _ _ _ _ (m.lt_resolutionBound hheight) hfuel
  rw [hstable, ← m.resolveWithin_tree]
  rfl

/-- A type has the same members in two modules that declare the same types. -/
theorem resolveMembers_congr {m m' : Module} {type type' : Node}
    (htypes : ∀ name, (m'.typeNamed? name).map Node.tree = (m.typeNamed? name).map Node.tree)
    (htype : type'.tree = type.tree) (hheight : type.tree.height ≤ m.tree.height)
    (hheight' : type.tree.height ≤ m'.tree.height) :
    mapEntries Node.tree (m'.resolveMembers type') =
      mapEntries Node.tree (m.resolveMembers type) := by
  rw [m.resolveMembers_tree hheight (Nat.le_max_left _ m'.resolutionBound),
    m'.resolveMembers_tree (by rw [htype]; exact hheight') (Nat.le_max_right m.resolutionBound _),
    htype]
  congr 2
  funext name
  exact htypes name

end Module

end ComponentDecl
