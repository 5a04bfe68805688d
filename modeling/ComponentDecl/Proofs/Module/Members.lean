import ComponentDecl.Member
import Mathlib.Data.List.Basic
import Mathlib.Tactic.Tauto

/-! # Maps of members

    Which names members have, and which signature a name has after members were
    merged: the one that was put in last.
-/

namespace ComponentDecl

open Syntax

namespace Members

/-- The names of members. -/
def names (ms : Members) : List String := ms.map (·.1)

/-- Members overridden and continued from left to right. -/
def mergeAll (results : List Members) : Members := results.foldl merge []

theorem mem_names {ms : Members} {name : String} :
    name ∈ ms.names ↔ ∃ signature, (name, signature) ∈ ms := by
  simp [names]

theorem any_name {ms : Members} {name : String} :
    ms.any (·.1 == name) = true ↔ name ∈ ms.names := by
  simp [names]

theorem names_insert (ms : Members) (name : String) (signature : Node) :
    (ms.insert name signature).names = if name ∈ ms.names then ms.names else ms.names ++ [name] := by
  unfold insert
  simp only [any_name]
  split
  · rw [names, List.map_map]
    refine List.map_congr_left fun entry _ => ?_
    dsimp only [Function.comp]
    split
    · next h => exact (beq_iff_eq.mp h).symm
    · rfl
  · rw [names, List.map_append]
    rfl

theorem mem_names_insert {ms : Members} {name other : String} {signature : Node} :
    other ∈ (ms.insert name signature).names ↔ other = name ∨ other ∈ ms.names := by
  rw [names_insert]
  split
  · next h => exact ⟨Or.inr, fun h' => h'.elim (fun heq => heq ▸ h) id⟩
  · rw [List.mem_append, List.mem_singleton, or_comm]

theorem mem_names_merge {ms later : Members} {name : String} :
    name ∈ (ms.merge later).names ↔ name ∈ ms.names ∨ name ∈ later.names := by
  induction later generalizing ms with
  | nil => simp [merge, names]
  | cons entry later ih =>
    rw [merge, List.foldl_cons, ← merge, ih, mem_names_insert]
    simp only [names, List.map_cons, List.mem_cons]
    tauto

theorem mem_names_foldl_merge {ms : Members} {results : List Members} {name : String} :
    name ∈ (results.foldl merge ms).names ↔ name ∈ ms.names ∨ ∃ r ∈ results, name ∈ r.names := by
  induction results generalizing ms with
  | nil => simp
  | cons r results ih =>
    rw [List.foldl_cons, ih, mem_names_merge, List.exists_mem_cons_iff, or_assoc]

theorem mem_names_mergeAll {results : List Members} {name : String} :
    name ∈ (mergeAll results).names ↔ ∃ r ∈ results, name ∈ r.names := by
  rw [mergeAll, mem_names_foldl_merge]
  simp [names]

theorem mem_names_ofSignatures {signatures : List Node} {name : String} :
    name ∈ (ofSignatures signatures).names ↔ ∃ s ∈ signatures, s.memberName = name := by
  have key : ∀ ms : Members,
      name ∈ (signatures.foldl (fun acc s => acc.insert s.memberName s) ms).names ↔
        name ∈ ms.names ∨ ∃ s ∈ signatures, s.memberName = name := by
    induction signatures with
    | nil => simp
    | cons s signatures ih =>
      intro ms
      rw [List.foldl_cons, ih, mem_names_insert, List.exists_mem_cons_iff, eq_comm]
      tauto
  rw [ofSignatures, key]
  simp [names]

/-- Holds of members that give each name a signature of that name, and one with a
    property. -/
def Given (P : Node → Prop) (ms : Members) : Prop :=
  ∀ entry ∈ ms, entry.2.memberName = entry.1 ∧ P entry.2

theorem Given.mono {P Q : Node → Prop} {ms : Members} (h : ms.Given P)
    (hPQ : ∀ signature, P signature → Q signature) : ms.Given Q :=
  fun entry hentry => ⟨(h entry hentry).1, hPQ _ (h entry hentry).2⟩

theorem Given.insert {P : Node → Prop} {ms : Members} (h : ms.Given P) {signature : Node}
    {name : String} (hname : signature.memberName = name) (hsignature : P signature) :
    (ms.insert name signature).Given P := by
  intro entry hentry
  unfold Members.insert at hentry
  split at hentry
  · obtain ⟨old, hold, rfl⟩ := List.mem_map.mp hentry
    split
    · exact ⟨hname, hsignature⟩
    · exact h old hold
  · rcases List.mem_append.mp hentry with hentry | hentry
    · exact h entry hentry
    · rw [List.mem_singleton.mp hentry]
      exact ⟨hname, hsignature⟩

theorem Given.merge {P : Node → Prop} {ms later : Members} (h : ms.Given P)
    (hlater : later.Given P) : (ms.merge later).Given P := by
  induction later generalizing ms with
  | nil => exact h
  | cons entry later ih =>
    obtain ⟨hentry, hlater⟩ := List.forall_mem_cons.mp hlater
    exact ih (h.insert hentry.1 hentry.2) hlater

theorem Given.mergeAll {P : Node → Prop} {results : List Members}
    (h : ∀ r ∈ results, r.Given P) : (mergeAll results).Given P := by
  have key : ∀ ms : Members, ms.Given P → (results.foldl Members.merge ms).Given P := by
    induction results with
    | nil => exact fun _ hms => hms
    | cons r results ih =>
      obtain ⟨hr, hrest⟩ := List.forall_mem_cons.mp h
      exact fun ms hms => ih hrest _ (hms.merge hr)
  exact key [] nofun

theorem given_ofSignatures (signatures : List Node) :
    (ofSignatures signatures).Given (· ∈ signatures) := by
  have key : ∀ (rest : List Node) (ms : Members), (∀ s ∈ rest, s ∈ signatures) →
      ms.Given (· ∈ signatures) →
      (rest.foldl (fun acc s => acc.insert s.memberName s) ms).Given (· ∈ signatures) := by
    intro rest
    induction rest with
    | nil => exact fun _ _ hms => hms
    | cons s rest ih =>
      intro ms hrest hms
      obtain ⟨hs, hrest⟩ := List.forall_mem_cons.mp hrest
      exact ih _ hrest (hms.insert rfl hs)
  exact key signatures [] (fun _ h => h) nofun

/-! ### The signature of a name -/

theorem nodup_insert {ms : Members} (h : ms.names.Nodup) (name : String) (signature : Node) :
    (ms.insert name signature).names.Nodup := by
  rw [names_insert]
  split
  · exact h
  · next hnew =>
    refine List.nodup_append.mpr ⟨h, by simp, fun other hother a ha => ?_⟩
    rw [List.mem_singleton.mp ha]
    exact fun heq => hnew (heq ▸ hother)

theorem nodup_merge {ms : Members} (h : ms.names.Nodup) (later : Members) :
    (ms.merge later).names.Nodup := by
  induction later generalizing ms with
  | nil => exact h
  | cons entry later ih => exact ih (nodup_insert h ..)

theorem nodup_mergeAll (results : List Members) : (mergeAll results).names.Nodup := by
  have key : ∀ ms : Members, ms.names.Nodup → (results.foldl merge ms).names.Nodup := by
    induction results with
    | nil => exact fun _ h => h
    | cons r results ih => exact fun _ h => ih _ (nodup_merge h r)
  exact key [] List.nodup_nil

theorem nodup_ofSignatures (signatures : List Node) : (ofSignatures signatures).names.Nodup := by
  have key : ∀ ms : Members, ms.names.Nodup →
      (signatures.foldl (fun acc s => acc.insert s.memberName s) ms).names.Nodup := by
    induction signatures with
    | nil => exact fun _ h => h
    | cons s signatures ih => exact fun _ h => ih _ (nodup_insert h ..)
  exact key [] List.nodup_nil

theorem get?_eq_none {ms : Members} {name : String} : ms.get? name = none ↔ name ∉ ms.names := by
  rw [← any_name, get?, Option.map_eq_none_iff, List.find?_eq_none, List.any_eq_true]
  push Not
  rfl

theorem exists_get? {ms : Members} {name : String} (h : name ∈ ms.names) :
    ∃ signature, ms.get? name = some signature :=
  Option.ne_none_iff_exists'.mp (mt get?_eq_none.mp (not_not_intro h))

theorem mem_of_get? {ms : Members} {name : String} {signature : Node}
    (h : ms.get? name = some signature) : (name, signature) ∈ ms := by
  obtain ⟨entry, hfind, rfl⟩ := Option.map_eq_some_iff.mp h
  have hname := List.find?_some hfind
  rw [← beq_iff_eq.mp hname]
  exact List.mem_of_find?_eq_some hfind

theorem get?_insert (ms : Members) (name other : String) (signature : Node) :
    (ms.insert name signature).get? other =
      if other = name then some signature else ms.get? other := by
  unfold insert
  split
  · next hold =>
    -- What stands for an entry has its name.
    have hsame : ((fun entry : String × Node => entry.1 == other) ∘ fun entry : String × Node =>
        if entry.1 == name then (name, signature) else entry) = fun entry => entry.1 == other := by
      funext entry
      dsimp only [Function.comp]
      split
      · next h => rw [beq_iff_eq.mp h]
      · rfl
    rw [get?, List.find?_map, hsame, get?]
    cases hfind : ms.find? (fun entry => entry.1 == other) with
    | none =>
      have hnone : other ∉ ms.names := get?_eq_none.mp (by rw [get?, hfind]; rfl)
      rw [if_neg fun heq : other = name => hnone (heq ▸ any_name.mp hold)]
      rfl
    | some entry =>
      have hname : entry.1 = other := by simpa using List.find?_some hfind
      subst hname
      simp only [Option.map_some, beq_iff_eq]
      split <;> rfl
  · next hnew =>
    rw [any_name] at hnew
    rw [get?, List.find?_append, Option.map_or, ← get?]
    split
    · next h =>
      rw [h, get?_eq_none.mpr hnew]
      simp
    · next h =>
      have hne : (name == other) = false := beq_eq_false_iff_ne.mpr (Ne.symm h)
      simp [List.find?, hne]

/-- Merged members win over those that they are merged into. -/
theorem get?_merge {ms later : Members} (h : later.names.Nodup) (name : String) :
    (ms.merge later).get? name = (later.get? name).or (ms.get? name) := by
  induction later generalizing ms with
  | nil => rfl
  | cons entry later ih =>
    obtain ⟨hnew, hlater⟩ := List.nodup_cons.mp h
    show (merge (ms.insert entry.1 entry.2) later).get? name = _
    rw [ih hlater, get?_insert]
    by_cases heq : entry.1 = name
    · subst heq
      rw [get?_eq_none.mpr hnew]
      simp [get?]
    · simp [get?, heq, Ne.symm heq]

/-- Of members merged from left to right, the last that have a name win. -/
theorem get?_mergeAll {results : List Members} (h : ∀ r ∈ results, r.names.Nodup) (name : String) :
    (mergeAll results).get? name = (results.map (·.get? name)).reverse.findSome? id := by
  have key : ∀ ms : Members, (results.foldl merge ms).get? name =
      ((results.map (·.get? name)).reverse.findSome? id).or (ms.get? name) := by
    induction results with
    | nil => exact fun _ => rfl
    | cons r results ih =>
      intro ms
      obtain ⟨hr, hresults⟩ := List.forall_mem_cons.mp h
      rw [List.foldl_cons, ih hresults, get?_merge hr, List.map_cons, List.reverse_cons,
        List.findSome?_append, Option.or_assoc, List.findSome?_singleton, id]
  rw [mergeAll, key, show get? [] name = none from rfl, Option.or_none]

end Members

end ComponentDecl
