import ComponentDecl.Raw.Value

/-! # Tables of named values

    What a table answers for a name after entries were put into it.

    Key theorem:
    - `Raw.lookup?_foldl_put`: of several values of one name the last counts
-/

namespace ComponentDecl

namespace Raw

variable {α : Type}

theorem lookup?_cons (e : String × α) (es : List (String × α)) (name : String) :
    lookup? (e :: es) name = if e.1 = name then some e.2 else lookup? es name := by
  unfold lookup?
  by_cases h : e.1 = name <;> simp [h]

theorem lookup?_append (es fs : List (String × α)) (name : String) :
    lookup? (es ++ fs) name = (lookup? es name).or (lookup? fs name) := by
  rw [lookup?, List.find?_append, Option.map_or]
  rfl

theorem lookup?_eq_none {es : List (String × α)} {name : String} (h : name ∉ es.map (·.1)) :
    lookup? es name = none := by
  rw [lookup?, Option.map_eq_none_iff, List.find?_eq_none]
  intro e he hname
  exact h (beq_iff_eq.mp hname ▸ List.mem_map_of_mem he)

/-- A name that is in a table already gets its new value in its old place. -/
theorem lookup?_replaced (es : List (String × α)) (name : String) (value : α) (n : String) :
    lookup? (es.map fun e => if e.1 == name then (name, value) else e) n =
      if name = n then (lookup? es n).map fun _ => value else lookup? es n := by
  induction es with
  | nil => simp [lookup?]
  | cons e es ih =>
    rw [List.map_cons, lookup?_cons, lookup?_cons, ih]
    by_cases he : e.1 = name
    · subst he
      by_cases hn : e.1 = n <;> simp [hn]
    · simp only [beq_iff_eq, if_neg he]
      by_cases hn : e.1 = n
      · have hne : name ≠ n := fun h => he (hn.trans h.symm)
        simp [hn, hne]
      · simp [hn]

theorem lookup?_put (es : List (String × α)) (name : String) (value : α) (n : String) :
    lookup? (put es name value) n = if name = n then some value else lookup? es n := by
  unfold put
  split
  · -- The name has a value already, so the look-up of it succeeds.
    next hany =>
    obtain ⟨e, he, hname⟩ := List.any_eq_true.mp hany
    rw [lookup?_replaced]
    split
    · next hn =>
      obtain ⟨v, hv⟩ : ∃ v, lookup? es n = some v := by
        have hsome : (es.find? (·.1 == n)).isSome := List.find?_isSome.mpr ⟨e, he, hn ▸ hname⟩
        obtain ⟨f, hf⟩ := Option.isSome_iff_exists.mp hsome
        exact ⟨f.2, by rw [lookup?, hf]; rfl⟩
      rw [hv]
      rfl
    · rfl
  · next hany =>
    have hnone : lookup? es name = none := by
      refine lookup?_eq_none fun hmem => hany ?_
      obtain ⟨e, he, rfl⟩ := List.mem_map.mp hmem
      exact List.any_eq_true.mpr ⟨e, he, beq_self_eq_true _⟩
    rw [lookup?_append, lookup?_cons]
    split
    · next hn =>
      rw [← hn, hnone]
      rfl
    · exact Option.or_none

/-- Putting entries into a table one after the other: the last value of a name counts, and
    else the one that the table has. -/
theorem lookup?_foldl_put (es table : List (String × α)) (name : String) :
    lookup? (es.foldl (fun acc e => put acc e.1 e.2) table) name =
      (lookup? es.reverse name).or (lookup? table name) := by
  induction es generalizing table with
  | nil => rfl
  | cons e es ih =>
    rw [List.foldl_cons, ih, lookup?_put, List.reverse_cons, lookup?_append, lookup?_cons,
      Option.or_assoc]
    split <;> rfl

theorem lookup?_distinct (es : List (String × α)) (name : String) :
    lookup? (distinct es) name = lookup? es.reverse name := by
  rw [distinct, lookup?_foldl_put]
  exact Option.or_none

theorem mem_put {es : List (String × α)} {name : String} {value : α} {e : String × α}
    (h : e ∈ put es name value) : e = (name, value) ∨ e ∈ es := by
  unfold put at h
  split at h
  · obtain ⟨f, hf, rfl⟩ := List.mem_map.mp h
    split
    · exact Or.inl rfl
    · exact Or.inr hf
  · rcases List.mem_append.mp h with h | h
    · exact Or.inr h
    · exact Or.inl (List.mem_singleton.mp h)

theorem mem_foldl_put {es table : List (String × α)} {e : String × α}
    (h : e ∈ es.foldl (fun acc f => put acc f.1 f.2) table) : e ∈ es ∨ e ∈ table := by
  induction es generalizing table with
  | nil => exact Or.inr h
  | cons f fs ih =>
    rcases ih h with h | h
    · exact Or.inl (List.mem_cons_of_mem _ h)
    · rcases mem_put h with rfl | h
      · exact Or.inl List.mem_cons_self
      · exact Or.inr h

theorem names_put (es : List (String × α)) (name : String) (value : α) :
    (put es name value).map (·.1) =
      if name ∈ es.map (·.1) then es.map (·.1) else es.map (·.1) ++ [name] := by
  have hany : es.any (·.1 == name) = true ↔ name ∈ es.map (·.1) := by
    simp [List.any_eq_true]
  unfold put
  split
  · next h =>
    rw [if_pos (hany.mp h), List.map_map]
    refine List.map_congr_left fun e _ => ?_
    by_cases he : e.1 = name <;> simp [he]
  · next h =>
    rw [if_neg (mt hany.mpr h), List.map_append]
    rfl

/-- In a table made of entries no name stands twice. -/
theorem nodup_distinct (es : List (String × α)) : ((distinct es).map (·.1)).Nodup := by
  -- For the induction, whatever entries with different names the table has already.
  have key : ∀ table : List (String × α), (table.map (·.1)).Nodup →
      ((es.foldl (fun acc e => put acc e.1 e.2) table).map (·.1)).Nodup := by
    induction es with
    | nil => exact fun _ h => h
    | cons e es ih =>
      intro table h
      refine ih _ ?_
      rw [names_put]
      split
      · exact h
      · next hnot =>
        refine List.nodup_append.mpr ⟨h, by simp, fun a ha b hb heq => hnot ?_⟩
        rw [← List.mem_singleton.mp hb, ← heq]
        exact ha
  exact key [] List.nodup_nil

/-- Where no name stands twice, the last value of a name is its only one. -/
theorem lookup?_reverse {es : List (String × α)} (h : (es.map (·.1)).Nodup) (name : String) :
    lookup? es.reverse name = lookup? es name := by
  induction es with
  | nil => rfl
  | cons e es ih =>
    obtain ⟨hnot, h⟩ := List.nodup_cons.mp h
    rw [List.reverse_cons, lookup?_append, ih h, lookup?_cons, lookup?_cons]
    split
    · next he => rw [← he, lookup?_eq_none hnot]; rfl
    · exact Option.or_none

end Raw

end ComponentDecl
