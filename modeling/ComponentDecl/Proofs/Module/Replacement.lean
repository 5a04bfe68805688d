import ComponentDecl.Proofs.Module.Weave
import Mathlib.Data.List.Chain

/-! # Simultaneous replacement

    A batch is carried out from the back of a module, on bytes of which the end is
    already new.  The result is what replacing all places of the old bytes at once makes:
    the gaps between the places, with the new texts in between.  In which order a batch is
    given does not matter, but for texts that are put in at one offset.

    Key theorems:
    - `Edit.applyAll_of_fitting`, `Edit.applyAll_of_not_fitting`: which batches are carried
      out, and what they make
    - `Edit.applyAll_congr`: how much the given order matters
    - `Module.edit_replaces`: what a batch does to a module
-/

namespace ComponentDecl

open Text

namespace Edit

/-! ### Batches in the order of their places -/

/-- The place of an edit. -/
def range (e : Edit) : Int × Int := (e.start, e.stop)

/-- Holds of places one of which comes first: by the start, or else by the stop. -/
def InOrder (a b : Int × Int) : Prop := a.1 < b.1 ∨ a.1 = b.1 ∧ a.2 ≤ b.2

/-- Holds of an edit that puts its text in at an offset and replaces nothing. -/
def insertsAt (offset : Int) (e : Edit) : Bool := e.range == (offset, offset)

/-- A given batch in the order of its places.  Of texts that are put in at one offset,
    the last given one comes first. -/
structure Ordered (given ordered : List Edit) : Prop where
  perm : ordered.Perm given
  rises : ordered.Pairwise fun a b => InOrder a.range b.range
  insertions : ∀ offset,
    ordered.filter (insertsAt offset) = (given.filter (insertsAt offset)).reverse

/-- Edits in order that lie within so many bytes and do not overlap. -/
structure Fitting (length : Nat) (ordered : List Edit) : Prop where
  within : ∀ e ∈ ordered, 0 ≤ e.start ∧ e.start ≤ e.stop ∧ e.stop ≤ length
  apart : ordered.IsChain fun a b => a.stop ≤ b.start

/-- The gaps that edits in order leave of a source from an offset on, with the texts of
    the edits in between. -/
def interleave (source : List UInt8) (offset : Nat) : List Edit → List UInt8
  | [] => source.drop offset
  | e :: es =>
    bytesBetween source offset e.start.toNat ++
      (encode e.text ++ interleave source e.stop.toNat es)

theorem insertsAt_iff {offset : Int} {e : Edit} :
    insertsAt offset e = true ↔ e.range = (offset, offset) := beq_iff_eq

/-! ### Edits that fit -/

theorem fitting_cons {length : Nat} {e : Edit} {es : List Edit} :
    Fitting length (e :: es) ↔ (0 ≤ e.start ∧ e.start ≤ e.stop ∧ e.stop ≤ length) ∧
      (∀ f ∈ es.head?, e.stop ≤ f.start) ∧ Fitting length es := by
  constructor
  · rintro ⟨hwithin, hapart⟩
    rw [List.forall_mem_cons] at hwithin
    rw [List.isChain_cons] at hapart
    exact ⟨hwithin.1, hapart.1, hwithin.2, hapart.2⟩
  · rintro ⟨he, hhead, hwithin, hapart⟩
    exact ⟨List.forall_mem_cons.mpr ⟨he, hwithin⟩, List.isChain_cons.mpr ⟨hhead, hapart⟩⟩

/-- Where the first edit does not start before an offset, no edit does. -/
theorem Fitting.le_start {length : Nat} {es : List Edit} (h : Fitting length es) {k : Int}
    (hhead : ∀ f ∈ es.head?, k ≤ f.start) : ∀ f ∈ es, k ≤ f.start := by
  induction es generalizing k with
  | nil => nofun
  | cons e es ih =>
    obtain ⟨he, hnext, hes⟩ := fitting_cons.mp h
    have hk : k ≤ e.start := hhead e rfl
    exact List.forall_mem_cons.mpr ⟨hk, ih hes fun f hf => by have := hnext f hf; omega⟩

/-- Every edit ends before any later one starts. -/
theorem Fitting.pairwise {length : Nat} {es : List Edit} (h : Fitting length es) :
    es.Pairwise fun a b => a.stop ≤ b.start := by
  induction es with
  | nil => exact List.Pairwise.nil
  | cons e es ih =>
    obtain ⟨-, hnext, hes⟩ := fitting_cons.mp h
    exact List.pairwise_cons.mpr ⟨hes.le_start hnext, ih hes⟩

/-- The test of the last edit comes first: what stands before it has to fit into what
    the last edit leaves. -/
theorem fitting_concat {length : Nat} {e : Edit} {es : List Edit} :
    Fitting length (es ++ [e]) ↔
      (0 ≤ e.start ∧ e.start ≤ e.stop ∧ e.stop ≤ length) ∧ Fitting e.start.toNat es := by
  constructor
  · intro h
    have hbefore := (List.pairwise_append.mp h.pairwise).2.2
    obtain ⟨hwithin, hlast⟩ := List.forall_mem_append.mp h.within
    have he := hlast e (List.mem_singleton.mpr rfl)
    refine ⟨he, fun f hf => ?_, (List.isChain_append.mp h.apart).1⟩
    have := hwithin f hf
    have := hbefore f hf e (List.mem_singleton.mpr rfl)
    omega
  · rintro ⟨he, hwithin, hapart⟩
    refine ⟨List.forall_mem_append.mpr ⟨fun f hf => ?_, fun f hf => ?_⟩,
      List.isChain_append.mpr ⟨hapart, List.isChain_singleton _, fun f hf g hg => ?_⟩⟩
    · have := hwithin f hf
      omega
    · rw [List.mem_singleton.mp hf]
      exact he
    · obtain rfl : e = g := by simpa using hg
      have := hwithin f (List.mem_of_getLast? hf)
      omega

/-- Whether edits fit depends on their places alone. -/
theorem Fitting.congr {length : Nat} {es es' : List Edit} (h : Fitting length es)
    (hranges : es.map range = es'.map range) : Fitting length es' := by
  have hiff : ∀ l : List Edit, Fitting length l ↔
      (∀ r ∈ l.map range, 0 ≤ r.1 ∧ r.1 ≤ r.2 ∧ r.2 ≤ length) ∧
        (l.map range).IsChain fun a b => a.2 ≤ b.1 := by
    intro l
    rw [List.forall_mem_map, List.isChain_map]
    exact ⟨fun ⟨hwithin, hapart⟩ => ⟨hwithin, hapart⟩, fun ⟨hwithin, hapart⟩ => ⟨hwithin, hapart⟩⟩
  rw [hiff] at h ⊢
  rwa [← hranges]

theorem Fitting.of_le {length limit : Nat} {es : List Edit} (h : Fitting length es)
    (hstop : ∀ e ∈ es, e.stop ≤ limit) : Fitting limit es :=
  ⟨fun e he => ⟨(h.within e he).1, (h.within e he).2.1, hstop e he⟩, h.apart⟩

theorem Fitting.left {length : Nat} {es fs : List Edit} (h : Fitting length (es ++ fs)) :
    Fitting length es :=
  ⟨fun e he => h.within e (List.mem_append_left _ he), (List.isChain_append.mp h.apart).1⟩

theorem Fitting.right {length : Nat} {es fs : List Edit} (h : Fitting length (es ++ fs)) :
    Fitting length fs :=
  ⟨fun e he => h.within e (List.mem_append_right _ he), (List.isChain_append.mp h.apart).2.1⟩

/-! ### The bytes that a batch makes -/

theorem bytesBetween_take {source : List UInt8} {offset stop limit : Nat} (h : stop ≤ limit) :
    bytesBetween (source.take limit) offset stop = bytesBetween source offset stop := by
  unfold bytesBetween
  rw [List.drop_take, List.take_take, Nat.min_eq_left (by omega)]

theorem drop_eq_bytesBetween_append {source : List UInt8} {i j : Nat} (h : i ≤ j) :
    source.drop i = bytesBetween source i j ++ source.drop j := by
  rw [bytesBetween, ← Nat.add_sub_of_le h, ← List.drop_drop, Nat.add_sub_cancel_left,
    List.take_append_drop]

theorem bytesBetween_append {source : List UInt8} {i j k : Nat} (hij : i ≤ j) (hjk : j ≤ k) :
    bytesBetween source i j ++ bytesBetween source j k = bytesBetween source i k := by
  have hsplit : (source.take k).drop i = _ := drop_eq_bytesBetween_append hij
  rw [bytesBetween_take hjk, List.drop_take, List.drop_take] at hsplit
  exact hsplit.symm

/-- Edits that start behind a place leave all before it alone. -/
theorem interleave_from {source : List UInt8} {es : List Edit} {offset limit : Nat}
    (hoffset : offset ≤ limit) (hes : ∀ e ∈ es.head?, (limit : Int) ≤ e.start) :
    interleave source offset es =
      bytesBetween source offset limit ++ interleave source limit es := by
  cases es with
  | nil => exact drop_eq_bytesBetween_append hoffset
  | cons e es =>
    have hstart := hes e rfl
    have hreaches : limit ≤ e.start.toNat := by omega
    rw [interleave, interleave, ← bytesBetween_append hoffset hreaches, List.append_assoc]

/-- Edits that end before a place and edits that start behind it are carried out apart from
    each other. -/
theorem interleave_append {source : List UInt8} {es fs : List Edit} {offset limit : Nat}
    (hes : Fitting limit es) (hoffset : offset ≤ limit)
    (hfs : ∀ f ∈ fs.head?, (limit : Int) ≤ f.start) :
    interleave source offset (es ++ fs) =
      interleave (source.take limit) offset es ++ interleave source limit fs := by
  induction es generalizing offset with
  | nil =>
    rw [List.nil_append, interleave_from hoffset hfs, interleave, List.drop_take, bytesBetween]
  | cons e es ih =>
    obtain ⟨he, -, hrest⟩ := fitting_cons.mp hes
    rw [List.cons_append, interleave, interleave, ih hrest (by omega),
      bytesBetween_take (by omega : e.start.toNat ≤ limit)]
    simp only [List.append_assoc]

/-- Edits that fit in front of a last one leave what it replaces alone. -/
theorem interleave_concat {source : List UInt8} {e : Edit} {es : List Edit}
    (h : Fitting e.start.toNat es) (he : 0 ≤ e.start) :
    interleave source 0 (es ++ [e]) =
      interleave (source.take e.start.toNat) 0 es ++
        (encode e.text ++ source.drop e.stop.toNat) := by
  have hlast : ∀ f ∈ [e].head?, (e.start.toNat : Int) ≤ f.start := by
    intro f hf
    rw [← Option.some.inj hf]
    omega
  rw [interleave_append h (Nat.zero_le _) hlast, interleave, interleave, bytesBetween,
    Nat.sub_self, List.take_zero, List.nil_append]

/-- Carrying out edits that fit makes of the bytes up to a bound what replacing all
    places at once makes of them, and keeps those behind the bound.  The induction is
    from the back, as edits are carried out: behind the start of the last edit the bytes
    may already be new, before it they are the old ones. -/
theorem applyInOrder_of_fitting {bound : Nat} {ordered : List Edit} {source : List UInt8}
    (h : Fitting bound ordered) (hbound : bound ≤ source.length) :
    applyInOrder bound ordered.reverse source =
      .ok (interleave (source.take bound) 0 ordered ++ source.drop bound) := by
  induction ordered using List.reverseRecOn generalizing bound source with
  | nil =>
    rw [List.reverse_nil, applyInOrder, interleave, List.drop_zero, List.take_append_drop]
  | append_singleton es e ih =>
    -- The last edit is carried out first and leaves the bytes before it alone.
    obtain ⟨he, hes⟩ := fitting_concat.mp h
    have hstart : e.start.toNat ≤ source.length := by omega
    have hlength : (source.take e.start.toNat).length = e.start.toNat :=
      List.length_take_of_le hstart
    have htake : (e.splice source).take e.start.toNat = source.take e.start.toNat := by
      rw [splice, List.append_assoc, List.take_left' hlength]
    have hdrop : (e.splice source).drop e.start.toNat =
        encode e.text ++ source.drop e.stop.toNat := by
      rw [splice, List.append_assoc, List.drop_left' hlength]
    have hsplice : e.start.toNat ≤ (e.splice source).length := by
      rw [splice, List.append_assoc, List.length_append, hlength]
      exact Nat.le_add_right _ _
    have hrest : (source.take bound).drop e.stop.toNat ++ source.drop bound =
        source.drop e.stop.toNat := by
      conv_rhs => rw [← List.take_append_drop bound source]
      rw [List.drop_append_of_le_length]
      rw [List.length_take_of_le hbound]
      omega
    rw [List.reverse_append, List.reverse_singleton, List.singleton_append, applyInOrder, if_pos he,
      ih hes hsplice, htake, hdrop, interleave_concat hes he.1, List.take_take,
      Nat.min_eq_left (by omega), List.append_assoc, List.append_assoc, hrest]

/-- Edits that are carried out fit. -/
theorem fitting_of_applyInOrder {bound : Nat} {ordered : List Edit} {source out : List UInt8}
    (h : applyInOrder bound ordered.reverse source = .ok out) : Fitting bound ordered := by
  induction ordered using List.reverseRecOn generalizing bound source with
  | nil => exact ⟨nofun, List.isChain_nil⟩
  | append_singleton es e ih =>
    rw [List.reverse_append, List.reverse_singleton, List.singleton_append, applyInOrder] at h
    split at h
    · next he => exact fitting_concat.mpr ⟨he, ih h⟩
    · cases h

/-- A refusal names the place of one of the edits. -/
theorem mem_of_applyInOrder_error {bound : Nat} {es : List Edit} {source : List UInt8}
    {err : EditError} (h : applyInOrder bound es source = .error err) :
    ∃ e ∈ es, err = ⟨e.start, e.stop⟩ := by
  induction es generalizing bound source with
  | nil => cases h
  | cons e es ih =>
    rw [applyInOrder] at h
    split at h
    · obtain ⟨f, hf, herr⟩ := ih h
      exact ⟨f, List.mem_cons_of_mem _ hf, herr⟩
    · exact ⟨e, List.mem_cons_self, (Except.error.inj h).symm⟩

/-- Which place is refused depends on the places alone. -/
theorem applyInOrder_error_congr {bound : Nat} {es es' : List Edit} {source source' : List UInt8}
    {err : EditError} (hranges : es.map range = es'.map range)
    (h : applyInOrder bound es source = .error err) :
    applyInOrder bound es' source' = .error err := by
  induction es generalizing es' bound source source' with
  | nil => cases h
  | cons e es ih =>
    cases es' with
    | nil => cases hranges
    | cons e' es' =>
      rw [List.map_cons, List.map_cons, List.cons.injEq] at hranges
      obtain ⟨hstart, hstop⟩ := Prod.mk.inj hranges.1
      rw [applyInOrder] at h ⊢
      rw [← hstart, ← hstop]
      split at h
      · next he =>
        rw [if_pos he]
        exact ih hranges.2 h
      · next he =>
        rw [if_neg he]
        exact h

/-! ### The order of a batch -/

theorem filter_place (offset : Int) (e : Edit) (es : List Edit) :
    (e.place es).filter (insertsAt offset) = (e :: es).filter (insertsAt offset) := by
  induction es with
  | nil => rfl
  | cons f fs ih =>
    unfold place
    split
    · rfl
    · next hbefore =>
      -- Of two edits that put a text in at one offset, the first given one is before.
      have hnot : ¬ (insertsAt offset e = true ∧ insertsAt offset f = true) := by
        rintro ⟨he, hf⟩
        have hrange := (insertsAt_iff.mp he).trans (insertsAt_iff.mp hf).symm
        obtain ⟨hstart, hstop⟩ := Prod.mk.inj hrange
        exact hbefore ((before_iff e f).mpr (Or.inr ⟨hstart, Int.le_of_eq hstop.symm⟩))
      rw [List.filter_cons, ih]
      cases he : insertsAt offset e <;> cases hf : insertsAt offset f <;> simp_all

theorem filter_arrange (offset : Int) (given : List Edit) :
    (arrange given).filter (insertsAt offset) = given.filter (insertsAt offset) := by
  induction given with
  | nil => rfl
  | cons e es ih =>
    show (e.place (arrange es)).filter _ = _
    rw [filter_place, List.filter_cons, List.filter_cons, ih]

/-- The order in which a batch is carried out, read from its end. -/
theorem ordered_arrange (given : List Edit) : Ordered given (arrange given).reverse where
  perm := (List.reverse_perm _).trans (arrange_perm given)
  rises := by
    rw [List.pairwise_reverse]
    refine (pairwise_arrange given).imp fun {a b} hab => ?_
    rw [before_iff] at hab
    show b.start < a.start ∨ b.start = a.start ∧ b.stop ≤ a.stop
    omega
  insertions offset := by rw [List.filter_reverse, filter_arrange]

theorem Ordered.ranges {given ordered ordered' : List Edit} (h : Ordered given ordered)
    (h' : Ordered given ordered') : ordered.map range = ordered'.map range := by
  refine ((h.perm.trans h'.perm.symm).map range).eq_of_pairwise (fun a b _ _ hab hba => ?_)
    (List.pairwise_map.mpr h.rises) (List.pairwise_map.mpr h'.rises)
  unfold InOrder at hab hba
  exact Prod.ext (by omega) (by omega)

/-- Edits that fit are in the only order that their places and insertions allow. -/
theorem eq_of_ranges {length : Nat} {es es' : List Edit} (hfits : Fitting length es)
    (hranges : es.map range = es'.map range) (hperm : es.Perm es')
    (hinsertions : ∀ offset, es.filter (insertsAt offset) = es'.filter (insertsAt offset)) :
    es = es' := by
  induction es generalizing es' with
  | nil => exact (List.nil_perm.mp hperm).symm
  | cons a es ih =>
    cases es' with
    | nil => cases hranges
    | cons b es' =>
    rw [List.map_cons, List.map_cons, List.cons.injEq] at hranges
    obtain ⟨hstart, hstop⟩ := Prod.mk.inj hranges.1
    obtain ⟨ha, -, hes⟩ := fitting_cons.mp hfits
    have hab : a = b := by
      by_cases hempty : a.start = a.stop
      · -- Both are the first insertion at one offset.
        have hsame := hinsertions a.start
        have hinserts : insertsAt a.start a = true := insertsAt_iff.mpr (Prod.ext rfl hempty.symm)
        have hinserts' : insertsAt a.start b = true :=
          insertsAt_iff.mpr (hranges.1 ▸ Prod.ext rfl hempty.symm)
        rw [List.filter_cons_of_pos hinserts, List.filter_cons_of_pos hinserts'] at hsame
        exact (List.cons.inj hsame).1
      · -- No other edit that fits replaces the same bytes.
        rcases List.mem_cons.mp (hperm.mem_iff.mpr List.mem_cons_self) with hb | hb
        · exact hb.symm
        · have := (List.pairwise_cons.mp hfits.pairwise).1 b hb
          omega
    subst hab
    rw [ih hes hranges.2 hperm.cons_inv fun offset => ?_]
    have hsame := hinsertions offset
    rw [List.filter_cons, List.filter_cons] at hsame
    split at hsame
    · exact (List.cons.inj hsame).2
    · exact hsame

/-- A batch that fits has one order. -/
theorem Ordered.unique {length : Nat} {given ordered ordered' : List Edit}
    (h : Ordered given ordered) (h' : Ordered given ordered') (hfits : Fitting length ordered) :
    ordered = ordered' :=
  eq_of_ranges hfits (h.ranges h') (h.perm.trans h'.perm.symm) fun offset =>
    (h.insertions offset).trans (h'.insertions offset).symm

/-! ### Batches in any order -/

/-- A batch that fits is carried out, and replaces all its places at once. -/
theorem applyAll_of_fitting {given ordered : List Edit} {source : List UInt8}
    (h : Ordered given ordered) (hfits : Fitting source.length ordered) :
    applyAll given source = .ok (interleave source 0 ordered) := by
  have hsame := h.unique (ordered_arrange given) hfits
  rw [hsame] at hfits ⊢
  have happly := applyInOrder_of_fitting hfits (Nat.le_refl _)
  rw [List.reverse_reverse, List.take_length, List.drop_length, List.append_nil] at happly
  exact happly

/-- A rising batch that is carried out fits, and replaces all its places at once. -/
theorem eq_interleave_of_applyAll {edits given : List Edit} {source out : List UInt8}
    (hrising : Rising edits) (hperm : given.Perm edits) (h : applyAll given source = .ok out) :
    Fitting source.length edits ∧ out = interleave source 0 edits := by
  rw [applyAll, arrange_eq_reverse hrising hperm] at h
  have hfits := fitting_of_applyInOrder h
  rw [applyInOrder_of_fitting hfits (Nat.le_refl _), List.take_length, List.drop_length,
    List.append_nil] at h
  exact ⟨hfits, (Except.ok.inj h).symm⟩

/-- A batch that does not fit is refused for one of its edits. -/
theorem applyAll_of_not_fitting {given ordered : List Edit} {source : List UInt8}
    (h : Ordered given ordered) (hfits : ¬ Fitting source.length ordered) :
    ∃ e ∈ given, applyAll given source = .error ⟨e.start, e.stop⟩ := by
  cases happly : applyAll given source with
  | ok out =>
    have hall : applyInOrder source.length (arrange given).reverse.reverse source = .ok out := by
      rw [List.reverse_reverse]
      exact happly
    exact absurd ((fitting_of_applyInOrder hall).congr ((ordered_arrange given).ranges h)) hfits
  | error err =>
    obtain ⟨e, he, rfl⟩ := mem_of_applyInOrder_error happly
    exact ⟨e, (arrange_perm given).mem_iff.mp he, rfl⟩

theorem Ordered.of_perm {given given' ordered : List Edit} (h : Ordered given ordered)
    (hperm : given'.Perm given)
    (hinsertions : ∀ offset, given'.filter (insertsAt offset) = given.filter (insertsAt offset)) :
    Ordered given' ordered :=
  ⟨h.perm.trans hperm.symm, h.rises, fun offset => by rw [h.insertions, hinsertions]⟩

/-- In which order a batch is given does not matter if the texts that are put in at one
    offset keep theirs. -/
theorem applyAll_congr {given given' : List Edit} (hperm : given'.Perm given)
    (hinsertions : ∀ offset, given'.filter (insertsAt offset) = given.filter (insertsAt offset))
    (source : List UInt8) : applyAll given' source = applyAll given source := by
  have h := ordered_arrange given
  have h' := h.of_perm hperm hinsertions
  by_cases hfits : Fitting source.length (arrange given).reverse
  · rw [applyAll_of_fitting h hfits, applyAll_of_fitting h' hfits]
  · obtain ⟨e, -, hrefused⟩ := applyAll_of_not_fitting h hfits
    have hranges := (ordered_arrange given').ranges h'
    rw [List.map_reverse, List.map_reverse, List.reverse_inj] at hranges
    rw [hrefused]
    exact applyInOrder_error_congr hranges.symm hrefused

end Edit

/-! ### A module that is kept in place -/

namespace Module

/-- A batch on a module that is kept in place is a batch on its bytes. -/
theorem run_edit (m : Module) (edits : List Edit) :
    (edit edits).run.run m =
      match Edit.applyAll edits m.source with
      | .ok source => (.ok edits.length, m.withSource source)
      | .error err => (.error err, m) := by
  have hget : (get : ExceptT EditError (StateM Module) Module).run = .ok <$> get := rfl
  cases h : Edit.applyAll edits m.source with
  | ok source =>
    have happly : m.applyEdits edits = .ok (m.withSource source) := by rw [applyEdits, h]; rfl
    simp only [edit, ExceptT.run_bind, hget, bind_map_left, StateT.run_bind, StateT.run_get,
      pure_bind, happly]
    rfl
  | error err =>
    have happly : m.applyEdits edits = .error err := by rw [applyEdits, h]; rfl
    simp only [edit, ExceptT.run_bind, hget, bind_map_left, StateT.run_bind, StateT.run_get,
      pure_bind, happly]
    rfl

/-- A batch replaces all its places at once if, ordered by place, its edits lie within the
    module and none starts before the one before it ends.  Then it answers the number of
    edits, and the module has the tree of its new bytes.  Else the batch is refused and
    the module stays.  The given order matters for insertions at one offset alone, which
    come to stand in reverse. -/
theorem edit_replaces (m : Module) (edits : List Edit) :
    (∃ ordered, Edit.Ordered edits ordered) ∧
    (∀ ordered, Edit.Ordered edits ordered →
      (Edit.Fitting m.source.length ordered → ∃ after,
        (edit edits).run.run m = (.ok edits.length, after) ∧ after.path = m.path ∧
          after.source = Edit.interleave m.source 0 ordered ∧
          after.tree = readSource after.source) ∧
      (¬ Edit.Fitting m.source.length ordered → ∃ e ∈ edits,
        (edit edits).run.run m = (.error ⟨e.start, e.stop⟩, m))) ∧
    ∀ given : List Edit, given.Perm edits →
      (∀ offset, given.filter (Edit.insertsAt offset) = edits.filter (Edit.insertsAt offset)) →
      (edit given).run.run m = (edit edits).run.run m := by
  refine ⟨⟨_, Edit.ordered_arrange edits⟩, fun ordered h => ⟨fun hfits => ?_, fun hfits => ?_⟩,
    fun given hperm hinsertions => ?_⟩
  · rw [run_edit, Edit.applyAll_of_fitting h hfits]
    exact ⟨_, rfl, rfl, rfl, rfl⟩
  · obtain ⟨e, he, hrefused⟩ := Edit.applyAll_of_not_fitting h hfits
    rw [run_edit, hrefused]
    exact ⟨e, he, rfl⟩
  · rw [run_edit, run_edit, Edit.applyAll_congr hperm hinsertions, hperm.length_eq]

/-- Two texts that are put in at one offset, before a range that is replaced. -/
example : Edit.applyAll [⟨1, 1, "x"⟩, ⟨1, 2, "-"⟩, ⟨1, 1, "y"⟩] (encode "abc") =
    .ok (encode "ayx-c") := by
  decide

end Module

end ComponentDecl
