import Mathlib.Data.List.Induction
import Mathlib.Data.List.Sort

/-!
# Sorting by a comparator that need not be an order

A library sort is given a comparator and promises its result only if the comparator is
consistent on the list. What a list that is sorted after every insertion looks like in the end
is then determined exactly if the comparator is consistent on all elements and has no ties.
-/
namespace VRGram.Lib.Sorting

set_option autoImplicit false

variable {α : Type} (cmp : α → α → Ordering)

def Le (a b : α) : Prop := (cmp a b).isLE = true

instance : DecidableRel (Le cmp) := fun a b => inferInstanceAs (Decidable ((cmp a b).isLE = true))

/-- The comparator orders the elements of the list; that it turns around with its arguments is
`Std.OrientedCmp`. -/
def Consistent (l : List α) : Prop :=
  ∀ a ∈ l, ∀ b ∈ l, ∀ c ∈ l, Le cmp a b → Le cmp b c → Le cmp a c

instance (l : List α) : Decidable (Consistent cmp l) := by
  unfold Consistent
  infer_instance

/-- All that is known of the sort; the order of ties is open. -/
def Lawful (sort : List α → List α) : Prop :=
  ∀ l, Consistent cmp l → (sort l).Perm l ∧ (sort l).Pairwise (Le cmp)

def Tieless (l : List α) : Prop := ∀ a ∈ l, ∀ b ∈ l, cmp a b = .eq → a = b

/-- Every element is appended and the list is sorted anew. -/
def insertAll (sort : List α → List α) (order : List α) : List α :=
  order.foldl (fun l x => sort (l ++ [x])) []

/-- The list in the end depends on the elements alone. -/
def OrderFree (sort : List α → List α) (l : List α) : Prop :=
  ∀ order₁ order₂, order₁.Perm l → order₂.Perm l → insertAll sort order₁ = insertAll sort order₂

variable {cmp}

theorem Consistent.subset {l l' : List α} (h : Consistent cmp l) (hsub : l' ⊆ l) :
    Consistent cmp l' :=
  fun a ha b hb c hc => h a (hsub ha) b (hsub hb) c (hsub hc)

theorem insertAll_append (sort : List α → List α) (order : List α) (x : α) :
    insertAll sort (order ++ [x]) = sort (insertAll sort order ++ [x]) := by
  simp only [insertAll, List.foldl_append, List.foldl_cons, List.foldl_nil]

/-! ## Consistent comparators without ties -/

/-- A list that was consistent all the time is a sorted permutation of what was inserted. -/
theorem insertAll_sorted {sort : List α → List α} (hsort : Lawful cmp sort) (order : List α)
    (hcons : Consistent cmp order) :
    (insertAll sort order).Perm order ∧ (insertAll sort order).Pairwise (Le cmp) := by
  induction order using List.reverseRecOn with
  | nil => exact ⟨List.Perm.refl _, List.Pairwise.nil⟩
  | append_singleton order x ih =>
    have hperm := (ih (hcons.subset (List.subset_append_left _ _))).1.append_right [x]
    obtain ⟨hsorted, hpair⟩ := hsort _ (hcons.subset hperm.subset)
    rw [insertAll_append]
    exact ⟨hsorted.trans hperm, hpair⟩

section Oriented

variable [Std.OrientedCmp cmp]

theorem le_total (a b : α) : Le cmp a b ∨ Le cmp b a := by
  have hswap : cmp b a = (cmp a b).swap := Std.OrientedCmp.eq_swap
  unfold Le
  rw [hswap]
  cases cmp a b <;> decide

theorem Tieless.eq_of_le {l : List α} (h : Tieless cmp l) {a b : α} (ha : a ∈ l) (hb : b ∈ l)
    (hab : Le cmp a b) (hba : Le cmp b a) : a = b :=
  h a ha b hb (Std.OrientedCmp.isLE_antisymm hab hba)

theorem orderFree_of_tieless {sort : List α → List α} (hsort : Lawful cmp sort) {l : List α}
    (hcons : Consistent cmp l) (hties : Tieless cmp l) : OrderFree sort l := by
  intro order₁ order₂ h₁ h₂
  obtain ⟨hperm₁, hpair₁⟩ := insertAll_sorted hsort order₁ (hcons.subset h₁.subset)
  obtain ⟨hperm₂, hpair₂⟩ := insertAll_sorted hsort order₂ (hcons.subset h₂.subset)
  refine List.Perm.eq_of_pairwise (fun a b ha hb => ?_) hpair₁ hpair₂
    ((hperm₁.trans h₁).trans (hperm₂.trans h₂).symm)
  exact hties.eq_of_le (h₁.subset (hperm₁.subset ha)) (h₂.subset (hperm₂.subset hb))

/-! ## A sort that shows the rest -/

variable (cmp) in
/-- A stable sort that does nothing to a list on which the comparator is not consistent. -/
def cautiousSort (l : List α) : List α :=
  if Consistent cmp l then l.insertionSort (Le cmp) else l

/-- On a consistent list the comparator is a total preorder of the members. -/
theorem pairwise_insertionSort_of_consistent {l : List α} (h : Consistent cmp l) :
    (l.insertionSort (Le cmp)).Pairwise (Le cmp) := by
  let r : {x // x ∈ l} → {x // x ∈ l} → Prop := fun x y => Le cmp x.val y.val
  have htotal : Std.Total r := ⟨fun x y => le_total x.val y.val⟩
  have htrans : IsTrans {x // x ∈ l} r :=
    ⟨fun x y z => h x.val x.property y.val y.property z.val z.property⟩
  have hmap : (l.attach.insertionSort r).map Subtype.val = l.insertionSort (Le cmp) := by
    rw [List.map_insertionSort r (Le cmp) Subtype.val l.attach (fun _ _ _ _ => Iff.rfl),
      List.attach_map_subtype_val]
  rw [← hmap]
  exact (List.pairwise_insertionSort r l.attach).map _ (fun _ _ hxy => hxy)

theorem lawful_cautiousSort : Lawful cmp (cautiousSort cmp) := by
  intro l hcons
  rw [cautiousSort, if_pos hcons]
  exact ⟨List.perm_insertionSort _ l, pairwise_insertionSort_of_consistent hcons⟩

end Oriented

theorem pair_sublist_cautiousSort {a b : α} (hab : Le cmp a b) {l : List α}
    (h : [a, b].Sublist l) : [a, b].Sublist (cautiousSort cmp l) := by
  unfold cautiousSort
  split
  · exact List.pair_sublist_insertionSort hab h
  · exact h

/-- Two elements that are inserted first, the smaller one before the other, stay so. -/
theorem pair_sublist_insertAll {a b : α} (hab : Le cmp a b) (rest : List α) :
    [a, b].Sublist (insertAll (cautiousSort cmp) (a :: b :: rest)) := by
  induction rest using List.reverseRecOn with
  | nil =>
    have hfirst : insertAll (cautiousSort cmp) [a] = [a] := by
      simp [insertAll, cautiousSort]
    rw [← List.singleton_append, insertAll_append, hfirst]
    exact pair_sublist_cautiousSort hab (List.Sublist.refl _)
  | append_singleton rest x ih =>
    rw [← List.cons_append, ← List.cons_append, insertAll_append]
    exact pair_sublist_cautiousSort hab (ih.trans (List.sublist_append_left _ _))

theorem insertAll_perm (order : List α) : (insertAll (cautiousSort cmp) order).Perm order := by
  induction order using List.reverseRecOn with
  | nil => exact List.Perm.refl _
  | append_singleton order x ih =>
    rw [insertAll_append, cautiousSort]
    split
    · exact (List.perm_insertionSort _ _).trans (ih.append_right [x])
    · exact ih.append_right [x]

/-! ## When the order of insertion does not matter -/

theorem exists_last {a : α} {l : List α} (ha : a ∈ l) : ∃ order, (order ++ [a]).Perm l := by
  obtain ⟨s, t, rfl⟩ := List.append_of_mem ha
  refine ⟨s ++ t, ?_⟩
  rw [List.append_assoc]
  exact (List.perm_append_singleton a t).append_left s

private theorem exists_first_two {a b : α} {l : List α} (ha : a ∈ l) (hb : b ∈ l) (hne : a ≠ b) :
    ∃ rest, (a :: b :: rest).Perm l := by
  obtain ⟨s, t, rfl⟩ := List.append_of_mem ha
  have hb' : b ∈ s ++ t := by
    rcases List.mem_append.mp hb with hs | ht
    · exact List.mem_append_left _ hs
    · exact List.mem_append_right _ (List.mem_of_ne_of_mem hne.symm ht)
  obtain ⟨s', t', hst⟩ := List.append_of_mem hb'
  refine ⟨s' ++ t', ?_⟩
  have htail : (b :: (s' ++ t')).Perm (s ++ t) := hst ▸ List.perm_middle.symm
  exact (htail.cons a).trans List.perm_middle.symm

/-- Of two elements of a list without repetitions one comes first. -/
theorem not_pair_sublist_swap {a b : α} {l : List α} (hnodup : l.Nodup)
    (hab : [a, b].Sublist l) : ¬ [b, a].Sublist l := by
  induction l with
  | nil => cases hab
  | cons x rest ih =>
    intro hba
    obtain ⟨hx, hrest⟩ := List.nodup_cons.mp hnodup
    cases hab with
    | cons _ hab =>
      cases hba with
      | cons _ hba => exact ih hrest hab hba
      | cons_cons _ _ => exact hx (hab.subset (by simp))
    | cons_cons _ hb =>
      cases hba with
      | cons _ hba => exact hx (hba.subset (by simp))
      | cons_cons _ _ => exact hx (hb.subset (by simp))

section

variable (cmp) [Std.OrientedCmp cmp] {l : List α}

/-- The cautious sort leaves an inconsistent list as it is, so that what is inserted last comes
last. -/
theorem OrderFree.consistent (h : OrderFree (cautiousSort cmp) l) : Consistent cmp l := by
  by_contra hbad
  have hlast : ∀ order x, (order ++ [x]).Perm l →
      insertAll (cautiousSort cmp) (order ++ [x]) = insertAll (cautiousSort cmp) order ++ [x] := by
    intro order x hperm
    rw [insertAll_append, cautiousSort, if_neg]
    intro hcons
    refine hbad (hcons.subset ?_)
    exact (((insertAll_perm order).append_right [x]).trans hperm).symm.subset
  obtain ⟨a, ha, b, hb, c, hc, hfail⟩ : ∃ a ∈ l, ∃ b ∈ l, ∃ c ∈ l,
      ¬ (Le cmp a b → Le cmp b c → Le cmp a c) := by
    simpa [Consistent] using hbad
  obtain ⟨order₁, h₁⟩ := exists_last ha
  obtain ⟨order₂, h₂⟩ := exists_last hc
  have heq := h _ _ h₁ h₂
  rw [hlast _ _ h₁, hlast _ _ h₂] at heq
  obtain rfl : a = c := List.singleton_inj.mp (List.append_inj' heq rfl).2
  refine hfail (fun _ _ => ?_)
  exact (le_total a a).elim id id

/-- The cautious sort keeps a tie in the order of insertion. -/
theorem OrderFree.tieless (hnodup : l.Nodup) (h : OrderFree (cautiousSort cmp) l) :
    Tieless cmp l := by
  intro a ha b hb htie
  by_contra hne
  obtain ⟨rest, hrest⟩ := exists_first_two ha hb hne
  have hswap : cmp b a = (cmp a b).swap := Std.OrientedCmp.eq_swap
  have hab : Le cmp a b := by
    rw [Le, htie]
    rfl
  have hba : Le cmp b a := by
    rw [Le, hswap, htie]
    rfl
  have hfirst := pair_sublist_insertAll hab rest
  have hsecond := pair_sublist_insertAll hba rest
  rw [h _ _ ((List.Perm.swap a b rest).trans hrest) hrest] at hsecond
  have hnodup' : (insertAll (cautiousSort cmp) (a :: b :: rest)).Nodup :=
    ((insertAll_perm _).trans hrest).nodup_iff.mpr hnodup
  exact not_pair_sublist_swap hnodup' hfirst hsecond

end

end VRGram.Lib.Sorting
