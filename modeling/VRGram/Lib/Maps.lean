import Mathlib.Data.List.AList
import Mathlib.Data.List.Perm.Basic
import Mathlib.Data.List.Dedup

/-!
# Hash maps with an unspecified iteration order

A Go map is an association list with distinct keys. Ranging over it visits the
keys in an order the language leaves open, so every loop over a map takes the
order as a hint. A hint that enumerates the keys is followed exactly; any other
hint is completed to an enumeration, so no hint can produce an impossible loop.
-/
namespace VRGram.Lib.Maps

set_option autoImplicit false

abbrev GoMap (K V : Type) := AList (fun _ : K => V)

variable {K V : Type} [DecidableEq K]

/-- The keys of `m` in the order that `hint` asks for. -/
def rangeOrder (hint : List K) (m : GoMap K V) : List K :=
  hint.dedup.filter (fun k => k ∈ m) ++ m.keys.filter (fun k => k ∉ hint)

theorem mem_rangeOrder (hint : List K) (m : GoMap K V) (k : K) :
    k ∈ rangeOrder hint m ↔ k ∈ m := by
  simp only [rangeOrder, List.mem_append, List.mem_filter, List.mem_dedup, decide_eq_true_eq,
    ← AList.mem_keys]
  by_cases hk : k ∈ hint <;> simp [hk]

theorem rangeOrder_nodup (hint : List K) (m : GoMap K V) : (rangeOrder hint m).Nodup := by
  apply List.Nodup.append
  · exact (List.nodup_dedup hint).filter _
  · exact m.keys_nodup.filter _
  · intro k hl hr
    simp only [List.mem_filter, List.mem_dedup, decide_eq_true_eq] at hl hr
    exact hr.2 hl.1

theorem rangeOrder_perm (hint : List K) (m : GoMap K V) : (rangeOrder hint m).Perm m.keys := by
  rw [List.perm_ext_iff_of_nodup (rangeOrder_nodup hint m) m.keys_nodup]
  intro k
  rw [mem_rangeOrder, AList.mem_keys]

theorem lookup_insert_ite (m : GoMap K V) (k j : K) (v : V) :
    (m.insert k v).lookup j = if j = k then some v else m.lookup j := by
  by_cases h : j = k
  · subst h; simp
  · rw [if_neg h, AList.lookup_insert_ne h]

theorem lookup_erase_ite (m : GoMap K V) (k j : K) :
    (m.erase k).lookup j = if j = k then none else m.lookup j := by
  by_cases h : j = k
  · subst h; simp
  · rw [if_neg h, AList.lookup_erase_ne h]

theorem lookup_erase_eq_some {m : GoMap K V} {k j : K} {v : V} :
    (m.erase k).lookup j = some v ↔ j ≠ k ∧ m.lookup j = some v := by
  rw [lookup_erase_ite]
  split
  next h => exact iff_of_false (fun hnone => by cases hnone) (fun hne => hne.1 h)
  next h => exact (and_iff_right h).symm

theorem mem_iff_lookup {m : GoMap K V} {k : K} : k ∈ m ↔ ∃ v, m.lookup k = some v := by
  rw [← AList.lookup_isSome, Option.isSome_iff_exists]

/-! ## Counting the keys that carry one value -/

section Fibre

variable [DecidableEq V]

/-- The keys of `m` whose value is `v`. -/
def fibre (m : GoMap K V) (v : V) : List K := m.keys.filter (fun k => m.lookup k = some v)

theorem mem_fibre {m : GoMap K V} {v : V} {k : K} : k ∈ fibre m v ↔ m.lookup k = some v := by
  simp only [fibre, List.mem_filter, decide_eq_true_eq, ← AList.mem_keys]
  constructor
  · exact fun h => h.2
  · exact fun h => ⟨mem_iff_lookup.mpr ⟨v, h⟩, h⟩

theorem fibre_nodup (m : GoMap K V) (v : V) : (fibre m v).Nodup := m.keys_nodup.filter _

/-- Two duplicate-free lists with the same members have the same length. -/
theorem length_eq_fibre {m : GoMap K V} {v : V} {l : List K} (hn : l.Nodup)
    (hm : ∀ k, k ∈ l ↔ m.lookup k = some v) : l.length = (fibre m v).length := by
  apply List.Perm.length_eq
  rw [List.perm_ext_iff_of_nodup hn (fibre_nodup m v)]
  intro k
  rw [hm, mem_fibre]

theorem fibre_length_insert {m : GoMap K V} {k : K} (hk : m.lookup k = none) (v w : V) :
    (fibre (m.insert k v) w).length = (fibre m w).length + if w = v then 1 else 0 := by
  have hne : ∀ j, j ∈ fibre m w → j ≠ k := by
    intro j hj he
    rw [mem_fibre, he, hk] at hj
    cases hj
  by_cases hw : w = v
  · subst hw
    have hn : (k :: fibre m w).Nodup :=
      List.nodup_cons.mpr ⟨fun h => hne k h rfl, fibre_nodup m w⟩
    have he := length_eq_fibre (m := m.insert k w) (v := w) hn (by
      intro j
      rw [lookup_insert_ite, List.mem_cons, mem_fibre]
      by_cases hj : j = k <;> simp [hj])
    simpa using he.symm
  · rw [if_neg hw, Nat.add_zero]
    refine (length_eq_fibre (fibre_nodup m w) ?_).symm
    intro j
    rw [lookup_insert_ite, mem_fibre]
    by_cases hj : j = k
    · subst hj
      simp [hk, Ne.symm hw]
    · simp [hj]

theorem fibre_length_erase {m : GoMap K V} {k : K} {v : V} (hk : m.lookup k = some v) (w : V) :
    (fibre m w).length = (fibre (m.erase k) w).length + if w = v then 1 else 0 := by
  have hmem : ∀ j, j ∈ fibre (m.erase k) w ↔ j ≠ k ∧ m.lookup j = some w := by
    intro j
    rw [mem_fibre, lookup_erase_ite]
    by_cases hj : j = k <;> simp [hj]
  by_cases hw : w = v
  · subst hw
    have hn : (k :: fibre (m.erase k) w).Nodup :=
      List.nodup_cons.mpr ⟨fun h => ((hmem k).mp h).1 rfl, fibre_nodup _ w⟩
    have he := length_eq_fibre (m := m) (v := w) hn (by
      intro j
      rw [List.mem_cons, hmem]
      by_cases hj : j = k
      · subst hj; simp [hk]
      · simp [hj])
    simpa using he.symm
  · rw [if_neg hw, Nat.add_zero]
    refine (length_eq_fibre (fibre_nodup _ w) ?_).symm
    intro j
    rw [hmem]
    constructor
    · exact fun h => h.2
    · intro h
      refine ⟨?_, h⟩
      rintro rfl
      rw [hk] at h
      exact hw (Option.some.inj h).symm

end Fibre

/-! ## Putting the entries of one map into another -/

def putAll (hint : List K) (m loaded : GoMap K V) : GoMap K V :=
  (rangeOrder hint loaded).foldl (fun m k =>
    match loaded.lookup k with
    | some v => m.insert k v
    | none => m) m

private theorem lookup_putAll (hint : List K) (m loaded : GoMap K V) (j : K) :
    (putAll hint m loaded).lookup j =
      if j ∈ loaded then loaded.lookup j else m.lookup j := by
  have hloop : ∀ (ks : List K) (m : GoMap K V), (∀ k ∈ ks, k ∈ loaded) →
      (ks.foldl (fun m k =>
        match loaded.lookup k with
        | some v => m.insert k v
        | none => m) m).lookup j =
        if j ∈ ks then loaded.lookup j else m.lookup j := by
    intro ks
    induction ks with
    | nil => simp
    | cons k ks ih =>
      intro m hks
      obtain ⟨v, hv⟩ := mem_iff_lookup.mp (hks k List.mem_cons_self)
      rw [List.foldl_cons, ih _ (fun i hi => hks i (List.mem_cons_of_mem k hi))]
      simp only [hv, lookup_insert_ite, List.mem_cons]
      by_cases hrest : j ∈ ks
      · simp [hrest]
      · by_cases hk : j = k
        · subst hk
          simp [hrest, hv]
        · simp [hrest, hk]
  rw [putAll, hloop _ _ (fun k hk => (mem_rangeOrder hint loaded k).mp hk)]
  simp only [mem_rangeOrder]

theorem lookup_putAll_empty (hint : List K) (loaded : GoMap K V) (j : K) :
    (putAll hint ∅ loaded).lookup j = loaded.lookup j := by
  rw [lookup_putAll]
  split_ifs with hmem
  · rfl
  · exact (AList.lookup_eq_none.mpr hmem).symm

end VRGram.Lib.Maps
