import Mathlib.Data.List.Sort
import VRGram.Lib.JsonExtend
import VRGram.Lib.Maps

/-!
# Maps and pointers as `encoding/json` writes and reads them

A map is written with its keys in order. A member of an object that is read into a map is put
into it, so that of two members with one key the later one stays. What is kept by reference,
a map or a slice, is emptied by `null`, where any other field is left alone by it.
-/
namespace VRGram.Lib.Json

open VRGram.Lib.Strings VRGram.Lib.Utf8 VRGram.Lib.Maps

set_option autoImplicit false

variable {α β : Type}

/-! ## Writing -/

def sortedKeys (m : GoMap Bytes α) : List Bytes := m.keys.insertionSort (fun a b => a ≤ b)

def mapMembers (doc : α → Doc) (m : GoMap Bytes α) : List (Bytes × Doc) :=
  (sortedKeys m).filterMap (fun k => (m.lookup k).map (fun v => (k, doc v)))

def mapDoc (doc : α → Doc) (m : GoMap Bytes α) : Doc := .object (mapMembers doc m)

def pointerDoc (doc : α → Doc) : Option α → Doc
  | none => .null
  | some a => doc a

theorem mem_sortedKeys {m : GoMap Bytes α} {k : Bytes} : k ∈ sortedKeys m ↔ k ∈ m := by
  rw [sortedKeys, List.mem_insertionSort, AList.mem_keys]

theorem mem_mapMembers {doc : α → Doc} {m : GoMap Bytes α} {k : Bytes} {d : Doc} :
    (k, d) ∈ mapMembers doc m ↔ ∃ v, m.lookup k = some v ∧ d = doc v := by
  simp only [mapMembers, List.mem_filterMap, Option.map_eq_some_iff, Prod.mk.injEq]
  constructor
  · rintro ⟨k', -, v, hv, rfl, rfl⟩
    exact ⟨v, hv, rfl⟩
  · rintro ⟨v, hv, rfl⟩
    exact ⟨k, mem_sortedKeys.mpr (mem_iff_lookup.mpr ⟨v, hv⟩), v, hv, rfl, rfl⟩

private theorem mapMembers_nodup (doc : α → Doc) (m : GoMap Bytes α) :
    ((mapMembers doc m).map Prod.fst).Nodup := by
  have hfst : (mapMembers doc m).map Prod.fst = (sortedKeys m).filterMap some := by
    rw [mapMembers, List.map_filterMap]
    refine List.filterMap_congr (fun k hk => ?_)
    obtain ⟨v, hv⟩ := mem_iff_lookup.mp (mem_sortedKeys.mp hk)
    rw [hv]
    rfl
  rw [hfst, List.filterMap_some]
  exact (List.perm_insertionSort _ m.keys).nodup_iff.mpr m.keys_nodup

theorem memberValues_eq_map (ms : List (Bytes × Doc)) : memberValues ms = ms.map memberValue := by
  induction ms with
  | nil => rw [memberValues, List.map_nil]
  | cons m ms ih => rw [memberValues, ih, List.map_cons]

/-! ## Reading -/

/-- The members that fill a struct. -/
def structMembers : Value → Option (List (Bytes × Value))
  | .object ms => some ms
  | .null => some []
  | _ => none

def pointer (read : Value → Option α) : Value → Option (Option α)
  | .null => some none
  | v => (read v).map some

def putMembers (read : Value → Option α) (m : GoMap Bytes α) (ms : List (Bytes × Value)) :
    Option (GoMap Bytes α) :=
  ms.foldlM (fun m kv => (read kv.2).map (fun v => m.insert kv.1 v)) m

/-- A map that is there is added to. -/
def readMap (read : Value → Option α) (m : GoMap Bytes α) : Value → Option (GoMap Bytes α)
  | .object ms => putMembers read m ms
  | .null => some ∅
  | _ => none

/-- A field that is read with what it held before. -/
def fill (read : α → Value → Option α) (zero : α) (names : List Bytes)
    (ms : List (Bytes × Value)) (name : Bytes) : Option α :=
  ms.foldlM (fun current m => if fieldOf names m.1 = some name then read current m.2
    else some current) zero

/-- A byte slice: base64, or an array of numbers. -/
def asByteSlice : Value → Option Bytes
  | .string s => Base64Std.decodeString s
  | .array items => items.mapM (fun item =>
    match item with
    | .null => some 0
    | item => (asUint64 item).bind (fun n => if n < 256 then some n.toUInt8 else none))
  | .null => some []
  | _ => none

theorem putMembers_cons (read : Value → Option α) (m : GoMap Bytes α) (kv : Bytes × Value)
    (ms : List (Bytes × Value)) : putMembers read m (kv :: ms) =
      (read kv.2).bind (fun v => putMembers read (m.insert kv.1 v) ms) := by
  rw [putMembers, List.foldlM_cons]
  cases read kv.2 <;> rfl

/-- Reading succeeds if it does for each value, and what is found was put there. -/
theorem putMembers_total {read : Value → Option α} {ms : List (Bytes × Value)}
    (hread : ∀ kv ∈ ms, ∃ v, read kv.2 = some v) (m : GoMap Bytes α) :
    ∃ after, putMembers read m ms = some after ∧ ∀ k v, after.lookup k = some v →
      m.lookup k = some v ∨ ∃ kv ∈ ms, kv.1 = k ∧ read kv.2 = some v := by
  induction ms generalizing m with
  | nil => exact ⟨m, rfl, fun _ _ h => Or.inl h⟩
  | cons first ms ih =>
    obtain ⟨w, hw⟩ := hread first List.mem_cons_self
    obtain ⟨after, hafter, horigin⟩ :=
      ih (fun kv hkv => hread kv (List.mem_cons_of_mem first hkv)) (m.insert first.1 w)
    refine ⟨after, by rw [putMembers_cons, hw, Option.bind_some, hafter], fun k v hv => ?_⟩
    rcases horigin k v hv with hold | ⟨kv, hkv, hk, hval⟩
    · rw [lookup_insert_ite] at hold
      split_ifs at hold with hk
      · obtain rfl := Option.some.inj hold
        exact Or.inr ⟨first, List.mem_cons_self, hk.symm, hw⟩
      · exact Or.inl hold
    · exact Or.inr ⟨kv, List.mem_cons_of_mem first hkv, hk, hval⟩

theorem putMembers_frame {read : Value → Option α} {ms : List (Bytes × Value)}
    {m after : GoMap Bytes α} (h : putMembers read m ms = some after) {k : Bytes}
    (hk : k ∉ ms.map Prod.fst) : after.lookup k = m.lookup k := by
  induction ms generalizing m with
  | nil =>
    obtain rfl := Option.some.inj h
    rfl
  | cons first ms ih =>
    rw [putMembers_cons, Option.bind_eq_some_iff] at h
    obtain ⟨v, -, h⟩ := h
    rw [List.map_cons, List.mem_cons, not_or] at hk
    rw [ih h hk.2, lookup_insert_ite, if_neg hk.1]

/-- Of members with distinct keys each is found. -/
theorem putMembers_lookup {read : Value → Option α} {ms : List (Bytes × Value)}
    (hnodup : (ms.map Prod.fst).Nodup) {m after : GoMap Bytes α}
    (h : putMembers read m ms = some after) {kv : Bytes × Value} (hkv : kv ∈ ms) :
    after.lookup kv.1 = read kv.2 := by
  induction ms generalizing m with
  | nil => cases hkv
  | cons first ms ih =>
    rw [putMembers_cons, Option.bind_eq_some_iff] at h
    obtain ⟨v, hv, h⟩ := h
    obtain ⟨hfresh, hnodup⟩ := List.nodup_cons.mp hnodup
    rcases List.mem_cons.mp hkv with rfl | hkv
    · rw [putMembers_frame h hfresh, lookup_insert_ite, if_pos rfl, hv]
    · exact ih hnodup h hkv

/-- A field that one member of the struct carries. -/
theorem fill_of_mem (read : α → Value → Option α) (zero : α) {names : List Bytes} {name : Bytes}
    {v : Value} {ms : List (Bytes × Value)} (hmem : (name, v) ∈ ms)
    (hnodup : (ms.map Prod.fst).Nodup) (hnames : ∀ m ∈ ms, m.1 ∈ names) :
    fill read zero names ms name = read zero v := by
  have habsent : ∀ (ms : List (Bytes × Value)) (current : α), (∀ m ∈ ms, m.1 ∈ names) →
      name ∉ ms.map Prod.fst → fill read current names ms name = some current := by
    intro ms
    induction ms with
    | nil => exact fun _ _ _ => rfl
    | cons m ms ih =>
      intro current hnames hname
      rw [List.map_cons, List.mem_cons, not_or] at hname
      have hother : fieldOf names m.1 ≠ some name := by
        rw [fieldOf_self (hnames m List.mem_cons_self)]
        exact fun h => hname.1 (Option.some.inj h).symm
      rw [fill, List.foldlM_cons, if_neg hother]
      exact ih current (fun m' hm' => hnames m' (List.mem_cons_of_mem m hm')) hname.2
  induction ms with
  | nil => cases hmem
  | cons m ms ih =>
    obtain ⟨hfresh, hnodup⟩ := List.nodup_cons.mp hnodup
    have hrest : ∀ m' ∈ ms, m'.1 ∈ names := fun m' hm' => hnames m' (List.mem_cons_of_mem m hm')
    have hself := fieldOf_self (hnames m List.mem_cons_self)
    rw [fill, List.foldlM_cons, hself]
    rcases List.mem_cons.mp hmem with rfl | hin
    · rw [if_pos rfl]
      have hlast : (fun current => fill read current names ms name) = some := by
        funext current
        exact habsent ms current hrest hfresh
      show (read zero v).bind (fun current => fill read current names ms name) = read zero v
      rw [hlast]
      exact Option.bind_fun_some _
    · have hne : some m.1 ≠ some name := by
        intro h
        exact hfresh (Option.some.inj h ▸ List.mem_map.mpr ⟨(name, v), hin, rfl⟩)
      rw [if_neg hne]
      exact ih hin hnodup hrest

/-! ## Structs -/

/-- The members of a written struct, some of its fields having been left out. -/
structure Labelled (names : List Bytes) (fs : List (Bytes × Doc)) : Prop where
  sublist : (fs.map Prod.fst).Sublist names
  nodup : names.Nodup
  wellFormed : ∀ name ∈ names, WellFormed name

def fieldValues (fs : List (Bytes × Doc)) : List (Bytes × Value) :=
  fs.map (fun f => (f.1, f.2.value))

section

variable {names : List Bytes} {fs : List (Bytes × Doc)} {name : Bytes} {d : Doc}

theorem Labelled.mem (h : Labelled names fs) (hmem : (name, d) ∈ fs) : name ∈ names :=
  h.sublist.subset (List.mem_map.mpr ⟨(name, d), hmem, rfl⟩)

theorem Labelled.structMembers (h : Labelled names fs) :
    structMembers (Doc.object fs).value = some (fieldValues fs) := by
  rw [Doc.value, Json.structMembers, memberValues_eq_map, fieldValues]
  refine congrArg some (List.map_congr_left (fun f hf => ?_))
  obtain ⟨name, d⟩ := f
  rw [memberValue, (reread_eq_self_iff name).mpr (h.wellFormed name (h.mem hf))]

theorem Labelled.fst_nodup (h : Labelled names fs) : ((fieldValues fs).map Prod.fst).Nodup := by
  have hfst : (fieldValues fs).map Prod.fst = fs.map Prod.fst := List.map_map
  rw [hfst]
  exact h.nodup.sublist h.sublist

theorem Labelled.fst_mem (h : Labelled names fs) : ∀ m ∈ fieldValues fs, m.1 ∈ names := by
  intro m hm
  obtain ⟨f, hf, rfl⟩ := List.mem_map.mp hm
  exact h.mem hf

theorem Labelled.fill (h : Labelled names fs) (hmem : (name, d) ∈ fs)
    (read : α → Value → Option α) (zero : α) :
    Json.fill read zero names (fieldValues fs) name = read zero d.value :=
  fill_of_mem read zero (List.mem_map.mpr ⟨(name, d), hmem, rfl⟩) h.fst_nodup h.fst_mem

theorem Labelled.field (h : Labelled names fs) (hmem : (name, d) ∈ fs) (hd : d.value ≠ .null)
    (read : Value → Option α) (zero : α) :
    Json.field read zero names (fieldValues fs) name = read d.value := by
  have hin : (name, d.value) ∈ fieldValues fs := List.mem_map.mpr ⟨(name, d), hmem, rfl⟩
  refine field_of_mem read zero hin h.fst_nodup (h.mem hmem) (fun m hm hm' => ?_) hd
  rw [fieldOf_self (h.fst_mem m hm)] at hm'
  exact Option.some.inj hm'

theorem Labelled.text (h : Labelled names fs) {s : Bytes} (hmem : (name, .text s) ∈ fs) :
    stringField names (fieldValues fs) name = some (reread s) := by
  have hvalue : (Doc.text s).value = .string (reread s) := by rw [Doc.value]
  have hne : (Doc.text s).value ≠ .null := by
    rw [hvalue]
    exact Value.noConfusion
  rw [stringField, h.field hmem hne, hvalue]
  rfl

/-- An omitted field is left as it was. -/
theorem Labelled.absent (h : Labelled names fs) (hname : name ∉ fs.map Prod.fst)
    (read : Value → Option α) (zero : α) :
    Json.field read zero names (fieldValues fs) name = some zero := by
  refine field_absent read zero (fun m hm hm' => ?_)
  rw [fieldOf_self (h.fst_mem m hm)] at hm'
  obtain ⟨f, hf, rfl⟩ := List.mem_map.mp hm
  exact hname (List.mem_map.mpr ⟨f, hf, Option.some.inj hm'⟩)

end

/-! ## Round trips -/

theorem membersHeight_le {ms : List (Bytes × Doc)} {bound : Nat}
    (h : ∀ m ∈ ms, m.2.height ≤ bound) : membersHeight ms ≤ bound := by
  induction ms with
  | nil =>
    rw [membersHeight]
    exact Nat.zero_le _
  | cons m ms ih =>
    obtain ⟨key, d⟩ := m
    obtain ⟨hd, hms⟩ := List.forall_mem_cons.mp h
    rw [membersHeight, memberHeight]
    exact Nat.max_le.mpr ⟨hd, ih hms⟩

theorem mapDoc_height {doc : α → Doc} {bound : Nat} (h : ∀ v, (doc v).height ≤ bound)
    (m : GoMap Bytes α) : (mapDoc doc m).height ≤ bound + 1 := by
  rw [mapDoc, Doc.height]
  refine Nat.succ_le_succ (membersHeight_le (fun kd hkd => ?_))
  obtain ⟨v, -, hd⟩ := mem_mapMembers.mp (show (kd.1, kd.2) ∈ mapMembers doc m from hkd)
  rw [hd]
  exact h v

theorem pointer_object {read : Value → Option α} (fs : List (Bytes × Doc)) :
    pointer read (Doc.object fs).value = (read (Doc.object fs).value).map some := by
  rw [Doc.value]
  rfl

theorem mem_memberValues {doc : α → Doc} {m : GoMap Bytes α} {kv : Bytes × Value}
    (h : kv ∈ memberValues (mapMembers doc m)) :
    ∃ k v, m.lookup k = some v ∧ kv = (reread k, (doc v).value) := by
  rw [memberValues_eq_map, List.mem_map] at h
  obtain ⟨⟨k, d⟩, hkd, rfl⟩ := h
  obtain ⟨v, hv, rfl⟩ := mem_mapMembers.mp hkd
  exact ⟨k, v, hv, by rw [memberValue]⟩

/-- A map is read back, and every entry comes from one that was written. -/
theorem readMap_total {doc : α → Doc} {read : Value → Option β} {m : GoMap Bytes α}
    (hread : ∀ k v, m.lookup k = some v → ∃ w, read (doc v).value = some w) :
    ∃ after, readMap read ∅ (mapDoc doc m).value = some after ∧
      ∀ k w, after.lookup k = some w →
        ∃ k' v, m.lookup k' = some v ∧ k = reread k' ∧ read (doc v).value = some w := by
  have hvalues : ∀ kv ∈ memberValues (mapMembers doc m), ∃ w, read kv.2 = some w := by
    intro kv hkv
    obtain ⟨k, v, hv, rfl⟩ := mem_memberValues hkv
    exact hread k v hv
  obtain ⟨after, hafter, horigin⟩ := putMembers_total hvalues (∅ : GoMap Bytes β)
  refine ⟨after, by rw [mapDoc, Doc.value]; exact hafter, fun k w hw => ?_⟩
  rcases horigin k w hw with hempty | ⟨kv, hkv, hk, hval⟩
  · rw [AList.lookup_empty] at hempty
    cases hempty
  · obtain ⟨k', v, hv, rfl⟩ := mem_memberValues hkv
    exact ⟨k', v, hv, hk.symm, hval⟩

/-- With well-formed keys every entry is found under its own. -/
theorem readMap_lookup {doc : α → Doc} {read : Value → Option β} {m : GoMap Bytes α}
    (hkeys : ∀ k ∈ m, WellFormed k) {after : GoMap Bytes β}
    (h : readMap read ∅ (mapDoc doc m).value = some after) (k : Bytes) :
    after.lookup k = (m.lookup k).bind (fun v => read (doc v).value) := by
  rw [mapDoc, Doc.value] at h
  have hput : putMembers read ∅ (memberValues (mapMembers doc m)) = some after := h
  have hfst : (memberValues (mapMembers doc m)).map Prod.fst =
      (mapMembers doc m).map Prod.fst := by
    rw [memberValues_eq_map, List.map_map]
    refine List.map_congr_left (fun kd hkd => ?_)
    obtain ⟨k, d⟩ := kd
    obtain ⟨v, hv, -⟩ := mem_mapMembers.mp hkd
    exact (reread_eq_self_iff k).mpr (hkeys k (mem_iff_lookup.mpr ⟨v, hv⟩))
  have hnodup := mapMembers_nodup doc m
  rw [← hfst] at hnodup
  cases hm : m.lookup k with
  | none =>
    have habsent : k ∉ (memberValues (mapMembers doc m)).map Prod.fst := by
      rw [hfst, List.mem_map]
      rintro ⟨⟨k', d⟩, hkd, rfl⟩
      obtain ⟨v, hv, -⟩ := mem_mapMembers.mp hkd
      rw [hm] at hv
      cases hv
    rw [putMembers_frame hput habsent, AList.lookup_empty, Option.bind_none]
  | some v =>
    have hmem : (k, (doc v).value) ∈ memberValues (mapMembers doc m) := by
      rw [memberValues_eq_map, List.mem_map]
      refine ⟨(k, doc v), mem_mapMembers.mpr ⟨v, hm, rfl⟩, ?_⟩
      rw [memberValue, (reread_eq_self_iff k).mpr (hkeys k (mem_iff_lookup.mpr ⟨v, hm⟩))]
    exact putMembers_lookup hnodup hput hmem

end VRGram.Lib.Json
