import VRGram.Lib.JsonScan

/-!
# What a JSON text can be read as

What each scanner leaves is the end of its text, so the strings of an object are parts of it,
and lighter than it by their quotes. A text that is rendered without an encoder is taken apart
here member by member, whatever its strings do to it.
-/
namespace VRGram.Lib.Json

open VRGram.Lib.Strings VRGram.Lib.Utf8

set_option autoImplicit false

/-! ## What a scanner leaves is the end of its text -/

def Leaves {α : Type} (scan : Bytes → Option (α × Bytes)) : Prop :=
  ∀ s r, scan s = some r → r.2 <:+ s

theorem token_suffix {b : UInt8} {s rest : Bytes} (h : token b s = some rest) :
    b :: rest <:+ s := by
  unfold token at h
  split at h
  next => cases h
  next c tail hskip =>
    split at h
    next hc =>
      obtain rfl := Option.some.inj h
      obtain rfl := hc
      rw [← hskip]
      exact List.dropWhile_suffix isSpace
    next => cases h

theorem leaves_stringBody : Leaves stringBody := by
  intro s r h
  obtain ⟨⟨seg, rest⟩, hscan, rfl⟩ := Option.map_eq_some_iff.mp h
  obtain ⟨rfl, -⟩ := scanString_eq_some_iff.mp hscan
  exact (List.suffix_cons quote rest).trans (List.suffix_append seg _)

theorem leaves_digits : Leaves digits := by
  intro s r h
  unfold digits at h
  rw [List.span_eq_takeWhile_dropWhile] at h
  cases ht : s.takeWhile isDigit with
  | nil =>
    rw [ht] at h
    cases h
  | cons c run =>
    rw [ht] at h
    obtain rfl := Option.some.inj h
    exact List.dropWhile_suffix isDigit

private theorem leaves_integerPart : Leaves integerPart := by
  intro s r h
  unfold integerPart at h
  split at h
  · obtain rfl := Option.some.inj h
    exact List.suffix_cons _ _
  · exact leaves_digits _ _ h

private theorem leaves_fractionPart : Leaves fractionPart := by
  intro s r h
  unfold fractionPart at h
  split at h
  · obtain ⟨r', hr', rfl⟩ := Option.map_eq_some_iff.mp h
    exact (leaves_digits _ _ hr').trans (List.suffix_cons _ _)
  · obtain rfl := Option.some.inj h
    exact List.suffix_refl _

private theorem leaves_exponentPart : Leaves exponentPart := by
  intro s r h
  unfold exponentPart at h
  split at h
  · obtain rfl := Option.some.inj h
    exact List.suffix_refl _
  · split at h
    · split at h
      · cases h
      · split at h
        · obtain ⟨r', hr', rfl⟩ := Option.map_eq_some_iff.mp h
          exact ((leaves_digits _ _ hr').trans (List.suffix_cons _ _)).trans (List.suffix_cons _ _)
        · obtain ⟨r', hr', rfl⟩ := Option.map_eq_some_iff.mp h
          exact (leaves_digits _ _ hr').trans (List.suffix_cons _ _)
    · obtain rfl := Option.some.inj h
      exact List.suffix_refl _

theorem leaves_unsignedNumber : Leaves unsignedNumber := by
  intro s r h
  simp only [unsignedNumber, Option.bind_eq_bind, Option.bind_eq_some_iff] at h
  obtain ⟨i, hi, f, hf, e, he, hr⟩ := h
  obtain rfl := Option.some.inj hr
  exact ((leaves_exponentPart _ _ he).trans (leaves_fractionPart _ _ hf)).trans
    (leaves_integerPart _ _ hi)

private theorem leaves_numberLiteral : Leaves numberLiteral := by
  intro s r h
  unfold numberLiteral at h
  split at h
  · obtain ⟨r', hr', rfl⟩ := Option.map_eq_some_iff.mp h
    exact (leaves_unsignedNumber _ _ hr').trans (List.suffix_cons _ _)
  · exact leaves_unsignedNumber _ _ h

theorem leaves_expect (word : Bytes) (v : Value) : Leaves (expect word v) := by
  intro s r h
  unfold expect at h
  split at h
  · obtain rfl := Option.some.inj h
    exact List.drop_suffix _ _
  · cases h

private theorem leaves_scalar : Leaves scalar := by
  intro s r h
  unfold scalar at h
  split at h
  next => cases h
  next c rest hskip =>
    have hs : c :: rest <:+ s := by
      rw [← hskip]
      exact List.dropWhile_suffix isSpace
    refine List.IsSuffix.trans ?_ hs
    split at h
    · obtain ⟨r', hr', rfl⟩ := Option.map_eq_some_iff.mp h
      exact (leaves_stringBody _ _ hr').trans (List.suffix_cons _ _)
    · split at h
      · exact leaves_expect _ _ _ _ h
      · split at h
        · exact leaves_expect _ _ _ _ h
        · split at h
          · exact leaves_expect _ _ _ _ h
          · obtain ⟨r', hr', rfl⟩ := Option.map_eq_some_iff.mp h
            exact leaves_numberLiteral _ _ hr'

theorem leaves_bracketed {α : Type} {close : UInt8} {wrap : List α → Value}
    {scan : Nat → Bytes → Option (List α × Bytes)} (h : ∀ depth, Leaves (scan depth))
    (depth : Nat) : Leaves (bracketed close wrap scan depth) := by
  intro s r hr
  cases depth with
  | zero => cases hr
  | succ depth =>
    unfold bracketed at hr
    dsimp only at hr
    split at hr
    next rest hclose =>
      obtain rfl := Option.some.inj hr
      exact (List.suffix_cons _ _).trans (token_suffix hclose)
    next =>
      obtain ⟨r', hr', rfl⟩ := Option.map_eq_some_iff.mp hr
      exact h depth s r' hr'

/-- One case for each of the three scanners, by induction on the fuel. -/
theorem leaves_all (fuel : Nat) :
    (∀ depth, Leaves (value fuel depth)) ∧ (∀ depth, Leaves (elements fuel depth)) ∧
      ∀ depth, Leaves (members fuel depth) := by
  induction fuel with
  | zero =>
    refine ⟨?_, ?_, ?_⟩ <;>
    · intro depth s r h
      simp [value, elements, members] at h
  | succ fuel ih =>
    obtain ⟨hvalue, helements, hmembers⟩ := ih
    refine ⟨?_, ?_, ?_⟩
    · intro depth s r h
      rw [value] at h
      split at h
      next rest hopen =>
        exact ((leaves_bracketed hmembers depth _ _ h).trans (List.suffix_cons _ _)).trans
          (token_suffix hopen)
      next =>
        split at h
        next rest hopen =>
          exact ((leaves_bracketed helements depth _ _ h).trans (List.suffix_cons _ _)).trans
            (token_suffix hopen)
        next => exact leaves_scalar _ _ h
    · intro depth s r h
      rw [elements, Option.bind_eq_some_iff] at h
      obtain ⟨v, hv, h⟩ := h
      have hv' := hvalue depth s v hv
      split at h
      next rest hmore =>
        obtain ⟨vs, hvs, rfl⟩ := Option.map_eq_some_iff.mp h
        exact (((helements depth rest vs hvs).trans (List.suffix_cons _ _)).trans
          (token_suffix hmore)).trans hv'
      next =>
        obtain ⟨rest, hclose, rfl⟩ := Option.map_eq_some_iff.mp h
        exact ((List.suffix_cons _ _).trans (token_suffix hclose)).trans hv'
    · intro depth s r h
      obtain ⟨_, start, key, after, v, hfuel, hquote, hbody, hcolon, hval, hnext⟩ := members_inv h
      obtain rfl := Nat.succ.inj hfuel
      have hkey := ((leaves_stringBody _ _ hbody).trans (List.suffix_cons _ _)).trans
        (token_suffix hquote)
      have hv := (((hvalue depth _ _ hval).trans (List.suffix_cons _ _)).trans
        (token_suffix hcolon)).trans hkey
      rcases hnext with ⟨rest, ms, hmore, hms, rfl⟩ | ⟨-, rest, hclose, rfl⟩
      · exact (((hmembers depth rest ms hms).trans (List.suffix_cons _ _)).trans
          (token_suffix hmore)).trans hv
      · exact ((List.suffix_cons _ _).trans (token_suffix hclose)).trans hv

/-! ## The strings of an object -/

theorem asciiCount_suffix {s t : Bytes} (h : t <:+ s) : asciiCount t ≤ asciiCount s :=
  List.Sublist.countP_le h.sublist

theorem asciiCount_unquote_le (fuel : Nat) {s : Bytes} (h : Body s) :
    asciiCount (unquote fuel s) ≤ asciiCount s := by
  have hweight := unquote_weight fuel _ h
  omega

/-- A value is an object, an array or a scalar. -/
theorem value_inv {fuel depth : Nat} {s : Bytes} {r : Value × Bytes}
    (h : value fuel depth s = some r) :
    (∃ inside ms, token 123 s = some inside ∧ r.1 = .object ms ∧
      ((ms = [] ∧ token 125 inside = some r.2) ∨
        ∃ fuel' depth', members fuel' depth' inside = some (ms, r.2))) ∨
    (∃ items, r.1 = .array items) ∨ scalar s = some r := by
  have hbracketed : ∀ {α : Type} {close : UInt8} {wrap : List α → Value}
      {scan : Nat → Bytes → Option (List α × Bytes)} {t : Bytes},
      bracketed close wrap scan depth t = some r → ∃ items, r.1 = wrap items ∧
        ((items = [] ∧ token close t = some r.2) ∨ ∃ depth', scan depth' t = some (items, r.2)) := by
    intro α close wrap scan t hb
    unfold bracketed at hb
    split at hb
    next => cases hb
    next depth' =>
      split at hb
      next rest hclose =>
        obtain rfl := Option.some.inj hb
        exact ⟨[], rfl, Or.inl ⟨rfl, hclose⟩⟩
      next =>
        obtain ⟨q, hq, rfl⟩ := Option.map_eq_some_iff.mp hb
        exact ⟨q.1, rfl, Or.inr ⟨depth', hq⟩⟩
  cases fuel with
  | zero => simp [value] at h
  | succ fuel =>
    rw [value] at h
    split at h
    next inside hopen =>
      obtain ⟨ms, hms, hscan⟩ := hbracketed h
      refine Or.inl ⟨inside, ms, hopen, hms, ?_⟩
      rcases hscan with hempty | ⟨depth', hmembers⟩
      · exact Or.inl hempty
      · exact Or.inr ⟨fuel, depth', hmembers⟩
    next =>
      split at h
      next =>
        obtain ⟨items, hitems, -⟩ := hbracketed h
        exact Or.inr (Or.inl ⟨items, hitems⟩)
      next => exact Or.inr (Or.inr h)

/-- A scalar is a string between two quotes, `null`, a truth value or a number. -/
theorem scalar_inv {s : Bytes} {r : Value × Bytes} (h : scalar s = some r) :
    (∃ start seg, token quote s = some start ∧ scanString start = some (seg, r.2) ∧
      r.1 = .string (unquote seg.length seg)) ∨
    (r.1 = .null ∧ skipSpace s = lit "null" ++ r.2) ∨ (∃ b, r.1 = .bool b) ∨
      ∃ literal, r.1 = .number literal := by
  have hexpect : ∀ {word : Bytes} {v : Value} {t : Bytes}, expect word v t = some r →
      r.1 = v ∧ t = word ++ r.2 := by
    intro word v t he
    unfold expect at he
    split at he
    next hprefix =>
      obtain rfl := Option.some.inj he
      obtain ⟨rest, rfl⟩ := List.isPrefixOf_iff_prefix.mp hprefix
      exact ⟨rfl, by rw [List.drop_left]⟩
    next => cases he
  unfold scalar at h
  split at h
  next => cases h
  next c tail hskip =>
    split at h
    next hquote =>
      obtain ⟨r', hbody, rfl⟩ := Option.map_eq_some_iff.mp h
      obtain ⟨⟨seg, rest⟩, hscan, rfl⟩ := Option.map_eq_some_iff.mp hbody
      exact Or.inl ⟨tail, seg, by rw [token, hskip]; exact if_pos hquote, hscan, rfl⟩
    next =>
      refine Or.inr ?_
      split at h
      · exact Or.inr (Or.inl ⟨_, (hexpect h).1⟩)
      · split at h
        · exact Or.inr (Or.inl ⟨_, (hexpect h).1⟩)
        · split at h
          · obtain ⟨hnull, htext⟩ := hexpect h
            exact Or.inl ⟨hnull, hskip.trans htext⟩
          · obtain ⟨r', -, rfl⟩ := Option.map_eq_some_iff.mp h
            exact Or.inr (Or.inr ⟨_, rfl⟩)

/-- A string is what stands between two quotes. -/
theorem value_string {fuel depth : Nat} {s x rest : Bytes}
    (h : value fuel depth s = some (.string x, rest)) :
    ∃ start seg, token quote s = some start ∧ scanString start = some (seg, rest) ∧
      x = unquote seg.length seg := by
  rcases value_inv h with ⟨_, _, -, hobject, -⟩ | ⟨_, harray⟩ | hscalar
  · cases hobject
  · cases harray
  · rcases scalar_inv hscalar with ⟨start, seg, hopen, hscan, hx⟩ | ⟨hnull, -⟩ | ⟨_, hbool⟩ | ⟨_, hnum⟩
    · exact ⟨start, seg, hopen, hscan, Value.string.inj hx⟩
    · cases hnull
    · cases hbool
    · cases hnum

/-- What fills a struct is an object or `null`, with nothing after it. -/
theorem unmarshal_inv {s : Bytes} {ms : List (Bytes × Value)} (h : unmarshal s = some ms) :
    ∃ rest, skipSpace rest = [] ∧
      ((∃ inside, token 123 s = some inside ∧ ((ms = [] ∧ token 125 inside = some rest) ∨
          ∃ fuel depth, members fuel depth inside = some (ms, rest))) ∨
        skipSpace s = lit "null" ++ rest) := by
  have hparse : ∀ v, parse s = some v → ∃ fuel depth rest, skipSpace rest = [] ∧
      value fuel depth s = some (v, rest) := by
    intro v hv
    unfold parse at hv
    split at hv
    next v' rest hvalue =>
      split at hv
      next hend =>
        obtain rfl := Option.some.inj hv
        exact ⟨_, _, rest, hend, hvalue⟩
      next => cases hv
    next => cases hv
  unfold unmarshal at h
  split at h
  next ms' hobject =>
    obtain rfl := Option.some.inj h
    obtain ⟨fuel, depth, rest, hend, hvalue⟩ := hparse _ hobject
    refine ⟨rest, hend, Or.inl ?_⟩
    rcases value_inv hvalue with ⟨inside, ms, hopen, hms, hscan⟩ | ⟨_, harray⟩ | hscalar
    · obtain rfl := Value.object.inj hms
      exact ⟨inside, hopen, hscan⟩
    · cases harray
    · rcases scalar_inv hscalar with ⟨_, _, -, -, hx⟩ | ⟨hnull, -⟩ | ⟨_, hbool⟩ | ⟨_, hnum⟩
      · cases hx
      · cases hnull
      · cases hbool
      · cases hnum
  next hnull =>
    obtain ⟨fuel, depth, rest, hend, hvalue⟩ := hparse _ hnull
    refine ⟨rest, hend, Or.inr ?_⟩
    rcases value_inv hvalue with ⟨_, _, -, hobject, -⟩ | ⟨_, harray⟩ | hscalar
    · cases hobject
    · cases harray
    · rcases scalar_inv hscalar with ⟨_, _, -, -, hx⟩ | ⟨-, htext⟩ | ⟨_, hbool⟩ | ⟨_, hnum⟩
      · cases hx
      · exact htext
      · cases hbool
      · cases hnum
  next => cases h

/-- A member's string is lighter than the text of the members, by its quotes at least. -/
theorem members_light {fuel depth : Nat} {s : Bytes} {r : List (Bytes × Value) × Bytes}
    (h : members fuel depth s = some r) {k x : Bytes} (hmem : (k, .string x) ∈ r.1) :
    asciiCount x + 2 ≤ asciiCount s := by
  induction fuel generalizing s r with
  | zero => simp [members] at h
  | succ fuel ih =>
    obtain ⟨_, start, key, after, v, hfuel, hquote, hbody, hcolon, hval, hnext⟩ := members_inv h
    obtain rfl := Nat.succ.inj hfuel
    have hafter : after <:+ s :=
      ((List.suffix_cons _ _).trans (token_suffix hcolon)).trans
        (((leaves_stringBody _ _ hbody).trans (List.suffix_cons _ _)).trans (token_suffix hquote))
    have hfirst : v.1 = .string x → asciiCount x + 2 ≤ asciiCount s := by
      intro hv
      obtain ⟨start', seg, hopen, hscan, rfl⟩ :=
        value_string (show value fuel depth after = some (.string x, v.2) by rw [← hv]; exact hval)
      obtain ⟨rfl, hseg⟩ := scanString_eq_some_iff.mp hscan
      have htext := asciiCount_suffix ((token_suffix hopen).trans hafter)
      have hweight := asciiCount_unquote_le seg.length hseg
      rw [asciiCount_cons (by decide), asciiCount_append, asciiCount_cons (by decide)] at htext
      omega
    rcases hnext with ⟨rest, ms, hmore, hms, rfl⟩ | ⟨-, rest, hclose, rfl⟩
    · rcases List.mem_cons.mp hmem with heq | hin
      · exact hfirst (Prod.mk.inj heq).2.symm
      · have hlight := ih hms hin
        have hrest := asciiCount_suffix
          ((((List.suffix_cons _ _).trans (token_suffix hmore)).trans
            ((leaves_all fuel).1 depth _ _ hval)).trans hafter)
        omega
    · rw [List.mem_singleton] at hmem
      exact hfirst (Prod.mk.inj hmem).2.symm

/-! ## A string rendered into an object -/

theorem value_quote (fuel depth : Nat) (t : Bytes) :
    value (fuel + 1) depth (quote :: t) = (stringBody t).map (fun r => (.string r.1, r.2)) := by
  have hquote : isSpace quote = false := rfl
  rw [value, token_cons hquote, token_cons hquote, if_neg (by decide), if_neg (by decide)]
  simp only [scalar, skipSpace, List.dropWhile_cons, hquote, Bool.false_eq_true, if_false, if_true]

/-- What is read of a member whose string starts after `t`'s opening quote. -/
theorem members_text_inv {fuel depth : Nat} {key t : Bytes} (hkey : Plain key)
    {r : List (Bytes × Value) × Bytes}
    (h : members fuel depth (quote :: (key ++ quote :: 58 :: quote :: t)) = some r) :
    ∃ fuel' seg rest, scanString t = some (seg, rest) ∧
      ((∃ more ms, token 44 rest = some more ∧ members fuel' depth more = some ms ∧
          r = ((unquote key.length key, .string (unquote seg.length seg)) :: ms.1, ms.2)) ∨
        (token 44 rest = none ∧ ∃ rest', token 125 rest = some rest' ∧
          r = ([(unquote key.length key, .string (unquote seg.length seg))], rest'))) := by
  obtain ⟨fuel', start, read, after, v, -, hquote, hbody, hcolon, hval, hnext⟩ := members_inv h
  rw [token_cons rfl, if_pos rfl] at hquote
  obtain rfl := Option.some.inj hquote
  have hscan := scanString_plain hkey (58 :: quote :: t)
  rw [stringBody, hscan, Option.map_some] at hbody
  obtain rfl := Option.some.inj hbody
  rw [token_cons rfl, if_pos rfl] at hcolon
  obtain rfl := Option.some.inj hcolon
  have hstring : ∃ seg rest, scanString t = some (seg, rest) ∧
      v = (.string (unquote seg.length seg), rest) := by
    cases fuel' with
    | zero => simp [value] at hval
    | succ fuel' =>
      rw [value_quote] at hval
      obtain ⟨r', hr', rfl⟩ := Option.map_eq_some_iff.mp hval
      obtain ⟨⟨seg, rest⟩, hseg, rfl⟩ := Option.map_eq_some_iff.mp hr'
      exact ⟨seg, rest, hseg, rfl⟩
  obtain ⟨seg, rest, hseg, rfl⟩ := hstring
  exact ⟨fuel', seg, rest, hseg, hnext⟩

/-- A member whose string closes where it should, with others after it. -/
theorem members_body_inv {fuel depth : Nat} {key x more : Bytes} (hkey : Plain key) (hx : Body x)
    {r : List (Bytes × Value) × Bytes}
    (h : members fuel depth (quote :: (key ++ quote :: 58 :: quote :: (x ++ quote :: 44 :: more))) =
      some r) :
    ∃ fuel' ms, members fuel' depth more = some ms ∧
      r = ((unquote key.length key, .string (unquote x.length x)) :: ms.1, ms.2) := by
  obtain ⟨fuel', seg, rest, hscan, hnext⟩ := members_text_inv hkey h
  rw [scanString_body hx] at hscan
  obtain ⟨rfl, rfl⟩ := Prod.mk.inj (Option.some.inj hscan)
  rw [token_cons rfl, if_pos rfl] at hnext
  rcases hnext with ⟨_, ms, hmore, hms, rfl⟩ | ⟨hnone, -⟩
  · obtain rfl := Option.some.inj hmore
    exact ⟨fuel', ms, hms, rfl⟩
  · cases hnone

theorem members_body {fuel depth : Nat} {key x more : Bytes} (hkey : Plain key) (hx : Body x)
    {ms : List (Bytes × Value) × Bytes} (h : members fuel depth more = some ms) :
    members (fuel + 1) depth
      (quote :: (key ++ quote :: 58 :: quote :: (x ++ quote :: 44 :: more))) =
        some ((unquote key.length key, .string (unquote x.length x)) :: ms.1, ms.2) := by
  cases fuel with
  | zero => simp [members] at h
  | succ fuel =>
    rw [members, token_cons rfl, if_pos rfl]
    simp only [Option.bind_some, stringBody, scanString_plain hkey, Option.map_some]
    rw [token_cons rfl, if_pos rfl, Option.bind_some, value_quote, stringBody, scanString_body hx]
    simp only [Option.map_some, Option.bind_some]
    rw [token_cons rfl, if_pos rfl]
    simp only [h, Option.map_some]

theorem members_close {fuel depth : Nat} {key x : Bytes} (hkey : Plain key) (hx : Body x) :
    members (fuel + 2) depth (quote :: (key ++ quote :: 58 :: quote :: (x ++ [quote, 125]))) =
      some ([(unquote key.length key, .string (unquote x.length x))], []) := by
  rw [members, token_cons rfl, if_pos rfl]
  simp only [Option.bind_some, stringBody, scanString_plain hkey, Option.map_some]
  rw [token_cons rfl, if_pos rfl, Option.bind_some, value_quote, stringBody, scanString_body hx]
  simp only [Option.map_some, Option.bind_some]
  rw [token_cons rfl, if_neg (by decide), token_cons rfl, if_pos rfl]
  rfl

/-- An object whose first member starts right away. -/
theorem unmarshal_object_inv {t : Bytes} {ms : List (Bytes × Value)}
    (h : unmarshal (123 :: quote :: t) = some ms) :
    ∃ fuel depth rest, members fuel depth (quote :: t) = some (ms, rest) ∧ skipSpace rest = [] := by
  obtain ⟨rest, hend, ⟨inside, hopen, hscan⟩ | hnull⟩ := unmarshal_inv h
  · rw [token_cons rfl, if_pos rfl] at hopen
    obtain rfl := Option.some.inj hopen
    rcases hscan with ⟨-, hclose⟩ | ⟨fuel, depth, hmembers⟩
    · rw [token_cons rfl, if_neg (by decide)] at hclose
      cases hclose
    · exact ⟨fuel, depth, rest, hmembers, hend⟩
  · cases (List.cons.inj hnull).1

theorem unmarshal_of_members {fuel : Nat} {t rest : Bytes} {ms : List (Bytes × Value)}
    (h : members fuel 9999 (quote :: t) = some (ms, rest)) (hend : skipSpace rest = []) :
    unmarshal (123 :: quote :: t) = some ms := by
  have hvalue : value (fuel + 1) maxNestingDepth (123 :: quote :: t) =
      some (.object ms, rest) := by
    rw [value, token_cons rfl, if_pos rfl]
    show bracketed 125 .object (members fuel) (9999 + 1) (quote :: t) = _
    have hopen : token 125 (quote :: t) = none := by rw [token_cons rfl, if_neg (by decide)]
    simp only [bracketed, hopen, h, Option.map_some]
  rw [unmarshal, parse_of_value hvalue hend]

/-- The closing quote that was rendered, one before it, or one after it. -/
theorem cut_string {s t seg rest : Bytes} (h : s ++ quote :: t = seg ++ quote :: rest) :
    (seg = s ∧ rest = t) ∨ (∃ more, s = seg ++ quote :: more ∧ rest = more ++ quote :: t) ∨
      ∃ more, seg = s ++ quote :: more ∧ t = more ++ quote :: rest := by
  rcases List.append_eq_append_iff.mp h with ⟨mid, hseg, hmid⟩ | ⟨mid, hs, hmid⟩
  · cases mid with
    | nil =>
      rw [List.append_nil] at hseg
      exact Or.inl ⟨hseg, (List.cons.inj hmid).2.symm⟩
    | cons c more =>
      obtain ⟨rfl, ht⟩ := List.cons.inj hmid
      exact Or.inr (Or.inr ⟨more, hseg, ht⟩)
  · cases mid with
    | nil =>
      rw [List.append_nil] at hs
      exact Or.inl ⟨hs.symm, (List.cons.inj hmid).2⟩
    | cons c more =>
      obtain ⟨rfl, hrest⟩ := List.cons.inj hmid
      exact Or.inr (Or.inl ⟨more, hs, hrest⟩)

/-- A string that is rendered as it is into the last member of an object is among the strings
that are read only if it is read as such: all others are lighter. -/
theorem lastText_read {fuel depth : Nat} {key s : Bytes} (hkey : Plain key)
    {r : List (Bytes × Value) × Bytes}
    (h : members fuel depth (quote :: (key ++ quote :: 58 :: quote :: (s ++ [quote, 125]))) = some r)
    {k : Bytes} (hmem : (k, .string s) ∈ r.1) : Body s ∧ unquote s.length s = s := by
  obtain ⟨fuel', seg, rest, hscan, hnext⟩ := members_text_inv hkey h
  obtain ⟨hcut, hseg⟩ := scanString_eq_some_iff.mp hscan
  have hlight := asciiCount_unquote_le seg.length hseg
  rcases cut_string hcut with ⟨rfl, rfl⟩ | ⟨more, rfl, rfl⟩ | ⟨more, -, htail⟩
  · refine ⟨hseg, ?_⟩
    rw [token_cons rfl, if_neg (by decide)] at hnext
    rcases hnext with ⟨_, _, hmore, -⟩ | ⟨-, _, -, rfl⟩
    · cases hmore
    · rw [List.mem_singleton] at hmem
      exact (Value.string.inj (Prod.mk.inj hmem).2).symm
  · -- closed early: the string that was read first, and all after it, are lighter
    exfalso
    have hself : asciiCount (seg ++ quote :: more) = asciiCount seg + asciiCount more + 1 := by
      rw [asciiCount_append, asciiCount_cons (by decide)]
      omega
    have hfirst : seg ++ quote :: more ≠ unquote seg.length seg := by
      intro heq
      rw [heq] at hself
      omega
    rcases hnext with ⟨rest, ms, hmore, hms, rfl⟩ | ⟨-, _, -, rfl⟩
    · rcases List.mem_cons.mp hmem with heq | hin
      · exact hfirst (Value.string.inj (Prod.mk.inj heq).2)
      · have hrest := asciiCount_suffix ((List.suffix_cons _ _).trans (token_suffix hmore))
        have hlater := members_light hms hin
        rw [asciiCount_append, asciiCount_cons (by decide), asciiCount_cons (by decide)] at hrest
        have hempty : asciiCount [] = 0 := rfl
        omega
    · rw [List.mem_singleton] at hmem
      exact hfirst (Value.string.inj (Prod.mk.inj hmem).2)
  · have hquote : quote ∈ [125] := by
      rw [htail]
      exact List.mem_append_right _ List.mem_cons_self
    exact absurd hquote (by decide)

/-! ## Strings whose quotes alone are escaped -/

/-- Every quote stands right after a backslash. -/
def Guarded (s : Bytes) : Prop :=
  ∀ front rest, s = front ++ quote :: rest → ∃ front', front = front' ++ [backslash]

theorem guarded_nil : Guarded [] := by
  intro front rest h
  cases front <;> cases h

theorem Guarded.cons {c : UInt8} {s : Bytes} (hc : c ≠ quote) (h : Guarded s) :
    Guarded (c :: s) := by
  intro front rest heq
  cases front with
  | nil => exact absurd (List.cons.inj heq).1 hc
  | cons c' front =>
    obtain ⟨rfl, hs⟩ := List.cons.inj heq
    obtain ⟨front', rfl⟩ := h front rest hs
    exact ⟨c :: front', rfl⟩

theorem Guarded.escape {s : Bytes} (h : Guarded s) (e : UInt8) : Guarded (backslash :: e :: s) := by
  intro front rest heq
  cases front with
  | nil => cases (List.cons.inj heq).1
  | cons c front =>
    obtain ⟨rfl, htail⟩ := List.cons.inj heq
    cases front with
    | nil => exact ⟨[], rfl⟩
    | cons c' front =>
      obtain ⟨rfl, hs⟩ := List.cons.inj htail
      obtain ⟨front', rfl⟩ := h front rest hs
      exact ⟨backslash :: e :: front', rfl⟩

theorem Body.guarded {s : Bytes} (h : Body s) : Guarded s := by
  induction h with
  | nil => exact guarded_nil
  | char hquote _ _ _ ih => exact ih.cons hquote
  | escape _ _ ih => exact ih.escape _
  | unicode hhex _ ih =>
    have hdigits := List.all_eq_true.mp hhex
    simp only [List.forall_mem_cons] at hdigits
    obtain ⟨d1, d2, d3, d4, -⟩ := hdigits
    exact ((((ih.cons (hexDigit_graphic d4).2.2.1).cons (hexDigit_graphic d3).2.2.1).cons
      (hexDigit_graphic d2).2.2.1).cons (hexDigit_graphic d1).2.2.1).escape 117

theorem guarded_escapeQuotes (s : Bytes) : Guarded (escapeQuotes s) := by
  induction s with
  | nil => exact guarded_nil
  | cons c s ih =>
    rw [show escapeQuotes (c :: s) =
      (if c = quote then [backslash, quote] else [c]) ++ escapeQuotes s from rfl]
    split
    · exact ih.escape quote
    next hquote => exact ih.cons hquote

/-- What follows a byte that guards nothing is guarded as well. -/
theorem Guarded.after {s t : Bytes} {c : UInt8} (h : Guarded (s ++ c :: t)) (hc : c ≠ backslash) :
    Guarded t := by
  intro front rest heq
  obtain ⟨front', hfront⟩ := h (s ++ c :: front) rest (by rw [heq]; simp)
  rcases List.eq_nil_or_concat front with rfl | ⟨init, last, rfl⟩
  · exact absurd (List.append_inj_right' hfront rfl) (by simpa using hc)
  · refine ⟨init, ?_⟩
    rw [List.concat_eq_append] at hfront ⊢
    have hends : (s ++ c :: init) ++ [last] = front' ++ [backslash] := by simpa using hfront
    rw [List.append_inj_right' hends rfl]

theorem token_split {b : UInt8} {s rest : Bytes} (h : token b s = some rest) :
    ∃ blank, s = blank ++ b :: rest ∧ ∀ c ∈ blank, isSpace c = true := by
  unfold token at h
  split at h
  next => cases h
  next c tail hskip =>
    split at h
    next hc =>
      obtain rfl := Option.some.inj h
      obtain rfl := hc
      refine ⟨s.takeWhile isSpace, ?_, fun c hc => List.mem_takeWhile_imp hc⟩
      rw [← hskip]
      exact (List.takeWhile_append_dropWhile).symm
    next => cases h

theorem notMem_blank {b : UInt8} (hb : isSpace b = false) {blank : Bytes}
    (h : ∀ c ∈ blank, isSpace c = true) : b ∉ blank := by
  intro hmem
  rw [h b hmem] at hb
  cases hb

theorem mem_skipSpace {s : Bytes} (h : quote ∈ s) : quote ∈ skipSpace s := by
  have hsplit : s.takeWhile isSpace ++ skipSpace s = s := List.takeWhile_append_dropWhile
  rw [← hsplit] at h
  exact (List.mem_append.mp h).resolve_left
    (notMem_blank rfl (fun c hc => List.mem_takeWhile_imp hc))

/-- A quote that opens a key right after a token is the one that was rendered after `m`: no quote
of `m` stands right after a token or a blank. -/
theorem Guarded.opens {b : UInt8} (hquote : b ≠ quote) (hbackslash : b ≠ backslash)
    {m t inside start : Bytes} (h : Guarded m) (hopen : token b (m ++ quote :: t) = some inside)
    (hstart : token quote inside = some start) : start = t := by
  obtain ⟨blank, hs, hblank⟩ := token_split hopen
  obtain ⟨blank', rfl, hblank'⟩ := token_split hstart
  have hnot : ∀ x, isSpace x = false → x ≠ b → x ∉ blank ++ b :: blank' := by
    intro x hx hne hmem
    rcases List.mem_append.mp hmem with hin | hin
    · exact notMem_blank hx hblank hin
    · rcases List.mem_cons.mp hin with rfl | hin
      · exact hne rfl
      · exact notMem_blank hx hblank' hin
  have hcut : m ++ quote :: t = (blank ++ b :: blank') ++ quote :: start := by
    rw [hs]
    simp
  rcases cut_string hcut with ⟨-, heq⟩ | ⟨more, hm, -⟩ | ⟨more, hover, -⟩
  · exact heq
  · obtain ⟨front', hfront⟩ := h _ _ hm
    refine absurd ?_ (hnot backslash rfl (Ne.symm hbackslash))
    rw [hfront]
    exact List.mem_append_right _ (List.mem_singleton.mpr rfl)
  · refine absurd ?_ (hnot quote rfl (Ne.symm hquote))
    rw [hover]
    exact List.mem_append_right _ List.mem_cons_self

/-- After an opening quote, not a key with its colon. -/
def NoKey (t : Bytes) : Prop := ∀ key, stringBody t = some key → token 58 key.2 = none

theorem Guarded.no_members {b : UInt8} (hquote : b ≠ quote) (hbackslash : b ≠ backslash)
    {m t inside : Bytes} (h : Guarded m) (ht : NoKey t)
    (hopen : token b (m ++ quote :: t) = some inside) (fuel depth : Nat) :
    members fuel depth inside = none := by
  rw [Option.eq_none_iff_forall_ne_some]
  intro r hr
  obtain ⟨_, start, key, after, v, -, hstart, hbody, hcolon, -⟩ := members_inv hr
  obtain rfl := h.opens hquote hbackslash hopen hstart
  rw [ht key hbody] at hcolon
  cases hcolon

theorem mem_of_token {b : UInt8} (hb : b ≠ quote) {s rest : Bytes} (h : token b s = some rest)
    (hmem : quote ∈ s) : quote ∈ rest := by
  obtain ⟨blank, rfl, hblank⟩ := token_split h
  rcases List.mem_append.mp hmem with hin | hin
  · exact absurd hin (notMem_blank rfl hblank)
  · exact (List.mem_cons.mp hin).resolve_left (Ne.symm hb)

/-- The end of a rendered object, cut off inside of a string, is no object. -/
theorem Guarded.unmarshal {m t : Bytes} (h : Guarded m) (ht : NoKey t) :
    unmarshal (m ++ quote :: t) = none := by
  rw [Option.eq_none_iff_forall_ne_some]
  intro ms hms
  have hmem : quote ∈ m ++ quote :: t := List.mem_append_right _ List.mem_cons_self
  obtain ⟨rest, hend, ⟨inside, hopen, ⟨-, hclose⟩ | ⟨fuel, depth, hmembers⟩⟩ | hnull⟩ :=
    unmarshal_inv hms
  · exact List.ne_nil_of_mem (mem_skipSpace
      (mem_of_token (by decide) hclose (mem_of_token (by decide) hopen hmem))) hend
  · rw [h.no_members (by decide) (by decide) ht hopen] at hmembers
    cases hmembers
  · have hskip := mem_skipSpace hmem
    rw [hnull] at hskip
    rcases List.mem_append.mp hskip with hin | hin
    · exact absurd hin (by decide)
    · exact List.ne_nil_of_mem (mem_skipSpace hin) hend

/-- A member whose quotes are guarded is read only if its string closes where it should: closed
early, nothing can follow, and closed late, what follows is not one of `t`'s strings. -/
theorem Guarded.body {m t key : Bytes} (h : Guarded m) (hkey : Plain key) (ht : NoKey t)
    (hlate : ∀ more rest, Guarded more → t = more ++ quote :: rest →
      token 44 rest = none ∧ token 125 rest = none) {fuel depth : Nat}
    {r : List (Bytes × Value) × Bytes}
    (hr : members fuel depth (quote :: (key ++ quote :: 58 :: quote :: (m ++ quote :: t))) = some r)
    (hend : skipSpace r.2 = []) : Body m := by
  obtain ⟨fuel', seg, rest, hscan, hnext⟩ := members_text_inv hkey hr
  obtain ⟨hcut, hseg⟩ := scanString_eq_some_iff.mp hscan
  rcases cut_string hcut with ⟨rfl, -⟩ | ⟨more, rfl, rfl⟩ | ⟨more, rfl, hover⟩
  · exact hseg
  · have hmore : Guarded more := h.after (by decide)
    rcases hnext with ⟨inside, ms, hopen, hms, -⟩ | ⟨-, rest', hclose, rfl⟩
    · rw [hmore.no_members (by decide) (by decide) ht hopen] at hms
      cases hms
    · exact absurd hend (List.ne_nil_of_mem (mem_skipSpace
        (mem_of_token (by decide) hclose (List.mem_append_right _ List.mem_cons_self))))
  · obtain ⟨hcomma, hbrace⟩ := hlate more rest (hseg.guarded.after (by decide)) hover
    rcases hnext with ⟨_, _, hopen, -⟩ | ⟨-, _, hclose, -⟩
    · rw [hcomma] at hopen
      cases hopen
    · rw [hbrace] at hclose
      cases hclose

/-! ## Filling a field -/

/-- A field of type string holds a string of some member, if it holds anything. -/
theorem stringField_mem {names : List Bytes} {ms : List (Bytes × Value)} {name x : Bytes}
    (h : stringField names ms name = some x) : x = [] ∨ ∃ k, (k, .string x) ∈ ms := by
  have hfold : ∀ (ms : List (Bytes × Value)) (zero : Bytes),
      field asString zero names ms name = some x → x = zero ∨ ∃ k, (k, .string x) ∈ ms := by
    intro ms
    induction ms with
    | nil => exact fun zero h => Or.inl (Option.some.inj h).symm
    | cons m rest ih =>
      intro zero h
      rw [field, List.foldlM_cons] at h
      obtain ⟨current, hcurrent, hrest⟩ := Option.bind_eq_some_iff.mp h
      rcases ih current hrest with rfl | ⟨k, hk⟩
      · obtain ⟨k, v⟩ := m
        dsimp only at hcurrent
        split at hcurrent
        · cases v with
          | null => exact Or.inl (Option.some.inj hcurrent).symm
          | string y =>
            obtain rfl := Option.some.inj hcurrent
            exact Or.inr ⟨k, List.mem_cons_self⟩
          | bool b => cases hcurrent
          | number n => cases hcurrent
          | array items => cases hcurrent
          | object members => cases hcurrent
        · exact Or.inl (Option.some.inj hcurrent).symm
      · exact Or.inr ⟨k, List.mem_cons_of_mem m hk⟩
  exact hfold ms [] h

/-- Members that do not select a field can be left out. -/
theorem field_append_absent {α : Type} (read : Value → Option α) (zero : α) {names : List Bytes}
    {name : Bytes} {front : List (Bytes × Value)}
    (h : ∀ m ∈ front, fieldOf names m.1 ≠ some name) (ms : List (Bytes × Value)) :
    field read zero names (front ++ ms) name = field read zero names ms name := by
  have habsent := field_absent read zero h
  rw [field] at habsent ⊢
  rw [List.foldlM_append, habsent]
  rfl

end VRGram.Lib.Json
