import VRGram.Lib.JsonDoc

/-!
# More text behind a value

A value other than a number ends where it ends: with more text behind it, the same value is read.
Therefore a document that was cut short is not read as anything.
-/
namespace VRGram.Lib.Json

open VRGram.Lib.Strings VRGram.Lib.Utf8

set_option autoImplicit false

/-! ## Tokens and scalars -/

theorem skipSpace_append {s : Bytes} (h : skipSpace s ≠ []) (more : Bytes) :
    skipSpace (s ++ more) = skipSpace s ++ more := by
  have hne : (s.dropWhile isSpace).isEmpty = false := by
    rw [List.isEmpty_eq_false_iff]
    exact h
  rw [skipSpace, List.dropWhile_append, hne]
  rfl

theorem token_append {b : UInt8} {s rest : Bytes} (h : token b s = some rest) (more : Bytes) :
    token b (s ++ more) = some (rest ++ more) := by
  unfold token at h ⊢
  split at h
  next => cases h
  next c tail hskip =>
    rw [skipSpace_append (by rw [hskip]; exact List.cons_ne_nil _ _), hskip]
    dsimp only [List.cons_append]
    split at h
    next hc =>
      obtain rfl := Option.some.inj h
      rw [if_pos hc]
    next => cases h

/-- A token that is not there does not come up, once there is another. -/
theorem token_append_none {b : UInt8} {s : Bytes} (hs : skipSpace s ≠ []) (h : token b s = none)
    (more : Bytes) : token b (s ++ more) = none := by
  unfold token at h ⊢
  rw [skipSpace_append hs]
  obtain ⟨c, tail, hskip⟩ := List.exists_cons_of_ne_nil hs
  rw [hskip] at h ⊢
  dsimp only [List.cons_append] at h ⊢
  split at h
  · cases h
  next hc => rw [if_neg hc]

theorem skipSpace_ne_nil_of_token {b : UInt8} {s rest : Bytes} (h : token b s = some rest) :
    skipSpace s ≠ [] := by
  intro hnil
  simp [token, hnil] at h

theorem stringBody_append {s : Bytes} {r : Bytes × Bytes} (h : stringBody s = some r)
    (more : Bytes) :
    stringBody (s ++ more) = some (r.1, r.2 ++ more) := by
  obtain ⟨⟨seg, rest⟩, hscan, rfl⟩ := Option.map_eq_some_iff.mp h
  obtain ⟨rfl, hbody⟩ := scanString_eq_some_iff.mp hscan
  rw [List.append_assoc, List.cons_append, stringBody, scanString_body hbody]
  rfl

theorem expect_append {word : Bytes} {v : Value} {s : Bytes} {r : Value × Bytes}
    (h : expect word v s = some r) (more : Bytes) :
    expect word v (s ++ more) = some (r.1, r.2 ++ more) := by
  unfold expect at h ⊢
  split at h
  next hp =>
    obtain ⟨tail, rfl⟩ := List.isPrefixOf_iff_prefix.mp hp
    obtain rfl := Option.some.inj h
    rw [if_pos (List.isPrefixOf_iff_prefix.mpr ⟨tail ++ more, by rw [List.append_assoc]⟩)]
    simp
  next => cases h

theorem digits_append {s : Bytes} {r : Bytes × Bytes} (h : digits s = some r) (hr : r.2 ≠ [])
    (more : Bytes) : digits (s ++ more) = some (r.1, r.2 ++ more) := by
  have hsplit : s.takeWhile isDigit ++ s.dropWhile isDigit = s := List.takeWhile_append_dropWhile
  unfold digits at h ⊢
  rw [List.span_eq_takeWhile_dropWhile] at h ⊢
  cases htake : s.takeWhile isDigit with
  | nil =>
    rw [htake] at h
    cases h
  | cons c run =>
    rw [htake] at h
    obtain rfl := Option.some.inj h
    have hdrop : (s.dropWhile isDigit).isEmpty = false := by
      rw [List.isEmpty_eq_false_iff]
      exact hr
    have hrest : s.dropWhile isDigit ≠ [] := hr
    have hlen : (s.takeWhile isDigit).length ≠ s.length := by
      have hl := congrArg List.length hsplit
      have hpos := List.length_pos_iff.mpr hrest
      rw [List.length_append] at hl
      omega
    rw [List.takeWhile_append, if_neg hlen, List.dropWhile_append, hdrop, htake]
    rfl

private theorem integerPart_append {s : Bytes} {r : Bytes × Bytes} (h : integerPart s = some r)
    (hr : r.2 ≠ []) (more : Bytes) : integerPart (s ++ more) = some (r.1, r.2 ++ more) := by
  have hdigits : ∀ {c : UInt8} {t : Bytes}, c ≠ 48 → integerPart (c :: t) = digits (c :: t) := by
    intro c t hc
    rw [integerPart]
    intro tail heq
    exact hc (List.cons.inj heq).1
  cases s with
  | nil =>
    have hnone : integerPart [] = none := rfl
    rw [hnone] at h
    cases h
  | cons c t =>
    by_cases hc : c = 48
    · subst hc
      obtain rfl := Option.some.inj h
      rfl
    · rw [hdigits hc] at h
      rw [List.cons_append, hdigits hc]
      exact digits_append h hr more

private theorem fractionPart_append {s : Bytes} {r : Bytes × Bytes} (h : fractionPart s = some r)
    (hr : r.2 ≠ []) (more : Bytes) : fractionPart (s ++ more) = some (r.1, r.2 ++ more) := by
  unfold fractionPart at h
  split at h
  next rest =>
    obtain ⟨r', hr', rfl⟩ := Option.map_eq_some_iff.mp h
    rw [List.cons_append, fractionPart, digits_append hr' hr more]
    rfl
  next s hne =>
    obtain rfl := Option.some.inj h
    obtain ⟨c, tail, rfl⟩ := List.exists_cons_of_ne_nil hr
    rw [List.cons_append, fractionPart]
    intro tail' heq
    exact hne tail (by rw [(List.cons.inj heq).1])

private theorem exponentPart_append {s : Bytes} {r : Bytes × Bytes} (h : exponentPart s = some r)
    (hr : r.2 ≠ []) (more : Bytes) : exponentPart (s ++ more) = some (r.1, r.2 ++ more) := by
  unfold exponentPart at h
  split at h
  next =>
    obtain rfl := Option.some.inj h
    exact absurd rfl hr
  next e rest =>
    rw [List.cons_append, exponentPart.eq_def]
    dsimp only
    split at h
    next he =>
      rw [if_pos he]
      cases rest with
      | nil => cases h
      | cons sign tail =>
        dsimp only [List.cons_append] at h ⊢
        split at h
        next hsign =>
          obtain ⟨r', hr', rfl⟩ := Option.map_eq_some_iff.mp h
          rw [if_pos hsign, digits_append hr' hr more]
          rfl
        next hsign =>
          obtain ⟨r', hr', rfl⟩ := Option.map_eq_some_iff.mp h
          have hdigits := digits_append hr' hr more
          rw [List.cons_append] at hdigits
          rw [if_neg hsign, hdigits]
          rfl
    next he =>
      obtain rfl := Option.some.inj h
      rw [if_neg he]
      rfl

theorem unsignedNumber_append {s : Bytes} {r : Bytes × Bytes} (h : unsignedNumber s = some r)
    (hr : r.2 ≠ []) (more : Bytes) : unsignedNumber (s ++ more) = some (r.1, r.2 ++ more) := by
  simp only [unsignedNumber, Option.bind_eq_bind, Option.bind_eq_some_iff] at h
  obtain ⟨i, hi, f, hf, e, he, hres⟩ := h
  obtain rfl := Option.some.inj hres
  have hf' : f.2 ≠ [] := by
    have hle := exponentPart_length he
    have hpos : 0 < e.2.length := List.length_pos_iff.mpr hr
    exact List.length_pos_iff.mp (by omega)
  have hi' : i.2 ≠ [] := by
    have hle := fractionPart_length hf
    have hfpos := List.length_pos_iff.mpr hf'
    exact List.length_pos_iff.mp (by omega)
  simp only [unsignedNumber, integerPart_append hi hi' more, fractionPart_append hf hf' more,
    exponentPart_append he hr more, Option.bind_eq_bind, Option.bind_some]

private theorem numberLiteral_append {s : Bytes} {r : Bytes × Bytes} (h : numberLiteral s = some r)
    (hr : r.2 ≠ []) (more : Bytes) : numberLiteral (s ++ more) = some (r.1, r.2 ++ more) := by
  have hunsigned : ∀ {c : UInt8} {t : Bytes}, c ≠ 45 →
      numberLiteral (c :: t) = unsignedNumber (c :: t) := by
    intro c t hc
    rw [numberLiteral]
    intro tail heq
    exact hc (List.cons.inj heq).1
  cases s with
  | nil =>
    have hnone : numberLiteral [] = none := rfl
    rw [hnone] at h
    cases h
  | cons c t =>
    by_cases hc : c = 45
    · subst hc
      obtain ⟨r', hr', rfl⟩ := Option.map_eq_some_iff.mp h
      rw [List.cons_append, numberLiteral, unsignedNumber_append hr' hr more]
      rfl
    · rw [hunsigned hc] at h
      rw [List.cons_append, hunsigned hc]
      exact unsignedNumber_append h hr more

/-- A value ends before the end of the text, or does not need more text to end. -/
def Ends (r : Value × Bytes) : Prop := r.2 ≠ [] ∨ ∀ literal, r.1 ≠ .number literal

private theorem scalar_append {s : Bytes} {r : Value × Bytes} (h : scalar s = some r) (hr : Ends r)
    (more : Bytes) : scalar (s ++ more) = some (r.1, r.2 ++ more) := by
  unfold scalar at h ⊢
  split at h
  next => cases h
  next c rest hskip =>
    rw [skipSpace_append (by rw [hskip]; exact List.cons_ne_nil _ _), hskip]
    dsimp only [List.cons_append]
    split_ifs at h ⊢ with hquote ht hf hn
    · obtain ⟨body, hbody, rfl⟩ := Option.map_eq_some_iff.mp h
      rw [stringBody_append hbody more]
      rfl
    · exact expect_append h more
    · exact expect_append h more
    · exact expect_append h more
    · obtain ⟨number, hnumber, rfl⟩ := Option.map_eq_some_iff.mp h
      have hmore := numberLiteral_append hnumber (hr.resolve_right (fun h => h _ rfl)) more
      rw [List.cons_append] at hmore
      rw [hmore]
      rfl

/-! ## Values -/

structure Extends (F : Nat) : Prop where
  value : ∀ depth s r more, value F depth s = some r → Ends r →
    value F depth (s ++ more) = some (r.1, r.2 ++ more)
  elements : ∀ depth s r more, elements F depth s = some r →
    elements F depth (s ++ more) = some (r.1, r.2 ++ more)
  members : ∀ depth s r more, members F depth s = some r →
    members F depth (s ++ more) = some (r.1, r.2 ++ more)

/-- What follows an opening bracket: items begin with some token, so none of them is mistaken. -/
theorem bracketed_append {α : Type} {close : UInt8} {wrap : List α → Value}
    {scan : Nat → Bytes → Option (List α × Bytes)} {depth : Nat} {s more : Bytes}
    {r : Value × Bytes} (h : bracketed close wrap scan depth s = some r)
    (hscan : ∀ d q, scan d s = some q →
      skipSpace s ≠ [] ∧ scan d (s ++ more) = some (q.1, q.2 ++ more)) :
    bracketed close wrap scan depth (s ++ more) = some (r.1, r.2 ++ more) := by
  cases depth with
  | zero => cases h
  | succ depth =>
    simp only [bracketed] at h ⊢
    cases hclose : token close s with
    | some rest =>
      rw [hclose] at h
      obtain rfl := Option.some.inj h
      rw [token_append hclose]
    | none =>
      rw [hclose] at h
      obtain ⟨q, hq, rfl⟩ := Option.map_eq_some_iff.mp h
      obtain ⟨hne, hmore⟩ := hscan depth q hq
      rw [token_append_none hne hclose]
      dsimp only
      rw [hmore]
      rfl

theorem skipSpace_ne_nil_of_value {F depth : Nat} {s : Bytes} {r : Value × Bytes}
    (h : value F depth s = some r) : skipSpace s ≠ [] := by
  intro hnil
  cases F with
  | zero => simp [value] at h
  | succ F => simp [value, token, scalar, hnil] at h

private theorem extends_value {F : Nat} (ih : Extends F) (depth : Nat) (s : Bytes)
    (r : Value × Bytes) (more : Bytes) (h : value (F + 1) depth s = some r) (hr : Ends r) :
    value (F + 1) depth (s ++ more) = some (r.1, r.2 ++ more) := by
  have hs := skipSpace_ne_nil_of_value h
  rw [value] at h ⊢
  cases hbrace : token 123 s with
  | some inside =>
    rw [hbrace] at h
    rw [token_append hbrace]
    refine bracketed_append h (fun d q hq => ⟨?_, ih.members d _ q more hq⟩)
    obtain ⟨_, _, _, _, _, -, hquote, -⟩ := members_inv hq
    exact skipSpace_ne_nil_of_token hquote
  | none =>
    rw [hbrace] at h
    rw [token_append_none hs hbrace]
    cases hbracket : token 91 s with
    | some inside =>
      rw [hbracket] at h
      dsimp only
      rw [token_append hbracket]
      refine bracketed_append h (fun d q hq => ⟨?_, ih.elements d _ q more hq⟩)
      cases F with
      | zero => simp [elements] at hq
      | succ F =>
        rw [elements, Option.bind_eq_some_iff] at hq
        obtain ⟨v, hv, -⟩ := hq
        exact skipSpace_ne_nil_of_value hv
    | none =>
      rw [hbracket] at h
      dsimp only
      rw [token_append_none hs hbracket]
      exact scalar_append h hr more

theorem ends_of_token {b : UInt8} {v : Value × Bytes} {rest : Bytes}
    (h : token b v.2 = some rest) : Ends v := by
  refine Or.inl (fun hnil => ?_)
  rw [hnil] at h
  cases h

private theorem extends_elements {F : Nat} (ih : Extends F) (depth : Nat) (s : Bytes)
    (r : List Value × Bytes) (more : Bytes) (h : elements (F + 1) depth s = some r) :
    elements (F + 1) depth (s ++ more) = some (r.1, r.2 ++ more) := by
  rw [elements, Option.bind_eq_some_iff] at h
  obtain ⟨v, hv, h⟩ := h
  rw [elements]
  cases hcomma : token 44 v.2 with
  | some rest =>
    rw [hcomma] at h
    obtain ⟨vs, hvs, rfl⟩ := Option.map_eq_some_iff.mp h
    rw [ih.value depth s v more hv (ends_of_token hcomma), Option.bind_some, token_append hcomma]
    dsimp only
    rw [ih.elements depth rest vs more hvs]
    rfl
  | none =>
    rw [hcomma] at h
    obtain ⟨rest, hclose, rfl⟩ := Option.map_eq_some_iff.mp h
    rw [ih.value depth s v more hv (ends_of_token hclose), Option.bind_some,
      token_append_none (skipSpace_ne_nil_of_token hclose) hcomma]
    dsimp only
    rw [token_append hclose]
    rfl

private theorem extends_members {F : Nat} (ih : Extends F) (depth : Nat) (s : Bytes)
    (r : List (Bytes × Value) × Bytes) (more : Bytes) (h : members (F + 1) depth s = some r) :
    members (F + 1) depth (s ++ more) = some (r.1, r.2 ++ more) := by
  rw [members, Option.bind_eq_some_iff] at h
  obtain ⟨key, hkey, h⟩ := h
  obtain ⟨start, hquote, hbody⟩ := Option.bind_eq_some_iff.mp hkey
  obtain ⟨v, hv, h⟩ := Option.bind_eq_some_iff.mp h
  obtain ⟨after, hcolon, hvalue⟩ := Option.bind_eq_some_iff.mp hv
  rw [members, token_append hquote, Option.bind_some, stringBody_append hbody, Option.bind_some,
    token_append hcolon, Option.bind_some]
  cases hcomma : token 44 v.2 with
  | some rest =>
    rw [hcomma] at h
    obtain ⟨ms, hms, rfl⟩ := Option.map_eq_some_iff.mp h
    rw [ih.value depth after v more hvalue (ends_of_token hcomma), Option.bind_some,
      token_append hcomma]
    dsimp only
    rw [ih.members depth rest ms more hms]
    rfl
  | none =>
    rw [hcomma] at h
    obtain ⟨rest, hclose, rfl⟩ := Option.map_eq_some_iff.mp h
    rw [ih.value depth after v more hvalue (ends_of_token hclose), Option.bind_some,
      token_append_none (skipSpace_ne_nil_of_token hclose) hcomma]
    dsimp only
    rw [token_append hclose]
    rfl

private theorem extends_all (F : Nat) : Extends F := by
  induction F with
  | zero =>
    constructor <;>
    · intro depth s r more h
      simp [value, elements, members] at h
  | succ F ih => exact ⟨extends_value ih, extends_elements ih, extends_members ih⟩

/-! ## Documents that were cut short -/

/-- An object of which at least the last byte is missing is read as nothing. -/
theorem parse_cut (l : Layout) (ms : List (Bytes × Doc))
    (hdepth : (Doc.object ms).height ≤ maxNestingDepth) (n : Nat) :
    parse (((Doc.object ms).write l 0).dropLast.take n) = none := by
  obtain ⟨F, hF⟩ := (Doc.object ms).read l 0 hdepth (show Stops [] from fun _ h => by cases h)
  rw [List.append_nil] at hF
  obtain ⟨tail, hopen⟩ : ∃ tail, (Doc.object ms).write l 0 = 123 :: tail := by
    cases ms <;> exact ⟨_, by rw [Doc.write]⟩
  rw [List.dropLast_eq_take, List.take_take]
  have hn : min n (((Doc.object ms).write l 0).length - 1) <
      ((Doc.object ms).write l 0).length := by
    rw [hopen, List.length_cons]
    omega
  generalize min n (((Doc.object ms).write l 0).length - 1) = n at hn ⊢
  rw [Option.eq_none_iff_forall_ne_some]
  intro v hv
  unfold parse at hv
  split at hv
  next v' rest hvalue =>
    have hends : Ends (v', rest) := by
      refine Or.inr (fun literal heq => ?_)
      cases n with
      | zero => simp [value, token, scalar, skipSpace] at hvalue
      | succ n =>
        rw [hopen, List.take_succ_cons, value, token_cons rfl, if_pos rfl] at hvalue
        simp only [maxNestingDepth, bracketed] at hvalue
        split at hvalue
        · cases hvalue
          cases heq
        · obtain ⟨q, -, hq⟩ := Option.map_eq_some_iff.mp hvalue
          cases hq
          cases heq
    have hmore := (extends_all _).value _ _ _ (((Doc.object ms).write l 0).drop n) hvalue hends
    rw [List.take_append_drop] at hmore
    have hwhole := value_enough hF (Nat.le_refl _)
    have hboth := value_enough hmore (Nat.le_refl _)
    have hrest := congrArg Prod.snd (Option.some.inj (hwhole.symm.trans hboth))
    have hdrop := congrArg List.length (List.append_eq_nil_iff.mp hrest.symm).2
    rw [List.length_drop, List.length_nil] at hdrop
    omega
  next => cases hv

end VRGram.Lib.Json
