import VRGram.Lib.Json

/-!
# UTF-8 texts

A text is well-formed if it is the encoding of a list of scalar values. The decoder, which
takes one rune after the other, succeeds on these texts and on no others.
-/
namespace VRGram.Lib.Utf8

open VRGram.Lib.Strings VRGram.Lib.Json

set_option autoImplicit false

/-- A code point that is not a surrogate. -/
def Scalar (r : Nat) : Prop := r < 0x110000 ∧ ¬ (0xD800 ≤ r ∧ r < 0xE000)

def encodeRunes (runes : List Nat) : Bytes := runes.flatMap encodeRune

def WellFormed (s : Bytes) : Prop := ∃ runes, (∀ r ∈ runes, Scalar r) ∧ s = encodeRunes runes

/-- The low six bits, which a continuation byte carries. -/
def low (c : UInt8) : Nat := c.toNat % 64

/-- The rune of `n` bytes that starts with `a`. -/
def multiByte (a : UInt8) : Nat → Bytes → Option (Nat × Bytes)
  | 2, b :: t => some (a.toNat % 32 * 64 + low b, t)
  | 3, b :: c :: t => some (a.toNat % 16 * 4096 + low b * 64 + low c, t)
  | 4, b :: c :: d :: t => some (a.toNat % 8 * 262144 + low b * 4096 + low c * 64 + low d, t)
  | _, _ => none

/-- The first rune and what follows it. -/
def nextRune : Bytes → Option (Nat × Bytes)
  | [] => none
  | a :: rest =>
    if a.toNat < 0x80 then some (a.toNat, rest) else multiByte a (runeLength (a :: rest)) rest

/-- The whole text, with as much fuel as it has bytes. -/
def decodeRunes : Nat → Bytes → Option (List Nat)
  | _, [] => some []
  | 0, _ :: _ => none
  | fuel + 1, a :: rest =>
    match nextRune (a :: rest) with
    | none => none
    | some (r, t) => (decodeRunes fuel t).map (r :: ·)

/-! ## One rune -/

theorem inRange_iff {lo hi : Nat} {c : UInt8} :
    inRange lo hi c = true ↔ lo ≤ c.toNat ∧ c.toNat ≤ hi := by
  simp [inRange]

/-- The forms of a multi-byte rune, each with its length. -/
inductive Form (a : UInt8) : Bytes → Nat → Prop
  | two (b : UInt8) (t : Bytes) (ha : 0xC2 ≤ a.toNat ∧ a.toNat ≤ 0xDF)
      (hb : 0x80 ≤ b.toNat ∧ b.toNat ≤ 0xBF) : Form a (b :: t) 2
  | three (b c : UInt8) (t : Bytes) (ha : 0xE0 ≤ a.toNat ∧ a.toNat ≤ 0xEF)
      (hb : 0x80 ≤ b.toNat ∧ b.toNat ≤ 0xBF) (hlo : a.toNat = 0xE0 → 0xA0 ≤ b.toNat)
      (hhi : a.toNat = 0xED → b.toNat ≤ 0x9F) (hc : 0x80 ≤ c.toNat ∧ c.toNat ≤ 0xBF) :
      Form a (b :: c :: t) 3
  | four (b c d : UInt8) (t : Bytes) (ha : 0xF0 ≤ a.toNat ∧ a.toNat ≤ 0xF4)
      (hb : 0x80 ≤ b.toNat ∧ b.toNat ≤ 0xBF) (hlo : a.toNat = 0xF0 → 0x90 ≤ b.toNat)
      (hhi : a.toNat = 0xF4 → b.toNat ≤ 0x8F) (hc : 0x80 ≤ c.toNat ∧ c.toNat ≤ 0xBF)
      (hd : 0x80 ≤ d.toNat ∧ d.toNat ≤ 0xBF) : Form a (b :: c :: d :: t) 4

/-- The bounds of the second byte after two special first bytes. -/
theorem second_iff {a b first last : UInt8} {lo hi : Nat} (hne : first ≠ last) (hlo : 0x80 ≤ lo)
    (hhi : hi ≤ 0xBF) :
    inRange (if a = first then lo else 0x80) (if a = last then hi else 0xBF) b = true ↔
      (0x80 ≤ b.toNat ∧ b.toNat ≤ 0xBF) ∧ (a.toNat = first.toNat → lo ≤ b.toNat) ∧
        (a.toNat = last.toNat → b.toNat ≤ hi) := by
  rw [inRange_iff, UInt8.toNat_inj, UInt8.toNat_inj]
  by_cases hfirst : a = first
  · have hlast : a ≠ last := fun h => hne (hfirst.symm.trans h)
    rw [if_pos hfirst, if_neg hlast]
    exact ⟨fun h => ⟨by omega, fun _ => h.1, fun he => absurd he hlast⟩,
      fun h => ⟨h.2.1 hfirst, h.1.2⟩⟩
  · rw [if_neg hfirst]
    by_cases hlast : a = last
    · rw [if_pos hlast]
      exact ⟨fun h => ⟨by omega, fun he => absurd he hfirst, fun _ => h.2⟩,
        fun h => ⟨h.1.1, h.2.2 hlast⟩⟩
    · rw [if_neg hlast]
      exact ⟨fun h => ⟨h, fun he => absurd he hfirst, fun he => absurd he hlast⟩, fun h => h.1⟩

theorem form_of_runeLength {a : UInt8} {rest : Bytes} (h : runeLength (a :: rest) ≠ 0) :
    Form a rest (runeLength (a :: rest)) := by
  cases rest with
  | nil => exact absurd rfl h
  | cons b rest =>
    by_cases htwo : inRange 0xC2 0xDF a = true
    · by_cases hb : isContinuation b = true
      · have hlen : runeLength (a :: b :: rest) = 2 := by simp [runeLength, htwo, hb]
        rw [hlen]
        exact .two b rest (inRange_iff.mp htwo) (inRange_iff.mp hb)
      · simp [runeLength, htwo, hb] at h
    · cases rest with
      | nil => simp [runeLength, htwo] at h
      | cons c rest =>
        by_cases hthree : inRange 0xE0 0xEF a = true
        · by_cases hbc : (inRange (if a = 0xE0 then 0xA0 else 0x80)
              (if a = 0xED then 0x9F else 0xBF) b && isContinuation c) = true
          · have hlen : runeLength (a :: b :: c :: rest) = 3 := by
              simp only [runeLength, htwo, hthree, hbc]
              rfl
            rw [hlen]
            obtain ⟨hb, hc⟩ := Bool.and_eq_true_iff.mp hbc
            obtain ⟨hb, hlo, hhi⟩ := (second_iff (by decide) (by decide) (by decide)).mp hb
            exact .three b c rest (inRange_iff.mp hthree) hb hlo hhi (inRange_iff.mp hc)
          · simp only [runeLength, htwo, hthree, hbc] at h
            exact absurd rfl h
        · by_cases hfour : inRange 0xF0 0xF4 a = true
          · cases rest with
            | nil =>
              simp only [runeLength, htwo, hthree, hfour] at h
              exact absurd rfl h
            | cons d rest =>
              by_cases hbcd : (inRange (if a = 0xF0 then 0x90 else 0x80)
                  (if a = 0xF4 then 0x8F else 0xBF) b && isContinuation c && isContinuation d) = true
              · have hlen : runeLength (a :: b :: c :: d :: rest) = 4 := by
                  simp only [runeLength, htwo, hthree, hfour, hbcd]
                  rfl
                rw [hlen]
                obtain ⟨hbc, hd⟩ := Bool.and_eq_true_iff.mp hbcd
                obtain ⟨hb, hc⟩ := Bool.and_eq_true_iff.mp hbc
                obtain ⟨hb, hlo, hhi⟩ := (second_iff (by decide) (by decide) (by decide)).mp hb
                exact .four b c d rest (inRange_iff.mp hfour) hb hlo hhi (inRange_iff.mp hc)
                  (inRange_iff.mp hd)
              · simp only [runeLength, htwo, hthree, hfour, hbcd] at h
                exact absurd rfl h
          · simp only [runeLength, htwo, hthree, hfour] at h
            exact absurd rfl h

private theorem runeLength_of_form {a : UInt8} {rest : Bytes} {n : Nat} (h : Form a rest n) :
    runeLength (a :: rest) = n := by
  have hout : ∀ {lo hi : Nat}, a.toNat < lo ∨ hi < a.toNat → inRange lo hi a = false := by
    intro lo hi ha
    rw [← Bool.not_eq_true, inRange_iff]
    omega
  cases h with
  | two b t ha hb =>
    have htwo : inRange 0xC2 0xDF a = true := inRange_iff.mpr ha
    have hcont : isContinuation b = true := inRange_iff.mpr hb
    simp [runeLength, htwo, hcont]
  | three b c t ha hb hlo hhi hc =>
    have htwo : inRange 0xC2 0xDF a = false := hout (by omega)
    have hthree : inRange 0xE0 0xEF a = true := inRange_iff.mpr ha
    have hsecond : inRange (if a = 0xE0 then 0xA0 else 0x80) (if a = 0xED then 0x9F else 0xBF) b =
        true := (second_iff (by decide) (by decide) (by decide)).mpr ⟨hb, hlo, hhi⟩
    have hcont : isContinuation c = true := inRange_iff.mpr hc
    simp only [runeLength, htwo, hthree, hsecond, hcont]
    rfl
  | four b c d t ha hb hlo hhi hc hd =>
    have htwo : inRange 0xC2 0xDF a = false := hout (by omega)
    have hthree : inRange 0xE0 0xEF a = false := hout (by omega)
    have hfour : inRange 0xF0 0xF4 a = true := inRange_iff.mpr ha
    have hsecond : inRange (if a = 0xF0 then 0x90 else 0x80) (if a = 0xF4 then 0x8F else 0xBF) b =
        true := (second_iff (by decide) (by decide) (by decide)).mpr ⟨hb, hlo, hhi⟩
    have hc' : isContinuation c = true := inRange_iff.mpr hc
    have hd' : isContinuation d = true := inRange_iff.mpr hd
    simp only [runeLength, htwo, hthree, hfour, hsecond, hc', hd']
    rfl

theorem encodeRune_two {a b : UInt8} (ha : 0xC2 ≤ a.toNat ∧ a.toNat ≤ 0xDF)
    (hb : 0x80 ≤ b.toNat ∧ b.toNat ≤ 0xBF) :
    Scalar (a.toNat % 32 * 64 + low b) ∧ encodeRune (a.toNat % 32 * 64 + low b) = [a, b] := by
  unfold Scalar low
  refine ⟨by omega, ?_⟩
  rw [encodeRune, if_neg (by omega), if_pos (by omega), octet_eq (a := a) (by omega),
    octet_eq (a := b) (by omega)]

theorem encodeRune_three {a b c : UInt8} (ha : 0xE0 ≤ a.toNat ∧ a.toNat ≤ 0xEF)
    (hb : 0x80 ≤ b.toNat ∧ b.toNat ≤ 0xBF) (hlo : a.toNat = 0xE0 → 0xA0 ≤ b.toNat)
    (hhi : a.toNat = 0xED → b.toNat ≤ 0x9F) (hc : 0x80 ≤ c.toNat ∧ c.toNat ≤ 0xBF) :
    Scalar (a.toNat % 16 * 4096 + low b * 64 + low c) ∧
      encodeRune (a.toNat % 16 * 4096 + low b * 64 + low c) = [a, b, c] := by
  unfold Scalar low
  refine ⟨by omega, ?_⟩
  rw [encodeRune, if_neg (by omega), if_neg (by omega), if_pos (by omega),
    octet_eq (a := a) (by omega), octet_eq (a := b) (by omega), octet_eq (a := c) (by omega)]

theorem encodeRune_four {a b c d : UInt8} (ha : 0xF0 ≤ a.toNat ∧ a.toNat ≤ 0xF4)
    (hb : 0x80 ≤ b.toNat ∧ b.toNat ≤ 0xBF) (hlo : a.toNat = 0xF0 → 0x90 ≤ b.toNat)
    (hhi : a.toNat = 0xF4 → b.toNat ≤ 0x8F) (hc : 0x80 ≤ c.toNat ∧ c.toNat ≤ 0xBF)
    (hd : 0x80 ≤ d.toNat ∧ d.toNat ≤ 0xBF) :
    Scalar (a.toNat % 8 * 262144 + low b * 4096 + low c * 64 + low d) ∧
      encodeRune (a.toNat % 8 * 262144 + low b * 4096 + low c * 64 + low d) = [a, b, c, d] := by
  unfold Scalar low
  refine ⟨by omega, ?_⟩
  rw [encodeRune, if_neg (by omega), if_neg (by omega), if_neg (by omega),
    octet_eq (a := a) (by omega), octet_eq (a := b) (by omega), octet_eq (a := c) (by omega),
    octet_eq (a := d) (by omega)]

/-- What the decoder takes off is the encoding of a scalar value. -/
theorem encodeRune_of_nextRune {s t : Bytes} {r : Nat} (h : nextRune s = some (r, t)) :
    Scalar r ∧ s = encodeRune r ++ t := by
  cases s with
  | nil => cases h
  | cons a rest =>
    rw [nextRune] at h
    split at h
    next hascii =>
      obtain ⟨rfl, rfl⟩ := Prod.mk.inj (Option.some.inj h)
      have ha : octet a.toNat = a := octet_eq (Nat.mod_eq_of_lt a.toNat_lt)
      refine ⟨⟨by omega, by omega⟩, ?_⟩
      rw [encodeRune, if_pos hascii, ha]
      rfl
    next hascii =>
      by_cases hlen : runeLength (a :: rest) = 0
      · rw [hlen] at h
        cases h
      · have hform := form_of_runeLength hlen
        generalize runeLength (a :: rest) = n at h hform
        cases hform with
        | two b t' ha hb =>
          obtain ⟨rfl, rfl⟩ := Prod.mk.inj (Option.some.inj h)
          obtain ⟨hscalar, henc⟩ := encodeRune_two ha hb
          exact ⟨hscalar, by rw [henc]; rfl⟩
        | three b c t' ha hb hlo hhi hc =>
          obtain ⟨rfl, rfl⟩ := Prod.mk.inj (Option.some.inj h)
          obtain ⟨hscalar, henc⟩ := encodeRune_three ha hb hlo hhi hc
          exact ⟨hscalar, by rw [henc]; rfl⟩
        | four b c d t' ha hb hlo hhi hc hd =>
          obtain ⟨rfl, rfl⟩ := Prod.mk.inj (Option.some.inj h)
          obtain ⟨hscalar, henc⟩ := encodeRune_four ha hb hlo hhi hc hd
          exact ⟨hscalar, by rw [henc]; rfl⟩

theorem toNat_octet {n : Nat} (h : n < 256) : (octet n).toNat = n := by
  rw [octet, UInt8.toNat_ofNat']
  exact Nat.mod_eq_of_lt h

theorem nextRune_of_form {a : UInt8} {rest : Bytes} {n : Nat} (h : Form a rest n) :
    nextRune (a :: rest) = multiByte a n rest := by
  have ha : ¬ a.toNat < 0x80 := by
    cases h <;> omega
  rw [nextRune, if_neg ha, runeLength_of_form h]

/-- The encoding of a scalar value is taken off as such. -/
theorem nextRune_encodeRune {r : Nat} (h : Scalar r) (t : Bytes) :
    nextRune (encodeRune r ++ t) = some (r, t) := by
  obtain ⟨hmax, hsurrogate⟩ := h
  unfold encodeRune
  split
  next hone =>
    have hr := toNat_octet (n := r) (by omega)
    rw [List.singleton_append, nextRune, hr, if_pos hone]
  next hone =>
    split
    next htwo =>
      have ha := toNat_octet (n := 0xC0 + r / 64) (by omega)
      have hb := toNat_octet (n := 0x80 + r % 64) (by omega)
      refine (nextRune_of_form (.two _ t (by omega) (by omega))).trans ?_
      rw [multiByte, low, ha, hb]
      exact congrArg (fun x => some (x, t)) (by omega)
    next htwo =>
      split
      next hthree =>
        have ha := toNat_octet (n := 0xE0 + r / 4096) (by omega)
        have hb := toNat_octet (n := 0x80 + r / 64 % 64) (by omega)
        have hc := toNat_octet (n := 0x80 + r % 64) (by omega)
        refine (nextRune_of_form (.three _ _ t (by omega) (by omega) (by omega) (by omega)
          (by omega))).trans ?_
        rw [multiByte, low, low, ha, hb, hc]
        exact congrArg (fun x => some (x, t)) (by omega)
      next hthree =>
        have ha := toNat_octet (n := 0xF0 + r / 262144) (by omega)
        have hb := toNat_octet (n := 0x80 + r / 4096 % 64) (by omega)
        have hc := toNat_octet (n := 0x80 + r / 64 % 64) (by omega)
        have hd := toNat_octet (n := 0x80 + r % 64) (by omega)
        refine (nextRune_of_form (.four _ _ _ t (by omega) (by omega) (by omega) (by omega)
          (by omega) (by omega))).trans ?_
        rw [multiByte, low, low, low, ha, hb, hc, hd]
        exact congrArg (fun x => some (x, t)) (by omega)

/-! ## The whole text -/

theorem encodeRune_ne_nil (r : Nat) : encodeRune r ≠ [] := by
  unfold encodeRune
  split_ifs <;> exact List.cons_ne_nil _ _

theorem decodeRunes_nil (fuel : Nat) {runes : List Nat} :
    decodeRunes fuel [] = some runes ↔ (∀ r ∈ runes, Scalar r) ∧ [] = encodeRunes runes := by
  rw [decodeRunes, Option.some.injEq]
  constructor
  · intro h
    subst h
    exact ⟨fun r hr => absurd hr List.not_mem_nil, rfl⟩
  · intro h
    cases runes with
    | nil => rfl
    | cons r rs => exact absurd (List.append_eq_nil_iff.mp h.2.symm).1 (encodeRune_ne_nil r)

/-- With enough fuel a text decodes to `runes` exactly if it encodes them. -/
theorem decodeRunes_eq_some_iff {fuel : Nat} {s : Bytes} (hfuel : s.length ≤ fuel)
    {runes : List Nat} :
    decodeRunes fuel s = some runes ↔ (∀ r ∈ runes, Scalar r) ∧ s = encodeRunes runes := by
  induction fuel generalizing s runes with
  | zero =>
    obtain rfl := List.length_eq_zero_iff.mp (Nat.le_zero.mp hfuel)
    exact decodeRunes_nil 0
  | succ fuel ih =>
    cases s with
    | nil => exact decodeRunes_nil (fuel + 1)
    | cons a rest =>
      have hshort : ∀ {r : Nat} {t : Bytes}, a :: rest = encodeRune r ++ t → t.length ≤ fuel := by
        intro r t heq
        have hpos := List.length_pos_iff.mpr (encodeRune_ne_nil r)
        have hlen := congrArg List.length heq
        rw [List.length_append] at hlen
        omega
      rw [decodeRunes]
      constructor
      · intro h
        cases hnext : nextRune (a :: rest) with
        | none =>
          rw [hnext] at h
          cases h
        | some next =>
          obtain ⟨r, t⟩ := next
          rw [hnext] at h
          obtain ⟨rs, hrs, rfl⟩ := Option.map_eq_some_iff.mp h
          obtain ⟨hscalar, heq⟩ := encodeRune_of_nextRune hnext
          obtain ⟨hall, ht⟩ := (ih (hshort heq)).mp hrs
          exact ⟨List.forall_mem_cons.mpr ⟨hscalar, hall⟩, by rw [heq, ht]; rfl⟩
      · intro h
        cases runes with
        | nil => cases h.2
        | cons r rs =>
          obtain ⟨hscalar, hall⟩ := List.forall_mem_cons.mp h.1
          have heq : a :: rest = encodeRune r ++ encodeRunes rs := h.2
          have hrest := (ih (hshort heq)).mpr ⟨hall, rfl⟩
          rw [heq, nextRune_encodeRune hscalar]
          exact Option.map_eq_some_iff.mpr ⟨rs, hrest, rfl⟩

/-- `none` if the text is malformed. -/
def decode (s : Bytes) : Option (List Nat) := decodeRunes s.length s

private theorem decode_eq_some_iff {s : Bytes} {runes : List Nat} :
    decode s = some runes ↔ (∀ r ∈ runes, Scalar r) ∧ s = encodeRunes runes :=
  decodeRunes_eq_some_iff (Nat.le_refl _)

theorem wellFormed_iff {s : Bytes} : WellFormed s ↔ ∃ runes, decode s = some runes :=
  exists_congr (fun _ => decode_eq_some_iff.symm)

instance (s : Bytes) : Decidable (WellFormed s) :=
  decidable_of_iff ((decode s).isSome = true)
    (Option.isSome_iff_exists.trans wellFormed_iff.symm)

/-- A rune in front does not change whether the rest is well-formed. -/
theorem wellFormed_encodeRune_append {r : Nat} (hr : Scalar r) (t : Bytes) :
    WellFormed (encodeRune r ++ t) ↔ WellFormed t := by
  constructor
  · intro h
    obtain ⟨runes, hall, heq⟩ := h
    cases runes with
    | nil => exact absurd (List.append_eq_nil_iff.mp heq).1 (encodeRune_ne_nil r)
    | cons r' rs =>
      obtain ⟨hr', hrs⟩ := List.forall_mem_cons.mp hall
      have hfirst := nextRune_encodeRune hr t
      have heq' : encodeRune r ++ t = encodeRune r' ++ encodeRunes rs := heq
      rw [heq', nextRune_encodeRune hr'] at hfirst
      obtain ⟨-, rfl⟩ := Prod.mk.inj (Option.some.inj hfirst)
      exact ⟨rs, hrs, rfl⟩
  · intro h
    obtain ⟨runes, hall, rfl⟩ := h
    exact ⟨r :: runes, List.forall_mem_cons.mpr ⟨hr, hall⟩, rfl⟩

theorem wellFormed_nil : WellFormed [] := ⟨[], fun _ h => absurd h List.not_mem_nil, rfl⟩

theorem encodeRune_ascii {c : UInt8} (h : c.toNat < 0x80) : encodeRune c.toNat = [c] := by
  rw [encodeRune, if_pos h, octet_eq (Nat.mod_eq_of_lt c.toNat_lt)]

theorem scalar_ascii {c : UInt8} (h : c.toNat < 0x80) : Scalar c.toNat :=
  ⟨by omega, by omega⟩

/-- A multi-byte rune has no ASCII byte in it. -/
theorem encodeRune_nonAscii {r : Nat} (h : Scalar r) (hr : 0x80 ≤ r) :
    ∀ c ∈ encodeRune r, 0x80 ≤ c.toNat := by
  obtain ⟨hmax, -⟩ := h
  have hlead : ∀ lo n : Nat, 0x80 ≤ lo → lo + n < 256 → 0x80 ≤ (octet (lo + n)).toNat := by
    intro lo n hlo hn
    rw [toNat_octet hn]
    omega
  have hcont : ∀ n : Nat, n < 64 → 0x80 ≤ (octet (0x80 + n)).toNat :=
    fun n hn => hlead 0x80 n (by omega) (by omega)
  rw [encodeRune, if_neg (by omega)]
  split
  next htwo =>
    simp only [List.forall_mem_cons]
    exact ⟨hlead _ _ (by omega) (by omega), hcont _ (by omega),
      fun _ h => absurd h List.not_mem_nil⟩
  next =>
    split
    next hthree =>
      simp only [List.forall_mem_cons]
      exact ⟨hlead _ _ (by omega) (by omega), hcont _ (by omega), hcont _ (by omega),
        fun _ h => absurd h List.not_mem_nil⟩
    next =>
      simp only [List.forall_mem_cons]
      exact ⟨hlead _ _ (by omega) (by omega), hcont _ (by omega), hcont _ (by omega),
        hcont _ (by omega), fun _ h => absurd h List.not_mem_nil⟩

/-- The bytes that a multi-byte rune takes are its encoding. -/
theorem take_rune {a : UInt8} {rest : Bytes} (h : runeLength (a :: rest) ≠ 0) :
    ∃ r, Scalar r ∧ 0x80 ≤ r ∧ (a :: rest).take (runeLength (a :: rest)) = encodeRune r ∧
      nextRune (a :: rest) = some (r, (a :: rest).drop (runeLength (a :: rest))) := by
  have hform := form_of_runeLength h
  rw [nextRune_of_form hform]
  generalize runeLength (a :: rest) = n at hform
  cases hform with
  | two b t ha hb =>
    obtain ⟨hscalar, henc⟩ := encodeRune_two ha hb
    exact ⟨_, hscalar, by unfold low; omega, henc.symm, rfl⟩
  | three b c t ha hb hlo hhi hc =>
    obtain ⟨hscalar, henc⟩ := encodeRune_three ha hb hlo hhi hc
    exact ⟨_, hscalar, by unfold low; omega, henc.symm, rfl⟩
  | four b c d t ha hb hlo hhi hc hd =>
    obtain ⟨hscalar, henc⟩ := encodeRune_four ha hb hlo hhi hc hd
    exact ⟨_, hscalar, by unfold low; omega, henc.symm, rfl⟩

end VRGram.Lib.Utf8
