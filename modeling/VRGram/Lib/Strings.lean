import Mathlib.Data.List.TakeDrop
import Mathlib.Data.List.TakeWhile
import Mathlib.Tactic.Ring

/-!
# Byte strings and the string functions of the Go library

Go strings and byte slices are sequences of octets, so both are lists of `UInt8`.
The separators used by the callers are single bytes.
-/
namespace VRGram.Lib.Strings

set_option autoImplicit false

abbrev Bytes := List UInt8

/-- The octets of a string literal. -/
def lit (s : String) : Bytes := s.toUTF8.data.toList

/-- `strings.HasSuffix`. -/
def hasSuffix (s tail : Bytes) : Bool := tail.isSuffixOf s

/-- `strings.TrimSuffix`: the string itself when the suffix is not there. -/
def trimSuffix (s tail : Bytes) : Bytes :=
  if hasSuffix s tail then s.take (s.length - tail.length) else s

/-- `strings.Join` with a one-byte separator. -/
def join (sep : UInt8) (parts : List Bytes) : Bytes := [sep].intercalate parts

/-- `strings.Split` with a one-byte separator. -/
def split (sep : UInt8) (s : Bytes) : List Bytes := s.splitOn sep

/-- `strings.SplitN`: at most `n` pieces, the last one unsplit. -/
def splitN (sep : UInt8) : Nat → Bytes → List Bytes
  | 0, _ => []
  | 1, s => [s]
  | n + 2, s =>
    match s.span (· != sep) with
    | (_, []) => [s]
    | (piece, _ :: rest) => piece :: splitN sep (n + 1) rest

/-- `strings.Contains`. -/
def contains (s sub : Bytes) : Bool := s.tails.any (fun t => sub.isPrefixOf t)

theorem trimSuffix_append (s tail : Bytes) : trimSuffix (s ++ tail) tail = s := by
  have h : hasSuffix (s ++ tail) tail = true := by
    rw [hasSuffix, List.isSuffixOf_iff_suffix]
    exact List.suffix_append s tail
  rw [trimSuffix, if_pos h, List.length_append, Nat.add_sub_cancel, List.take_left]

theorem hasSuffix_append (s tail : Bytes) : hasSuffix (s ++ tail) tail = true := by
  rw [hasSuffix, List.isSuffixOf_iff_suffix]
  exact List.suffix_append s tail

/-- A suffix is cut off once or was not there. -/
theorem trimSuffix_cases (s tail : Bytes) :
    trimSuffix s tail = s ∨ trimSuffix s tail ++ tail = s := by
  unfold trimSuffix
  split
  · rename_i h
    right
    rw [hasSuffix, List.isSuffixOf_iff_suffix] at h
    obtain ⟨front, rfl⟩ := h
    rw [List.length_append, Nat.add_sub_cancel, List.take_left]
  · exact Or.inl rfl

theorem split_of_notMem {sep : UInt8} {s : Bytes} (h : sep ∉ s) : split sep s = [s] :=
  List.splitOn_eq_singleton h

theorem split_append {sep : UInt8} {piece : Bytes} (h : sep ∉ piece) (rest : Bytes) :
    split sep (piece ++ sep :: rest) = piece :: split sep rest :=
  List.splitOn_append_cons_self_of_not_mem h rest

theorem split_append_split (sep : UInt8) (s rest : Bytes) :
    split sep (s ++ sep :: rest) = split sep s ++ split sep rest :=
  List.splitOn_append_cons_self s rest

theorem split_ne_nil (sep : UInt8) (s : Bytes) : split sep s ≠ [] := List.splitOn_ne_nil sep s

theorem split_join {sep : UInt8} {parts : List Bytes} (hp : ∀ p ∈ parts, sep ∉ p)
    (hne : parts ≠ []) : split sep (join sep parts) = parts :=
  List.splitOn_intercalate sep hp hne

theorem join_split (sep : UInt8) (s : Bytes) : join sep (split sep s) = s :=
  List.intercalate_splitOn sep

/-- A piece is free of the separator and made of the string's own bytes. -/
theorem mem_split {sep : UInt8} {s piece : Bytes} (h : piece ∈ split sep s) :
    sep ∉ piece ∧ piece ⊆ s := by
  by_cases hmem : sep ∈ s
  · obtain ⟨front, rest, rfl, hfront⟩ := List.eq_append_cons_of_mem hmem
    rw [split_append hfront] at h
    rcases List.mem_cons.mp h with rfl | hrest
    · exact ⟨hfront, List.subset_append_left _ _⟩
    · obtain ⟨hsep, hsub⟩ := mem_split hrest
      exact ⟨hsep, fun c hc => List.mem_append_right _ (List.mem_cons_of_mem _ (hsub hc))⟩
  · rw [split_of_notMem hmem] at h
    obtain rfl := List.mem_singleton.mp h
    exact ⟨hmem, List.Subset.refl _⟩
termination_by s.length
decreasing_by
  rename_i heq
  rw [heq, List.length_append, List.length_cons]
  omega

theorem join_concat {sep : UInt8} {parts : List Bytes} (hne : parts ≠ []) (last : Bytes) :
    join sep (parts ++ [last]) = join sep parts ++ sep :: last := by
  induction parts with
  | nil => exact absurd rfl hne
  | cons p rest ih =>
    cases rest with
    | nil => simp [join, List.intercalate]
    | cons q rest =>
      have h := ih (by simp)
      simp only [join, List.intercalate, List.cons_append, List.intersperse_cons_cons,
        List.flatten_cons] at h ⊢
      rw [h]
      simp

theorem join_length (sep : UInt8) {parts : List Bytes} (hne : parts ≠ []) :
    (join sep parts).length + 1 = (parts.map List.length).sum + parts.length := by
  induction parts with
  | nil => exact absurd rfl hne
  | cons p rest ih =>
    cases rest with
    | nil => simp [join, List.intercalate]
    | cons q rest =>
      have h := ih (by simp)
      simp only [join, List.intercalate, List.intersperse_cons_cons, List.flatten_cons,
        List.length_append, List.length_cons, List.length_nil, List.map_cons, List.sum_cons] at h ⊢
      omega

theorem span_ne_append {sep : UInt8} {piece : Bytes} (h : sep ∉ piece) (rest : Bytes) :
    (piece ++ sep :: rest).span (· != sep) = (piece, sep :: rest) := by
  rw [List.span_eq_takeWhile_dropWhile]
  have hall : ∀ c ∈ piece, (c != sep) = true := by
    intro c hc
    rw [bne_iff_ne]
    rintro rfl
    exact h hc
  rw [List.takeWhile_append_of_pos hall, List.dropWhile_append_of_pos hall]
  simp

theorem splitN_of_notMem {sep : UInt8} {s : Bytes} (h : sep ∉ s) (n : Nat) :
    splitN sep (n + 1) s = [s] := by
  cases n with
  | zero => rfl
  | succ n =>
    have hall : ∀ c ∈ s, (c != sep) = true := by
      intro c hc
      rw [bne_iff_ne]
      rintro rfl
      exact h hc
    have hs : s.span (· != sep) = (s, []) := by
      rw [List.span_eq_takeWhile_dropWhile, List.takeWhile_eq_self_iff.mpr hall,
        List.dropWhile_eq_nil_iff.mpr hall]
    rw [splitN, hs]

theorem splitN_append {sep : UInt8} {piece : Bytes} (h : sep ∉ piece) (rest : Bytes) (n : Nat) :
    splitN sep (n + 2) (piece ++ sep :: rest) = piece :: splitN sep (n + 1) rest := by
  rw [splitN, span_ne_append h]

/-- Two pieces in front of the first separator are the same piece. -/
theorem append_sep_inj {sep : UInt8} {piece piece' rest rest' : Bytes} (h : sep ∉ piece)
    (h' : sep ∉ piece') (heq : piece ++ sep :: rest = piece' ++ sep :: rest') :
    piece = piece' ∧ rest = rest' := by
  have hspan := span_ne_append h rest
  rw [heq, span_ne_append h' rest'] at hspan
  obtain ⟨hpiece, hrest⟩ := Prod.mk.inj hspan
  exact ⟨hpiece.symm, (List.cons.inj hrest).2.symm⟩

/-- A text of two pieces or more has its first piece in front of a separator. -/
theorem splitN_cons_cons {sep : UInt8} {n : Nat} {s p q : Bytes} {more : List Bytes}
    (h : splitN sep (n + 2) s = p :: q :: more) :
    ∃ rest, s = p ++ sep :: rest ∧ sep ∉ p ∧ splitN sep (n + 1) rest = q :: more := by
  by_cases hmem : sep ∈ s
  · obtain ⟨front, rest, rfl, hfront⟩ := List.eq_append_cons_of_mem hmem
    rw [splitN_append hfront] at h
    obtain ⟨rfl, hrest⟩ := List.cons.inj h
    exact ⟨rest, rfl, hfront, hrest⟩
  · rw [splitN_of_notMem hmem (n + 1)] at h
    cases (List.cons.inj h).2

/-- A single piece is the whole text. -/
theorem splitN_singleton {sep : UInt8} {n : Nat} {s p : Bytes} (h : splitN sep (n + 1) s = [p]) :
    s = p := by
  by_cases hmem : sep ∈ s
  · cases n with
    | zero => exact (List.cons.inj h).1
    | succ n =>
      obtain ⟨front, rest, rfl, hfront⟩ := List.eq_append_cons_of_mem hmem
      rw [splitN_append hfront] at h
      cases n with
      | zero => cases (List.cons.inj h).2
      | succ n =>
        have hnil := (List.cons.inj h).2
        rw [splitN] at hnil
        split at hnil <;> cases hnil
  · rw [splitN_of_notMem hmem] at h
    exact (List.cons.inj h).1

/-- A separator is in the first part or in the second. -/
theorem append_sep_cases {sep : UInt8} {s t front back : Bytes}
    (heq : s ++ t = front ++ sep :: back) :
    (∃ tail, s = front ++ sep :: tail ∧ back = tail ++ t) ∨
      ∃ front', t = front' ++ sep :: back := by
  rcases List.append_eq_append_iff.mp heq with ⟨mid, -, ht⟩ | ⟨mid, hs, hback⟩
  · exact Or.inr ⟨mid, ht⟩
  · cases mid with
    | nil => exact Or.inr ⟨[], hback.symm⟩
    | cons c mid =>
      obtain ⟨rfl, hrest⟩ := List.cons.inj hback
      exact Or.inl ⟨mid, hs, hrest⟩

theorem append_sep_cancel {sep : UInt8} {piece rest front back : Bytes} (h : sep ∉ piece)
    (heq : piece ++ rest = front ++ sep :: back) : ∃ front', rest = front' ++ sep :: back := by
  rcases append_sep_cases heq with ⟨tail, rfl, -⟩ | hrest
  · exact absurd (List.mem_append_right _ List.mem_cons_self) h
  · exact hrest

/-- A beginning of a text ends in its first line or has the whole of it. -/
theorem prefix_line {sep : UInt8} {q line rest : Bytes} (h : q <+: line ++ sep :: rest) :
    q <+: line ∨ ∃ q', q = line ++ sep :: q' ∧ q' <+: rest := by
  rcases List.prefix_or_prefix_of_prefix h (List.prefix_append line (sep :: rest)) with hq | hq
  · exact Or.inl hq
  · obtain ⟨t, rfl⟩ := hq
    have ht := (List.prefix_append_right_inj line).mp h
    cases t with
    | nil => exact Or.inl (by simp)
    | cons c t =>
      obtain ⟨rfl, hrest⟩ := List.cons_prefix_cons.mp ht
      exact Or.inr ⟨t, rfl, hrest⟩

/-- The lines of a beginning of a text: the last of them may be incomplete. -/
theorem split_cut {sep : UInt8} {q line rest : Bytes} (hline : sep ∉ line)
    (h : q <+: line ++ sep :: rest) :
    (∃ part, part <+: line ∧ split sep q = [part]) ∨
      ∃ q', q' <+: rest ∧ split sep q = line :: split sep q' := by
  rcases prefix_line h with hq | ⟨q', rfl, hq⟩
  · exact Or.inl ⟨q, hq, split_of_notMem (fun hmem => hline (hq.subset hmem))⟩
  · exact Or.inr ⟨q', hq, split_append hline q'⟩

/-- Line breaks, which the text decoders of the Go library skip. -/
def isNewline (c : UInt8) : Bool := c == 10 || c == 13

/-- The octet with the low eight bits of `n`. -/
def octet (n : Nat) : UInt8 := UInt8.ofNat n

theorem octet_eq {n : Nat} {a : UInt8} (h : n % 256 = a.toNat) : octet n = a := by
  apply UInt8.toNat.inj
  simpa [octet] using h

def hexDigitOf (d : Nat) : UInt8 := octet (if d < 10 then 48 + d else 87 + d)

/-- `hex.EncodeToString`. -/
def hexEncode (b : Bytes) : Bytes :=
  b.flatMap (fun c => [hexDigitOf (c.toNat / 16), hexDigitOf (c.toNat % 16)])

/-- `%d` of a natural number. -/
def decimal (n : Nat) : Bytes := (Nat.toDigits 10 n).map (fun c => octet c.toNat)

/-- `%d` of an integer. -/
def decimalInt : Int → Bytes
  | .ofNat n => decimal n
  | .negSucc n => 45 :: decimal (n + 1)

/-- `%x` of an integer. -/
def hexInt : Int → Bytes
  | .ofNat n => (Nat.toDigits 16 n).map (fun c => octet c.toNat)
  | .negSucc n => 45 :: (Nat.toDigits 16 (n + 1)).map (fun c => octet c.toNat)

/-! ## Cutting a sequence into pieces of one size -/

section Pieces

variable {α : Type}

/-- Piece `i` of `l` when it is cut every `k` elements. -/
def piece (k : Nat) (l : List α) (i : Nat) : List α := (l.drop (i * k)).take k

theorem flatten_pieces (k n : Nat) (l : List α) :
    ((List.range n).map (piece k l)).flatten = l.take (n * k) := by
  induction n with
  | zero => simp
  | succ n ih =>
    rw [List.range_succ, List.map_append, List.flatten_append, ih, Nat.succ_mul, List.take_add]
    simp [piece]

/-- Enough pieces give the sequence back. -/
theorem flatten_pieces_all {k n : Nat} {l : List α} (h : l.length ≤ n * k) :
    ((List.range n).map (piece k l)).flatten = l := by
  rw [flatten_pieces, List.take_of_length_le h]

end Pieces

/-! ## Fixed-width big-endian integers -/

/-- The `w` low-order bytes of `n`, most significant first. -/
def be : Nat → Nat → Bytes
  | 0, _ => []
  | w + 1, n => UInt8.ofNat (n / 256 ^ w) :: be w n

/-- The natural number a big-endian byte string denotes. -/
def ofBE (b : Bytes) : Nat := b.foldl (fun acc x => acc * 256 + x.toNat) 0

theorem be_length (w n : Nat) : (be w n).length = w := by
  induction w with
  | zero => rfl
  | succ w ih => simp [be, ih]

private theorem foldl_be (w n acc : Nat) :
    (be w n).foldl (fun acc x => acc * 256 + x.toNat) acc = acc * 256 ^ w + n % 256 ^ w := by
  induction w generalizing acc with
  | zero => simp [be, Nat.mod_one]
  | succ w ih =>
    have hd : (UInt8.ofNat (n / 256 ^ w)).toNat = n / 256 ^ w % 256 := by simp
    have hm : n % 256 ^ (w + 1) = n / 256 ^ w % 256 * 256 ^ w + n % 256 ^ w := by
      rw [pow_succ, Nat.mod_mul]
      ring
    rw [be, List.foldl_cons, ih, hd, hm, pow_succ]
    ring

private theorem ofBE_be (w n : Nat) : ofBE (be w n) = n % 256 ^ w := by
  simpa [ofBE] using foldl_be w n 0

theorem ofBE_be_of_lt {w n : Nat} (h : n < 256 ^ w) : ofBE (be w n) = n := by
  rw [ofBE_be, Nat.mod_eq_of_lt h]

end VRGram.Lib.Strings
