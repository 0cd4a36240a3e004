import VRGram.Lib.Strings

/-!
# DNS names and messages

Names are dotted byte strings in presentation form; a name is fully qualified when it
ends in a dot that no backslash escapes. Messages carry a response code and records,
of which TXT records have their strings.
-/
namespace VRGram.Lib.Dns

open VRGram.Lib.Strings

set_option autoImplicit false

abbrev dot : UInt8 := 46
abbrev backslash : UInt8 := 92

/-- An even number of backslashes stands before the final dot. -/
def isFqdn (s : Bytes) : Bool :=
  match s.reverse with
  | [] => false
  | c :: rest => c == dot && (rest.takeWhile (· == backslash)).length % 2 == 0

def fqdn (s : Bytes) : Bytes := if isFqdn s then s else s ++ [dot]

/-- The question name for labels under a zone. -/
def questionName (labels : List Bytes) (zone : Bytes) : Bytes := fqdn (join dot (labels ++ [zone]))

/-- The limits on a name in presentation form: labels of 1 to 63 octets, 253 in all. -/
def LegalName (name : Bytes) : Prop :=
  (∀ l ∈ split dot name, 1 ≤ l.length ∧ l.length ≤ 63) ∧ name.length ≤ 253

instance (name : Bytes) : Decidable (LegalName name) := inferInstanceAs (Decidable (_ ∧ _))

inductive Rcode where
  | success | formatError | serverFailure | nameError | refused
  deriving DecidableEq

inductive RR where
  | txt (strings : List Bytes)
  | other
  deriving DecidableEq

structure Msg where
  rcode : Rcode
  answer : List RR
  deriving DecidableEq

def Msg.failure (rcode : Rcode) : Msg := ⟨rcode, []⟩

def Msg.txt (strings : List Bytes) : Msg := ⟨.success, [.txt strings]⟩

/-! ## Fully qualified names -/

theorem isFqdn_concat (s : Bytes) (c : UInt8) :
    isFqdn (s ++ [c]) =
      (c == dot && (s.reverse.takeWhile (· == backslash)).length % 2 == 0) := by
  simp [isFqdn]

private theorem takeWhile_append_stop {α : Type} {p : α → Bool} (l : List α) {x : α}
    (hx : p x = false) (r : List α) : (l ++ x :: r).takeWhile p = l.takeWhile p := by
  induction l with
  | nil => simp [hx]
  | cons a l ih => simp only [List.cons_append, List.takeWhile_cons, ih]

/-- Labels in front of a name do not change whether it is fully qualified. -/
theorem isFqdn_append_dot (front : Bytes) {zone : Bytes} (hne : zone ≠ []) :
    isFqdn (front ++ dot :: zone) = isFqdn zone := by
  obtain ⟨z, c, rfl⟩ := List.eq_nil_or_concat zone |>.resolve_left hne
  have hassoc : front ++ dot :: (z ++ [c]) = (front ++ dot :: z) ++ [c] := by simp
  rw [List.concat_eq_append, hassoc, isFqdn_concat, isFqdn_concat]
  congr 3
  rw [List.reverse_append, List.reverse_cons, List.append_assoc, List.singleton_append,
    takeWhile_append_stop _ (by decide)]

theorem fqdn_append_dot (front : Bytes) {zone : Bytes} (hne : zone ≠ []) :
    fqdn (front ++ dot :: zone) = front ++ dot :: fqdn zone := by
  rw [fqdn, fqdn, isFqdn_append_dot front hne]
  split <;> simp

theorem fqdn_of_isFqdn {s : Bytes} (h : isFqdn s = true) : fqdn s = s := by rw [fqdn, if_pos h]

/-- A fully qualified name ends in a dot. -/
theorem fqdn_eq_concat (s : Bytes) : ∃ t, fqdn s = t ++ [dot] := by
  unfold fqdn
  split
  · rename_i h
    rcases List.eq_nil_or_concat s with rfl | ⟨t, c, rfl⟩
    · cases h
    · rw [List.concat_eq_append, isFqdn_concat, Bool.and_eq_true, beq_iff_eq] at h
      exact ⟨t, by rw [List.concat_eq_append, h.1]⟩
  · exact ⟨s, rfl⟩

/-! ## Labels that need no escaping -/

/-- No label holds a dot or a backslash, and the last is not empty. -/
structure PlainLabels (labels : List Bytes) : Prop where
  ne_nil : labels ≠ []
  no_dot : ∀ l ∈ labels, dot ∉ l
  no_backslash : ∀ l ∈ labels, backslash ∉ l
  last : ∀ l ∈ labels.getLast?, l ≠ []

theorem PlainLabels.join_eq {labels : List Bytes} (h : PlainLabels labels) :
    ∃ pre c, join dot labels = pre ++ [c] ∧ c ≠ dot ∧ c ≠ backslash := by
  obtain ⟨front, last, rfl⟩ := (List.eq_nil_or_concat labels).resolve_left h.ne_nil
  rw [List.concat_eq_append] at h ⊢
  obtain ⟨init, c, rfl⟩ := (List.eq_nil_or_concat last).resolve_left (h.last last (by simp))
  have hmem : init.concat c ∈ front ++ [init.concat c] := by simp
  have hc : c ≠ dot ∧ c ≠ backslash := by
    constructor
    · intro hd
      exact h.no_dot _ hmem (by simp [hd])
    · intro hb
      exact h.no_backslash _ hmem (by simp [hb])
  cases front with
  | nil => exact ⟨init, c, by simp [join, List.intercalate], hc⟩
  | cons p rest =>
    rw [join_concat (by simp)]
    exact ⟨join dot (p :: rest) ++ dot :: init, c, by simp, hc⟩

theorem trimSuffix_dot_of_ne {pre : Bytes} {c : UInt8} (hc : c ≠ dot) :
    trimSuffix (pre ++ [c]) [dot] = pre ++ [c] := by
  have h : hasSuffix (pre ++ [c]) [dot] = false := by
    rw [hasSuffix, Bool.eq_false_iff]
    intro hs
    rw [List.isSuffixOf_iff_suffix] at hs
    obtain ⟨t, ht⟩ := hs
    have hlast := congrArg List.getLast? ht
    simp at hlast
    exact hc hlast.symm
  rw [trimSuffix, h, if_neg (by simp)]

end VRGram.Lib.Dns
