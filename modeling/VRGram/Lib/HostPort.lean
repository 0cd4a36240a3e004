import VRGram.Lib.Strings

/-!
# Addresses with a port

`net.SplitHostPort`: the port stands after the last colon, and a host with colons of its own
stands in brackets, which the result is without.
-/
namespace VRGram.Lib.HostPort

open VRGram.Lib.Strings

set_option autoImplicit false

def colon : UInt8 := 58

def openBracket : UInt8 := 91

def closeBracket : UInt8 := 93

inductive AddrError where
  | missingPort
  | tooManyColons
  | missingBracket
  | unexpectedOpen
  | unexpectedClose
  deriving DecidableEq

def indexByte (c : UInt8) (s : Bytes) : Option Nat := s.findIdx? (fun b => b == c)

def lastIndexByte (c : UInt8) (s : Bytes) : Option Nat :=
  (indexByte c s.reverse).map (fun i => s.length - 1 - i)

/-- The brackets that have been dealt with stand before `j` and before `k`. -/
def withoutBrackets (hostport host port : Bytes) (j k : Nat) : Except AddrError (Bytes × Bytes) :=
  if openBracket ∈ hostport.drop j then .error .unexpectedOpen
  else if closeBracket ∈ hostport.drop k then .error .unexpectedClose
  else .ok (host, port)

def splitHostPort (hostport : Bytes) : Except AddrError (Bytes × Bytes) :=
  match lastIndexByte colon hostport with
  | none => .error .missingPort
  | some i =>
    let port := hostport.drop (i + 1)
    if hostport.head? = some openBracket then
      match indexByte closeBracket hostport with
      | none => .error .missingBracket
      | some last =>
        if last + 1 = hostport.length then .error .missingPort
        else if last + 1 = i then
          withoutBrackets hostport ((hostport.take last).drop 1) port 1 (last + 1)
        else if hostport[last + 1]? = some colon then .error .tooManyColons
        else .error .missingPort
    else if colon ∈ hostport.take i then .error .tooManyColons
    else withoutBrackets hostport (hostport.take i) port 0 0

example : splitHostPort (lit "[::1]:53") = .ok (lit "::1", lit "53") := by decide

theorem withoutBrackets_eq_ok {hostport host port : Bytes} {j k : Nat} {r : Bytes × Bytes}
    (h : withoutBrackets hostport host port j k = .ok r) :
    openBracket ∉ hostport.drop j ∧ closeBracket ∉ hostport.drop k ∧ r = (host, port) := by
  unfold withoutBrackets at h
  split_ifs at h with hopen hclose
  exact ⟨hopen, hclose, (Except.ok.inj h).symm⟩

/-- A host comes without brackets. -/
theorem host_without_brackets {hostport host port : Bytes}
    (h : splitHostPort hostport = .ok (host, port)) :
    openBracket ∉ host ∧ closeBracket ∉ host := by
  unfold splitHostPort at h
  split at h
  next => cases h
  next i hi =>
    dsimp only at h
    split at h
    next =>
      split at h
      next => cases h
      next last hlast =>
        split_ifs at h
        obtain ⟨hopen, -, hr⟩ := withoutBrackets_eq_ok h
        obtain ⟨rfl, -⟩ := Prod.mk.inj hr
        refine ⟨fun hmem => hopen ?_, fun hmem => ?_⟩
        · rw [← List.take_append_drop last hostport, List.drop_append]
          exact List.mem_append_left _ hmem
        · -- the bracket that was found is the first
          have hfirst := (List.findIdx?_eq_some_iff_getElem.mp hlast).2.2
          obtain ⟨n, hn, hget⟩ := List.mem_iff_getElem.mp (List.mem_of_mem_drop hmem)
          rw [List.length_take] at hn
          have hnone := hfirst n (by omega)
          rw [List.getElem_take] at hget
          rw [hget] at hnone
          exact hnone (by decide)
    next =>
      split_ifs at h
      obtain ⟨hopen, hclose, hr⟩ := withoutBrackets_eq_ok h
      obtain ⟨rfl, -⟩ := Prod.mk.inj hr
      exact ⟨fun hmem => hopen (List.mem_of_mem_take hmem),
        fun hmem => hclose (List.mem_of_mem_take hmem)⟩

private theorem lastIndexByte_append {c : UInt8} {s : Bytes} (hs : c ∉ s) (front : Bytes) :
    lastIndexByte c (front ++ c :: s) = some front.length := by
  have hnone : s.reverse.findIdx? (fun b => b == c) = none := by
    rw [List.findIdx?_eq_none_iff]
    intro b hb
    rw [beq_eq_false_iff_ne]
    rintro rfl
    exact hs (List.mem_reverse.mp hb)
  rw [lastIndexByte, indexByte, List.reverse_append, List.reverse_cons, List.append_assoc,
    List.findIdx?_append, hnone]
  simp [List.findIdx?_cons]

/-- A host without brackets is found again in front of a port exactly if it has no colon. -/
theorem splitHostPort_append {host port : Bytes} (hopen : openBracket ∉ host)
    (hclose : closeBracket ∉ host)
    (hport : colon ∉ port ∧ openBracket ∉ port ∧ closeBracket ∉ port) :
    splitHostPort (host ++ colon :: port) =
      if colon ∈ host then .error .tooManyColons else .ok (host, port) := by
  have hhead : (host ++ colon :: port).head? ≠ some openBracket := by
    cases host with
    | nil => exact fun h => absurd (Option.some.inj h) (by decide)
    | cons b host =>
      intro h
      exact hopen (Option.some.inj h ▸ List.mem_cons_self)
  have hbracket : ∀ b, b ≠ colon → b ∉ host → b ∉ port → b ∉ host ++ colon :: port := by
    intro b hb hhost hport hmem
    rcases List.mem_append.mp hmem with hmem | hmem
    · exact hhost hmem
    · rcases List.mem_cons.mp hmem with hmem | hmem
      · exact hb hmem
      · exact hport hmem
  have hdrop : (host ++ colon :: port).drop (host.length + 1) = port := by
    rw [← List.drop_drop, List.drop_left]
    rfl
  simp only [splitHostPort, lastIndexByte_append hport.1, if_neg hhead, List.take_left, hdrop]
  split_ifs with hcolon
  · rfl
  · rw [withoutBrackets, List.drop_zero, if_neg (hbracket _ (by decide) hopen hport.2.1),
      if_neg (hbracket _ (by decide) hclose hport.2.2)]

end VRGram.Lib.HostPort
