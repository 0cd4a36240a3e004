import VRGram.Relay.MediaFiles

/-!
# Requests without the token

When the relay has a media token, a request that does not carry it is answered from what it says
and from nothing else, and leaves no trace: with all such requests struck from a run, everybody
else sees the same.
-/
namespace VRGram.Relay

open VRGram.Lib VRGram.Lib.Maps VRGram.Lib.Strings VRGram.Lib.OpenFiles VRGram.Lib.Machine
  VRGram.Crypto

set_option autoImplicit false

def Request.token : Request → Bytes
  | .upload _ token _ => token
  | .download _ token => token

/-- The request carries the relay's token, or none is asked for. -/
def Request.authorised (cfg : MediaConfig) (r : Request) : Bool :=
  checkMediaAuth cfg.mediaToken r.token

/-- The number of a request without the token. -/
def MediaEvent.intruder (cfg : MediaConfig) : MediaEvent → Option Nat
  | .request id r => if r.authorised cfg then none else some id
  | _ => none

namespace MediaServer

variable {cfg : MediaConfig} {s t : MediaServer} {e : MediaEvent}

/-- Without the token no check is passed. -/
theorem refusal_of_unauthorised {r : Request} (h : r.authorised cfg = false) :
    ∃ resp, refusal cfg r = some resp ∧
      (resp.status = 401 ∨ resp.status = 404 ∨ resp.status = 405) := by
  cases r with
  | upload method token body =>
    have hauth : checkMediaAuth cfg.mediaToken token = false := h
    by_cases hpost : method = lit "POST"
    · exact ⟨unauthorized, by simp [refusal, admitUpload, hpost, hauth], Or.inl rfl⟩
    · exact ⟨httpError (lit "POST only") 405, by simp [refusal, admitUpload, hpost],
        Or.inr (Or.inr rfl)⟩
  | download path token =>
    have hauth : checkMediaAuth cfg.mediaToken token = false := h
    by_cases hfile : requestedFile path = []
    · exact ⟨httpNotFound, by simp [refusal, admitDownload, hfile], Or.inr (Or.inl rfl)⟩
    · exact ⟨unauthorized, by simp [refusal, admitDownload, hfile, hauth], Or.inl rfl⟩

/-- What a request without the token does. -/
theorem step_unauthorised {id : Nat} {r : Request} (h : r.authorised cfg = false)
    (hstep : s.step cfg (.request id r) = some t) :
    ∃ resp, refusal cfg r = some resp ∧ s.Fresh id ∧ t = s.answer id resp := by
  obtain ⟨resp, hresp, -⟩ := refusal_of_unauthorised h
  refine ⟨resp, hresp, ?_⟩
  cases step_cases hstep with
  | refused hfresh hr =>
    obtain rfl := Option.some.inj (hresp.symm.trans hr)
    exact ⟨hfresh, rfl⟩
  | received hfresh hr | found hfresh hr _ | missing hfresh hr _ =>
    simp only [refusal, hr] at hresp
    cases hresp

/-! ## Striking answers -/

/-- The server without the answers under the given numbers. -/
def strike (ids : List Nat) (s : MediaServer) : MediaServer :=
  { s with answers := s.answers.filter (fun a => !ids.contains a.1) }

theorem strike_append {ids : List Nat} {id : Nat} (hid : id ∉ ids) (answers : List (Nat × Response))
    (resp : Response) :
    (answers ++ [(id, resp)]).filter (fun a => !ids.contains a.1) =
      answers.filter (fun a => !ids.contains a.1) ++ [(id, resp)] := by
  simp [List.filter_append, hid]

theorem fresh_strike {ids : List Nat} {id : Nat} (h : s.Fresh id) : (s.strike ids).Fresh id :=
  ⟨h.1, h.2.1, fun a ha => h.2.2 a (List.mem_filter.mp ha).1⟩

/-- The numbers have been answered, so they are nobody else's. -/
def Answered (ids : List Nat) (s : MediaServer) : Prop := ∀ id ∈ ids, ∃ resp, (id, resp) ∈ s.answers

theorem Answered.notMem {ids : List Nat} (h : s.Answered ids) {id : Nat}
    (hnew : ∀ a ∈ s.answers, a.1 ≠ id) : id ∉ ids := by
  intro hid
  obtain ⟨resp, hresp⟩ := h id hid
  exact hnew _ hresp rfl

private theorem handle_refused {id : Nat} {r : Request} {resp : Response}
    (h : refusal cfg r = some resp) :
    s.handle cfg id r = s.answer id resp := by
  cases r with
  | upload method token body =>
    cases hadmit : admitUpload cfg method token body with
    | error resp' =>
      simp only [refusal, hadmit] at h
      simp only [handle, hadmit, Option.some.inj h]
    | ok data =>
      simp only [refusal, hadmit] at h
      cases h
  | download path token =>
    cases hadmit : admitDownload cfg path token with
    | error resp' =>
      simp only [refusal, hadmit] at h
      simp only [handle, hadmit, Option.some.inj h]
    | ok name =>
      simp only [refusal, hadmit] at h
      cases h

/-- A step that is not struck goes the same way without the struck answers. -/
theorem step_strike {ids : List Nat} (hids : s.Answered ids) (hs : s.Numbered)
    (h : s.step cfg e = some t) : (s.strike ids).step cfg e = some (t.strike ids) := by
  have hup : ∀ {id : Nat}, id ∈ s.uploads → id ∉ ids :=
    fun hid => hids.notMem (fun a ha heq => (hs.ended a ha).1 (heq ▸ hid))
  have hdown : ∀ {id : Nat}, id ∈ s.downloads → id ∉ ids :=
    fun hid => hids.notMem (fun a ha heq => (hs.ended a ha).2 (heq ▸ hid))
  cases step_cases h with
  | refused hfresh hr =>
    rw [step, if_pos (fresh_strike hfresh), handle_refused hr]
    simp only [strike, answer, strike_append (hids.notMem hfresh.2.2)]
  | received hfresh hr =>
    rw [step, if_pos (fresh_strike hfresh)]
    simp only [handle, hr]
    rfl
  | found hfresh hr hname =>
    rw [step, if_pos (fresh_strike hfresh)]
    have hname' : _ ∈ (s.strike ids).disk.names := hname
    simp only [handle, hr, if_pos hname']
    rfl
  | missing hfresh hr hname =>
    rw [step, if_pos (fresh_strike hfresh)]
    have hname' : _ ∉ (s.strike ids).disk.names := hname
    simp only [handle, hr, if_neg hname']
    simp only [strike, answer, strike_append (hids.notMem hfresh.2.2)]
  | create hu => simp only [step, strike, hu, setUpload]
  | write hu hfits => simp only [step, strike, hu, if_pos hfits, setUpload]
  | close hu =>
    simp only [step, strike, hu, if_true, endUpload,
      strike_append (hup (mem_iff_lookup.mpr ⟨_, hu⟩))]
  | fail hu =>
    simp only [step, strike, endUpload, strike_append (hup hu)]
    exact if_pos hu
  | gone hd hname | unreadable hd hname =>
    simp only [step, strike, hd, hname, endDownload,
      strike_append (hdown (mem_iff_lookup.mpr ⟨_, hd⟩))]
  | opened hd hname => simp only [step, strike, hd, hname, setDownload]
  | read hd => simp only [step, strike, hd, setDownload]
  | reply hd =>
    simp only [step, strike, hd, endDownload, strike_append (hdown (mem_iff_lookup.mpr ⟨_, hd⟩))]
  | list hidle hnodup hnames =>
    simp only [step, strike]
    exact if_pos ⟨hidle, hnodup, hnames⟩
  | crash hlook hname => simp only [step, strike, hlook, hname]
  | expired hlook hname hold => simp only [step, strike, hlook, hname, if_pos hold]
  | young hlook hname hyoung => simp only [step, strike, hlook, hname, if_neg hyoung]
  | remove hdoomed => simp only [step, strike, hdoomed]

theorem Step.answers (h : Step cfg s e t) : ∀ a ∈ s.answers, a ∈ t.answers := by
  cases h with
  | refused | missing | close | fail | gone | unreadable | reply =>
    exact fun a ha => List.mem_append_left _ ha
  | _ => exact fun a ha => ha

/-! ## Striking requests -/

def intruders (cfg : MediaConfig) (events : List MediaEvent) : List Nat :=
  events.filterMap (MediaEvent.intruder cfg)

/-- The run without the requests that lack the token. -/
def lawful (cfg : MediaConfig) (events : List MediaEvent) : List MediaEvent :=
  events.filter (fun e => (e.intruder cfg).isNone)

private theorem intruder_eq_some {id : Nat} (h : e.intruder cfg = some id) :
    ∃ r, e = .request id r ∧ r.authorised cfg = false := by
  cases e with
  | request id' r =>
    simp only [MediaEvent.intruder] at h
    split at h
    · cases h
    · obtain rfl := Option.some.inj h
      exact ⟨r, rfl, by simpa using ‹¬ r.authorised cfg = true›⟩
  | _ => cases h

/-- Striking a fresh answer again. -/
theorem strike_answer {ids : List Nat} {id : Nat} (hfresh : s.Fresh id) (resp : Response) :
    (s.answer id resp).strike (ids ++ [id]) = s.strike ids := by
  have hold : s.answers.filter (fun a => !(ids ++ [id]).contains a.1) =
      s.answers.filter (fun a => !ids.contains a.1) := by
    refine List.filter_congr (fun a ha => ?_)
    have hne := hfresh.2.2 a ha
    simp [hne]
  have hlast : [(id, resp)].filter (fun a => !(ids ++ [id]).contains a.1) = [] := by simp
  simp only [strike, answer, List.filter_append, hold, hlast, List.append_nil]

private theorem run_strike {events : List MediaEvent} {ids : List Nat} (hs : s.Numbered)
    (hids : s.Answered ids) (h : run (step cfg) s events = some t) :
    run (step cfg) (s.strike ids) (lawful cfg events) =
      some (t.strike (ids ++ intruders cfg events)) := by
  induction events generalizing s ids with
  | nil =>
    obtain rfl := Option.some.inj h
    simp [lawful, intruders, run_nil]
  | cons e rest ih =>
    obtain ⟨u, hstep, hrest⟩ := run_cons.mp h
    have hcases := step_cases hstep
    have hu : u.Numbered := hs.step hcases
    cases hintruder : e.intruder cfg with
    | some id =>
      obtain ⟨r, rfl, hr⟩ := intruder_eq_some hintruder
      obtain ⟨resp, -, hfresh, rfl⟩ := step_unauthorised hr hstep
      have hids' : (s.answer id resp).Answered (ids ++ [id]) := by
        intro j hj
        rcases List.mem_append.mp hj with hj | hj
        · obtain ⟨resp', hresp'⟩ := hids j hj
          exact ⟨resp', List.mem_append_left _ hresp'⟩
        · obtain rfl := List.mem_singleton.mp hj
          exact ⟨resp, List.mem_append_right _ (List.mem_singleton_self _)⟩
      have hrun := ih hu hids' hrest
      rw [strike_answer hfresh] at hrun
      have hlawful : lawful cfg (.request id r :: rest) = lawful cfg rest := by
        simp [lawful, hintruder]
      have hintruders : intruders cfg (.request id r :: rest) = id :: intruders cfg rest := by
        simp [intruders, hintruder]
      rw [hlawful, hintruders, hrun, List.append_assoc, List.singleton_append]
    | none =>
      have hids' : u.Answered ids := by
        intro j hj
        obtain ⟨resp, hresp⟩ := hids j hj
        exact ⟨resp, hcases.answers _ hresp⟩
      have hlawful : lawful cfg (e :: rest) = e :: lawful cfg rest := by
        simp [lawful, hintruder]
      have hintruders : intruders cfg (e :: rest) = intruders cfg rest := by
        simp [intruders, hintruder]
      rw [hlawful, hintruders, run_cons]
      exact ⟨_, step_strike hids hs hstep, ih hu hids' hrest⟩

end MediaServer

open MediaServer

/-- Requests without the relay's token are invisible: with all of them struck from a run, the
files, the uploads, the downloads, the cleanup and all other answers are what they are. -/
theorem unauthorised_invisible (cfg : MediaConfig) (disk : Disk Bytes) (events : List MediaEvent)
    (t : MediaServer) (hrun : run (step cfg) (start disk) events = some t) :
    run (step cfg) (start disk) (lawful cfg events) = some (t.strike (intruders cfg events)) ∧
      ∀ id r, MediaEvent.request id r ∈ events → r.authorised cfg = false →
        ∃ resp, refusal cfg r = some resp ∧ (id, resp) ∈ t.answers := by
  have hnone : (start disk).Answered [] := fun _ h => absurd h List.not_mem_nil
  refine ⟨run_strike (numbered_start disk) hnone hrun, fun id r hmem hr => ?_⟩
  obtain ⟨before, after, rfl⟩ := List.append_of_mem hmem
  obtain ⟨s, -, hafter⟩ := run_append.mp hrun
  obtain ⟨u, hstep, hafter⟩ := run_cons.mp hafter
  obtain ⟨resp, hresp, -, rfl⟩ := step_unauthorised hr hstep
  refine ⟨resp, hresp, ?_⟩
  exact run_invariant (fun _ _ _ hmem hstep => (step_cases hstep).answers _ hmem)
    (List.mem_append_right _ (List.mem_singleton_self _)) hafter

/-- An upload, and two requests for its file, the second with the token. -/
def guessedToken : List MediaEvent :=
  [.request 1 (uploadOf [7]), .create 1 5, .write 1 1 5, .close 1,
    .request 2 (.download (lit "/download/" ++ fileID guardedConfig [7]) (lit "guess")),
    .request 3 (.download (lit "/download/" ++ fileID guardedConfig [7]) (lit "token"))]

theorem unauthorised_invisible_guessedToken : ∃ t,
    run (step guardedConfig) (start .empty) guessedToken = some t ∧ (2, unauthorized) ∈ t.answers ∧
      run (step guardedConfig) (start .empty) (lawful guardedConfig guessedToken) =
        some (t.strike [2]) := by
  have hinvisible := unauthorised_invisible guardedConfig .empty guessedToken _ rfl
  exact ⟨_, rfl, by decide, hinvisible.1⟩

end VRGram.Relay
