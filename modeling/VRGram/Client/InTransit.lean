import VRGram.Client.Federation

/-!
# A message under way

While `sendParallel` is at work the relays serve everybody else, and they collect their garbage.
At every moment of that they hold some of the chunks, each host its own.
-/
namespace VRGram.Client

open VRGram.Lib.Maps VRGram.Lib.Strings VRGram.Lib.Machine VRGram.Encoding VRGram.Store VRGram.Relay

set_option autoImplicit false

/-! ## The call amid other traffic -/

/-- What holds while the chunks of a parcel are sent. -/
structure InTransit (call : Call) (p : Parcel) (s : Sending) : Prop where
  followed : Followed call p s
  reported : Reported s
  stored : ∀ site, WellStored (s.world site)

section Call

variable {call : Call} (hz : ZoneOk call.zone) {p : Parcel} (hsmall : p.n ≤ 65535)
  (hchunks : call.chunks = p.chunks)

include hz hsmall

include hchunks in
theorem InTransit.step {s t : Sending} {a : Act} (h : InTransit call p s)
    (hs : call.step s a = some t) : InTransit call p t where
  followed := followed_step hz hsmall hchunks h.followed hs
  reported := reported_step h.reported hs
  stored := wellStored_call_step h.stored hs

/-- Somebody else's request, or a pass of the garbage collector, at one of the relays. -/
theorem InTransit.traffic {s : Sending} (h : InTransit call p s) {site : Bytes} {e : Event}
    (hrespects : Respects call.zone p.msgID p.chunks (s.world site) e) {store : ChunkStore}
    (hs : relayStep call.zone (s.world site) e = some store) :
    InTransit call p { s with world := Function.update s.world site store } := by
  obtain ⟨got, htracked⟩ := h.followed.tracked
  obtain ⟨more, hcarries, hgrows, -⟩ := carries_step hsmall hz (htracked.holdings site) hrespects hs
  have hholdings : Holdings p (Function.update s.world site store)
      (Function.update got site more) := by
    intro other
    by_cases hother : other = site
    · subst hother
      rw [Function.update_self, Function.update_self]
      exact hcarries
    · rw [Function.update_of_ne hother, Function.update_of_ne hother]
      exact htracked.holdings other
  have hgot : Grows got (Function.update got site more) := by
    intro other i hi
    by_cases hother : other = site
    · subst hother
      rw [Function.update_self]
      exact hgrows i hi
    · rw [Function.update_of_ne hother]
      exact hi
  refine ⟨⟨h.followed.staffed, _, htracked.grow hholdings hgot⟩,
    ⟨h.reported.early, h.reported.success⟩, ?_⟩
  intro other
  by_cases hother : other = site
  · subst hother
    show WellStored (Function.update s.world other store other)
    rw [Function.update_self]
    exact wellStored_step (h.stored other) hs
  · show WellStored (Function.update s.world site store other)
    rw [Function.update_of_ne hother]
    exact h.stored other

end Call

/-- Once the call has reported success, a recipient that polls the relays of the call is offered
the message, if they are one host or it is one chunk. -/
theorem InTransit.offered {call : Call} {p : Parcel} {s : Sending} (h : InTransit call p s)
    (hz : ZoneOk call.zone) (hsmall : p.n ≤ 65535) (hchunks : call.chunks = p.chunks)
    (hmain : s.main = .returned (.ok ())) (hcond : call.OneHost ∨ p.n = 1) {e : DNSClientEngine}
    (hrelays : ∀ relay ∈ call.relays, ∃ r ∈ e.discoverActiveRelays, call.host r = call.host relay)
    {sha256 : Bytes → Digest} {recipient : Bytes} (hrec : recipient ≠ [])
    (hhash : p.hash = (sha256 recipient).val) :
    ∃ m, e.offered sha256 call.host recipient s.world p.msgID = some m := by
  obtain ⟨got, htracked⟩ := h.followed.tracked
  obtain ⟨relay, hrelay, hfull⟩ := complete_of_success hchunks h.followed.staffed htracked
    (h.reported.success hmain) hcond
  obtain ⟨r, hr, hhost⟩ := hrelays relay hrelay
  exact offered_complete hsmall htracked.holdings hz h.stored hrec hhash hr (hhost ▸ hfull)

end VRGram.Client
