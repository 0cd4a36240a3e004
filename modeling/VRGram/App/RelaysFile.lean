import VRGram.Lib.Json

/-!
# The file relays.json

Two places of the app write the file and three read it: the app's `RelayList`, its
start-up synchronisation and the daemon. Files are JSON values here, encoding and decoding
being inverse to each other. A cast that fails in Dart throws, which is `none`.
-/
namespace VRGram.App

open VRGram.Lib.Strings VRGram.Lib.Json

set_option autoImplicit false

/-! ## Values as Dart sees them -/

/-- `decoded[key]`: the last member of that name counts, a missing one is null. -/
def entry (ms : List (Bytes × Value)) (key : Bytes) : Value :=
  ((ms.reverse.find? (fun m => m.1 = key)).map Prod.snd).getD .null

/-- `as Map<String, dynamic>` -/
def asMap : Value → Option (List (Bytes × Value))
  | .object ms => some ms
  | _ => none

/-- `as List? ?? []` -/
def asListOrEmpty : Value → Option (List Value)
  | .array items => some items
  | .null => some []
  | _ => none

/-- `as String? ?? default` -/
def asStringOr (default : Bytes) : Value → Option Bytes
  | .string s => some s
  | .null => some default
  | _ => none

/-! ## `RelayList` -/

structure RelayConfig where
  address : Bytes
  dnsResolver : Bytes
  deriving DecidableEq

def defaultResolver : Bytes := lit "8.8.8.8:53"

def RelayConfig.toJson (c : RelayConfig) : Value :=
  .object [(lit "address", .string c.address), (lit "dnsResolver", .string c.dnsResolver)]

def RelayConfig.fromJson (json : List (Bytes × Value)) : Option RelayConfig := do
  let address ← asString (entry json (lit "address"))
  let dnsResolver ← asStringOr defaultResolver (entry json (lit "dnsResolver"))
  return ⟨address, dnsResolver⟩

structure RelayList where
  state : List RelayConfig
  defaultDnsResolver : Bytes
  deriving DecidableEq

/-- What `build` starts from. -/
def RelayList.new : RelayList := ⟨[], defaultResolver⟩

def RelayList.addresses (l : RelayList) : List Bytes := l.state.map RelayConfig.address

/-- What `_save` writes. -/
def RelayList.save (l : RelayList) : Value :=
  .object [(lit "relays", .array (l.state.map RelayConfig.toJson)),
    (lit "dnsResolver", .string l.defaultDnsResolver)]

/-- The body of `_load`. Nothing is assigned before the last cast has succeeded. -/
def RelayList.tryLoad (l : RelayList) : Value → Option RelayList
  | .object decoded => do
    let items ← asListOrEmpty (entry decoded (lit "relays"))
    let relays ← items.mapM (fun e => (asMap e).bind RelayConfig.fromJson)
    let resolver ← asStringOr defaultResolver (entry decoded (lit "dnsResolver"))
    return ⟨relays, resolver⟩
  | .array decoded => do
    -- the old format, a list of addresses
    let addresses ← decoded.mapM asString
    return { l with state := addresses.map (fun a => ⟨a, defaultResolver⟩) }
  | _ => some l

/-- `_load` catches what its body throws. -/
def RelayList.load (l : RelayList) (decoded : Value) : RelayList := (l.tryLoad decoded).getD l

/-! ## `_syncRelays` -/

def defaultRelay : Bytes := lit "31.15.17.161:9876"

/-- What the first launch writes. -/
def firstLaunch : Value := .object [(lit "relays", .array [.string defaultRelay])]

def entryAddress : Value → Option Bytes
  | .object ms => asString (entry ms (lit "address"))
  | v => asString v

/-- The loop that adds the entries, up to the first that throws. -/
def syncEach : List Value → List Bytes
  | [] => []
  | e :: rest =>
    match entryAddress e with
    | some addr => addr :: syncEach rest
    | none => []

/-- The addresses that `_syncRelays` hands to `AddRelay` from a file that exists. -/
def syncRelays (decoded : Value) : List Bytes :=
  match (asMap decoded).bind (fun json => asListOrEmpty (entry json (lit "relays"))) with
  | some relays => syncEach relays
  | none => []

/-! ## `loadRelaysFromConfig` -/

/-- A `[]string` that is decoded into: its length, and the slots of its array that have been
written, also those that a shorter list has left behind. -/
structure StringSlice where
  slots : List Bytes
  length : Nat

def StringSlice.empty : StringSlice := ⟨[], 0⟩

/-- An element: null keeps what its slot holds. -/
def stringItem (slot : Bytes) : Value → Option Bytes
  | .string s => some s
  | .null => some slot
  | _ => none

def stringItems : List Bytes → List Value → Option (List Bytes)
  | _, [] => some []
  | slots, item :: items => do
    let first ← stringItem (slots.headD []) item
    let rest ← stringItems slots.tail items
    return first :: rest

/-- The value of one `relays` key; a repeated one is decoded over what is there. -/
def StringSlice.decode (slice : StringSlice) : Value → Option StringSlice
  | .null => some .empty
  | .array [] => some .empty
  | .array items => (stringItems slice.slots items).map (fun read =>
      ⟨read ++ slice.slots.drop read.length, read.length⟩)
  | _ => none

/-- The daemon's reader; any error makes the result nil. -/
def loadRelaysFromConfig : Value → List Bytes
  | .object ms =>
    let slice := ms.foldlM (fun slice m =>
      if fieldOf [lit "relays"] m.1 = some (lit "relays") then slice.decode m.2 else some slice)
      StringSlice.empty
    (slice.map (fun slice => slice.slots.take slice.length)).getD []
  | _ => []

/-! ## Who reads what -/

/-- A file as one of the two writers leaves it. -/
inductive RelaysFile where
  | saved (l : RelayList)
  | firstLaunch

def RelaysFile.content : RelaysFile → Value
  | .saved l => l.save
  | .firstLaunch => App.firstLaunch

def RelaysFile.addresses : RelaysFile → List Bytes
  | .saved l => l.addresses
  | .firstLaunch => [defaultRelay]

private theorem entryAddress_toJson (c : RelayConfig) : entryAddress c.toJson = some c.address := by
  rfl

private theorem fromJson_toJson (c : RelayConfig) :
    (asMap c.toJson).bind RelayConfig.fromJson = some c := by
  rfl

private theorem mapM_some {α β : Type} {f : α → Option β} {g : β → α} (h : ∀ b, f (g b) = some b)
    (l : List β) : (l.map g).mapM f = some l := by
  induction l with
  | nil => rfl
  | cons b l ih => rw [List.map_cons, List.mapM_cons, h b, ih]; rfl

/-- The app reads back what it has saved. -/
theorem load_save (l m : RelayList) : m.load l.save = l := by
  have htry : m.tryLoad l.save =
      ((l.state.map RelayConfig.toJson).mapM (fun e => (asMap e).bind RelayConfig.fromJson)).bind
        (fun relays => some ⟨relays, l.defaultDnsResolver⟩) := rfl
  rw [RelayList.load, htry, mapM_some (f := fun e => (asMap e).bind RelayConfig.fromJson)
    fromJson_toJson l.state]
  rfl

/-- The app cannot read what its first launch has written. -/
theorem load_firstLaunch (m : RelayList) : m.load firstLaunch = m := rfl

private theorem syncEach_toJson (cs : List RelayConfig) :
    syncEach (cs.map RelayConfig.toJson) = cs.map RelayConfig.address := by
  induction cs with
  | nil => rfl
  | cons c cs ih =>
    rw [List.map_cons, syncEach, entryAddress_toJson, List.map_cons]
    simp only [ih]

/-- The synchronisation understands both writers. -/
theorem syncRelays_content (f : RelaysFile) : syncRelays f.content = f.addresses := by
  cases f with
  | saved l => exact syncEach_toJson l.state
  | firstLaunch => rfl

/-- The daemon finds no relay in a saved list: an object is not a string. -/
theorem loadRelaysFromConfig_save (l : RelayList) : loadRelaysFromConfig l.save = [] := by
  cases h : l.state with
  | nil =>
    rw [RelayList.save, h]
    rfl
  | cons c cs =>
    rw [RelayList.save, h]
    rfl

/-- The three readers find the written addresses only in a saved list without relays. -/
theorem relaysFile_read_back_iff (f : RelaysFile) :
    (loadRelaysFromConfig f.content = f.addresses ∧
      (RelayList.new.load f.content).addresses = f.addresses ∧
      syncRelays f.content = f.addresses) ↔
      ∃ resolver, f = .saved ⟨[], resolver⟩ := by
  cases f with
  | saved l =>
    constructor
    · intro h
      have hnil : l.addresses = [] := h.1.symm.trans (loadRelaysFromConfig_save l)
      have hstate : l.state = [] := List.map_eq_nil_iff.mp hnil
      exact ⟨l.defaultDnsResolver, by rw [← hstate]⟩
    · intro h
      obtain ⟨resolver, h⟩ := h
      obtain rfl := RelaysFile.saved.inj h
      refine ⟨loadRelaysFromConfig_save _, ?_, syncRelays_content _⟩
      show (RelayList.new.load (RelayList.save _)).addresses = _
      rw [load_save]
      rfl
  | firstLaunch =>
    constructor
    · intro h
      have hload : (RelayList.new.load firstLaunch).addresses = [defaultRelay] := h.2.1
      rw [load_firstLaunch] at hload
      cases hload
    · intro h
      obtain ⟨resolver, h⟩ := h
      cases h

/-- The daemon loses a saved relay, and the app loses the one of its first launch. -/
theorem relaysFile_misread :
    ∃ l : RelayList, l.addresses = [lit "10.0.0.1:53"] ∧ loadRelaysFromConfig l.save = [] ∧
      RelaysFile.addresses .firstLaunch = [defaultRelay] ∧
      (RelayList.new.load firstLaunch).addresses = [] :=
  ⟨⟨[⟨lit "10.0.0.1:53", defaultResolver⟩], defaultResolver⟩, rfl, loadRelaysFromConfig_save _,
    rfl, rfl⟩

end VRGram.App
