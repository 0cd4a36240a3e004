import VRGram.Lib.StateFile

/-!
# A secret that is made once and then kept in a file

Every start loads the secret from its file. Where there is none, the file cannot be read or it is
damaged, the start draws a new one and writes it, and goes on only when all of it was written. So
a secret that was in use once stays the same as long as its file can be read.
-/
namespace VRGram.Lib.Keepsake

open VRGram.Lib.Strings VRGram.Lib.StateFile

set_option autoImplicit false

/-- A kind of secret, made from what is drawn. -/
structure Recipe (σ κ : Type) where
  create : κ → σ
  /-- The file of the secret that is made from a draw. -/
  text : κ → Bytes
  load : Bytes → Option σ

/-- What a start meets. -/
structure Boot (κ : Type) where
  reads : Bool
  drawn : κ
  written : Written

variable {σ κ : Type}

/-- The secret, unless it could not be written, and what becomes of its file. -/
def Recipe.ready (K : Recipe σ κ) (file : Option Bytes) (boot : Boot κ) :
    Option σ × Option Bytes :=
  match (if boot.reads then file else none).bind K.load with
  | some secret => (some secret, file)
  | none =>
    (if boot.written = .whole then some (K.create boot.drawn) else none,
      boot.written.leave file (K.text boot.drawn))

/-- What is asked of a format: a file that was cut off gives the whole secret or none. -/
structure Sound (K : Recipe σ κ) : Prop where
  load : ∀ k, K.load (K.text k) = some (K.create k)
  cut : ∀ k part secret, part <+: K.text k → K.load part = some secret → secret = K.create k

/-- The file gives this secret. -/
def Held (K : Recipe σ κ) (file : Option Bytes) (secret : σ) : Prop :=
  file.bind K.load = some secret

/-- Whatever the file gives was made from one of the draws. -/
def Made (K : Recipe σ κ) (draws : List κ) (file : Option Bytes) : Prop :=
  ∀ secret, Held K file secret → ∃ k ∈ draws, secret = K.create k

/-- The file is left alone, or it is written anew. -/
theorem ready_cases (K : Recipe σ κ) (file : Option Bytes) (boot : Boot κ) :
    (∃ secret, Held K file secret ∧ K.ready file boot = (some secret, file)) ∨
    K.ready file boot =
      (if boot.written = .whole then some (K.create boot.drawn) else none,
        boot.written.leave file (K.text boot.drawn)) := by
  unfold Recipe.ready
  split
  next secret hload =>
    refine Or.inl ⟨secret, ?_, rfl⟩
    split at hload
    · exact hload
    · cases hload
  next => exact Or.inr rfl

/-- A file that is written stays as it was or holds a beginning of the text. -/
theorem leave_cases (old : Option Bytes) (text : Bytes) (written : Written) :
    written.leave old text = old ∨ ∃ part, written.leave old text = some part ∧ part <+: text := by
  cases written with
  | refused => exact Or.inl rfl
  | cut n =>
    exact Or.inr ⟨_, rfl, (List.take_prefix n text.dropLast).trans (List.dropLast_prefix text)⟩
  | whole => exact Or.inr ⟨text, rfl, List.prefix_refl text⟩

variable {K : Recipe σ κ}

/-- A secret that the file gives is found again, and the file is not written. -/
theorem Held.ready {file : Option Bytes} {secret : σ} (h : Held K file secret)
    {boot : Boot κ} (hreads : boot.reads = true) :
    K.ready file boot = (some secret, file) := by
  rw [Recipe.ready, if_pos hreads, show file.bind K.load = some secret from h]

theorem Made.mono {draws more : List κ} {file : Option Bytes} (h : Made K draws file)
    (hmore : draws ⊆ more) : Made K more file := by
  intro secret hheld
  obtain ⟨k, hk, hsecret⟩ := h secret hheld
  exact ⟨k, hmore hk, hsecret⟩

theorem Made.ready (hK : Sound K) {draws : List κ} {file : Option Bytes}
    (h : Made K draws file) (boot : Boot κ) :
    Made K (draws ++ [boot.drawn]) (K.ready file boot).2 := by
  have hold := h.mono (List.subset_append_left draws [boot.drawn])
  rcases ready_cases K file boot with ⟨held, -, hready⟩ | hready
  · rw [hready]
    exact hold
  · rw [hready]
    rcases leave_cases file (K.text boot.drawn) boot.written with hleave | ⟨part, hleave, hpart⟩
    · simp only [hleave]
      exact hold
    · simp only [hleave]
      intro secret hheld
      exact ⟨boot.drawn, by simp, hK.cut _ part secret hpart hheld⟩

end VRGram.Lib.Keepsake
