import Mathlib.Data.List.Basic

/-!
# Machines with partial steps

A machine is a step function that is undefined where an action is not enabled. An
interleaving of several parties is a list of actions, so a property of every
interleaving is a property of every run. The two invariant rules below are the only
inductions over runs that clients need.
-/
namespace VRGram.Lib.Machine

set_option autoImplicit false

variable {σ α : Type} {step : σ → α → Option σ}

/-- The state after a list of actions, if each was enabled in its turn. -/
def run (step : σ → α → Option σ) : σ → List α → Option σ
  | s, [] => some s
  | s, a :: rest => (step s a).bind (fun s' => run step s' rest)

/-- Every action of the run meets `ok` in the state in which it is taken. -/
def Meets (step : σ → α → Option σ) (ok : σ → α → Prop) : σ → List α → Prop
  | _, [] => True
  | s, a :: rest => ok s a ∧ ∀ s', step s a = some s' → Meets step ok s' rest

/-- A decidable guard can be checked along a concrete run. -/
instance Meets.decidable {ok : σ → α → Prop} [∀ s a, Decidable (ok s a)] :
    (s : σ) → (actions : List α) → Decidable (Meets step ok s actions)
  | _, [] => isTrue trivial
  | s, a :: rest =>
    match h : step s a with
    | none => decidable_of_iff (ok s a)
        ⟨fun hok => ⟨hok, fun s' hs => by rw [h] at hs; cases hs⟩, fun hm => hm.1⟩
    | some s' =>
      have : Decidable (Meets step ok s' rest) := Meets.decidable s' rest
      decidable_of_iff (ok s a ∧ Meets step ok s' rest)
        ⟨fun hm => ⟨hm.1, fun t hs => by rw [h] at hs; cases hs; exact hm.2⟩,
          fun hm => ⟨hm.1, hm.2 s' h⟩⟩

theorem run_nil (s : σ) : run step s [] = some s := rfl

theorem run_cons {s t : σ} {a : α} {rest : List α} :
    run step s (a :: rest) = some t ↔ ∃ s', step s a = some s' ∧ run step s' rest = some t := by
  rw [run, Option.bind_eq_some_iff]

theorem run_append {s t : σ} {xs ys : List α} :
    run step s (xs ++ ys) = some t ↔ ∃ u, run step s xs = some u ∧ run step u ys = some t := by
  induction xs generalizing s with
  | nil => simp [run_nil]
  | cons a xs ih =>
    rw [List.cons_append, run_cons]
    constructor
    · intro h
      obtain ⟨s', hs, hr⟩ := h
      obtain ⟨u, hu, ht⟩ := ih.mp hr
      exact ⟨u, run_cons.mpr ⟨s', hs, hu⟩, ht⟩
    · intro h
      obtain ⟨u, hu, ht⟩ := h
      obtain ⟨s', hs, hr⟩ := run_cons.mp hu
      exact ⟨s', hs, ih.mpr ⟨u, hr, ht⟩⟩

theorem meets_append {ok : σ → α → Prop} {s : σ} {xs ys : List α} :
    Meets step ok s (xs ++ ys) ↔
      Meets step ok s xs ∧ ∀ u, run step s xs = some u → Meets step ok u ys := by
  induction xs generalizing s with
  | nil =>
    constructor
    · intro h
      refine ⟨trivial, fun u hu => ?_⟩
      obtain rfl := Option.some.inj hu
      exact h
    · intro h
      exact h.2 s rfl
  | cons a xs ih =>
    constructor
    · rintro ⟨ha, h⟩
      refine ⟨⟨ha, fun s' hs => (ih.mp (h s' hs)).1⟩, fun u hu => ?_⟩
      obtain ⟨s', hs, hr⟩ := run_cons.mp hu
      exact (ih.mp (h s' hs)).2 u hr
    · rintro ⟨⟨ha, hxs⟩, hys⟩
      refine ⟨ha, fun s' hs => ih.mpr ⟨hxs s' hs, fun u hu => ?_⟩⟩
      exact hys u (run_cons.mpr ⟨s', hs, hu⟩)

/-- What every guarded step preserves holds after every guarded run. -/
theorem run_guarded {ok : σ → α → Prop} {Inv : σ → Prop}
    (hstep : ∀ s a s', Inv s → ok s a → step s a = some s' → Inv s') {s t : σ} {actions : List α}
    (hi : Inv s) (hok : Meets step ok s actions) (hr : run step s actions = some t) : Inv t := by
  induction actions generalizing s with
  | nil =>
    obtain rfl := Option.some.inj hr
    exact hi
  | cons a rest ih =>
    obtain ⟨s', hs, hr'⟩ := run_cons.mp hr
    exact ih (hstep s a s' hi hok.1 hs) (hok.2 s' hs) hr'

/-- A guard that holds everywhere is met. -/
theorem meets_of_holds {ok : σ → α → Prop} (h : ∀ s a, ok s a) (s : σ) (actions : List α) :
    Meets step ok s actions := by
  induction actions generalizing s with
  | nil => trivial
  | cons a rest ih => exact ⟨h s a, fun s' _ => ih s'⟩

theorem meets_true (s : σ) (actions : List α) : Meets step (fun _ _ => True) s actions :=
  meets_of_holds (fun _ _ => trivial) s actions

theorem meets_and {ok ok' : σ → α → Prop} {s : σ} {actions : List α} (h : Meets step ok s actions)
    (h' : Meets step ok' s actions) : Meets step (fun s a => ok s a ∧ ok' s a) s actions := by
  induction actions generalizing s with
  | nil => trivial
  | cons a rest ih => exact ⟨⟨h.1, h'.1⟩, fun s' hs => ih (h.2 s' hs) (h'.2 s' hs)⟩

/-- A guard that reads only the action is met when every action of the list passes it. -/
theorem meets_of_forall {ok : α → Prop} {actions : List α} (h : ∀ a ∈ actions, ok a) (s : σ) :
    Meets step (fun _ a => ok a) s actions := by
  induction actions generalizing s with
  | nil => trivial
  | cons a rest ih =>
    exact ⟨h a List.mem_cons_self, fun s' _ => ih (fun b hb => h b (List.mem_cons_of_mem a hb)) s'⟩

/-- Two guards that agree wherever an invariant holds, which guarded steps preserve, are
met by the same runs. -/
theorem meets_iff_of_invariant {ok ok' : σ → α → Prop} {Inv : σ → Prop}
    (h : ∀ s a, Inv s → (ok s a ↔ ok' s a))
    (hstep : ∀ s a s', Inv s → ok s a → step s a = some s' → Inv s') {s : σ} (hi : Inv s)
    (actions : List α) : Meets step ok s actions ↔ Meets step ok' s actions := by
  induction actions generalizing s with
  | nil => exact Iff.rfl
  | cons a rest ih =>
    constructor
    · rintro ⟨hok, hrest⟩
      refine ⟨(h s a hi).mp hok, fun s' hs => ?_⟩
      exact (ih (hstep s a s' hi hok hs)).mp (hrest s' hs)
    · rintro ⟨hok', hrest⟩
      have hok := (h s a hi).mpr hok'
      refine ⟨hok, fun s' hs => ?_⟩
      exact (ih (hstep s a s' hi hok hs)).mpr (hrest s' hs)

/-- What holds of every guarded action, where an invariant of the guarded steps does, is met. -/
theorem meets_of_guarded {ok ok' : σ → α → Prop} {Inv : σ → Prop}
    (h : ∀ s a, Inv s → ok s a → ok' s a)
    (hstep : ∀ s a s', Inv s → ok s a → step s a = some s' → Inv s') {s : σ} {actions : List α}
    (hi : Inv s) (hok : Meets step ok s actions) : Meets step ok' s actions := by
  induction actions generalizing s with
  | nil => trivial
  | cons a rest ih =>
    refine ⟨h s a hi hok.1, fun s' hs => ?_⟩
    exact ih (hstep s a s' hi hok.1 hs) (hok.2 s' hs)

theorem meets_congr {ok ok' : σ → α → Prop} (h : ∀ s a, ok s a ↔ ok' s a) (s : σ)
    (actions : List α) : Meets step ok s actions ↔ Meets step ok' s actions :=
  meets_iff_of_invariant (fun s a (_ : True) => h s a) (fun _ _ _ _ _ _ => trivial) trivial actions

/-- What every step preserves holds after every run. -/
theorem run_invariant {Inv : σ → Prop}
    (hstep : ∀ s a s', Inv s → step s a = some s' → Inv s') {s t : σ} {actions : List α}
    (hi : Inv s) (hr : run step s actions = some t) : Inv t :=
  run_guarded (fun s a s' h _ hs => hstep s a s' h hs) hi (meets_true s actions) hr

/-- A property of every state that a run passes through, up to where it gets stuck. -/
def Always (step : σ → α → Option σ) (Inv : σ → Prop) (s : σ) (actions : List α) : Prop :=
  ∀ taken t, taken <+: actions → run step s taken = some t → Inv t

/-- It holds always exactly when it holds at first and no step of the run ends it. -/
theorem always_iff_meets {Inv : σ → Prop} {s : σ} {actions : List α} :
    Always step Inv s actions ↔
      Inv s ∧ Meets step (fun s a => ∀ s', step s a = some s' → Inv s') s actions := by
  constructor
  · intro h
    refine ⟨h [] s (List.nil_prefix) rfl, ?_⟩
    induction actions generalizing s with
    | nil => trivial
    | cons a rest ih =>
      have hfirst : ∀ s', step s a = some s' → Inv s' := by
        intro s' hs
        refine h [a] s' ?_ (run_cons.mpr ⟨s', hs, rfl⟩)
        exact List.cons_prefix_cons.mpr ⟨rfl, List.nil_prefix⟩
      refine ⟨hfirst, fun s' hs => ih ?_⟩
      intro taken t hp hr
      exact h (a :: taken) t (List.cons_prefix_cons.mpr ⟨rfl, hp⟩) (run_cons.mpr ⟨s', hs, hr⟩)
  · intro h
    obtain ⟨hi, hm⟩ := h
    intro taken t hp hr
    induction taken generalizing s actions with
    | nil =>
      obtain rfl := Option.some.inj hr
      exact hi
    | cons a taken ih =>
      obtain ⟨rest, rfl⟩ := hp
      obtain ⟨s', hs, hr'⟩ := run_cons.mp hr
      exact ih (hm.1 s' hs) (hm.2 s' hs) (List.prefix_append taken rest) hr'

/-- What every guarded step preserves holds always. -/
theorem always_of_guarded {ok : σ → α → Prop} {Inv : σ → Prop}
    (hstep : ∀ s a s', Inv s → ok s a → step s a = some s' → Inv s') {s : σ} {actions : List α}
    (hi : Inv s) (hok : Meets step ok s actions) : Always step Inv s actions := by
  refine always_iff_meets.mpr ⟨hi, ?_⟩
  exact meets_of_guarded (fun s a hs ha s' h => hstep s a s' hs ha h) hstep hi hok

/-- A history that is computed from the actions alone stays related to the state, as long as the
actions are taken where they may be. -/
theorem run_history_guarded {γ : Type} {record : γ → α → γ} {ok : σ → α → Prop}
    {R : σ → γ → Prop}
    (hstep : ∀ s a s' g, R s g → ok s a → step s a = some s' → R s' (record g a)) {s t : σ} {g : γ}
    {actions : List α} (hi : R s g) (hok : Meets step ok s actions)
    (hr : run step s actions = some t) : R t (actions.foldl record g) := by
  induction actions generalizing s g with
  | nil =>
    obtain rfl := Option.some.inj hr
    exact hi
  | cons a rest ih =>
    obtain ⟨s', hs, hr'⟩ := run_cons.mp hr
    exact ih (hstep s a s' g hi hok.1 hs) (hok.2 s' hs) hr'

/-- The same for actions that may be taken anywhere. -/
theorem run_history {γ : Type} {record : γ → α → γ} {R : σ → γ → Prop}
    (hstep : ∀ s a s' g, R s g → step s a = some s' → R s' (record g a)) {s t : σ} {g : γ}
    {actions : List α} (hi : R s g) (hr : run step s actions = some t) :
    R t (actions.foldl record g) :=
  run_history_guarded (fun s a s' g h _ hs => hstep s a s' g h hs) hi (meets_true s actions) hr

/-- The same for the list of the actions themselves. -/
theorem run_taken {R : σ → List α → Prop}
    (hstep : ∀ s a s' taken, R s taken → step s a = some s' → R s' (taken ++ [a])) {s t : σ}
    {actions : List α} (hi : R s []) (hr : run step s actions = some t) : R t actions := by
  have hall := run_history hstep hi hr
  rwa [List.foldl_append_eq_append, List.nil_append, ← List.flatMap_def,
    List.flatMap_singleton'] at hall

/-- What the actions of a run put out, each in the state in which it is taken. -/
def outputs {β : Type} (step : σ → α → Option σ) (out : σ → α → List β) : σ → List α → List β
  | _, [] => []
  | s, a :: rest => out s a ++ ((step s a).map (fun s' => outputs step out s' rest)).getD []

/-- The outputs so far stay related to the state. -/
theorem run_outputs {β : Type} {out : σ → α → List β} {R : σ → List β → Prop}
    (hstep : ∀ s a s' got, R s got → step s a = some s' → R s' (got ++ out s a)) {s t : σ}
    {got : List β} {actions : List α} (hi : R s got) (hr : run step s actions = some t) :
    R t (got ++ outputs step out s actions) := by
  induction actions generalizing s got with
  | nil =>
    obtain rfl := Option.some.inj hr
    rw [outputs, List.append_nil]
    exact hi
  | cons a rest ih =>
    obtain ⟨s', hs, hr'⟩ := run_cons.mp hr
    rw [outputs, hs, Option.map_some, Option.getD_some, ← List.append_assoc]
    exact ih (hstep s a s' got hi hs) hr'

end VRGram.Lib.Machine
