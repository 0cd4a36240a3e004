import Mathlib.Algebra.Ring.Nat
import VRGram.Lib.Machine

/-!
# Machines that come to an end

Some actions of a machine are idle: they may be taken at any time and get it nowhere. If every
other one uses up some of a weight, the others of a run can be counted; and if one of them is
always enabled until the machine is in a final state, every run can be completed, and no way of
choosing among them goes on for ever.
-/
namespace VRGram.Lib.Machine

set_option autoImplicit false

variable {σ α : Type} {step : σ → α → Option σ} {idle : σ → α → Prop}

section

variable [∀ s a, Decidable (idle s a)]

/-- The actions of a run that are not idle when they are taken. -/
def labours (step : σ → α → Option σ) (idle : σ → α → Prop) [∀ s a, Decidable (idle s a)] :
    σ → List α → Nat
  | _, [] => 0
  | s, a :: rest =>
    (if idle s a then 0 else 1) +
      match step s a with
      | some s' => labours step idle s' rest
      | none => 0

/-- Every step leaves the weight as it is or takes from it, and takes from it unless it is
idle. -/
def Wanes (step : σ → α → Option σ) (idle : σ → α → Prop) [∀ s a, Decidable (idle s a)]
    (weight : σ → Nat) : Prop :=
  ∀ s a t, step s a = some t → weight t + (if idle s a then 0 else 1) ≤ weight s

variable {weight : σ → Nat}

theorem Wanes.labours_le (h : Wanes step idle weight) {s t : σ} {actions : List α}
    (hrun : run step s actions = some t) :
    labours step idle s actions + weight t ≤ weight s := by
  induction actions generalizing s with
  | nil =>
    obtain rfl := Option.some.inj hrun
    simp only [labours, Nat.zero_add, Nat.le_refl]
  | cons a rest ih =>
    obtain ⟨s', hstep, hrest⟩ := run_cons.mp hrun
    have hfirst := h s a s' hstep
    have hlater := ih hrest
    simp only [labours, hstep]
    omega

/-- A machine that can always work, until it is done, gets done. -/
theorem Wanes.completes (h : Wanes step idle weight) (Inv Final : σ → Prop)
    (hinv : ∀ s a t, Inv s → step s a = some t → Inv t)
    (hwork : ∀ s, Inv s → ¬ Final s → ∃ a t, ¬ idle s a ∧ step s a = some t) {s : σ}
    (hs : Inv s) : ∃ actions t, run step s actions = some t ∧ Final t := by
  generalize hn : weight s = n
  induction n using Nat.strongRecOn generalizing s with
  | ind n ih =>
    by_cases hfinal : Final s
    · exact ⟨[], s, rfl, hfinal⟩
    · obtain ⟨a, t, hidle, hstep⟩ := hwork s hs hfinal
      have hless := h s a t hstep
      rw [if_neg hidle] at hless
      obtain ⟨rest, u, hrest, hu⟩ := ih (weight t) (by omega) (hinv s a t hs hstep) rfl
      exact ⟨a :: rest, u, run_cons.mpr ⟨t, hstep, hrest⟩, hu⟩

end

/-- What a change of one entry does to a sum over a list. -/
theorem sum_map_set {β : Type} (f : β → Nat) {l : List β} {k : Nat} {a : β} (hk : l[k]? = some a)
    (b : β) : ((l.set k b).map f).sum + f a = (l.map f).sum + f b := by
  induction l generalizing k with
  | nil => cases hk
  | cons x l ih =>
    cases k with
    | zero =>
      obtain rfl := Option.some.inj hk
      simp only [List.set_cons_zero, List.map_cons, List.sum_cons]
      omega
    | succ k =>
      have hrest := ih hk
      simp only [List.set_cons_succ, List.map_cons, List.sum_cons]
      omega

end VRGram.Lib.Machine
