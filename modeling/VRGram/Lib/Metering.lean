import Mathlib.Algebra.Order.Group.Defs
import Mathlib.Algebra.Order.Group.MinMax
import Mathlib.Algebra.BigOperators.Group.List.Basic
import Mathlib.Tactic.Abel

/-!
# A reserve with a cap

What flows into a reserve is lost above the cap, and what is drawn from it has to be there. Over
any number of draws the sum drawn is at most what was there at first and what flowed in since;
at the first draw of a window that is at most the cap.
-/
namespace VRGram.Lib.Metering

set_option autoImplicit false

variable {K : Type}

/-- A draw: what flowed in before it, and what it takes. -/
structure Draw (K : Type) where
  gain : K
  spent : K

variable [AddCommGroup K] [LinearOrder K]

/-- What a draw leaves. -/
def Draw.left (cap level : K) (d : Draw K) : K := min cap (level + d.gain) - d.spent

/-- What a list of draws leaves. -/
def left (cap level : K) (draws : List (Draw K)) : K := draws.foldl (Draw.left cap) level

/-- Nothing flows out but by a draw, and every draw is within what is there. -/
def Covered (cap : K) : K → List (Draw K) → Prop
  | _, [] => True
  | level, d :: rest =>
    0 ≤ d.gain ∧ 0 ≤ d.spent ∧ 0 ≤ d.left cap level ∧ Covered cap (d.left cap level) rest

variable {cap level : K}

variable [IsOrderedAddMonoid K]

theorem Draw.left_le_cap {d : Draw K} (h : 0 ≤ d.spent) : d.left cap level ≤ cap :=
  (sub_le_self _ h).trans (min_le_left _ _)

/-- The reserve stays between nothing and the cap. -/
theorem left_bounds {draws : List (Draw K)} (h : Covered cap level draws) (hlow : 0 ≤ level)
    (hhigh : level ≤ cap) : 0 ≤ left cap level draws ∧ left cap level draws ≤ cap := by
  induction draws generalizing level with
  | nil => exact ⟨hlow, hhigh⟩
  | cons d rest ih =>
    obtain ⟨-, hspent, hleft, hrest⟩ := h
    exact ih hrest hleft (Draw.left_le_cap hspent)

/-- The balance: what was drawn and what is left were there or flowed in. -/
theorem spent_add_left_le (cap level : K) (draws : List (Draw K)) :
    (draws.map Draw.spent).sum + left cap level draws ≤ level + (draws.map Draw.gain).sum := by
  induction draws generalizing level with
  | nil => simp [left]
  | cons d rest ih =>
    have hdraw : d.spent + d.left cap level ≤ level + d.gain := by
      rw [Draw.left, add_sub_cancel]
      exact min_le_right _ _
    calc ((d :: rest).map Draw.spent).sum + left cap level (d :: rest)
        = d.spent + ((rest.map Draw.spent).sum + left cap (d.left cap level) rest) := by
          rw [List.map_cons, List.sum_cons, add_assoc]
          rfl
      _ ≤ d.spent + (d.left cap level + (rest.map Draw.gain).sum) :=
          add_le_add le_rfl (ih (d.left cap level))
      _ = (d.spent + d.left cap level) + (rest.map Draw.gain).sum := by rw [add_assoc]
      _ ≤ (level + d.gain) + (rest.map Draw.gain).sum := by gcongr
      _ = level + ((d :: rest).map Draw.gain).sum := by
          rw [List.map_cons, List.sum_cons, add_assoc]

/-- Over a window the sum drawn is at most the cap and what flowed in after the first draw. -/
theorem window_spent_le {d : Draw K} {rest : List (Draw K)} (h : Covered cap level (d :: rest)) :
    ((d :: rest).map Draw.spent).sum ≤ cap + (rest.map Draw.gain).sum := by
  obtain ⟨-, hspent, hleft, hrest⟩ := h
  have hend := (left_bounds hrest hleft (Draw.left_le_cap hspent)).1
  have hbalance := spent_add_left_le cap (d.left cap level) rest
  have hfirst : d.spent + d.left cap level ≤ cap := by
    rw [Draw.left, add_sub_cancel]
    exact min_le_left _ _
  calc ((d :: rest).map Draw.spent).sum
      = d.spent + (rest.map Draw.spent).sum := by rw [List.map_cons, List.sum_cons]
    _ ≤ d.spent + ((rest.map Draw.spent).sum + left cap (d.left cap level) rest) := by
        gcongr
        exact le_add_of_nonneg_right hend
    _ ≤ d.spent + (d.left cap level + (rest.map Draw.gain).sum) := by gcongr
    _ = (d.spent + d.left cap level) + (rest.map Draw.gain).sum := by rw [add_assoc]
    _ ≤ cap + (rest.map Draw.gain).sum := by gcongr

end VRGram.Lib.Metering
