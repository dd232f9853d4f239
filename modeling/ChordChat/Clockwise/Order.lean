import Mathlib.Order.Circular
import Mathlib.Data.Finset.Card
import Mathlib.Data.Fintype.EquivFin

/-!
# Clockwise order of points on a circle

`sbtw a b c` of a circular order is read clockwise: going from `a` one meets
`b` strictly before `c`. This file adds the interval test of a ring protocol
(`InArc`, whole circle when the two bounds coincide), the case analysis of three
distinct points, and the measure that makes clockwise walks end.
-/

namespace Clockwise
variable {α : Type*} [CircularOrder α]

/-- `x` lies on the open arc from `lower` to `upper`. Equal bounds stand for
the whole circle, bound included. -/
def InArc (lower x upper : α) : Prop := lower = upper ∨ sbtw lower x upper

theorem inArc_self (a x : α) : InArc a x a := Or.inl rfl

theorem inArc_of_ne {a x b : α} (hab : a ≠ b) : InArc a x b ↔ sbtw a x b := by
  constructor
  · rintro (h | h)
    · exact absurd h hab
    · exact h
  · exact Or.inr

theorem sbtw_ne_left {a b c : α} (h : sbtw a b c) : a ≠ b := by
  rintro rfl
  exact sbtw_irrefl_left h

theorem sbtw_ne_right {a b c : α} (h : sbtw a b c) : b ≠ c := by
  rintro rfl
  exact sbtw_irrefl_right h

theorem sbtw_ne {a b c : α} (h : sbtw a b c) : a ≠ c := by
  rintro rfl
  exact sbtw_irrefl_left_right h

theorem sbtw_not_swap {a b c : α} (h : sbtw a b c) : ¬ sbtw a c b :=
  fun h' => sbtw_asymm h h'.cyclic_left

theorem sbtw_or_sbtw {a b c : α} (hab : a ≠ b) (hbc : b ≠ c) (hac : a ≠ c) :
    sbtw a b c ∨ sbtw a c b := by
  by_cases h : btw c b a
  · refine Or.inr ((sbtw_of_btw_not_btw h ?_).cyclic_right)
    intro h'
    rcases btw_antisymm h h' with he | he | he
    · exact hbc he.symm
    · exact hab he.symm
    · exact hac he
  · exact Or.inl (sbtw_iff_not_btw.mpr h)

theorem sbtw_tail {a b c d : α} (hb : sbtw a b d) (hc : sbtw a c b) : sbtw c b d :=
  (sbtw_trans_right hb.cyclic_left hc.cyclic_right).cyclic_right

theorem sbtw_head {a b c d : α} (hb : sbtw a b d) (hc : sbtw b c d) : sbtw a b c :=
  (sbtw_trans_right hc hb.cyclic_left).cyclic_right

theorem inArc_trans {a b x y : α} (hx : InArc a x b) (hy : InArc x y b) : InArc a y b := by
  rcases hx with h | hx
  · exact Or.inl h
  · rcases hy with h | hy
    · exact absurd h (sbtw_ne_right hx)
    · exact Or.inr (hx.trans_left hy)

/-- Of two points the one that is not strictly between the other and `b` is the closer to `b`. -/
theorem inArc_total {a x b : α} (h : ¬ InArc a x b) : a = x ∨ InArc x a b := by
  by_cases hax : a = x
  · exact Or.inl hax
  · right
    by_cases hxb : x = b
    · exact Or.inl hxb
    · have hab : a ≠ b := fun he => h (Or.inl he)
      rcases sbtw_or_sbtw hax hxb hab with hb | hb
      · exact absurd (Or.inr hb) h
      · exact Or.inr hb.cyclic_right

/-! ### Walks toward a fixed point -/

/-- Number of points of `S` strictly inside the arc from `x` to `target`. -/
noncomputable def ahead (S : Finset α) (target x : α) : ℕ := by
  classical exact (S.filter fun y => sbtw x y target).card

theorem ahead_lt {S : Finset α} {target x y : α} (hy : y ∈ S) (h : sbtw x y target) :
    ahead S target y < ahead S target x := by
  classical
  apply Finset.card_lt_card
  refine (Finset.ssubset_iff_of_subset ?_).mpr ⟨y, ?_, ?_⟩
  · intro z hz
    rw [Finset.mem_filter] at hz ⊢
    exact ⟨hz.1, h.trans_left hz.2⟩
  · exact Finset.mem_filter.mpr ⟨hy, h⟩
  · simp only [Finset.mem_filter, not_and]
    exact fun _ => sbtw_irrefl_left

theorem wellFounded_toward [Finite α] (target : α) :
    WellFounded fun y x : α => sbtw x y target := by
  have _ : Fintype α := Fintype.ofFinite α
  refine Subrelation.wf ?_ (measure (ahead Finset.univ target)).wf
  intro y x h
  exact ahead_lt (Finset.mem_univ y) h

end Clockwise
