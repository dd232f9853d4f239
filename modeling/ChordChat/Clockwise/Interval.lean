import ChordChat.Clockwise.Order

/-!
# Interval tests

A test with three branches makes a line a circle: `Between l x u` is the open interval from
`l` up to `u` when `l < u`, what lies above `l` or below `u` when `u < l`, and everything when
the bounds coincide. `CyclicTest` are the laws of such a test.
-/

namespace Clockwise

inductive Region where
  | lower
  | upper
  | inside
  | outside

section Laws
variable {α β : Type*} {r : α → α → α → Prop} {l u x : α}

/-- Where `x` is with respect to `l` and `u`; `r l x u` tells whether it is between them. -/
def LiesIn (r : α → α → α → Prop) (l u x : α) : Region → Prop
  | .lower => x = l
  | .upper => x = u
  | .inside => r l x u
  | .outside => r u x l

structure CyclicTest (r : α → α → α → Prop) : Prop where
  region : ∀ l u, l ≠ u → ∀ x, ∃! region, LiesIn r l u x region
  rotate : ∀ l x u, l ≠ x → x ≠ u → l ≠ u → (r l x u ↔ r x u l)
  nested : ∀ l u x y, l ≠ u → r l x u → r x y u → r l y u ∧ r l x y

theorem CyclicTest.comap {f : β → α} (h : CyclicTest r) (hf : Function.Injective f) :
    CyclicTest fun l x u => r (f l) (f x) (f u) where
  region l u hne x := by
    have hlies : ∀ region, LiesIn (fun l x u => r (f l) (f x) (f u)) l u x region ↔
        LiesIn r (f l) (f u) (f x) region := by
      intro region
      cases region with
      | lower => exact hf.eq_iff.symm
      | upper => exact hf.eq_iff.symm
      | inside => exact Iff.rfl
      | outside => exact Iff.rfl
    simp only [hlies]
    exact h.region _ _ (hf.ne hne) _
  rotate l x u hlx hxu hlu := h.rotate _ _ _ (hf.ne hlx) (hf.ne hxu) (hf.ne hlu)
  nested l u x y hne hx hy := h.nested _ _ _ _ (hf.ne hne) hx hy

theorem inArc_cyclicTest [CircularOrder α] : CyclicTest (@InArc α _) where
  region l u hne x := by
    have hin : InArc l x u ↔ sbtw l x u := inArc_of_ne hne
    have hout : InArc u x l ↔ sbtw u x l := inArc_of_ne hne.symm
    by_cases hxl : x = l
    · refine ⟨.lower, hxl, fun region h => ?_⟩
      subst hxl
      cases region with
      | lower => rfl
      | upper => exact absurd h hne
      | inside => exact absurd (hin.mp h) sbtw_irrefl_left
      | outside => exact absurd (hout.mp h) sbtw_irrefl_right
    · by_cases hxu : x = u
      · refine ⟨.upper, hxu, fun region h => ?_⟩
        subst hxu
        cases region with
        | lower => exact absurd h hxl
        | upper => rfl
        | inside => exact absurd (hin.mp h) sbtw_irrefl_right
        | outside => exact absurd (hout.mp h) sbtw_irrefl_left
      · rcases sbtw_or_sbtw (Ne.symm hxl) hxu hne with h | h
        · refine ⟨.inside, hin.mpr h, fun region h' => ?_⟩
          cases region with
          | lower => exact absurd h' hxl
          | upper => exact absurd h' hxu
          | inside => rfl
          | outside => exact absurd (hout.mp h').cyclic_right (sbtw_not_swap h)
        · refine ⟨.outside, hout.mpr h.cyclic_left, fun region h' => ?_⟩
          cases region with
          | lower => exact absurd h' hxl
          | upper => exact absurd h' hxu
          | inside => exact absurd h (sbtw_not_swap (hin.mp h'))
          | outside => rfl
  rotate l x u hlx hxu hlu := by
    rw [inArc_of_ne hlu, inArc_of_ne hlx.symm]
    exact ⟨fun h => h.cyclic_left, fun h => h.cyclic_right⟩
  nested l u x y hne hx hy := by
    have hxs := (inArc_of_ne hne).mp hx
    have hys := (inArc_of_ne (sbtw_ne_right hxs)).mp hy
    exact ⟨inArc_trans hx hy, Or.inr (sbtw_head hxs hys)⟩

end Laws

section Linear
variable {α : Type*} [LinearOrder α]

def Between (l x u : α) : Prop :=
  if l < u then l < x ∧ x < u else if u < l then l < x ∨ x < u else True

theorem between_iff_inArc {l x u : α} :
    Between l x u ↔ @InArc α (LinearOrder.toCircularOrder α) l x u := by
  have hin : @InArc α (LinearOrder.toCircularOrder α) l x u ↔
      l = u ∨ l < x ∧ x < u ∨ x < u ∧ u < l ∨ u < l ∧ l < x := Iff.rfl
  rw [hin, Between]
  rcases lt_trichotomy l u with h | h | h
  · have hng := h.not_gt
    have hne := h.ne
    simp only [h, if_true]
    grind
  · subst h
    simp
  · have hng := h.not_gt
    have hne := h.ne'
    simp only [h, hng, if_true, if_false]
    grind

theorem between_cyclicTest : CyclicTest (@Between α _) := by
  have heq : @Between α _ = @InArc α (LinearOrder.toCircularOrder α) := by
    funext l x u
    exact propext between_iff_inArc
  rw [heq]
  exact @inArc_cyclicTest α (LinearOrder.toCircularOrder α)

/-- The test as a program writes it, with an operator that compares keys. -/
theorem between_test {β : Type*} {less : β → β → Bool} {f : β → α}
    (h : ∀ a b, less a b = true ↔ f a < f b) (l x u : β) :
    (if less l u then less l x && less x u
      else if less u l then less l x || less x u else true) = true ↔
      Between (f l) (f x) (f u) := by
  simp only [Between, ← h]
  split
  · exact Bool.and_eq_true_iff
  · split
    · exact Bool.or_eq_true_iff
    · exact iff_of_true rfl trivial

end Linear

end Clockwise
