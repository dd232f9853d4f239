import ChordChat.Clockwise.Ideal
import ChordChat.Clockwise.Tightening

/-!
# A ring with one gap

Some points of the ideal ring of `J` are gone, `S` are the members left, and only the
member `i` has lost its pointer (`Mending`). Every other member points to its next one
and is pointed back to, so from wherever `i` points the back pointers lead to its next
member `n`, member by member (`Mending.back`).
-/

namespace Clockwise
variable {α : Type*} [CircularOrder α] {J S members : Finset α}

/-! ### Next members -/

theorem IsNext.mono {x y : α} (h : IsNext J x y) (hS : S ⊆ J) (hy : y ∈ S) : IsNext S x y :=
  ⟨hy, fun m hm => h.2 m (hS hm)⟩

theorem IsNext.unique_right {x y z : α} (hy : IsNext members x y) (hz : IsNext members x z) :
    y = z := by
  by_contra hne
  by_cases hxy : x = y
  · subst hxy
    exact hy.2 z hz.1 (Ne.symm hne) (Ne.symm hne) (inArc_self x z)
  · by_cases hxz : x = z
    · subst hxz
      exact hz.2 y hy.1 hne hne (inArc_self x y)
    · rcases sbtw_or_sbtw hxy hne hxz with hb | hb
      · exact hz.2 y hy.1 (Ne.symm hxy) hne (Or.inr hb)
      · exact hy.2 z hz.1 (Ne.symm hxz) (Ne.symm hne) (Or.inr hb)

/-- The pointer that passes over the fewest members leads to the next one. -/
theorem exists_isNext {i : α} (hi : i ∈ members) : ∃ n, IsNext members i n := by
  obtain ⟨n, hn, hmin⟩ := Finset.exists_min_image members (fun y => (between members i y).card)
    ⟨i, hi⟩
  refine ⟨n, hn, fun m hm _ hmn hin => ?_⟩
  have hlt := between_lt_of_adopt hm hin hmn
  have hle := hmin m hm
  omega

/-- The member before `w` lies on the arc from any other member to `w`. -/
theorem IsNext.inArc_before {i v w : α} (h : IsNext members v w) (hi : i ∈ members) (hv : v ≠ i) :
    InArc i v w := by
  by_cases hiw : i = w
  · exact Or.inl hiw
  · have hout := h.2 i hi (Ne.symm hv) hiw
    by_cases hvw : v = w
    · exact absurd (Or.inl hvw) hout
    · rcases sbtw_or_sbtw (Ne.symm hv) hvw hiw with hb | hb
      · exact Or.inr hb
      · exact absurd (Or.inr hb.cyclic_right) hout

variable {f : α → α} {b : α → Option α}

/-- Next members that point back make the ring ideal: every member is the next of one. -/
theorem idealRing_of_next (h : ∀ j ∈ S, IsNext S j (f j) ∧ b (f j) = some j) : IdealRing S f b := by
  have hmaps : Set.MapsTo f S S := fun j hj => (h j hj).1.1
  have hinj : Set.InjOn f S := by
    intro x hx y hy he
    have hback := (h x hx).2
    rw [he, (h y hy).2] at hback
    exact (Option.some.inj hback).symm
  intro j hj
  obtain ⟨q, hq, rfl⟩ := Finset.surjOn_of_injOn_of_card_le f hmaps hinj le_rfl hj
  exact ⟨(h _ hj).1, q, hq, (h q hq).2, (h q hq).1⟩

/-! ### The gap -/

/-- The ring of `S` but for the pointer of `i`; the next member `n` of `i` points back to
nothing, to a point of the gap that is gone, or to `i`, which then points to it. -/
structure Mending (J S : Finset α) (i n : α) (f : α → α) (b : α → Option α) : Prop where
  own : i ∈ S
  next : IsNext S i n
  others : ∀ j ∈ S, j ≠ i → IsNext S j (f j) ∧ b (f j) = some j
  gap : b n = none ∨ (∃ x ∈ J, b n = some x ∧ x ∉ S ∧ InArc i x n) ∨ f i = n ∧ b n = some i

variable {i n : α}

theorem Mending.of_ideal (h : IdealRing J f b) (hS : S ⊆ J) (hi : i ∈ S)
    (hlost : ∀ j ∈ S, j ≠ i → f j ∈ S) (hn : IsNext S i n) : Mending J S i n f b where
  own := hi
  next := hn
  others j hj hji :=
    ⟨(h j (hS hj)).1.mono hS (hlost j hj hji), h.back_pointer (hS hj)⟩
  gap := by
    obtain ⟨x, hx, hb, hnext⟩ := (h n (hS hn.1)).2
    have hfx : f x = n := (h x hx).1.unique_right hnext
    by_cases hxi : x = i
    · exact Or.inr (Or.inr ⟨hxi ▸ hfx, hxi ▸ hb⟩)
    · have hxS : x ∉ S := fun hxS => hxi ((hnext.mono hS hn.1).unique_left hxS hi hn)
      exact Or.inr (Or.inl ⟨x, hx, hb, hxS, hnext.inArc_before (hS hi) hxi⟩)

theorem Mending.ideal (h : Mending J S i n f b) (hf : f i = n) (hb : b n = some i) :
    IdealRing S f b := by
  apply idealRing_of_next
  intro j hj
  by_cases hji : j = i
  · rw [hji, hf]
    exact ⟨h.next, hb⟩
  · exact h.others j hj hji

/-- Whoever but `n` the member `i` points to, its back pointer leads closer to `n`. -/
theorem Mending.back (h : Mending J S i n f b) {w : α} (hw : w ∈ S) (hne : w ≠ n) :
    ∃ v ∈ S, v ≠ i ∧ b w = some v ∧ IsNext S v w ∧ InArc i v w ∧
      (between S i v).card < (between S i w).card := by
  -- the member before `w`: `f` is injective on the members but `i`, which go to all but `n`
  have hsurj : ∃ v ∈ S, v ≠ i ∧ f v = w := by
    classical
    have hmaps : Set.MapsTo f (S.erase i) (S.erase n) := by
      intro j hj
      obtain ⟨hji, hj⟩ := Finset.mem_erase.mp (Finset.mem_coe.mp hj)
      have hnext := (h.others j hj hji).1
      refine Finset.mem_coe.mpr (Finset.mem_erase.mpr ⟨fun he => ?_, hnext.1⟩)
      exact hji ((he ▸ hnext).unique_left hj h.own h.next)
    have hinj : Set.InjOn f (S.erase i) := by
      intro x hx y hy he
      obtain ⟨hxi, hx⟩ := Finset.mem_erase.mp (Finset.mem_coe.mp hx)
      obtain ⟨hyi, hy⟩ := Finset.mem_erase.mp (Finset.mem_coe.mp hy)
      have hback := (h.others x hx hxi).2
      rw [he, (h.others y hy hyi).2] at hback
      exact (Option.some.inj hback).symm
    have hcard : (S.erase n).card ≤ (S.erase i).card := by
      rw [Finset.card_erase_of_mem h.next.1, Finset.card_erase_of_mem h.own]
    obtain ⟨v, hv, hfv⟩ := Finset.surjOn_of_injOn_of_card_le f hmaps hinj hcard
      (Finset.mem_coe.mpr (Finset.mem_erase.mpr ⟨hne, hw⟩))
    obtain ⟨hvi, hv⟩ := Finset.mem_erase.mp (Finset.mem_coe.mp hv)
    exact ⟨v, hv, hvi, hfv⟩
  obtain ⟨v, hv, hvi, rfl⟩ := hsurj
  obtain ⟨hnext, hback⟩ := h.others v hv hvi
  have harc := hnext.inArc_before h.own hvi
  have hvw : v ≠ f v := fun he =>
    hnext.2 i h.own (Ne.symm hvi) (fun hi => hvi (he.trans hi.symm)) (Or.inl he)
  exact ⟨v, hv, hvi, hback, hnext, harc, between_lt_of_adopt hv harc hvw⟩

end Clockwise
