import ChordChat.Clockwise.Order
import Mathlib.Data.Finset.Max
import Mathlib.Dynamics.PeriodicPts.Defs
import Mathlib.Logic.Relation

/-!
# Pointers on a circle

Every point carries one pointer `f`. When no pointer of a finite set jumps over
one fixed point (`Rooted`), all of them lead to a single cycle, and that cycle
goes around the circle once (`Rooted.oneRing`).
-/

namespace Clockwise
variable {α : Type*} {f : α → α} {root : α}

def Reaches (f : α → α) : α → α → Prop := Relation.ReflTransGen fun a b => f a = b

def OnCycle (f : α → α) (c : α) : Prop := c ∈ Function.periodicPts f

theorem reaches_iterate (f : α → α) (x : α) (k : ℕ) : Reaches f x (f^[k] x) := by
  induction k with
  | zero => exact .refl
  | succ k ih => exact ih.tail (Function.iterate_succ_apply' f k x).symm

theorem reaches_iff_iterate {x y : α} : Reaches f x y ↔ ∃ k, f^[k] x = y := by
  constructor
  · intro h
    induction h with
    | refl => exact ⟨0, rfl⟩
    | tail _ he ih =>
      obtain ⟨k, hk⟩ := ih
      exact ⟨k + 1, by rw [Function.iterate_succ_apply', hk, he]⟩
  · rintro ⟨k, rfl⟩
    exact reaches_iterate f x k

theorem OnCycle.reaches_back {c d : α} (hc : OnCycle f c) (h : Reaches f c d) :
    Reaches f d c := by
  obtain ⟨n, hn, hp⟩ := hc
  obtain ⟨k, rfl⟩ := reaches_iff_iterate.mp h
  have hk : k ≤ n * (k + 1) := (Nat.le_succ k).trans (Nat.le_mul_of_pos_left _ hn)
  have hback : f^[n * (k + 1) - k] (f^[k] c) = c := by
    rw [← Function.iterate_add_apply, Nat.sub_add_cancel hk]
    exact hp.mul_const (k + 1)
  exact reaches_iff_iterate.mpr ⟨_, hback⟩

theorem OnCycle.of_reaches {c d : α} (hc : OnCycle f c) (h : Reaches f c d) : OnCycle f d := by
  obtain ⟨n, hn, hp⟩ := hc
  obtain ⟨k, rfl⟩ := reaches_iff_iterate.mp h
  exact ⟨n, hn, hp.apply_iterate k⟩

def Reaches.Short (root : α) (f : α → α) : α → α → Prop :=
  Relation.ReflTransGen fun a b => a ≠ root ∧ f a = b

theorem short_total {x c d : α} (hc : Reaches.Short root f x c) (hd : Reaches.Short root f x d) :
    Reaches.Short root f c d ∨ Reaches.Short root f d c :=
  Relation.ReflTransGen.total_of_right_unique
    (fun _ _ _ h1 h2 => h1.2.symm.trans h2.2) hc hd

theorem short_of_reaches {d : α} (h : Reaches f root d) (hd : d ≠ root) :
    Reaches.Short root f (f root) d := by
  induction h with
  | refl => exact absurd rfl hd
  | @tail e d _ he ih =>
    by_cases hr : e = root
    · exact he ▸ hr ▸ .refl
    · exact (ih hr).tail ⟨hr, he⟩

/-! ### Pointers that do not jump over the root -/

variable [CircularOrder α] {members : Finset α}

/-- The step from `x` to `y` does not pass over `root`. -/
def Toward (root x y : α) : Prop := x = root ∨ y = root ∨ sbtw x y root

structure Rooted (root : α) (members : Finset α) (f : α → α) : Prop where
  root_mem : root ∈ members
  closed : ∀ x ∈ members, f x ∈ members
  toward : ∀ x ∈ members, Toward root x (f x)

/-- Exactly one cycle, met from everywhere, whose members follow each other
clockwise without a further member of the cycle in between. -/
structure OneRing (members : Finset α) (f : α → α) : Prop where
  closed : ∀ x ∈ members, f x ∈ members
  cycle : ∃ c ∈ members, OnCycle f c
  connected : ∀ c ∈ members, ∀ d ∈ members, OnCycle f c → OnCycle f d → Reaches f c d
  clockwise : ∀ c ∈ members, ∀ d ∈ members, OnCycle f c → OnCycle f d →
    d ≠ c → d ≠ f c → ¬ InArc c d (f c)
  reached : ∀ x ∈ members, ∃ c ∈ members, OnCycle f c ∧ Reaches f x c

theorem Rooted.ne_self (h : Rooted root members f) {x : α} (hx : x ∈ members)
    (hr : x ≠ root) : f x ≠ x := by
  rcases h.toward x hx with he | he | he
  · exact absurd he hr
  · rw [he]; exact Ne.symm hr
  · exact (sbtw_ne_left he).symm

/-- Every member reaches the root: the number of members still ahead decreases. -/
theorem Rooted.reaches_root (h : Rooted root members f) {x : α} (hx : x ∈ members) :
    Reaches f x root := by
  induction hn : ahead members root x using Nat.strong_induction_on generalizing x with
  | _ n ih =>
    rcases h.toward x hx with he | he | he
    · exact he ▸ .refl
    · exact Relation.ReflTransGen.single he
    · have hlt := ahead_lt (h.closed x hx) he
      exact Relation.ReflTransGen.head rfl (ih _ (hn ▸ hlt) (h.closed x hx) rfl)

theorem Rooted.root_reaches (h : Rooted root members f) {c : α} (hm : c ∈ members)
    (hc : OnCycle f c) : Reaches f root c :=
  hc.reaches_back (h.reaches_root hm)

theorem Rooted.short_sbtw (h : Rooted root members f) {x d : α} (hx : x ∈ members)
    (hxd : Reaches.Short root f x d) (hne : d ≠ x) (hd : d ≠ root) : sbtw x d root := by
  induction hxd using Relation.ReflTransGen.head_induction_on with
  | refl => exact absurd rfl hne
  | @head x y hxy hyd ih =>
    obtain ⟨hr, rfl⟩ := hxy
    by_cases hdy : d = f x
    · rcases h.toward x hx with he | he | he
      · exact absurd he hr
      · exact absurd (hdy.trans he) hd
      · exact hdy ▸ he
    · have htail := ih (h.closed x hx) hdy
      rcases h.toward x hx with he | he | he
      · exact absurd he hr
      · rw [he] at htail
        exact absurd htail sbtw_irrefl_left_right
      · exact he.trans_left htail

theorem Rooted.clockwise (h : Rooted root members f) {c d : α} (hcm : c ∈ members)
    (hdm : d ∈ members) (hc : OnCycle f c) (hd : OnCycle f d) (hne : d ≠ c)
    (hnf : d ≠ f c) : ¬ InArc c d (f c) := by
  have hfm := h.closed c hcm
  rintro (hself | hbtw)
  · -- a pointer to itself is the root's, and the cycle is the root alone
    by_cases hr : c = root
    · obtain ⟨k, hk⟩ := reaches_iff_iterate.mp (h.root_reaches hdm hd)
      rw [← hr, Function.iterate_fixed hself.symm] at hk
      exact hne hk.symm
    · exact h.ne_self hcm hr hself.symm
  · by_cases hdr : d = root
    · subst hdr
      rcases h.toward c hcm with he | he | he
      · exact hne he.symm
      · exact hnf he.symm
      · exact sbtw_not_swap hbtw he
    · have hsd := short_of_reaches (h.root_reaches hdm hd) hdr
      by_cases hcr : c = root
      · subst hcr
        exact sbtw_not_swap hbtw (h.short_sbtw hfm hsd hnf hdr).cyclic_right
      · have hsc := short_of_reaches (h.root_reaches hcm hc) hcr
        rcases short_total hsc hsd with hcd | hdc
        · rcases hcd.cases_head with he | ⟨y, ⟨_, rfl⟩, hyd⟩
          · exact hne he.symm
          · have h1 := h.short_sbtw hfm hyd hnf hdr
            rcases h.toward c hcm with he | he | he
            · exact hcr he
            · rw [he] at h1
              exact sbtw_irrefl_left_right h1
            · exact sbtw_not_swap hbtw (sbtw_head he h1)
        · have h1 := h.short_sbtw hdm hdc (Ne.symm hne) hcr
          rcases h.toward c hcm with he | he | he
          · exact hcr he
          · rw [he] at hbtw
            exact sbtw_not_swap hbtw h1.cyclic_left
          · exact sbtw_not_swap (hbtw.trans_right he) h1.cyclic_left

theorem OneRing.not_before (h : OneRing members f) {c d x : α} (hcm : c ∈ members)
    (hdm : d ∈ members) (hc : OnCycle f c) (hd : OnCycle f d) (hne : d ≠ c)
    (hx : InArc c x (f c)) : ¬ sbtw c d x := by
  intro hb
  have hdf : d ≠ f c := by
    rintro rfl
    rcases hx with he | hx
    · exact hne he.symm
    · exact sbtw_not_swap hb hx
  refine h.clockwise c hcm d hdm hc hd hne hdf ?_
  rcases hx with he | hx
  · exact Or.inl he
  · exact Or.inr (hb.trans_right hx)

/-- Every point off the cycle lies on exactly one of its arcs: the cycle goes around
the circle once. -/
theorem OneRing.once (h : OneRing members f) {x : α} (hx : ¬ (x ∈ members ∧ OnCycle f x)) :
    ∃! c, c ∈ members ∧ OnCycle f c ∧ InArc c x (f c) := by
  classical
  have hne : ∀ c ∈ members, OnCycle f c → c ≠ x := fun c hm hc he => hx (he ▸ ⟨hm, hc⟩)
  have hnext : ∀ c, OnCycle f c → OnCycle f (f c) := fun c hc => hc.of_reaches (.single rfl)
  obtain ⟨c₀, hm₀, hc₀⟩ := h.cycle
  -- the last member of the cycle before `x`
  obtain ⟨c, hc, hmin⟩ := Finset.exists_min_image (members.filter (OnCycle f))
    (ahead (members.filter (OnCycle f)) x) ⟨c₀, Finset.mem_filter.mpr ⟨hm₀, hc₀⟩⟩
  have hlast : ∀ d ∈ members, OnCycle f d → ¬ sbtw c d x := fun d hm hd hb =>
    have hd := Finset.mem_filter.mpr ⟨hm, hd⟩
    absurd (ahead_lt hd hb) (not_lt.mpr (hmin d hd))
  obtain ⟨hm, hc⟩ := Finset.mem_filter.mp hc
  have hfm := h.closed c hm
  have harc : InArc c x (f c) := by
    by_cases he : c = f c
    · exact Or.inl he
    · rcases sbtw_or_sbtw (hne c hm hc) (hne _ hfm (hnext c hc)).symm he with hb | hb
      · exact Or.inr hb
      · exact absurd hb (hlast _ hfm (hnext c hc))
  refine ⟨c, ⟨hm, hc, harc⟩, fun d ⟨hdm, hd, hdarc⟩ => ?_⟩
  by_contra hdc
  rcases sbtw_or_sbtw (Ne.symm hdc) (hne d hdm hd) (hne c hm hc) with hb | hb
  · exact hlast d hdm hd hb
  · exact h.not_before hdm hm hd hc (Ne.symm hdc) hdarc hb.cyclic_right

end Clockwise
