import ChordChat.Clockwise.Pointers
import Mathlib.Data.Finset.Insert
import Mathlib.Data.Set.Insert

/-!
# A ring that only grows

Members join behind a pointer of their own, and a member `n` may exchange its
pointer `s` for a point `x` of the arc `(n, s)`, provided `x` has pointed to `s`
at some earlier moment. The history of pointers (`pointed`) is what makes the
exchange safe: whoever has pointed to `s` still has a clockwise path to `s`.
-/

namespace Clockwise
variable {α : Type*}

/-! ### States of the growing ring -/

structure Growth (α : Type*) where
  members : Finset α
  succ : α → α
  pointed : Set (α × α)

section State
variable [DecidableEq α]

def Growth.point (g : Growth α) (n y : α) : Growth α :=
  ⟨insert n g.members, Function.update g.succ n y, insert (n, y) g.pointed⟩

theorem Growth.point_self (g : Growth α) (n y : α) : (g.point n y).succ n = y := by
  simp only [Growth.point, Function.update_self]

theorem Growth.point_of_ne (g : Growth α) {n z : α} (y : α) (h : z ≠ n) :
    (g.point n y).succ z = g.succ z := by
  simp only [Growth.point, Function.update_of_ne h]

theorem Growth.mem_point (g : Growth α) {n y z : α} :
    z ∈ (g.point n y).members ↔ z = n ∨ z ∈ g.members := Finset.mem_insert

theorem Growth.pointed_point (g : Growth α) {n y x s : α} :
    (x, s) ∈ (g.point n y).pointed ↔ (x = n ∧ s = y) ∨ (x, s) ∈ g.pointed := by
  rw [Growth.point, Set.mem_insert_iff, Prod.mk.injEq]

end State

variable [CircularOrder α]

/-! ### Clockwise paths -/

/-- The pointers lead from `x` to `s` without leaving the arc between them. -/
inductive Arc (f : α → α) : α → α → Prop
  | refl (s : α) : Arc f s s
  | step {x s : α} : x ≠ s → (f x = s ∨ sbtw x (f x) s) → Arc f (f x) s → Arc f x s

theorem arc_pointer (f : α → α) (x : α) : Arc f x (f x) := by
  by_cases h : x = f x
  · exact h ▸ .refl x
  · exact .step h (Or.inl rfl) (.refl _)

theorem Arc.reaches {f : α → α} {x s : α} (h : Arc f x s) : Reaches f x s := by
  induction h with
  | refl s => exact .refl
  | step _ _ _ ih => exact .head rfl ih

theorem Arc.trans {f : α → α} {x y s : α} (hxy : Arc f x y) (hys : Arc f y s)
    (ho : x = y ∨ y = s ∨ sbtw x y s) : Arc f x s := by
  induction hxy with
  | refl y => exact hys
  | @step x y hne hin htail ih =>
    rcases ho with rfl | rfl | ho
    · exact absurd rfl hne
    · exact .step hne hin htail
    · rcases hin with he | hin
      · exact .step (sbtw_ne ho) (Or.inr (he ▸ ho)) (ih hys (Or.inl he))
      · exact .step (sbtw_ne ho) (Or.inr (hin.trans_right ho))
          (ih hys (Or.inr (Or.inr (sbtw_tail ho hin))))

section Update
variable [DecidableEq α]

theorem Arc.update_off {f : α → α} {x s n y : α} (h : Arc f x s)
    (hoff : n = s ∨ (n ≠ x ∧ ¬ sbtw x n s)) : Arc (Function.update f n y) x s := by
  induction h with
  | refl s => exact .refl s
  | @step x s hne hin _ ih =>
    have hnx : x ≠ n := by
      rintro rfl
      rcases hoff with rfl | ⟨hx, _⟩
      · exact hne rfl
      · exact hx rfl
    have hfx : Function.update f n y x = f x := Function.update_of_ne hnx y f
    refine .step hne (hfx.symm ▸ hin) (hfx.symm ▸ ?_)
    rcases hin with he | hin
    · exact he ▸ .refl _
    · refine ih ?_
      rcases hoff with rfl | ⟨_, hb⟩
      · exact Or.inl rfl
      · exact Or.inr ⟨fun he => hb (he ▸ hin), fun hb' => hb (hin.trans_left hb')⟩

/-- Exchanging the pointer of `n` for an `x` on its arc that leads back to the
old pointer keeps every path: the new pointer makes a detour on the same arc. -/
theorem Arc.update_detour {f : α → α} {n x : α} (hx : Arc f x (f n)) (hin : InArc n x (f n))
    {y s : α} (h : Arc f y s) : Arc (Function.update f n x) y s := by
  have hdetour : Arc (Function.update f n x) x (f n) := by
    refine hx.update_off ?_
    rcases hin with he | hin
    · exact Or.inl he
    · exact Or.inr ⟨sbtw_ne_left hin, fun hb => sbtw_not_swap hin hb.cyclic_left⟩
  induction h with
  | refl s => exact .refl s
  | @step y s hne hy _ ih =>
    by_cases hyn : y = n
    · subst hyn
      rcases hin with he | hin
      · rcases hy with hs | hs
        · exact absurd (he.trans hs) hne
        · exact absurd hs (he ▸ sbtw_irrefl_left)
      · have hnew : Function.update f y x y = x := Function.update_self y x f
        have hxs : x = s ∨ sbtw y x s := by
          rcases hy with hs | hs
          · exact Or.inr (hs ▸ hin)
          · exact Or.inr (hin.trans_right hs)
        have hmid : x = f y ∨ f y = s ∨ sbtw x (f y) s := by
          rcases hy with hs | hs
          · exact Or.inr (Or.inl hs)
          · exact Or.inr (Or.inr (sbtw_tail hs hin))
        exact .step hne (hnew.symm ▸ hxs) (hnew.symm ▸ hdetour.trans ih hmid)
    · have hfy : Function.update f n x y = f y := Function.update_of_ne hyn x f
      exact .step hne (hfy.symm ▸ hy) (hfy.symm ▸ ih)

theorem Reaches.update_detour {f : α → α} {n x : α} (hx : Arc f x (f n))
    (hin : InArc n x (f n)) {u v : α} (h : Reaches f u v) :
    Reaches (Function.update f n x) u v := by
  induction h with
  | refl => exact .refl
  | @tail a b _ he ih =>
    refine ih.trans ?_
    subst he
    exact (hx.update_detour hin (arc_pointer f a)).reaches

/-! ### Joining and adopting -/

inductive Growth.Step (root : α) : Growth α → Growth α → Prop
  /-- A new member points to an old one without passing over the root. -/
  | join {g : Growth α} {x s : α} : x ∉ g.members → s ∈ g.members → Toward root x s →
      Step root g (g.point x s)
  /-- A member adopts, in front of its pointer, a point that has pointed there. -/
  | adopt {g : Growth α} {n x : α} : n ∈ g.members → (x, g.succ n) ∈ g.pointed →
      InArc n x (g.succ n) → Step root g (g.point n x)

structure Growth.Sound (root : α) (g : Growth α) : Prop where
  rooted : Rooted root g.members g.succ
  current : ∀ x ∈ g.members, (x, g.succ x) ∈ g.pointed
  arcs : ∀ x s, (x, s) ∈ g.pointed → x ∈ g.members ∧ s ∈ g.members ∧ Arc g.succ x s

def Growth.start (root : α) (f : α → α) : Growth α := ⟨{root}, f, {(root, root)}⟩

omit [DecidableEq α] in
theorem Growth.start_sound {root : α} {f : α → α} (hf : f root = root) :
    (Growth.start root f).Sound root where
  rooted :=
    { root_mem := Finset.mem_singleton_self root
      closed := fun x hx => by
        rw [Finset.mem_singleton.mp hx]
        exact Finset.mem_singleton.mpr hf
      toward := fun x hx => Or.inl (Finset.mem_singleton.mp hx) }
  current x hx := by
    have hr : x = root := Finset.mem_singleton.mp hx
    subst hr
    exact Set.mem_singleton_iff.mpr (Prod.ext rfl hf)
  arcs x s h := by
    obtain ⟨rfl, rfl⟩ := Prod.mk.inj (Set.mem_singleton_iff.mp h)
    exact ⟨Finset.mem_singleton_self _, Finset.mem_singleton_self _, .refl _⟩

/-- The part common to both steps: members, pointers and history after
`n` points to `y`, when the old paths survive. -/
theorem Growth.Sound.point {root : α} {g : Growth α} (h : g.Sound root) {n y : α}
    (hy : y ∈ g.members) (ht : Toward root n y)
    (hold : ∀ x s, (x, s) ∈ g.pointed → Arc (g.point n y).succ x s) :
    (g.point n y).Sound root := by
  refine ⟨⟨g.mem_point.mpr (Or.inr h.rooted.root_mem), ?_, ?_⟩, ?_, ?_⟩
  · intro z hz
    by_cases he : z = n
    · rw [he, g.point_self]; exact g.mem_point.mpr (Or.inr hy)
    · rw [g.point_of_ne y he]
      exact g.mem_point.mpr (Or.inr (h.rooted.closed z ((g.mem_point.mp hz).resolve_left he)))
  · intro z hz
    by_cases he : z = n
    · rw [he, g.point_self]; exact ht
    · rw [g.point_of_ne y he]; exact h.rooted.toward z ((g.mem_point.mp hz).resolve_left he)
  · intro z hz
    by_cases he : z = n
    · rw [he, g.point_self]; exact g.pointed_point.mpr (Or.inl ⟨rfl, rfl⟩)
    · rw [g.point_of_ne y he]
      exact g.pointed_point.mpr (Or.inr (h.current z ((g.mem_point.mp hz).resolve_left he)))
  · intro x s hxs
    rcases g.pointed_point.mp hxs with ⟨rfl, rfl⟩ | hxs
    · refine ⟨g.mem_point.mpr (Or.inl rfl), g.mem_point.mpr (Or.inr hy), ?_⟩
      have harc := arc_pointer (g.point x s).succ x
      rwa [g.point_self] at harc
    · obtain ⟨hxm, hsm, _⟩ := h.arcs x s hxs
      exact ⟨g.mem_point.mpr (Or.inr hxm), g.mem_point.mpr (Or.inr hsm), hold x s hxs⟩

theorem Arc.update_outside {f : α → α} {root : α} {members : Finset α}
    (hr : Rooted root members f) {x s n y : α} (hx : x ∈ members) (hn : n ∉ members)
    (h : Arc f x s) : Arc (Function.update f n y) x s := by
  induction h with
  | refl s => exact .refl s
  | @step x s hne hin _ ih =>
    have hxn : x ≠ n := fun he => hn (he.symm ▸ hx)
    have hfx : Function.update f n y x = f x := Function.update_of_ne hxn y f
    exact .step hne (hfx.symm ▸ hin) (hfx.symm ▸ ih (hr.closed x hx))

omit [DecidableEq α] in
theorem toward_of_inArc {root n x s : α} (ht : Toward root n s) (hin : InArc n x s) :
    Toward root n x := by
  rcases ht with he | rfl | ht
  · exact Or.inl he
  · rcases hin with he | hin
    · exact Or.inl he
    · exact Or.inr (Or.inr hin)
  · rcases hin with he | hin
    · exact absurd he (sbtw_ne_left ht)
    · exact Or.inr (Or.inr (hin.trans_right ht))

omit [DecidableEq α] in
theorem toward_end_of_inArc {root n x s : α} (ht : Toward root n s) (hin : InArc n x s) :
    Toward root x s := by
  rcases ht with rfl | he | ht
  · rcases hin with he | hin
    · exact Or.inr (Or.inl he.symm)
    · exact Or.inr (Or.inr hin.cyclic_left)
  · exact Or.inr (Or.inl he)
  · rcases hin with he | hin
    · exact absurd he (sbtw_ne_left ht)
    · exact Or.inr (Or.inr (sbtw_tail ht hin))

theorem Growth.Sound.step {root : α} {g g' : Growth α} (h : g.Sound root)
    (hs : Growth.Step root g g') : g'.Sound root := by
  cases hs with
  | @join x s hx hs ht =>
    exact h.point hs ht fun y t hyt =>
      (h.arcs y t hyt).2.2.update_outside h.rooted (h.arcs y t hyt).1 hx
  | @adopt n x hn hp hin =>
    obtain ⟨hxm, _, harc⟩ := h.arcs x (g.succ n) hp
    exact h.point hxm (toward_of_inArc (h.rooted.toward n hn) hin) fun y t hyt =>
      harc.update_detour hin (h.arcs y t hyt).2.2

def Growth.Run (root : α) : Growth α → Growth α → Prop := Relation.ReflTransGen (Growth.Step root)

theorem Growth.Sound.run {root : α} {g g' : Growth α} (h : g.Sound root)
    (hr : Growth.Run root g g') : g'.Sound root := by
  induction hr with
  | refl => exact h
  | tail _ hs ih => exact ih.step hs

end Update

end Clockwise
