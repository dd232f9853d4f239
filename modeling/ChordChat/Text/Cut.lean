import Mathlib.Data.List.DropRight
import Mathlib.Data.List.TakeWhile

/-!
# Trimming and cutting strings

A string is a list over any alphabet; `p` tells the white space. `trim` takes it off both
ends. `upTo` and `past` are the two sides of the first occurrence of a separator. A separator
that is not white space commutes with trimming.
-/

namespace Text
variable {α : Type*} {p : α → Bool} {c d : α} {s t w w' : List α}

/-! ### Trimming -/

def Blank (p : α → Bool) (s : List α) : Prop := ∀ c ∈ s, p c = true

/-- The end first, then the start. -/
def trim (p : α → Bool) (s : List α) : List α := (s.rdropWhile p).dropWhile p

theorem Blank.nil (p : α → Bool) : Blank p [] := fun c hc => (by cases hc)

theorem Blank.append (h : Blank p s) (h' : Blank p t) : Blank p (s ++ t) := by
  intro c hc
  rcases List.mem_append.mp hc with hc | hc
  · exact h c hc
  · exact h' c hc

theorem dropWhile_pad (h : Blank p w) : (w ++ s).dropWhile p = s.dropWhile p :=
  List.dropWhile_append_of_pos h

theorem rdropWhile_pad (h : Blank p w) : (s ++ w).rdropWhile p = s.rdropWhile p := by
  have hrev : ∀ c ∈ w.reverse, p c = true := fun c hc => h c (List.mem_reverse.mp hc)
  rw [List.rdropWhile, List.reverse_append, List.dropWhile_append_of_pos hrev, List.rdropWhile]

theorem dropWhile_cons (hc : p c = false) : (c :: s).dropWhile p = c :: s :=
  List.dropWhile_cons_of_neg (by rw [hc]; exact Bool.false_ne_true)

theorem rdropWhile_append_cons (hc : p c = false) :
    (s ++ c :: t).rdropWhile p = s ++ c :: t.rdropWhile p := by
  induction t using List.reverseRecOn with
  | nil =>
    rw [List.rdropWhile_concat, if_neg (by rw [hc]; exact Bool.false_ne_true), List.rdropWhile_nil]
  | append_singleton t d ih =>
    rw [show s ++ c :: (t ++ [d]) = s ++ c :: t ++ [d] by simp, List.rdropWhile_concat,
      List.rdropWhile_concat]
    split
    · exact ih
    · simp

theorem split_blank (p : α → Bool) (s : List α) :
    Blank p s ∨ ∃ w c t, s = w ++ c :: t ∧ Blank p w ∧ p c = false := by
  induction s with
  | nil => exact Or.inl (Blank.nil p)
  | cons d s ih =>
    cases hd : p d with
    | false => exact Or.inr ⟨[], d, s, rfl, Blank.nil p, hd⟩
    | true =>
      rcases ih with h | ⟨w, c, t, rfl, hw, hc⟩
      · left
        intro c hc
        rcases List.mem_cons.mp hc with rfl | hc
        · exact hd
        · exact h c hc
      · refine Or.inr ⟨d :: w, c, t, rfl, ?_, hc⟩
        intro e he
        rcases List.mem_cons.mp he with rfl | he
        · exact hd
        · exact hw e he

theorem trim_of_blank (h : Blank p s) : trim p s = [] := by
  have hnil : s.rdropWhile p = [] := by
    have hpad := rdropWhile_pad (s := []) h
    rwa [List.nil_append, List.rdropWhile_nil] at hpad
  rw [trim, hnil]
  rfl

theorem trim_of_split (hw : Blank p w) (hc : p c = false) :
    trim p (w ++ c :: t) = c :: t.rdropWhile p := by
  rw [trim, rdropWhile_append_cons hc, dropWhile_pad hw, dropWhile_cons hc]

theorem trim_pad (hw : Blank p w) (hw' : Blank p w') : trim p (w ++ s ++ w') = trim p s := by
  rcases split_blank p s with hs | ⟨v, c, t, rfl, hv, hc⟩
  · rw [trim_of_blank hs, trim_of_blank ((hw.append hs).append hw')]
  · have heq : w ++ (v ++ c :: t) ++ w' = (w ++ v) ++ c :: (t ++ w') := by simp
    rw [heq, trim_of_split (hw.append hv) hc, trim_of_split hv hc, rdropWhile_pad hw']

theorem exists_pad (p : α → Bool) (s : List α) :
    ∃ w w', Blank p w ∧ Blank p w' ∧ s = w ++ trim p s ++ w' := by
  rcases split_blank p s with hs | ⟨v, c, t, rfl, hv, hc⟩
  · refine ⟨s, [], hs, Blank.nil p, ?_⟩
    rw [trim_of_blank hs, List.append_nil, List.append_nil]
  · refine ⟨v, t.rtakeWhile p, hv, fun c hc => List.mem_rtakeWhile_imp hc, ?_⟩
    rw [trim_of_split hv hc, List.append_assoc, List.cons_append,
      List.rdropWhile_append_rtakeWhile]

theorem trim_eq_nil : trim p s = [] ↔ Blank p s := by
  constructor
  · intro h
    rcases split_blank p s with hs | ⟨v, c, t, rfl, hv, hc⟩
    · exact hs
    · rw [trim_of_split hv hc] at h
      cases h
  · exact trim_of_blank

theorem trim_idem (p : α → Bool) (s : List α) : trim p (trim p s) = trim p s := by
  obtain ⟨w, w', hw, hw', hs⟩ := exists_pad p s
  conv_rhs => rw [hs, trim_pad hw hw']

theorem mem_trim (hc : p c = false) : c ∈ trim p s ↔ c ∈ s := by
  obtain ⟨w, w', hw, hw', hs⟩ := exists_pad p s
  conv_rhs => rw [hs]
  constructor
  · intro h
    exact List.mem_append_left w' (List.mem_append_right w h)
  · intro h
    have hnot : ∀ {v : List α}, Blank p v → c ∉ v := by
      intro v hv hmem
      rw [hv c hmem] at hc
      exact Bool.false_ne_true hc.symm
    rcases List.mem_append.mp h with h | h
    · rcases List.mem_append.mp h with h | h
      · exact absurd h (hnot hw)
      · exact h
    · exact absurd h (hnot hw')

theorem trim_dropWhile (p : α → Bool) (s : List α) : trim p (s.dropWhile p) = trim p s := by
  have hw : Blank p (s.takeWhile p) := fun c hc => List.mem_takeWhile_imp hc
  have hpad : trim p (s.takeWhile p ++ s.dropWhile p ++ []) = trim p (s.dropWhile p) :=
    trim_pad hw (Blank.nil p)
  rw [← hpad, List.append_nil, List.takeWhile_append_dropWhile]

theorem trim_rdropWhile (p : α → Bool) (s : List α) : trim p (s.rdropWhile p) = trim p s := by
  have hw : Blank p (s.rtakeWhile p) := fun c hc => List.mem_rtakeWhile_imp hc
  have hpad : trim p ([] ++ s.rdropWhile p ++ s.rtakeWhile p) = trim p (s.rdropWhile p) :=
    trim_pad (Blank.nil p) hw
  rw [← hpad, List.nil_append, List.rdropWhile_append_rtakeWhile]

/-- A separator that is not white space: each side keeps its inner end. -/
theorem trim_append_cons (hc : p c = false) :
    trim p (s ++ c :: t) = s.dropWhile p ++ c :: t.rdropWhile p := by
  rw [trim, rdropWhile_append_cons hc]
  cases split_blank p s with
  | inl hs =>
    have hnil : s.dropWhile p = [] := by
      rw [List.dropWhile_eq_nil_iff]
      exact hs
    rw [dropWhile_pad hs, dropWhile_cons hc, hnil, List.nil_append]
  | inr h =>
    obtain ⟨v, d, u, rfl, hv, hd⟩ := h
    rw [List.append_assoc, dropWhile_pad hv, List.cons_append, dropWhile_cons hd,
      dropWhile_pad hv, dropWhile_cons hd, List.cons_append]

/-! ### Cutting at a separator -/

section
variable [DecidableEq α]

/-- What stands before the first `c`; the whole string if there is none. -/
def upTo (c : α) (s : List α) : List α := s.takeWhile (· ≠ c)

/-- What stands behind the first `c`. -/
def past (c : α) (s : List α) : List α := (s.dropWhile (· ≠ c)).tail

theorem upTo_append (h : c ∉ s) : upTo c (s ++ c :: t) = s := by
  have hne : ∀ d ∈ s, decide (d ≠ c) = true := by
    intro d hd
    exact decide_eq_true fun he => h (he ▸ hd)
  rw [upTo, List.takeWhile_append_of_pos hne, List.takeWhile_cons_of_neg (by simp),
    List.append_nil]

theorem past_append (h : c ∉ s) : past c (s ++ c :: t) = t := by
  have hne : ∀ d ∈ s, decide (d ≠ c) = true := by
    intro d hd
    exact decide_eq_true fun he => h (he ▸ hd)
  rw [past, List.dropWhile_append_of_pos hne, List.dropWhile_cons_of_neg (by simp), List.tail_cons]

theorem not_mem_upTo (c : α) (s : List α) : c ∉ upTo c s := by
  intro h
  have hne := List.mem_takeWhile_imp h
  simp at hne

theorem upTo_append_past (h : c ∈ s) : upTo c s ++ c :: past c s = s := by
  induction s with
  | nil => cases h
  | cons d s ih =>
    by_cases hd : d = c
    · subst hd
      simp [upTo, past]
    · have hs : c ∈ s := by
        rcases List.mem_cons.mp h with hc | hs
        · exact absurd hc.symm hd
        · exact hs
      have ih := ih hs
      simp only [upTo, past] at ih ⊢
      rw [List.takeWhile_cons_of_pos (by simpa using hd),
        List.dropWhile_cons_of_pos (by simpa using hd), List.cons_append, ih]

theorem trim_upTo_trim (hc : p c = false) (h : c ∈ s) :
    trim p (upTo c (trim p s)) = trim p (upTo c s) := by
  have hnot : c ∉ (upTo c s).dropWhile p := fun hmem =>
    not_mem_upTo c s ((List.dropWhile_suffix _).mem hmem)
  conv_lhs => rw [← upTo_append_past h, trim_append_cons hc, upTo_append hnot]
  exact trim_dropWhile p _

theorem trim_past_trim (hc : p c = false) (h : c ∈ s) :
    trim p (past c (trim p s)) = trim p (past c s) := by
  have hnot : c ∉ (upTo c s).dropWhile p := fun hmem =>
    not_mem_upTo c s ((List.dropWhile_suffix _).mem hmem)
  conv_lhs => rw [← upTo_append_past h, trim_append_cons hc, past_append hnot]
  exact trim_rdropWhile p _

theorem length_upTo_past (h : c ∈ s) : (upTo c s).length + 1 + (past c s).length = s.length := by
  have hlen := congrArg List.length (upTo_append_past h)
  rw [List.length_append, List.length_cons] at hlen
  omega

theorem take_upTo (c : α) (s : List α) : s.take (upTo c s).length = upTo c s :=
  (List.prefix_iff_eq_take.mp (List.takeWhile_prefix _)).symm

theorem drop_upTo (h : c ∈ s) : s.drop ((upTo c s).length + 1) = past c s := by
  have hlen : (upTo c s ++ [c]).length = (upTo c s).length + 1 := List.length_append
  have hs : s = (upTo c s ++ [c]) ++ past c s := by
    rw [List.append_assoc, List.singleton_append, upTo_append_past h]
  calc s.drop ((upTo c s).length + 1)
      = ((upTo c s ++ [c]) ++ past c s).drop (upTo c s ++ [c]).length := by rw [← hs, hlen]
    _ = past c s := List.drop_left

/-! ### Two separators -/

theorem upTo_of_mem_upTo (h : d ∈ upTo c s) : upTo d s = upTo d (upTo c s) := by
  have hin := upTo_append_past h
  have hs : s = upTo d (upTo c s) ++ d :: (past d (upTo c s) ++ s.dropWhile (· ≠ c)) := by
    rw [← List.cons_append, ← List.append_assoc, hin]
    exact List.takeWhile_append_dropWhile.symm
  conv_lhs => rw [hs]
  exact upTo_append (not_mem_upTo d _)

theorem mem_past (hc : c ∈ s) (hd : d ∈ s) (hne : d ≠ c) (h : d ∉ upTo c s) : d ∈ past c s := by
  rw [← upTo_append_past hc] at hd
  rcases List.mem_append.mp hd with hd | hd
  · exact absurd hd h
  · exact List.mem_of_ne_of_mem hne hd

theorem split_second (hc : c ∈ s) (hd : d ∈ s) (hne : d ≠ c) (h : d ∉ upTo c s) :
    d ∉ upTo c s ++ c :: upTo d (past c s) ∧
      s = (upTo c s ++ c :: upTo d (past c s)) ++ d :: past d (past c s) := by
  constructor
  · intro hmem
    rcases List.mem_append.mp hmem with hmem | hmem
    · exact h hmem
    · exact not_mem_upTo d _ (List.mem_of_ne_of_mem hne hmem)
  · rw [List.append_assoc, List.cons_append, upTo_append_past (mem_past hc hd hne h),
      upTo_append_past hc]

theorem upTo_of_not_mem_upTo (hc : c ∈ s) (hd : d ∈ s) (hne : d ≠ c) (h : d ∉ upTo c s) :
    upTo d s = upTo c s ++ c :: upTo d (past c s) := by
  obtain ⟨hnot, hs⟩ := split_second hc hd hne h
  conv_lhs => rw [hs]
  exact upTo_append hnot

theorem past_of_not_mem_upTo (hc : c ∈ s) (hd : d ∈ s) (hne : d ≠ c) (h : d ∉ upTo c s) :
    past d s = past d (past c s) := by
  obtain ⟨hnot, hs⟩ := split_second hc hd hne h
  conv_lhs => rw [hs]
  exact past_append hnot

end

end Text
