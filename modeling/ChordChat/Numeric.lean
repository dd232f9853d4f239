import ChordChat.Addition
import ChordChat.Clockwise.Doubling

/-!
# The interval test on the numeric ring (ID.cpp)

`operator<` compares signed characters, so on two identifiers it answers like the
numbers unless they cross: at the first index where they differ, one character is
below 0x80 and the other is not.
-/

namespace ChordChat
open Clockwise

namespace ID

/-- Clockwise distance from `a` to `b`. -/
def gap (a b : ID) : ℤ := ((b.value : ℤ) - a.value) % 2 ^ M

def crossesChars : Bytes → Bytes → Bool
  | a :: as, b :: bs => if a = b then crossesChars as bs else a.msb != b.msb
  | _, _ => false

def crosses (a b : ID) : Bool := crossesChars a.bytes b.bytes

theorem value_bounds (a : ID) : (0 : ℤ) ≤ a.value ∧ (a.value : ℤ) < 2 ^ M := by
  have h := a.value_lt
  exact ⟨Int.natCast_nonneg _, by exact_mod_cast h⟩

theorem charVal_lt_iff {a b : Byte} (h : a ≠ b) :
    charVal a < charVal b ↔ (a.toNat < b.toNat ↔ a.msb = b.msb) := by
  have ha := byte_lt a
  have hb := byte_lt b
  have hne : a.toNat ≠ b.toNat := fun he => h (BitVec.eq_of_toNat_eq he)
  simp only [charVal, BitVec.toInt_eq_toNat_cond, BitVec.msb_eq_decide, decide_eq_decide]
  split <;> split <;> omega

theorem lessChars_iff_value {as bs : Bytes} (h : as.length = bs.length) :
    lessChars charVal as bs = true ↔
      (Radix.value 256 BitVec.toNat as < Radix.value 256 BitVec.toNat bs ↔
        crossesChars as bs = false) := by
  induction as generalizing bs with
  | nil =>
    cases bs with
    | nil => simp [lessChars, crossesChars, Radix.value]
    | cons b bs => cases h
  | cons a as ih =>
    cases bs with
    | nil => cases h
    | cons b bs =>
      have hlen : as.length = bs.length := Nat.succ.inj h
      rw [Radix.value_cons_lt_iff byte_lt hlen, crossesChars, lessChars]
      by_cases hab : a = b
      · subst hab
        simp only [lt_irrefl, if_false, if_true, false_or, true_and]
        exact ih hlen
      · have hlt := charVal_lt_iff hab
        have hne : a.toNat ≠ b.toNat := fun he => hab (BitVec.eq_of_toNat_eq he)
        simp only [hab, hne, if_false, false_and, or_false, bne_eq_false_iff_eq]
        rw [← hlt]
        by_cases hcv : charVal a < charVal b
        · simp only [hcv, if_true]
        · have hgt : charVal b < charVal a := by
            have hcne : charVal a ≠ charVal b := fun he => hab (charVal_injective he)
            omega
          simp only [hcv, gt_iff_lt, hgt, if_false, if_true, Bool.false_eq_true]

theorem less_eq (a b : ID) : less a b = (decide (a.value < b.value) ^^ a.crosses b) := by
  have h : less a b = true ↔ (a.value < b.value ↔ a.crosses b = false) :=
    lessChars_iff_value (a.length_eq.trans b.length_eq.symm)
  rw [Bool.eq_iff_iff, h]
  cases a.crosses b with
  | true => simp only [Bool.xor_true, Bool.not_eq_true', decide_eq_false_iff_not,
      Bool.true_eq_false, iff_false]
  | false => simp only [Bool.xor_false, decide_eq_true_eq, iff_true]

theorem crossesChars_comm (as bs : Bytes) : crossesChars as bs = crossesChars bs as := by
  induction as generalizing bs with
  | nil => cases bs <;> rfl
  | cons a as ih =>
    cases bs with
    | nil => rfl
    | cons b bs =>
      simp only [crossesChars, ih bs, eq_comm (a := a), bne_comm (a := a.msb)]

theorem gap_between_iff {x lower upper : ID} :
    0 < gap lower x ∧ gap lower x < gap lower upper ↔
      lower.value < x.value ∧ x.value < upper.value ∨
        x.value < upper.value ∧ upper.value < lower.value ∨
        upper.value < lower.value ∧ lower.value < x.value := by
  have hl := lower.value_bounds
  have hx := x.value_bounds
  have hu := upper.value_bounds
  have h := distance_lt_iff hl.1 hl.2 hx.1 hx.2 hu.1 hu.2
  simpa only [gap, Nat.cast_lt] using h

theorem crosses_comm (a b : ID) : a.crosses b = b.crosses a := crossesChars_comm _ _

theorem crossesChars_self (as : Bytes) : crossesChars as as = false := by
  induction as with
  | nil => rfl
  | cons a as ih => rw [crossesChars, if_pos rfl, ih]

theorem crosses_self (a : ID) : a.crosses a = false := crossesChars_self _

def majority (p q r : Bool) : Bool := p && q || q && r || r && p

theorem majority_iff {p q r : Bool} : majority p q r = true ↔
    p = true ∧ q = true ∨ q = true ∧ r = true ∨ r = true ∧ p = true := by
  simp only [majority, Bool.or_eq_true, Bool.and_eq_true, or_assoc]

/-- Two triples, neither of one value, have the same majority when they differ in an even
number of places. -/
theorem majority_xor : ∀ p q r a b c : Bool, ¬ (p = q ∧ q = r) →
    ¬ ((p ^^ a) = (q ^^ b) ∧ (q ^^ b) = (r ^^ c)) →
      (majority (p ^^ a) (q ^^ b) (r ^^ c) = majority p q r ↔ (a ^^ b ^^ c) = false) := by
  decide

theorem not_all_eq {α : Type*} [LinearOrder α] {a b c : α} (hab : a ≠ b) (hbc : b ≠ c) :
    ¬ (decide (a < b) = decide (b < c) ∧ decide (b < c) = decide (c < a)) := by
  simp only [decide_eq_decide]
  rcases lt_or_gt_of_ne hab with h | h
  · rcases lt_or_gt_of_ne hbc with h' | h'
    · have hca : ¬ c < a := not_lt_of_gt (h.trans h')
      simp only [h, h', hca, true_iff, and_false, not_false_eq_true]
    · have hbc' : ¬ b < c := not_lt_of_gt h'
      simp only [h, hbc', iff_false, not_true_eq_false, false_and, not_false_eq_true]
  · have hab' : ¬ a < b := not_lt_of_gt h
    rcases lt_or_gt_of_ne hbc with h' | h'
    · simp only [hab', h', iff_true, false_and, not_false_eq_true]
    · have hbc' : ¬ b < c := not_lt_of_gt h'
      have hca : c < a := h'.trans h
      simp only [hbc', hca, false_iff, not_true_eq_false, and_false, not_false_eq_true]

/-- Exactly when the interval test is the one of the numeric ring: an even number of the
three pairs of identifiers cross. -/
theorem isInInterval_numeric_iff {x lower upper : ID} (h : lower ≠ upper) :
    (x.isInInterval lower upper = true ↔ 0 < gap lower x ∧ gap lower x < gap lower upper) ↔
      (lower.crosses x ^^ x.crosses upper ^^ upper.crosses lower) = false := by
  rw [isInInterval_iff, inArc_of_ne h, gap_between_iff]
  by_cases hl : x = lower
  · subst hl
    have hno : ¬ sbtw x x upper := sbtw_irrefl_left
    rw [crosses_self, crosses_comm upper, Bool.false_xor, Bool.xor_self]
    simp only [hno, false_iff, iff_true]
    omega
  · by_cases hu : x = upper
    · subst hu
      have hno : ¬ sbtw lower x x := sbtw_irrefl_right
      rw [crosses_self, crosses_comm x lower, Bool.xor_false, Bool.xor_self]
      simp only [hno, false_iff, iff_true]
      omega
    · have hlx : lower.value ≠ x.value := fun he => hl (value_inj.mp he).symm
      have hxu : x.value ≠ upper.value := fun he => hu (value_inj.mp he)
      have hcode : sbtw lower x upper ↔
          majority (less lower x) (less x upper) (less upper lower) = true := by
        rw [majority_iff, less_iff, less_iff, less_iff]
        exact sbtw_iff_lt
      have hnum : lower.value < x.value ∧ x.value < upper.value ∨
          x.value < upper.value ∧ upper.value < lower.value ∨
          upper.value < lower.value ∧ lower.value < x.value ↔
          majority (decide (lower.value < x.value)) (decide (x.value < upper.value))
            (decide (upper.value < lower.value)) = true := by
        simp only [majority_iff, decide_eq_true_eq]
      have hless : ∀ a b : ID, decide (a < b) = less a b := fun a b => by
        rw [Bool.eq_iff_iff, decide_eq_true_eq, less_iff]
      have hne := not_all_eq (Ne.symm hl) hu
      simp only [hless, less_eq] at hne
      rw [hcode, hnum, ← Bool.eq_iff_iff, less_eq, less_eq, less_eq]
      exact majority_xor _ _ _ _ _ _ (not_all_eq hlx hxu) hne

/-- The second and the third share the first bytes and cross in the last one. -/
theorem not_between_80 : ¬ ((ofValue 0x01).isInInterval (ofValue 0x100) (ofValue 0x80) = true ↔
    0 < gap (ofValue 0x100) (ofValue 0x01) ∧
      gap (ofValue 0x100) (ofValue 0x01) < gap (ofValue 0x100) (ofValue 0x80)) := by
  decide +kernel

theorem isInInterval_numeric_two :
    ((ofValue 2).isInInterval (ofValue 1) (ofValue 3) = true ↔
        0 < gap (ofValue 1) (ofValue 2) ∧ gap (ofValue 1) (ofValue 2) < gap (ofValue 1) (ofValue 3)) ↔
      ((ofValue 1).crosses (ofValue 2) ^^ (ofValue 2).crosses (ofValue 3) ^^
        (ofValue 3).crosses (ofValue 1)) = false :=
  isInInterval_numeric_iff fun h => absurd (congrArg value h) (by decide +kernel)

end ID

theorem alice_id : alice.id = .ofValue 0x522b276a356bdf39013dfabea2cd43e141ecc9e8 :=
  ID.value_inj.mp (by decide +kernel)

theorem bob_id : bob.id = .ofValue 0x48181acd22b3edaebc8a447868a7df7ce629920a :=
  ID.value_inj.mp (by decide +kernel)

end ChordChat
