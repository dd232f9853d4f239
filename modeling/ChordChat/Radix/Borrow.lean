import ChordChat.Radix.BigEndian
import Mathlib.Data.List.GetD

/-!
# Subtracting digit strings

The column at index `i` of a difference needs to know whether the digits behind it
borrow. `value_sub_iff` says which digits a right difference has, in terms of these
borrows; `carries` is a carry that a loop hands from one index to the next, and
`carries_eq_iff` says when it has the values one expects.
-/

namespace Radix
variable {δ κ : Type*} {b : ℕ} {digit : δ → ℕ}

/-- The carry at index `i` of a loop that starts with `c` and passes on `next`. -/
def carries (next : ℕ → κ → κ) (c : κ) : ℕ → κ
  | 0 => c
  | i + 1 => next i (carries next c i)

theorem carries_eq_iff (next : ℕ → κ → κ) (c : κ) (e : ℕ → κ) (n : ℕ) :
    (∀ i < n + 1, carries next c i = e i) ↔
      c = e 0 ∧ ∀ i < n, next i (e i) = e (i + 1) := by
  induction n with
  | zero =>
    constructor
    · intro h
      exact ⟨h 0 Nat.one_pos, fun i hi => absurd hi (Nat.not_lt_zero i)⟩
    · intro h i hi
      obtain rfl : i = 0 := by omega
      exact h.1
  | succ n ih =>
    constructor
    · intro h
      obtain ⟨h0, hstep⟩ := ih.mp fun i hi => h i (by omega)
      refine ⟨h0, fun i hi => ?_⟩
      rw [← h i (by omega), ← h (i + 1) (by omega), carries]
    · intro h i hi
      obtain ⟨h0, hstep⟩ := h
      have hprev := ih.mpr ⟨h0, fun j hj => hstep j (by omega)⟩
      cases i with
      | zero => exact h0
      | succ i => rw [carries, hprev i (by omega), hstep i (by omega)]

/-- The first digit of a difference, `nb` being 1 when the rest does not borrow. -/
def subDigit (b d e nb : ℕ) : ℕ := (d + (b - 1 - e) + nb) % b

/-- 1 when `es` can be taken from `ds` without a borrow. -/
def noBorrow (b : ℕ) (digit : δ → ℕ) (ds es : List δ) : ℕ :=
  if value b digit es ≤ value b digit ds then 1 else 0

theorem noBorrow_le (ds es : List δ) : noBorrow b digit ds es ≤ 1 := by
  unfold noBorrow
  split <;> omega

theorem noBorrow_cons (hd : ∀ d, digit d < b) {x y : δ} {xs ys : List δ}
    (h : xs.length = ys.length) :
    noBorrow b digit (x :: xs) (y :: ys) =
      if digit y < digit x + noBorrow b digit xs ys then 1 else 0 := by
  have hlt := value_cons_lt_iff hd (x := x) (y := y) h
  unfold noBorrow
  by_cases hrest : value b digit ys ≤ value b digit xs
  · rw [if_pos hrest]
    congr 1
    rw [← not_lt, hlt]
    apply propext
    omega
  · rw [if_neg hrest]
    congr 1
    rw [← not_lt, hlt]
    apply propext
    omega

theorem value_sub_cons_iff (hd : ∀ d, digit d < b) {r x y : δ} {rs xs ys : List δ}
    (hr : rs.length = xs.length) (h : xs.length = ys.length) :
    value b digit (r :: rs) =
        (value b digit (x :: xs) + b ^ (xs.length + 1) - value b digit (y :: ys)) %
          b ^ (xs.length + 1) ↔
      digit r = subDigit b (digit x) (digit y) (noBorrow b digit xs ys) ∧
        value b digit rs =
          (value b digit xs + b ^ xs.length - value b digit ys) % b ^ xs.length := by
  have hrs := value_lt hd rs
  have hxs := value_lt hd xs
  have hys := value_lt hd ys
  have hy := hd y
  rw [hr] at hrs
  rw [← h] at hys
  simp only [value, hr, ← h, subDigit, noBorrow]
  generalize value b digit xs = u at *
  generalize value b digit ys = v at *
  generalize hpow : b ^ xs.length = w at *
  rw [Nat.pow_succ', hpow]
  by_cases hnb : v ≤ u
  · have hle : (digit x + (b - 1 - digit y) + 1) * w = digit x * w + b * w - digit y * w := by
      rw [show digit x + (b - 1 - digit y) + 1 = digit x + b - digit y by omega, Nat.sub_mul,
        Nat.add_mul]
    have hsplit : digit x * w + u + b * w - (digit y * w + v) =
        (digit x + (b - 1 - digit y) + 1) * w + (u - v) := by
      have hby : digit y * w ≤ b * w := Nat.mul_le_mul_right w hy.le
      omega
    have hrest : (u + w - v) % w = u - v := by
      rw [show u + w - v = u - v + w by omega, Nat.add_mod_right, Nat.mod_eq_of_lt (by omega)]
    rw [if_pos hnb, hsplit, hrest, lead_mod (by omega), lead_eq_iff hrs (by omega)]
  · have hle : (digit x + (b - 1 - digit y)) * w + w = digit x * w + b * w - digit y * w := by
      rw [← Nat.succ_mul, show (digit x + (b - 1 - digit y)).succ = digit x + b - digit y by omega,
        Nat.sub_mul, Nat.add_mul]
    have hsplit : digit x * w + u + b * w - (digit y * w + v) =
        (digit x + (b - 1 - digit y)) * w + (u + w - v) := by
      have hby : digit y * w + w ≤ b * w := by
        rw [← Nat.succ_mul]
        exact Nat.mul_le_mul_right w hy
      omega
    have hrest : (u + w - v) % w = u + w - v := Nat.mod_eq_of_lt (by omega)
    rw [if_neg hnb, Nat.add_zero, hsplit, hrest, lead_mod (by omega), lead_eq_iff hrs (by omega)]

/-- A string is the difference of two others when each of its digits is right for the borrow
of the digits behind it. -/
theorem value_sub_iff (hd : ∀ d, digit d < b) (zero : δ) {rs xs ys : List δ}
    (hr : rs.length = xs.length) (h : xs.length = ys.length) :
    value b digit rs =
        (value b digit xs + b ^ xs.length - value b digit ys) % b ^ xs.length ↔
      ∀ i < xs.length, digit (rs.getD i zero) = subDigit b (digit (xs.getD i zero))
        (digit (ys.getD i zero)) (noBorrow b digit (xs.drop (i + 1)) (ys.drop (i + 1))) := by
  induction xs generalizing rs ys with
  | nil =>
    rw [List.length_nil] at hr h
    rw [List.length_eq_zero_iff.mp hr, List.length_eq_zero_iff.mp h.symm]
    simp [value]
  | cons x xs ih =>
    cases rs with
    | nil => cases hr
    | cons r rs =>
      cases ys with
      | nil => cases h
      | cons y ys =>
        have hlen : xs.length = ys.length := Nat.succ.inj h
        have hrlen : rs.length = xs.length := Nat.succ.inj hr
        rw [List.length_cons, value_sub_cons_iff hd hrlen hlen, ih hrlen hlen]
        constructor
        · intro hall i hi
          cases i with
          | zero => exact hall.1
          | succ i => exact hall.2 i (by omega)
        · intro hall
          exact ⟨hall 0 (Nat.succ_pos _), fun i hi => hall (i + 1) (by omega)⟩

end Radix
