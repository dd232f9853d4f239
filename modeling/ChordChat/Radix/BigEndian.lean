import Mathlib.Data.List.Forall2
import Mathlib.Data.Nat.ModEq
import Mathlib.Tactic.Ring

/-!
# Digit strings, most significant digit first

`value` reads a list of digits in base `b`. Strings of one length compare like
their values, digit by digit from the left. `ripple` adds two strings from the
right; its columns may pass on a wrong carry, and `Adder.value_ripple_iff` says
exactly when the sum is right all the same.
-/

namespace Radix
variable {δ κ : Type*} {b : ℕ} {digit : δ → ℕ}

def value (b : ℕ) (digit : δ → ℕ) : List δ → ℕ
  | [] => 0
  | d :: ds => digit d * b ^ ds.length + value b digit ds

theorem value_lt (hd : ∀ d, digit d < b) (ds : List δ) : value b digit ds < b ^ ds.length := by
  induction ds with
  | nil => exact Nat.one_pos
  | cons d ds ih =>
    have hle : (digit d + 1) * b ^ ds.length ≤ b * b ^ ds.length := Nat.mul_le_mul_right _ (hd d)
    rw [Nat.add_one_mul] at hle
    rw [value, List.length_cons, Nat.pow_succ']
    omega

/-! ### Comparing the first digit and the rest -/

variable {w d e r s : ℕ}

theorem lead_lt_iff (hr : r < w) (hs : s < w) : d * w + r < e * w + s ↔ d < e ∨ d = e ∧ r < s := by
  rcases Nat.lt_trichotomy d e with h | h | h
  · have hle : (d + 1) * w ≤ e * w := Nat.mul_le_mul_right _ h
    rw [Nat.add_one_mul] at hle
    omega
  · subst h
    omega
  · have hle : (e + 1) * w ≤ d * w := Nat.mul_le_mul_right _ h
    rw [Nat.add_one_mul] at hle
    omega

theorem lead_eq_iff (hr : r < w) (hs : s < w) : d * w + r = e * w + s ↔ d = e ∧ r = s := by
  have hlt := lead_lt_iff (d := d) (e := e) hr hs
  have hgt := lead_lt_iff (d := e) (e := d) hs hr
  omega

theorem lead_mod (hs : s < w) : (d * w + s) % (b * w) = d % b * w + s := by
  have hw : 0 < w := by omega
  rw [Nat.mul_comm b, Nat.mod_mul, Nat.mul_add_mod_of_lt hs, Nat.add_comm _ s,
    Nat.add_mul_div_right _ _ hw, Nat.div_eq_of_lt hs, Nat.zero_add, Nat.add_comm, Nat.mul_comm]

theorem value_cons_lt_iff (hd : ∀ d, digit d < b) {x y : δ} {xs ys : List δ}
    (h : xs.length = ys.length) :
    value b digit (x :: xs) < value b digit (y :: ys) ↔
      digit x < digit y ∨ digit x = digit y ∧ value b digit xs < value b digit ys := by
  have hy := value_lt hd ys
  rw [value, value, h]
  rw [← h] at hy ⊢
  exact lead_lt_iff (value_lt hd xs) hy

theorem value_inj (hd : ∀ d, digit d < b) (hinj : Function.Injective digit) {xs ys : List δ}
    (h : xs.length = ys.length) : value b digit xs = value b digit ys ↔ xs = ys := by
  induction xs generalizing ys with
  | nil =>
    cases ys with
    | nil => simp
    | cons y ys => cases h
  | cons x xs ih =>
    cases ys with
    | nil => cases h
    | cons y ys =>
      have hlen : xs.length = ys.length := Nat.succ.inj h
      have hy := value_lt hd ys
      rw [← hlen] at hy
      rw [value, value, ← hlen, lead_eq_iff (value_lt hd xs) hy, ih hlen, List.cons.injEq,
        hinj.eq_iff]

/-! ### Writing a number -/

/-- The last `n` digits of `v`; `mk` makes a digit. -/
def write (b : ℕ) (mk : ℕ → δ) : ℕ → ℕ → List δ
  | 0, _ => []
  | n + 1, v => mk (v / b ^ n % b) :: write b mk n v

@[simp] theorem write_length (b : ℕ) (mk : ℕ → δ) (n v : ℕ) : (write b mk n v).length = n := by
  induction n with
  | zero => rfl
  | succ n ih => rw [write, List.length_cons, ih]

theorem value_write {mk : ℕ → δ} (hb : 0 < b) (hmk : ∀ v < b, digit (mk v) = v) (n v : ℕ) :
    value b digit (write b mk n v) = v % b ^ n := by
  induction n with
  | zero => rw [Nat.pow_zero, Nat.mod_one, write, value]
  | succ n ih =>
    rw [write, value, write_length, ih, hmk _ (Nat.mod_lt _ hb), Nat.pow_succ, Nat.mod_mul,
      Nat.mul_comm, Nat.add_comm]

theorem value_replicate {zero : δ} (hz : digit zero = 0) (n : ℕ) :
    value b digit (List.replicate n zero) = 0 := by
  induction n with
  | zero => rfl
  | succ n ih => rw [List.replicate_succ, value, hz, ih, Nat.zero_mul]

theorem value_replicate_set {zero : δ} (hz : digit zero = 0) (d : δ) {n j : ℕ} (hj : j < n) :
    value b digit ((List.replicate n zero).set j d) = digit d * b ^ (n - j - 1) := by
  induction n generalizing j with
  | zero => omega
  | succ n ih =>
    cases j with
    | zero =>
      rw [List.replicate_succ, List.set_cons_zero, value, value_replicate hz,
        List.length_replicate]
      rfl
    | succ j =>
      rw [List.replicate_succ, List.set_cons_succ, value, hz, ih (by omega), Nat.zero_mul,
        Nat.zero_add]
      congr 2
      omega

/-! ### Adding with a carry -/

/-- Column by column from the right; `col` gets two digits and the carry. -/
def ripple (zero : κ) (col : δ → δ → κ → δ × κ) : List δ → List δ → List δ × κ
  | [], _ => ([], zero)
  | _ :: _, [] => ([], zero)
  | d :: ds, e :: es =>
    let rest := ripple zero col ds es
    let out := col d e rest.2
    (out.1 :: rest.1, out.2)

theorem ripple_length (zero : κ) (col : δ → δ → κ → δ × κ) {ds es : List δ}
    (h : ds.length = es.length) : (ripple zero col ds es).1.length = ds.length := by
  induction ds generalizing es with
  | nil => rfl
  | cons d ds ih =>
    cases es with
    | nil => cases h
    | cons e es => rw [ripple, List.length_cons, List.length_cons, ih (Nat.succ.inj h)]

/-- The columns write the right digit for the carry they get. They pass on the right
carry for the digits that satisfy `good`. -/
structure Adder (b : ℕ) (digit : δ → ℕ) (carry : κ → ℕ) (zero : κ) (col : δ → δ → κ → δ × κ)
    (good : δ → δ → Prop) : Prop where
  base : 2 ≤ b
  digit_lt : ∀ d, digit d < b
  carry_zero : carry zero = 0
  carry_le : ∀ d e c, carry (col d e c).2 ≤ 1
  digit_eq : ∀ d e c, carry c ≤ 1 → digit (col d e c).1 = (digit d + digit e + carry c) % b
  carry_eq_iff : ∀ d e c, carry c ≤ 1 →
    (carry (col d e c).2 = (digit d + digit e + carry c) / b ↔ good d e)

theorem mod_carry_inj {x c t : ℕ} (hb : 2 ≤ b) (hc : c ≤ 1) (ht : t ≤ 1) :
    (x + c) % b = (x + t) % b ↔ c = t := by
  constructor
  · intro h
    have hmod : c % b = t % b := Nat.ModEq.add_left_cancel' x h
    rwa [Nat.mod_eq_of_lt (by omega), Nat.mod_eq_of_lt (by omega)] at hmod
  · intro h
    rw [h]

namespace Adder
variable {carry : κ → ℕ} {zero : κ} {col : δ → δ → κ → δ × κ} {good : δ → δ → Prop}
  {ds es : List δ}

theorem carry_ripple_le (A : Adder b digit carry zero col good) (ds es : List δ) :
    carry (ripple zero col ds es).2 ≤ 1 := by
  cases ds with
  | nil =>
    rw [ripple, A.carry_zero]
    exact Nat.zero_le 1
  | cons d ds =>
    cases es with
    | nil =>
      rw [ripple, A.carry_zero]
      exact Nat.zero_le 1
    | cons e es => exact A.carry_le d e _

theorem exists_split (A : Adder b digit carry zero col good) (h : ds.length = es.length) :
    ∃ t u, value b digit ds + value b digit es = t * b ^ ds.length + u ∧ t ≤ 1 ∧
      u < b ^ ds.length := by
  have hlt := value_lt A.digit_lt ds
  have hlt' := value_lt A.digit_lt es
  rw [← h] at hlt'
  by_cases hover : value b digit ds + value b digit es < b ^ ds.length
  · exact ⟨0, _, by omega, by omega, hover⟩
  · exact ⟨1, value b digit ds + value b digit es - b ^ ds.length, by omega, by omega, by omega⟩

/-- The sum with its carry is exact when every column gets good digits. -/
theorem exact_iff (A : Adder b digit carry zero col good) (h : ds.length = es.length) :
    value b digit (ripple zero col ds es).1 + b ^ ds.length * carry (ripple zero col ds es).2 =
        value b digit ds + value b digit es ↔ List.Forall₂ good ds es := by
  induction ds generalizing es with
  | nil =>
    cases es with
    | nil => simp [ripple, value, A.carry_zero]
    | cons e es => cases h
  | cons d ds ih =>
    cases es with
    | nil => cases h
    | cons e es =>
      have hlen : ds.length = es.length := Nat.succ.inj h
      obtain ⟨t, u, htu, ht, hu⟩ := A.exists_split hlen
      have hr := value_lt A.digit_lt (ripple zero col ds es).1
      have hc := A.carry_ripple_le ds es
      rw [ripple_length zero col hlen] at hr
      have hrest := ih hlen
      rw [List.forall₂_cons, ← hrest, htu, ripple]
      simp only [value, List.length_cons, ripple_length zero col hlen, ← hlen]
      generalize hrv : value b digit (ripple zero col ds es).1 = r at *
      generalize hcv : (ripple zero col ds es).2 = c at *
      have hdig := A.digit_eq d e c hc
      have hcar := A.carry_eq_iff d e c hc
      have hdiv := Nat.mod_add_div (digit d + digit e + carry c) b
      have hshift : digit (col d e c).1 * b ^ ds.length + r +
            b ^ (ds.length + 1) * carry (col d e c).2 =
          (digit (col d e c).1 + b * carry (col d e c).2) * b ^ ds.length + r := by ring
      have hsum : digit d * b ^ ds.length + value b digit ds +
            (digit e * b ^ ds.length + value b digit es) =
          (digit d + digit e + t) * b ^ ds.length + u := by
        rw [Nat.add_mul _ t, Nat.add_assoc _ _ u, ← htu]
        ring
      have hlow : r + b ^ ds.length * carry c = t * b ^ ds.length + u ↔ carry c = t ∧ r = u := by
        rw [Nat.add_comm r, Nat.mul_comm, lead_eq_iff hr hu]
      rw [hshift, hsum, lead_eq_iff hr hu, hlow, ← hcar]
      constructor
      · intro hboth
        obtain ⟨hcol, hru⟩ := hboth
        have hct : carry c = t := by
          rw [← mod_carry_inj (x := digit d + digit e) A.base hc ht, ← hdig, ← hcol,
            Nat.add_mul_mod_self_left, Nat.mod_eq_of_lt (A.digit_lt _)]
        refine ⟨?_, hct, hru⟩
        have hmul : b * carry (col d e c).2 = b * ((digit d + digit e + carry c) / b) := by omega
        exact Nat.eq_of_mul_eq_mul_left (by have := A.base; omega) hmul
      · intro hall
        obtain ⟨hq, hct, hru⟩ := hall
        rw [hq, hdig, ← hct]
        exact ⟨hdiv, hru⟩

/-- The sum without its carry is right when every column below the first gets good digits. -/
theorem value_ripple_iff (A : Adder b digit carry zero col good) {d e : δ}
    (h : ds.length = es.length) :
    value b digit (ripple zero col (d :: ds) (e :: es)).1 =
        (value b digit (d :: ds) + value b digit (e :: es)) % b ^ (ds.length + 1) ↔
      List.Forall₂ good ds es := by
  obtain ⟨t, u, htu, ht, hu⟩ := A.exists_split h
  have hr := value_lt A.digit_lt (ripple zero col ds es).1
  have hc := A.carry_ripple_le ds es
  rw [ripple_length zero col h] at hr
  have hsum : value b digit (d :: ds) + value b digit (e :: es) =
      (digit d + digit e + t) * b ^ ds.length + u := by
    rw [value, value, ← h, Nat.add_mul _ t, Nat.add_assoc _ _ u, ← htu]
    ring
  have hmod : (value b digit (d :: ds) + value b digit (e :: es)) % b ^ (ds.length + 1) =
      (digit d + digit e + t) % b * b ^ ds.length + u := by
    rw [hsum, Nat.pow_succ', lead_mod hu]
  rw [hmod, ← A.exact_iff h, htu, ripple]
  simp only [value, ripple_length zero col h]
  rw [A.digit_eq d e _ hc, lead_eq_iff hr hu, mod_carry_inj A.base hc ht, Nat.mul_comm,
    Nat.add_comm _ (_ * _), lead_eq_iff hr hu]

end Adder

end Radix
