import ChordChat.ID

/-!
# The comparison operators (ID.cpp)

Whether `char` is signed is the compiler's choice, and `operator<` compares characters.
The operators are given here for both; those of the other modules are the signed ones
(`lessThan_signed`, `inInterval_signed`). The laws hold for both.
-/

namespace ChordChat
open Clockwise

inductive CharSign where
  | signed
  | unsigned

/-- The value of a character as an `int`. -/
def CharSign.val : CharSign → Byte → ℤ
  | signed, c => c.toInt
  | unsigned, c => c.toNat

/-- Six operators that agree with each other and order `α` strictly and totally. -/
structure OrderOperators {α : Type*} (eq ne lt gt le ge : α → α → Bool) : Prop where
  eq_iff : ∀ a b, eq a b = true ↔ a = b
  ne_not_eq : ∀ a b, ne a b = !eq a b
  gt_swap : ∀ a b, gt a b = lt b a
  le_lt_or_eq : ∀ a b, le a b = (lt a b || eq a b)
  ge_gt_or_eq : ∀ a b, ge a b = (gt a b || eq a b)
  irrefl : ∀ a, lt a a = false
  trans : ∀ a b c, lt a b = true → lt b c = true → lt a c = true
  total : ∀ a b, lt a b = true ∨ eq a b = true ∨ gt a b = true

namespace ID
variable (s : CharSign)

/-- The loop of `operator==`. -/
def equalChars : Bytes → Bytes → Bool
  | a :: lhs, b :: rhs => if s.val a ≠ s.val b then false else equalChars lhs rhs
  | _, _ => true

def equal (lhs rhs : ID) : Bool := equalChars s lhs.bytes rhs.bytes

def notEqual (lhs rhs : ID) : Bool := !equal s lhs rhs

def lessThan (lhs rhs : ID) : Bool := lessChars s.val lhs.bytes rhs.bytes

def greaterThan (lhs rhs : ID) : Bool := lessThan s rhs lhs

def lessEqual (lhs rhs : ID) : Bool := !greaterThan s lhs rhs

def greaterEqual (lhs rhs : ID) : Bool := !lessThan s lhs rhs

def inInterval (x lower upper : ID) : Bool :=
  if lessThan s lower upper then greaterThan s x lower && lessThan s x upper
  else if greaterThan s lower upper then greaterThan s x lower || lessThan s x upper
  else true

theorem lessThan_signed : lessThan .signed = less := rfl

theorem inInterval_signed : inInterval .signed = isInInterval := rfl

variable {s}

theorem val_injective : Function.Injective s.val := by
  intro a b h
  cases s with
  | signed => exact BitVec.eq_of_toInt_eq h
  | unsigned => exact BitVec.eq_of_toNat_eq (Int.ofNat.inj h)

/-- The characters as the operators compare them. -/
def key (s : CharSign) (a : ID) : List ℤ := a.bytes.map s.val

theorem key_injective : Function.Injective (key s) :=
  fun _ _ h => ID.ext (val_injective.list_map h)

theorem equalChars_iff (as bs : Bytes) (h : as.length = bs.length) :
    equalChars s as bs = true ↔ as = bs := by
  induction as generalizing bs with
  | nil =>
    cases bs with
    | nil => simp [equalChars]
    | cons b bs => cases h
  | cons a as ih =>
    cases bs with
    | nil => cases h
    | cons b bs =>
      have ih := ih bs (Nat.succ.inj h)
      rw [equalChars, List.cons.injEq, ← ih]
      split
      next hne =>
        refine iff_of_false Bool.false_ne_true ?_
        exact fun he => hne (congrArg s.val he.1)
      next heq =>
        have hab : a = b := val_injective (not_not.mp heq)
        exact (and_iff_right hab).symm

theorem equal_iff {a b : ID} : equal s a b = true ↔ a = b := by
  rw [equal, equalChars_iff _ _ (a.length_eq.trans b.length_eq.symm)]
  exact ⟨ID.ext, congrArg ID.bytes⟩

theorem lessThan_iff {a b : ID} : lessThan s a b = true ↔ key s a < key s b :=
  lessChars_iff s.val a.bytes b.bytes (a.length_eq.trans b.length_eq.symm)

theorem greaterThan_iff {a b : ID} : greaterThan s a b = true ↔ key s b < key s a := lessThan_iff

theorem lessEqual_iff {a b : ID} : lessEqual s a b = true ↔ key s a ≤ key s b := by
  rw [lessEqual, Bool.not_eq_true', ← Bool.not_eq_true, greaterThan_iff, not_lt]

/-- `<=` is `<` or `==`, though it is computed from `>` alone. -/
theorem lessEqual_eq (a b : ID) : lessEqual s a b = (lessThan s a b || equal s a b) := by
  rw [Bool.eq_iff_iff, Bool.or_eq_true, lessEqual_iff, lessThan_iff, equal_iff, le_iff_lt_or_eq,
    key_injective.eq_iff]

theorem lessThan_total (a b : ID) :
    lessThan s a b = true ∨ equal s a b = true ∨ greaterThan s a b = true := by
  rw [lessThan_iff, equal_iff, greaterThan_iff, ← (key_injective (s := s)).eq_iff]
  exact lt_trichotomy _ _

theorem equal_comm (a b : ID) : equal s a b = equal s b a := by
  rw [Bool.eq_iff_iff, equal_iff, equal_iff, eq_comm]

theorem inInterval_iff {x lower upper : ID} :
    inInterval s x lower upper = true ↔ Between (key s lower) (key s x) (key s upper) :=
  between_test (f := key s) (fun _ _ => lessThan_iff) lower x upper

variable (s)

theorem orderOperators : OrderOperators (equal s) (notEqual s) (lessThan s) (greaterThan s)
    (lessEqual s) (greaterEqual s) where
  eq_iff _ _ := equal_iff
  ne_not_eq _ _ := rfl
  gt_swap _ _ := rfl
  le_lt_or_eq := lessEqual_eq
  ge_gt_or_eq a b := by
    rw [equal_comm]
    exact lessEqual_eq b a
  irrefl a := by
    rw [← Bool.not_eq_true, lessThan_iff]
    exact lt_irrefl _
  trans a b c hab hbc := by
    rw [lessThan_iff] at hab hbc ⊢
    exact hab.trans hbc
  total := lessThan_total

theorem inInterval_cyclicTest :
    CyclicTest fun l x u : ID => inInterval s x l u = true := by
  have hkeys : (fun l x u : ID => inInterval s x l u = true) =
      fun l x u => Between (key s l) (key s x) (key s u) := by
    funext l x u
    exact propext inInterval_iff
  rw [hkeys]
  exact between_cyclicTest.comap key_injective

theorem inInterval_cyclic_order : OrderOperators (equal s) (notEqual s) (lessThan s)
    (greaterThan s) (lessEqual s) (greaterEqual s) ∧
      CyclicTest fun l x u : ID => inInterval s x l u = true :=
  ⟨orderOperators s, inInterval_cyclicTest s⟩

end ID

end ChordChat
