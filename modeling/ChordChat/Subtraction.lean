import ChordChat.Addition
import ChordChat.Radix.Borrow

/-!
# Subtraction of identifiers (ID.cpp)

`operator-=` adds the complement of the other operand and one. It starts at index 0,
the most significant character, adds the one there, and hands the overflow of an index
to the next one, which is less significant; a sum adds up from the other end. As in
`operator+=` the overflow is bit 8 of a sum of sign-extended characters.
-/

namespace ChordChat
namespace ID

/-- `val` at index `i`, after the `1` that index 0 adds. -/
def subVal (i : ℕ) (a b overflow : Byte) : Uint32 :=
  if i = 0 then a.signExtend 32 + (b.signExtend 32 ^^^ 0xff) + overflow.signExtend 32 + 1
  else a.signExtend 32 + (b.signExtend 32 ^^^ 0xff) + overflow.signExtend 32

/-- The body of the loop at index `i`: the new character and the new `overflow`. -/
def subColumn (i : ℕ) (a b overflow : Byte) : Byte × Byte :=
  let val := subVal i a b overflow
  (val.setWidth 8, (val >>> 8).setWidth 8 &&& 0x01)

/-- `operator-=`, in place from index 0 up: what the first iterations leave. -/
def subAssignLoop (other : Bytes) (s : Bytes × Byte) : ℕ → Bytes × Byte
  | 0 => s
  | i + 1 =>
    let (id, overflow) := subAssignLoop other s i
    let column := subColumn i (id.getD i 0) (other.getD i 0) overflow
    (id.set i column.1, column.2)

theorem subAssignLoop_length (other : Bytes) (s : Bytes × Byte) (i : ℕ) :
    (subAssignLoop other s i).1.length = s.1.length := by
  induction i with
  | zero => rfl
  | succ i ih => rw [subAssignLoop, List.length_set, ih]

/-- `a -= b`: what the loop leaves in `a`. -/
def subAssign (lhs other : ID) : ID :=
  ⟨(subAssignLoop other.bytes (lhs.bytes, 0x00) ID_LEN).1,
    (subAssignLoop_length _ _ _).trans lhs.length_eq⟩

/-- `ID(*this) -= rhs`, on a copy. -/
def sub (lhs rhs : ID) : ID := lhs.subAssign rhs

/-! ### The columns -/

/-- What comes into a column: the overflow, and at index 0 the one. -/
def carryIn (i : ℕ) (overflow : Byte) : ℕ := overflow.toNat + if i = 0 then 1 else 0

def subCarry (a b c : ℕ) : ℕ :=
  ((a + (255 - b) + c) / 256 + if 128 ≤ a ↔ 128 ≤ b then 0 else 1) % 2

theorem complement_toNat (b : Byte) :
    (b.signExtend 32 ^^^ 0xff : Uint32).toNat =
      255 - b.toNat + if 128 ≤ b.toNat then 2 ^ 32 - 256 else 0 := by
  decide +kernel +revert

theorem subVal_toNat (i : ℕ) (a b : Byte) {c : Byte} (hc : c.toNat ≤ 1) :
    (subVal i a b c).toNat =
      (a.toNat + (255 - b.toNat) + carryIn i c + (if 128 ≤ a.toNat then 2 ^ 32 - 256 else 0) +
        (if 128 ≤ b.toNat then 2 ^ 32 - 256 else 0)) % 2 ^ 32 := by
  have hone : (1 : Uint32).toNat = 1 := rfl
  have hsum : (a.signExtend 32 + (b.signExtend 32 ^^^ 0xff) + c.signExtend 32 : Uint32).toNat =
      (a.toNat + (255 - b.toNat) + c.toNat + (if 128 ≤ a.toNat then 2 ^ 32 - 256 else 0) +
        (if 128 ≤ b.toNat then 2 ^ 32 - 256 else 0)) % 2 ^ 32 := by
    rw [BitVec.toNat_add, BitVec.toNat_add, complement_toNat, signExtend_toNat, signExtend_toNat,
      if_neg (show ¬ 128 ≤ c.toNat by omega)]
    omega
  unfold subVal carryIn
  split
  next => rw [BitVec.toNat_add, hsum, hone]; omega
  next => rw [hsum]; omega

theorem subColumn_toNat {i : ℕ} (a b : Byte) {c : Byte} (hc : carryIn i c ≤ 1) :
    (subColumn i a b c).1.toNat = Radix.subDigit 256 a.toNat b.toNat (carryIn i c) ∧
      (subColumn i a b c).2.toNat = subCarry a.toNat b.toNat (carryIn i c) := by
  have hval := subVal_toNat i a b (c := c) (by unfold carryIn at hc; omega)
  have hone : (0x01 : Byte).toNat = 1 := rfl
  simp only [subColumn, BitVec.toNat_setWidth, BitVec.toNat_and, BitVec.toNat_ushiftRight,
    Nat.shiftRight_eq_div_pow, hval, hone, Nat.and_one_is_mod, Radix.subDigit, subCarry]
  by_cases h1 : 128 ≤ a.toNat <;> by_cases h2 : 128 ≤ b.toNat <;>
    simp only [h1, h2, if_true, if_false] <;> constructor <;> simp <;> omega

/-! ### The loop -/

def subCarries (a b : ID) : ℕ → ℕ :=
  Radix.carries (fun i => subCarry (a.bytes.getD i 0).toNat (b.bytes.getD i 0).toNat) 1

theorem subCarries_le (a b : ID) (i : ℕ) : a.subCarries b i ≤ 1 := by
  cases i with
  | zero => exact Nat.le_refl 1
  | succ i =>
    rw [subCarries, Radix.carries, subCarry]
    omega

theorem subAssignLoop_spec (a b : ID) {i : ℕ} (hi : i ≤ ID_LEN) :
    carryIn i (subAssignLoop b.bytes (a.bytes, 0x00) i).2 = a.subCarries b i ∧
      ∀ j < ID_LEN, ((subAssignLoop b.bytes (a.bytes, 0x00) i).1.getD j 0).toNat =
        if j < i then Radix.subDigit 256 (a.bytes.getD j 0).toNat (b.bytes.getD j 0).toNat
          (a.subCarries b j) else (a.bytes.getD j 0).toNat := by
  induction i with
  | zero =>
    refine ⟨rfl, fun j hj => ?_⟩
    rw [if_neg (Nat.not_lt_zero j)]
    rfl
  | succ i ih =>
    obtain ⟨hcarry, hchars⟩ := ih (Nat.le_of_succ_le hi)
    have hlen : (subAssignLoop b.bytes (a.bytes, 0x00) i).1.length = ID_LEN :=
      (subAssignLoop_length _ _ _).trans a.length_eq
    -- the loop has not written index `i` yet
    have hold := hchars i hi
    rw [if_neg (Nat.lt_irrefl i)] at hold
    obtain ⟨hchar, hover⟩ := subColumn_toNat ((subAssignLoop b.bytes (a.bytes, 0x00) i).1.getD i 0)
      (b.bytes.getD i 0) (hcarry.trans_le (subCarries_le a b i))
    rw [hold, hcarry] at hchar hover
    constructor
    · exact hover
    · intro j hj
      by_cases hji : j = i
      · subst hji
        rw [if_pos (Nat.lt_succ_self j), subAssignLoop, List.getD_eq_getElem _ _
          (by rw [List.length_set, hlen]; exact hj), List.getElem_set_self]
        exact hchar
      · rw [subAssignLoop, List.getD_eq_getElem?_getD, List.getElem?_set_ne (Ne.symm hji),
          ← List.getD_eq_getElem?_getD, hchars j hj]
        exact if_congr (by omega) rfl rfl

theorem sub_bytes (a b : ID) :
    (a.sub b).bytes = (subAssignLoop b.bytes (a.bytes, 0x00) ID_LEN).1 := by
  rw [sub, subAssign]

theorem sub_char (a b : ID) {i : ℕ} (hi : i < ID_LEN) :
    ((a.sub b).bytes.getD i 0).toNat = Radix.subDigit 256 (a.bytes.getD i 0).toNat
      (b.bytes.getD i 0).toNat (a.subCarries b i) := by
  rw [sub_bytes, (subAssignLoop_spec a b (Nat.le_refl ID_LEN)).2 i hi, if_pos hi]

/-- When the characters of the difference are those that the carries `e` give. -/
theorem sub_chars_iff (a b : ID) {e : ℕ → ℕ} (he : ∀ i, e i ≤ 1) :
    (∀ i < ID_LEN, ((a.sub b).bytes.getD i 0).toNat = Radix.subDigit 256 (a.bytes.getD i 0).toNat
      (b.bytes.getD i 0).toNat (e i)) ↔
    e 0 = 1 ∧ ∀ i, i + 1 < ID_LEN →
      subCarry (a.bytes.getD i 0).toNat (b.bytes.getD i 0).toNat (e i) = e (i + 1) := by
  have hcarries := Radix.carries_eq_iff
    (fun i => subCarry (a.bytes.getD i 0).toNat (b.bytes.getD i 0).toNat) 1 e (ID_LEN - 1)
  constructor
  · intro h
    obtain ⟨h0, hstep⟩ := hcarries.mp fun i hi =>
      (Radix.mod_carry_inj (by decide) (subCarries_le a b i) (he i)).mp
        ((sub_char a b hi).symm.trans (h i hi))
    exact ⟨h0.symm, fun i hi => hstep i (Nat.lt_sub_of_add_lt hi)⟩
  · intro h i hi
    have hall := hcarries.mpr ⟨h.1.symm, fun j hj => h.2 j (Nat.add_lt_of_lt_sub hj)⟩ i hi
    rw [sub_char a b hi, subCarries, hall]

/-! ### The difference -/

/-- 1 when the characters from index `i` on can be subtracted without a borrow. -/
def noBorrow (a b : ID) (i : ℕ) : ℕ :=
  Radix.noBorrow 256 BitVec.toNat (a.bytes.drop i) (b.bytes.drop i)

theorem noBorrow_eq (a b : ID) {i : ℕ} (hi : i < ID_LEN) :
    a.noBorrow b i = if (b.bytes.getD i 0).toNat < (a.bytes.getD i 0).toNat + a.noBorrow b (i + 1)
      then 1 else 0 := by
  have ha : i < a.bytes.length := hi.trans_eq a.length_eq.symm
  have hb : i < b.bytes.length := hi.trans_eq b.length_eq.symm
  rw [noBorrow, List.drop_eq_getElem_cons ha, List.drop_eq_getElem_cons hb,
    Radix.noBorrow_cons byte_lt (by rw [List.length_drop, List.length_drop, a.length_eq, b.length_eq]),
    List.getD_eq_getElem _ _ ha, List.getD_eq_getElem _ _ hb, noBorrow]

theorem subCarry_eq_iff {a b c t : ℕ} (ha : a < 256) (hb : b < 256) (hc : c ≤ 1) (ht : t ≤ 1) :
    subCarry a b c = t ↔ ((t = if b < a + c then 1 else 0) ↔ (128 ≤ a ↔ 128 ≤ b)) := by
  unfold subCarry
  by_cases hs : 128 ≤ a ↔ 128 ≤ b
  · simp only [hs, if_true, iff_true]
    split <;> omega
  · simp only [hs, if_false, iff_false]
    split <;> omega

theorem value_sub_mod (a b : ID) :
    ((a.value : ℤ) - b.value) % 2 ^ M = ((a.value + 2 ^ M - b.value) % 2 ^ M : ℕ) := by
  have hb := value_lt b
  rw [Int.natCast_mod, Nat.cast_sub (by omega), Nat.cast_add, Nat.cast_pow, Nat.cast_ofNat,
    add_sub_right_comm, Int.add_emod_right]

/-- The characters behind the first do not borrow, and from each index on but the last there
is a borrow just as from two places on exactly when the characters at the index have one sign. -/
def BorrowsRight (a b : ID) : Prop :=
  a.noBorrow b 1 = 1 ∧ ∀ i, i + 1 < ID_LEN →
    (a.noBorrow b (i + 2) = a.noBorrow b i ↔ (a.bytes.getD i 0).msb = (b.bytes.getD i 0).msb)

theorem value_sub_iff (a b : ID) :
    ((a.sub b).value : ℤ) = ((a.value : ℤ) - b.value) % 2 ^ M ↔ BorrowsRight a b := by
  have hpow : 2 ^ M = 256 ^ a.bytes.length := by
    rw [a.length_eq]
    decide
  have hle : ∀ i, a.noBorrow b i ≤ 1 := fun i => Radix.noBorrow_le _ _
  rw [value_sub_mod, Int.natCast_inj, value, value, value, hpow,
    Radix.value_sub_iff byte_lt 0 ((a.sub b).length_eq.trans a.length_eq.symm)
      (a.length_eq.trans b.length_eq.symm), a.length_eq]
  refine (sub_chars_iff a b fun i => hle (i + 1)).trans (and_congr_right fun _ => ?_)
  refine forall_congr' fun i => forall_congr' fun hi => ?_
  rw [subCarry_eq_iff (byte_lt _) (byte_lt _) (hle (i + 1)) (hle (i + 2)),
    ← noBorrow_eq a b (Nat.lt_of_succ_lt hi), BitVec.msb_eq_decide, BitVec.msb_eq_decide,
    decide_eq_decide]

/-! ### A sum less its second summand -/

/-- 1 when the sum of two characters and of the carry below is negative, characters being
signed: what `operator+=` takes for a carry. -/
def addCarry : Bytes → Bytes → ℕ
  | a :: lhs, b :: other => if charVal a + charVal b + addCarry lhs other < 0 then 1 else 0
  | _, _ => 0

def carry (a b : ID) (i : ℕ) : ℕ := addCarry (a.bytes.drop i) (b.bytes.drop i)

def sumChar (a b : ID) (i : ℕ) : ℕ :=
  ((a.bytes.getD i 0).toNat + (b.bytes.getD i 0).toNat + a.carry b (i + 1)) % 256

theorem addCarry_le (lhs other : Bytes) : addCarry lhs other ≤ 1 := by
  cases lhs with
  | nil => exact Nat.zero_le 1
  | cons a lhs =>
    cases other with
    | nil => exact Nat.zero_le 1
    | cons b other =>
      rw [addCarry]
      split <;> omega

theorem charVal_eq (c : Byte) : charVal c = if 128 ≤ c.toNat then (c.toNat : ℤ) - 256 else c.toNat := by
  rw [charVal, BitVec.toInt_eq_toNat_cond]
  split <;> split <;> omega

theorem signed_carry (a b : Byte) {c : ℕ} (hc : c ≤ 1) :
    ((a.toNat + b.toNat + c) / 256 + if a.msb = b.msb then 0 else 1) % 2 =
      if charVal a + charVal b + c < 0 then 1 else 0 := by
  have ha := byte_lt a
  have hb := byte_lt b
  simp only [charVal_eq, BitVec.msb_eq_decide, decide_eq_decide, Nat.reduceSub, Nat.reducePow]
  by_cases h1 : 128 ≤ a.toNat <;> by_cases h2 : 128 ≤ b.toNat <;>
    simp only [h1, h2, if_true, if_false, iff_true, iff_false, not_true] <;>
    split <;> omega

theorem addChars_carry (lhs other : Bytes) :
    (addChars lhs other).2.toNat = addCarry lhs other := by
  induction lhs generalizing other with
  | nil => rfl
  | cons a lhs ih =>
    cases other with
    | nil => rfl
    | cons b other =>
      have hle := addCarry_le lhs other
      have hcol := (addColumn_toNat a b ((ih other).trans_le hle)).2
      rw [ih other, signed_carry a b hle] at hcol
      exact hcol

theorem addChars_char {lhs other : Bytes} (h : lhs.length = other.length) {i : ℕ}
    (hi : i < lhs.length) :
    ((addChars lhs other).1.getD i 0).toNat = ((lhs.getD i 0).toNat + (other.getD i 0).toNat +
      addCarry (lhs.drop (i + 1)) (other.drop (i + 1))) % 256 := by
  induction lhs generalizing other i with
  | nil => cases hi
  | cons a lhs ih =>
    cases other with
    | nil => cases h
    | cons b other =>
      cases i with
      | zero =>
        have hle : (addChars lhs other).2.toNat ≤ 1 :=
          (addChars_carry lhs other).trans_le (addCarry_le lhs other)
        have hcol := (addColumn_toNat a b hle).1
        rw [addChars_carry] at hcol
        exact hcol
      | succ i => exact ih (Nat.succ.inj h) (Nat.lt_of_succ_lt_succ hi)

theorem add_char (a b : ID) {i : ℕ} (hi : i < ID_LEN) :
    ((a.add b).bytes.getD i 0).toNat = a.sumChar b i := by
  rw [add_bytes, addChars_char (a.length_eq.trans b.length_eq.symm) (hi.trans_eq a.length_eq.symm),
    sumChar, carry]

theorem carry_eq (a b : ID) {i : ℕ} (hi : i < ID_LEN) :
    a.carry b i = if charVal (a.bytes.getD i 0) + charVal (b.bytes.getD i 0) + a.carry b (i + 1) < 0
      then 1 else 0 := by
  have ha : i < a.bytes.length := hi.trans_eq a.length_eq.symm
  have hb : i < b.bytes.length := hi.trans_eq b.length_eq.symm
  rw [carry, List.drop_eq_getElem_cons ha, List.drop_eq_getElem_cons hb, addCarry,
    List.getD_eq_getElem _ _ ha, List.getD_eq_getElem _ _ hb, carry]

theorem eq_iff_chars {a b : ID} :
    a = b ↔ ∀ i < ID_LEN, (a.bytes.getD i 0).toNat = (b.bytes.getD i 0).toNat := by
  constructor
  · intro h i _
    rw [h]
  · intro h
    refine ext (List.ext_getElem (a.length_eq.trans b.length_eq.symm) fun i ha hb => ?_)
    have hi := h i (ha.trans_eq a.length_eq)
    rw [List.getD_eq_getElem _ _ ha, List.getD_eq_getElem _ _ hb] at hi
    exact BitVec.eq_of_toNat_eq hi

theorem subDigit_sum {a b c : ℕ} (ha : a < 256) (hb : b < 256) (hc : c ≤ 1) :
    Radix.subDigit 256 ((a + b + c) % 256) b (1 - c) = a := by
  unfold Radix.subDigit
  omega

/-- A column of `(a + b) - b` passes on the complement of the carry of the sum. -/
theorem subCarry_sum_iff {a b : Byte} {c t : ℕ} (hc : c ≤ 1) (ht : t ≤ 1) :
    subCarry ((a.toNat + b.toNat + c) % 256) b.toNat (1 - c) = 1 - t ↔
      ((t = if charVal a + charVal b + c < 0 then 1 else 0) ↔
        (128 ≤ a.toNat ↔ 128 ≤ (a.toNat + b.toNat + c) % 256)) := by
  have ha := byte_lt a
  have hb := byte_lt b
  rw [subCarry, charVal_eq, charVal_eq]
  by_cases h1 : 128 ≤ a.toNat <;> by_cases h2 : 128 ≤ b.toNat <;>
    by_cases h3 : 128 ≤ (a.toNat + b.toNat + c) % 256 <;>
    simp only [h1, h2, h3, if_true, if_false, iff_true, iff_false, not_true] <;>
    split <;> omega

/-- The carries of the sum, where the sign of a character is compared with the sign of the sum's
character. -/
def CarriesRight (a b : ID) : Prop :=
  a.carry b 1 = 0 ∧ ∀ i, i + 1 < ID_LEN →
    (a.carry b (i + 2) = a.carry b i ↔ (128 ≤ (a.bytes.getD i 0).toNat ↔ 128 ≤ a.sumChar b i))

theorem add_sub_iff (a b : ID) : (a.add b).sub b = a ↔ CarriesRight a b := by
  have hle : ∀ i, a.carry b i ≤ 1 := fun i => addCarry_le _ _
  have hright : ∀ i < ID_LEN, Radix.subDigit 256 ((a.add b).bytes.getD i 0).toNat
      (b.bytes.getD i 0).toNat (1 - a.carry b (i + 1)) = (a.bytes.getD i 0).toNat := by
    intro i hi
    rw [add_char a b hi, sumChar, subDigit_sum (byte_lt _) (byte_lt _) (hle (i + 1))]
  have hchars := sub_chars_iff (a.add b) b (e := fun i => 1 - a.carry b (i + 1))
    fun i => Nat.sub_le 1 _
  have heq : (a.add b).sub b = a ↔ ∀ i < ID_LEN, (((a.add b).sub b).bytes.getD i 0).toNat =
      Radix.subDigit 256 ((a.add b).bytes.getD i 0).toNat (b.bytes.getD i 0).toNat
        (1 - a.carry b (i + 1)) := by
    rw [eq_iff_chars]
    exact forall_congr' fun i => forall_congr' fun hi => by rw [hright i hi]
  rw [heq, hchars]
  refine and_congr ?_ (forall_congr' fun i => forall_congr' fun hi => ?_)
  · have h1 := hle 1
    show 1 - a.carry b 1 = 1 ↔ a.carry b 1 = 0
    omega
  · rw [add_char a b (Nat.lt_of_succ_lt hi), sumChar, subCarry_sum_iff (hle (i + 1)) (hle (i + 2)),
      ← carry_eq a b (Nat.lt_of_succ_lt hi)]

/-! ### The laws together -/

/-- The difference is the difference modulo `2 ^ M`, `a -= b` computes the same, and taking
`b` from `a + b` gives `a` back. -/
def SubtractsExactly (a b : ID) : Prop :=
  ((a.sub b).value : ℤ) = ((a.value : ℤ) - b.value) % 2 ^ M ∧ a.subAssign b = a.sub b ∧
    (a.add b).sub b = a

theorem sub_exact_iff (a b : ID) : SubtractsExactly a b ↔ BorrowsRight a b ∧ CarriesRight a b := by
  constructor
  · intro h
    exact ⟨(value_sub_iff a b).mp h.1, (add_sub_iff a b).mp h.2.2⟩
  · intro h
    exact ⟨(value_sub_iff a b).mpr h.1, rfl, (add_sub_iff a b).mpr h.2⟩

theorem sub_256_1 : ¬ SubtractsExactly (ofValue 256) (ofValue 1) := by
  intro h
  exact absurd h.1 (by decide +kernel)

end ID
end ChordChat
