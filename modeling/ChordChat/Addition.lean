import ChordChat.FingerTable
import ChordChat.Radix.BigEndian
import Mathlib.Data.List.GetD

/-!
# Identifiers as numbers, and their addition (ID.cpp, FingerTable.cpp)

An `ID` is read as a number in base 256 with the most significant byte at index 0.
`operator+=` takes the carry of a column from bit 8 of a sum of sign-extended
characters: a column passes on the right carry exactly when both characters are
below 0x80 or neither is.
-/

namespace ChordChat
namespace ID

def value (id : ID) : ℕ := Radix.value 256 BitVec.toNat id.bytes

theorem byte_lt (c : Byte) : c.toNat < 256 := c.isLt

theorem value_lt (id : ID) : id.value < 2 ^ M := by
  have h := Radix.value_lt byte_lt id.bytes
  rw [id.length_eq] at h
  exact h

theorem value_inj {a b : ID} : a.value = b.value ↔ a = b := by
  have hinj : Function.Injective (BitVec.toNat : Byte → ℕ) := fun _ _ => BitVec.eq_of_toNat_eq
  rw [value, value, Radix.value_inj byte_lt hinj (a.length_eq.trans b.length_eq.symm)]
  exact ⟨ext, congrArg bytes⟩

def ofValue (v : ℕ) : ID := ⟨Radix.write 256 (BitVec.ofNat 8) ID_LEN v, Radix.write_length _ _ _ _⟩

theorem value_ofValue {v : ℕ} (h : v < 2 ^ M) : (ofValue v).value = v := by
  have hmk : ∀ d < 256, (BitVec.ofNat 8 d).toNat = d := fun d hd => by
    rw [BitVec.toNat_ofNat]
    exact Nat.mod_eq_of_lt hd
  rw [value, ofValue, Radix.value_write (by decide) hmk]
  exact Nat.mod_eq_of_lt h

/-! ### The columns of `operator+=` -/

/-- The body of the loop: the new character and the new `overflow`. -/
def addColumn (a b overflow : Byte) : Byte × Byte :=
  let val : Uint32 := a.signExtend 32 + b.signExtend 32 + overflow.signExtend 32
  (val.setWidth 8, (val >>> 8).setWidth 8 &&& 0x01)

/-- `operator+=`, in place from the last index down; the first argument is the number of
indices left. -/
def addAssignLoop (other : Bytes) : ℕ → Bytes × Byte → Bytes × Byte
  | 0, s => s
  | i + 1, (id, overflow) =>
    let column := addColumn (id.getD i 0) (other.getD i 0) overflow
    addAssignLoop other i (id.set i column.1, column.2)

theorem addAssignLoop_length (other : Bytes) (i : ℕ) (s : Bytes × Byte) :
    (addAssignLoop other i s).1.length = s.1.length := by
  induction i generalizing s with
  | zero => rfl
  | succ i ih => rw [addAssignLoop, ih, List.length_set]

/-- `a += b`: what the loop leaves in `a`. -/
def addAssign (lhs other : ID) : ID :=
  ⟨(addAssignLoop other.bytes ID_LEN (lhs.bytes, 0x00)).1,
    (addAssignLoop_length _ _ _).trans lhs.length_eq⟩

theorem addChars_eq_ripple (lhs other : Bytes) :
    addChars lhs other = Radix.ripple 0x00 addColumn lhs other := by
  induction lhs generalizing other with
  | nil => rfl
  | cons a lhs ih =>
    cases other with
    | nil => rfl
    | cons b other => rw [addChars, Radix.ripple, ih, addColumn]

theorem signExtend_toNat (a : Byte) :
    (a.signExtend 32).toNat = a.toNat + if 128 ≤ a.toNat then 2 ^ 32 - 256 else 0 := by
  have ha := byte_lt a
  rw [BitVec.toNat_signExtend, BitVec.toNat_setWidth, BitVec.msb_eq_decide,
    Nat.mod_eq_of_lt (by omega)]
  simp only [decide_eq_true_eq]

theorem addColumn_toNat (a b : Byte) {c : Byte} (hc : c.toNat ≤ 1) :
    (addColumn a b c).1.toNat = (a.toNat + b.toNat + c.toNat) % 256 ∧
      (addColumn a b c).2.toNat =
        ((a.toNat + b.toNat + c.toNat) / 256 + (if a.msb = b.msb then 0 else 1)) % 2 := by
  have ha := byte_lt a
  have hb := byte_lt b
  simp only [addColumn, BitVec.toNat_setWidth, BitVec.toNat_and, BitVec.toNat_ushiftRight,
    BitVec.toNat_add, signExtend_toNat, BitVec.msb_eq_decide, Nat.shiftRight_eq_div_pow]
  have hone : (0x01 : Byte).toNat = 1 := rfl
  rw [hone, Nat.and_one_is_mod]
  by_cases h1 : 128 ≤ a.toNat <;> by_cases h2 : 128 ≤ b.toNat <;>
    simp only [h1, h2, show ¬ 128 ≤ c.toNat by omega, if_true, if_false] <;>
    constructor <;> simp <;> omega

theorem addColumn_adder : Radix.Adder 256 BitVec.toNat BitVec.toNat 0x00 addColumn
    fun a b => a.msb = b.msb where
  base := by decide
  digit_lt := byte_lt
  carry_zero := rfl
  carry_le a b c := by
    simp only [addColumn, BitVec.toNat_and]
    exact Nat.and_le_right
  digit_eq a b c hc := (addColumn_toNat a b hc).1
  carry_eq_iff a b c hc := by
    have ha := byte_lt a
    have hb := byte_lt b
    rw [(addColumn_toNat a b hc).2]
    by_cases hs : a.msb = b.msb
    · simp only [hs, if_true, iff_true]
      omega
    · simp only [hs, if_false, iff_false]
      omega

/-! ### The sum -/

/-- From index 1 on, the characters at one index are both below 0x80 or both not. -/
def SameSigns (a b : ID) : Prop :=
  ∀ i, 0 < i → i < ID_LEN → (a.bytes.getD i 0).msb = (b.bytes.getD i 0).msb

theorem forall₂_tail_iff {as bs : Bytes} (h : as.length = bs.length) :
    List.Forall₂ (fun a b : Byte => a.msb = b.msb) as bs ↔
      ∀ i < as.length, (as.getD i 0).msb = (bs.getD i 0).msb := by
  rw [List.forall₂_iff_get]
  constructor
  · intro hall i hi
    have hget := hall.2 i hi (h ▸ hi)
    rwa [List.getD_eq_getElem _ _ hi, List.getD_eq_getElem _ _ (h ▸ hi)]
  · intro hall
    refine ⟨h, fun i hi hi' => ?_⟩
    have hget := hall i hi
    rwa [List.getD_eq_getElem _ _ hi, List.getD_eq_getElem _ _ hi'] at hget

theorem exists_cons (id : ID) : ∃ c cs, id.bytes = c :: cs ∧ cs.length + 1 = ID_LEN := by
  have hlen := id.length_eq
  cases hb : id.bytes with
  | nil =>
    rw [hb] at hlen
    cases hlen
  | cons c cs =>
    rw [hb] at hlen
    exact ⟨c, cs, rfl, hlen⟩

theorem add_bytes (a b : ID) : (a.add b).bytes = (addChars a.bytes b.bytes).1 := rfl

/-- The sum is the sum modulo `2 ^ M` when no column below the first loses its carry. -/
theorem value_add_iff (a b : ID) :
    (a.add b).value = (a.value + b.value) % 2 ^ M ↔ a.SameSigns b := by
  obtain ⟨x, xs, hx, hxs⟩ := a.exists_cons
  obtain ⟨y, ys, hy, hys⟩ := b.exists_cons
  have hlen : xs.length = ys.length := by omega
  have hpow : 2 ^ M = 256 ^ (xs.length + 1) := by
    rw [hxs]
    decide
  rw [value, value, value, add_bytes, addChars_eq_ripple, hx, hy, hpow,
    addColumn_adder.value_ripple_iff hlen, forall₂_tail_iff hlen, SameSigns, hx, hy]
  constructor
  · intro h i h0 hi
    cases i with
    | zero => omega
    | succ i => exact h i (by omega)
  · intro h i hi
    exact h (i + 1) (Nat.succ_pos i) (by omega)

theorem addColumn_comm (a b c : Byte) : addColumn a b c = addColumn b a c := by
  simp only [addColumn, BitVec.add_comm (a.signExtend 32)]

theorem add_comm (a b : ID) : a.add b = b.add a := by
  have hchars : ∀ as bs : Bytes, as.length = bs.length → addChars as bs = addChars bs as := by
    intro as
    induction as with
    | nil =>
      intro bs h
      cases bs with
      | nil => rfl
      | cons b bs => cases h
    | cons a as ih =>
      intro bs h
      cases bs with
      | nil => cases h
      | cons b bs =>
        have hcomm := addColumn_comm a b (addChars bs as).2
        simp only [addColumn, Prod.mk.injEq] at hcomm
        simp only [addChars, ih bs (Nat.succ.inj h), hcomm.1, hcomm.2]
  apply ext
  rw [add_bytes, add_bytes, hchars _ _ (a.length_eq.trans b.length_eq.symm)]

theorem addAssignLoop_spec {as bs : Bytes} (h : as.length = bs.length) {i : ℕ}
    (hi : i ≤ as.length) :
    addAssignLoop bs i (as.take i ++ (addChars (as.drop i) (bs.drop i)).1,
      (addChars (as.drop i) (bs.drop i)).2) = addChars as bs := by
  induction i with
  | zero => rfl
  | succ i ih =>
    have hlt : i < as.length := hi
    have hstep := ih (Nat.le_of_lt hlt)
    rw [List.drop_eq_getElem_cons hlt, List.drop_eq_getElem_cons (h ▸ hlt : i < bs.length)] at hstep
    have htake : (as.take (i + 1) ++ (addChars (as.drop (i + 1)) (bs.drop (i + 1))).1).getD i 0 =
        as[i] := by
      rw [List.getD_append _ _ _ _ (by rw [List.length_take]; omega),
        List.getD_eq_getElem _ _ (by rw [List.length_take]; omega), List.getElem_take]
    have hset : ∀ c : Byte, (as.take (i + 1) ++
        (addChars (as.drop (i + 1)) (bs.drop (i + 1))).1).set i c =
          as.take i ++ c :: (addChars (as.drop (i + 1)) (bs.drop (i + 1))).1 := by
      intro c
      rw [List.take_succ_eq_append_getElem hlt, List.append_assoc, List.set_append_right _ _
        (by rw [List.length_take]; omega), List.length_take, Nat.min_eq_left (Nat.le_of_lt hlt),
        Nat.sub_self]
      rfl
    rw [addAssignLoop, htake, hset, List.getD_eq_getElem _ _ (h ▸ hlt)]
    exact hstep

theorem addAssign_eq (a b : ID) : a.addAssign b = a.add b := by
  have hlen : a.bytes.length = b.bytes.length := a.length_eq.trans b.length_eq.symm
  have hloop := addAssignLoop_spec hlen (Nat.le_refl a.bytes.length)
  have hnil : addChars [] [] = ([], 0x00) := rfl
  rw [List.take_length, List.drop_length, hlen, List.drop_length, hnil, List.append_nil] at hloop
  apply ext
  rw [addAssign, add_bytes, ← hloop, ← hlen, a.length_eq]

/-- `a + b` is the sum modulo `2 ^ M`, `a += b` computes the same, and the operands may
change places. -/
def AddsExactly (a b : ID) : Prop :=
  (a.add b).value = (a.value + b.value) % 2 ^ M ∧ a.addAssign b = a.add b ∧ a.add b = b.add a

def sum (a b : ID) : ID := ofValue ((a.value + b.value) % 2 ^ M)

theorem sum_value (a b : ID) : (a.sum b).value = (a.value + b.value) % 2 ^ M :=
  value_ofValue (Nat.mod_lt _ (Nat.two_pow_pos M))

theorem addsExactly_iff (a b : ID) : AddsExactly a b ↔ a.SameSigns b :=
  ⟨fun h => (value_add_iff a b).mp h.1,
    fun h => ⟨(value_add_iff a b).mpr h, addAssign_eq a b, add_comm a b⟩⟩

theorem add_eq_sum {a b : ID} (h : a.SameSigns b) : a.add b = a.sum b :=
  value_inj.mp (((value_add_iff a b).mpr h).trans (sum_value a b).symm)

theorem sum_assoc (a b c : ID) : (a.sum b).sum c = a.sum (b.sum c) := by
  apply value_inj.mp
  rw [sum_value, sum_value, sum_value, sum_value, Nat.mod_add_mod, Nat.add_mod_mod, Nat.add_assoc]

/-- When two identifiers add up as numbers, and when the law of associativity holds with all
its sums right. -/
theorem add_exact_iff (a b c : ID) :
    (AddsExactly a b ↔ a.SameSigns b) ∧
    (AddsExactly a b ∧ AddsExactly b c ∧ AddsExactly (a.add b) c ∧ AddsExactly a (b.add c) ∧
        (a.add b).add c = a.add (b.add c) ↔
      a.SameSigns b ∧ b.SameSigns c ∧ (a.sum b).SameSigns c ∧ a.SameSigns (b.sum c)) := by
  refine ⟨addsExactly_iff a b, ?_⟩
  simp only [addsExactly_iff]
  constructor
  · intro h
    obtain ⟨hab, hbc, hl, hr, _⟩ := h
    rw [add_eq_sum hab] at hl
    rw [add_eq_sum hbc] at hr
    exact ⟨hab, hbc, hl, hr⟩
  · intro h
    obtain ⟨hab, hbc, hl, hr⟩ := h
    rw [add_eq_sum hab, add_eq_sum hbc, add_eq_sum hl, add_eq_sum hr]
    exact ⟨hab, hbc, hl, hr, sum_assoc a b c⟩

theorem add_ff_zero : ¬ AddsExactly (ofValue 0xff) (ofValue 0) ∧
    ((ofValue 0xff).add (ofValue 0)).add (ofValue 1) ≠
      (ofValue 0xff).add ((ofValue 0).add (ofValue 1)) := by
  constructor
  · intro h
    exact absurd h.1 (by decide +kernel)
  · intro h
    exact absurd (congrArg value h) (by decide +kernel)

end ID

/-! ### Finger starts -/

namespace FingerTable

def bit (k : Fin M) : ID :=
  ⟨(List.replicate ID_LEN 0x00).set (ID_LEN - k / 8 - 1) (BitVec.ofNat 8 (0x01 <<< (k % 8))),
    by rw [List.length_set, List.length_replicate]⟩

theorem start_eq (id : ID) (k : Fin M) : start id k = id.add (bit k) := by
  have hbit := ID.ofChars_bytes (bit k) []
  rw [List.append_nil] at hbit
  rw [start, ← hbit]
  rfl

theorem bit_char (k : Fin M) :
    (BitVec.ofNat 8 (0x01 <<< (k % 8))).toNat = 2 ^ ((k : ℕ) % 8) ∧
      ((BitVec.ofNat 8 (0x01 <<< (k % 8))).msb = true ↔ (k : ℕ) % 8 = 7) := by
  decide +kernel +revert

theorem bit_value (k : Fin M) : (bit k).value = 2 ^ (k : ℕ) := by
  have hk : (k : ℕ) < 160 := k.isLt
  have hj : ID_LEN - (k : ℕ) / 8 - 1 < ID_LEN := by
    simp only [ID_LEN]
    omega
  have hexp : ID_LEN - (ID_LEN - (k : ℕ) / 8 - 1) - 1 = (k : ℕ) / 8 := by
    simp only [ID_LEN]
    omega
  have hzero : (0x00 : Byte).toNat = 0 := rfl
  have hval : (bit k).value = (BitVec.ofNat 8 (0x01 <<< (k % 8))).toNat *
      256 ^ (ID_LEN - (ID_LEN - (k : ℕ) / 8 - 1) - 1) := Radix.value_replicate_set hzero _ hj
  rw [(bit_char k).1, hexp] at hval
  refine hval.trans ?_
  have hbase : 256 = 2 ^ 8 := rfl
  rw [hbase, ← Nat.pow_mul, ← Nat.pow_add]
  congr 1
  omega

theorem bit_msb (k : Fin M) {i : ℕ} (hi : i < ID_LEN) :
    ((bit k).bytes.getD i 0).msb = true ↔ (k : ℕ) % 8 = 7 ∧ i = ID_LEN - k / 8 - 1 := by
  rw [bit, List.getD_eq_getElem _ _ (by rwa [List.length_set, List.length_replicate]),
    List.getElem_set]
  split
  next hj => rw [(bit_char k).2, ← hj, and_iff_left rfl]
  next hj =>
    rw [List.getElem_replicate]
    constructor
    · intro h
      cases h
    · intro h
      exact absurd h.2.symm hj

/-- When the start of a finger is the node's value plus a power of two. -/
theorem start_value_iff (n : ID) (k : Fin M) :
    (start n k).value = (n.value + 2 ^ (k : ℕ)) % 2 ^ M ↔
      ∀ i, 0 < i → i < ID_LEN →
        ((n.bytes.getD i 0).msb = true ↔ (k : ℕ) % 8 = 7 ∧ i = ID_LEN - k / 8 - 1) := by
  rw [start_eq, ← bit_value, ID.value_add_iff, ID.SameSigns]
  constructor
  · intro h i h0 hi
    rw [h i h0 hi]
    exact bit_msb k hi
  · intro h i h0 hi
    exact Bool.eq_iff_iff.mpr ((h i h0 hi).trans (bit_msb k hi).symm)

theorem start_80 : (start (ID.ofValue 0x80) 0).value ≠ ((ID.ofValue 0x80).value + 2 ^ 0) % 2 ^ M := by
  decide +kernel

end FingerTable

end ChordChat
