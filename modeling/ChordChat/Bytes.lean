import Mathlib.Data.Nat.Digits.Lemmas
import Mathlib.Data.List.TakeWhile
import Mathlib.Tactic.NormNum

/-!
# Characters, strings and socket reads

`std::string` and character arrays are byte lists; a `char` is signed, as with
the Makefile's g++ on x86. `asioRead` is `asio::read` (`asio/impl/read.hpp`) on a
connection whose peer writes a byte string and closes: it fills the buffer or
reports end of file. `asio::buffer(char (&)[N], size_t)` takes the smaller of the
two sizes (`asio/buffer.hpp`).
-/

namespace ChordChat

abbrev Byte := BitVec 8
abbrev Bytes := List Byte

def MAX_DATA_LENGTH : ℕ := 1024

/-- `(int)c`. -/
def charVal (c : Byte) : ℤ := c.toInt

/-- `(char)n`. -/
def toChar (n : ℕ) : Byte := BitVec.ofNat 8 n

/-- `(size_t)n` of a signed `n`. -/
def toSize (n : ℤ) : ℕ := (n % 2 ^ 64).toNat

/-- Size of the buffer `asio::buffer(array, n)` over an array of `MAX_DATA_LENGTH`. -/
def bufferSize (n : ℤ) : ℕ := min MAX_DATA_LENGTH (toSize n)

def asioRead (stream : Bytes) (size : ℕ) : Option (Bytes × Bytes) :=
  if size ≤ stream.length then some (stream.take size, stream.drop size) else none

theorem charVal_injective : Function.Injective charVal := fun _ _ h => BitVec.eq_of_toInt_eq h

theorem charVal_toChar (n : ℕ) :
    charVal (toChar n) = if n % 256 < 128 then (n % 256 : ℤ) else (n % 256 : ℤ) - 256 := by
  have hn : (BitVec.ofNat 8 n).toNat = n % 256 := BitVec.toNat_ofNat n 8
  rw [charVal, toChar, BitVec.toInt_eq_toNat_cond, hn]
  split <;> split <;> omega

theorem charVal_toChar_of_le {n : ℕ} (h : n ≤ 127) : charVal (toChar n) = n := by
  rw [charVal_toChar, if_pos (by omega)]
  omega

theorem charVal_bounds (c : Byte) : -128 ≤ charVal c ∧ charVal c ≤ 127 := by
  have hlo := BitVec.le_toInt c
  have hhi := BitVec.toInt_lt (x := c)
  simp only [charVal]
  norm_num at hlo hhi
  omega

theorem bufferSize_charVal (c : Byte) :
    bufferSize (charVal c) = if charVal c < 0 then MAX_DATA_LENGTH else (charVal c).toNat := by
  have hb := charVal_bounds c
  simp only [bufferSize, toSize, MAX_DATA_LENGTH]
  split <;> omega

theorem asioRead_append (a b : Bytes) : asioRead (a ++ b) a.length = some (a, b) := by
  simp [asioRead]

theorem asioRead_eq_some {stream bytes rest : Bytes} {size : ℕ} :
    asioRead stream size = some (bytes, rest) ↔ stream = bytes ++ rest ∧ bytes.length = size := by
  constructor
  · intro h
    simp only [asioRead] at h
    split at h
    · obtain ⟨rfl, rfl⟩ := Prod.mk.inj (Option.some.inj h)
      refine ⟨(List.take_append_drop size stream).symm, ?_⟩
      rw [List.length_take]
      omega
    · cases h
  · rintro ⟨rfl, rfl⟩
    exact asioRead_append bytes rest

/-! ### Decimal numbers -/

def digitChar (d : ℕ) : Byte := BitVec.ofNat 8 (48 + d)

/-- `ostringstream << n`. -/
def decimal (n : ℕ) : Bytes :=
  if n = 0 then [digitChar 0] else (Nat.digits 10 n).reverse.map digitChar

def isSpace (c : Byte) : Bool := c = 32#8 || (9#8 ≤ c && c ≤ 13#8)

def isDigit (c : Byte) : Bool := 48#8 ≤ c && c ≤ 57#8

/-- `strtol` in base ten on a 64-bit `long`, saturating. -/
def strtol (s : Bytes) : ℤ :=
  let t := s.dropWhile isSpace
  let signed := t.head? = some 45#8 || t.head? = some 43#8
  let digits := (if signed then t.tail else t).takeWhile isDigit
  let value : ℕ := digits.foldl (fun acc c => 10 * acc + (c.toNat - 48)) 0
  if t.head? = some 45#8 then max (-2 ^ 63) (-value) else min (2 ^ 63 - 1) value

/-- `atoi`: `(int)strtol(s, NULL, 10)`, kept as the 32 bits it is stored in. -/
def atoi (s : Bytes) : BitVec 32 := BitVec.ofInt 32 (strtol s)

/-- The value of a string of digits. -/
def numeral (s : Bytes) : ℕ := s.foldl (fun acc c => 10 * acc + (c.toNat - 48)) 0

theorem isDigit_iff {c : Byte} : isDigit c = true ↔ 48 ≤ c.toNat ∧ c.toNat ≤ 57 := by
  simp only [isDigit, Bool.and_eq_true, decide_eq_true_eq, BitVec.le_def]
  rfl

theorem digitChar_toNat {d : ℕ} (h : d < 10) : (digitChar d).toNat = 48 + d := by
  simp only [digitChar, BitVec.toNat_ofNat]
  omega

theorem isDigit_digitChar {d : ℕ} (h : d < 10) : isDigit (digitChar d) = true := by
  rw [isDigit_iff, digitChar_toNat h]
  omega

def digits (n : ℕ) : List ℕ := if n = 0 then [0] else (Nat.digits 10 n).reverse

theorem decimal_eq (n : ℕ) : decimal n = (digits n).map digitChar := by
  unfold decimal digits
  split <;> rfl

theorem digits_lt {n d : ℕ} (h : d ∈ digits n) : d < 10 := by
  unfold digits at h
  split at h
  · rw [List.mem_singleton] at h; omega
  · exact Nat.digits_lt_base (by norm_num) (List.mem_reverse.mp h)

theorem digits_ne_nil (n : ℕ) : digits n ≠ [] := by
  unfold digits
  split
  · exact List.cons_ne_nil _ _
  next h => simpa [Nat.digits_eq_nil_iff_eq_zero] using h

theorem foldl_digits (n : ℕ) : (digits n).foldl (fun acc d => 10 * acc + d) 0 = n := by
  unfold digits
  split
  next h => simp [h]
  next h =>
    rw [List.foldl_reverse]
    have hof : ∀ l : List ℕ, l.foldr (fun d acc => 10 * acc + d) 0 = Nat.ofDigits 10 l := by
      intro l
      induction l with
      | nil => rfl
      | cons d l ih => rw [List.foldr_cons, ih, Nat.ofDigits_cons, Nat.add_comm]
    rw [hof, Nat.ofDigits_digits]

theorem foldl_decimal (l : List ℕ) (h : ∀ d ∈ l, d < 10) (acc : ℕ) :
    (l.map digitChar).foldl (fun acc c => 10 * acc + (c.toNat - 48)) acc =
      l.foldl (fun acc d => 10 * acc + d) acc := by
  induction l generalizing acc with
  | nil => rfl
  | cons d l ih =>
    have hd := digitChar_toNat (h d (List.mem_cons_self ..))
    rw [List.map_cons, List.foldl_cons, List.foldl_cons, hd, Nat.add_sub_cancel_left]
    exact ih (fun e he => h e (List.mem_cons_of_mem d he)) _

theorem isDigit_of_mem_decimal {n : ℕ} {c : Byte} (hc : c ∈ decimal n) : isDigit c = true := by
  rw [decimal_eq] at hc
  obtain ⟨d, hd, rfl⟩ := List.mem_map.mp hc
  exact isDigit_digitChar (digits_lt hd)

theorem decimal_ne_nil (n : ℕ) : decimal n ≠ [] := by
  rw [decimal_eq]
  exact fun h => digits_ne_nil n (List.map_eq_nil_iff.mp h)

theorem numeral_decimal (n : ℕ) : numeral (decimal n) = n := by
  rw [numeral, decimal_eq, foldl_decimal _ (fun _ => digits_lt), foldl_digits]

/-- A string of digits has no white space and no sign to skip. -/
theorem strtol_of_digits {s : Bytes} (h0 : s ≠ []) (h : ∀ c ∈ s, isDigit c = true)
    (hlt : numeral s < 2 ^ 63) : strtol s = numeral s := by
  obtain ⟨d, tail, rfl⟩ := List.exists_cons_of_ne_nil h0
  have hd := isDigit_iff.mp (h d (List.mem_cons_self ..))
  have hsp : isSpace d = false := by
    simp only [isSpace, Bool.or_eq_false_iff, decide_eq_false_iff_not, Bool.and_eq_false_iff,
      BitVec.le_def, ← BitVec.toNat_inj]
    simp
    omega
  have hdrop : (d :: tail).dropWhile isSpace = d :: tail := by
    rw [List.dropWhile_cons_of_neg (by simp [hsp])]
  have hne : ∀ c : Byte, c.toNat < 48 → (d :: tail).head? ≠ some c := by
    intro c hc he
    rw [List.head?_cons, Option.some.injEq] at he
    rw [he] at hd
    omega
  have h45 : (d :: tail).head? ≠ some 45#8 := hne _ (by decide)
  have h43 : (d :: tail).head? ≠ some 43#8 := hne _ (by decide)
  have htake : (d :: tail).takeWhile isDigit = d :: tail := List.takeWhile_eq_self_iff.mpr h
  rw [numeral] at hlt ⊢
  simp only [strtol, hdrop, h45, h43, decide_false, Bool.or_false, Bool.false_eq_true, if_false,
    htake]
  omega

theorem strtol_decimal {n : ℕ} (h : n < 2 ^ 63) : strtol (decimal n) = n := by
  have hn := numeral_decimal n
  have hs := strtol_of_digits (decimal_ne_nil n) (fun _ => isDigit_of_mem_decimal)
    (by rw [hn]; exact h)
  rw [hs, hn]

theorem atoi_decimal (n : BitVec 32) : atoi (decimal n.toNat) = n := by
  have hlt := n.isLt
  rw [atoi, strtol_decimal (by omega)]
  exact BitVec.eq_of_toNat_eq (by simp)

theorem decimal_length_le (n : BitVec 32) : (decimal n.toNat).length ≤ 10 := by
  have hlt := n.isLt
  unfold decimal
  split
  · simp
  next h =>
    rw [List.length_map, List.length_reverse]
    have hpow := Nat.base_pow_length_digits_le 10 n.toNat (by norm_num) h
    have hlt10 : 10 ^ (Nat.digits 10 n.toNat).length < 10 ^ 11 := by omega
    have := (Nat.pow_lt_pow_iff_right (by norm_num)).mp hlt10
    omega

end ChordChat
