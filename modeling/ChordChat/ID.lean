import ChordChat.Clockwise.Interval
import ChordChat.Sha1
import Mathlib.Data.List.Lex
import Mathlib.Order.Lattice
import Mathlib.Data.Set.Finite.List

/-!
# Identifiers (ID.h, ID.cpp)

An `ID` is an array of twenty characters. The comparison operators go through
the array from index 0 and compare characters, so the order is the lexicographic
order of the character values; it makes the IDs a circle, and `isInInterval` is
the interval test of that circle (`isInInterval_iff`).
-/

namespace ChordChat
open Clockwise

def ID_LEN : ℕ := 20

abbrev M : ℕ := 160

instance instNeZeroM : NeZero M := ⟨by decide⟩

structure ID where
  bytes : Bytes
  length_eq : bytes.length = ID_LEN

theorem ID.ext {a b : ID} (h : a.bytes = b.bytes) : a = b := by
  cases a; cases b; cases h; rfl

namespace ID

/-- `ID(const char *)`: the first twenty characters at a pointer. -/
def ofChars (id : Bytes) : ID :=
  ⟨(List.range ID_LEN).map fun i => id.getD i 0, by simp⟩

/-- `ID(const std::string &)`: the length is narrowed to `int`; `none` is the
failed assertion of `SHA1::addBytes`. -/
def ofString (str : Bytes) : Option ID :=
  (Sha1.initial.addBytes str (BitVec.ofNat 32 str.length).toInt).map fun sha1 =>
    ⟨sha1.getDigest, sha1.getDigest_length⟩

theorem ofChars_bytes (id : ID) (rest : Bytes) : ofChars (id.bytes ++ rest) = id := by
  refine ID.ext (List.ext_getElem? fun i => ?_)
  have hlen := id.length_eq
  by_cases hi : i < ID_LEN
  · rw [ofChars, List.getElem?_map, List.getElem?_range hi, Option.map_some,
      List.getD_eq_getElem?_getD, List.getElem?_append_left (by omega),
      List.getElem?_eq_getElem (by omega), Option.getD_some]
  · have hlen' := (ofChars (id.bytes ++ rest)).length_eq
    rw [List.getElem?_eq_none (by omega), List.getElem?_eq_none (by omega)]

theorem bytes_length_le (id : ID) : id.bytes.length ≤ 126 := by
  rw [id.length_eq]
  decide

/-! ### Addition -/

/-- The loop of `operator+=`, from the last index down: the sum and the carry. -/
def addChars : Bytes → Bytes → Bytes × Byte
  | a :: lhs, b :: other =>
    let rest := addChars lhs other
    let val : Uint32 := a.signExtend 32 + b.signExtend 32 + rest.2.signExtend 32
    (val.setWidth 8 :: rest.1, (val >>> 8).setWidth 8 &&& 0x01)
  | _, _ => ([], 0x00)

theorem addChars_length (lhs other : Bytes) (h : lhs.length = other.length) :
    (addChars lhs other).1.length = lhs.length := by
  induction lhs generalizing other with
  | nil => rfl
  | cons a lhs ih =>
    cases other with
    | nil => cases h
    | cons b other =>
      simp only [addChars, List.length_cons]
      rw [ih other (Nat.succ.inj h)]

def add (lhs rhs : ID) : ID :=
  ⟨(addChars lhs.bytes rhs.bytes).1,
    (addChars_length _ _ (lhs.length_eq.trans rhs.length_eq.symm)).trans lhs.length_eq⟩

/-! ### Hashing -/

theorem ofString_nil : ofString [] = none := rfl

/-! ### Comparison -/

/-- The loop of `operator<`; `val` is the value of a character. -/
def lessChars (val : Byte → ℤ) : Bytes → Bytes → Bool
  | a :: lhs, b :: rhs =>
    if val a < val b then true
    else if val a > val b then false
    else lessChars val lhs rhs
  | _, _ => false

def less (lhs rhs : ID) : Bool := lessChars charVal lhs.bytes rhs.bytes

def greater (lhs rhs : ID) : Bool := less rhs lhs

def isInInterval (x lower upper : ID) : Bool :=
  if less lower upper then greater x lower && less x upper
  else if greater lower upper then greater x lower || less x upper
  else true

theorem lessChars_iff (val : Byte → ℤ) (as bs : Bytes) (h : as.length = bs.length) :
    lessChars val as bs = true ↔ as.map val < bs.map val := by
  induction as generalizing bs with
  | nil =>
    cases bs with
    | nil => simp [lessChars]
    | cons b bs => cases h
  | cons a as ih =>
    cases bs with
    | nil => cases h
    | cons b bs =>
      have ht := ih bs (Nat.succ.inj h)
      rw [List.map_cons, List.map_cons, List.cons_lt_cons_iff, ← ht, lessChars]
      split
      next hlt => exact ⟨fun _ => Or.inl hlt, fun _ => rfl⟩
      next hlt =>
        split
        next hgt =>
          refine ⟨fun hf => absurd hf Bool.false_ne_true, ?_⟩
          rintro (hl | ⟨he, _⟩)
          · exact absurd hl hlt
          · omega
        next hgt =>
          have he : val a = val b := le_antisymm (not_lt.mp hgt) (not_lt.mp hlt)
          simp [he]

theorem values_injective : Function.Injective fun a : ID => a.bytes.map charVal :=
  fun _ _ h => ID.ext (charVal_injective.list_map h)

instance : LinearOrder ID := LinearOrder.lift' (fun a : ID => a.bytes.map charVal) values_injective

instance : CircularOrder ID := LinearOrder.toCircularOrder ID

theorem less_iff {a b : ID} : less a b = true ↔ a < b :=
  lessChars_iff charVal a.bytes b.bytes (a.length_eq.trans b.length_eq.symm)

theorem sbtw_iff_lt {a b c : ID} : sbtw a b c ↔ a < b ∧ b < c ∨ b < c ∧ c < a ∨ c < a ∧ a < b :=
  Iff.rfl

/-- The interval test of the code is the arc of the circle. -/
theorem isInInterval_iff {x lower upper : ID} :
    x.isInInterval lower upper = true ↔ InArc lower x upper := by
  have htest : x.isInInterval lower upper = true ↔ Between lower x upper :=
    between_test (f := id) (fun _ _ => less_iff) lower x upper
  exact htest.trans between_iff_inArc

instance : Finite ID := by
  have hbyte : Finite Byte := Finite.of_injective BitVec.toFin fun _ _ => BitVec.eq_of_toFin_eq
  have hfin : Finite {l : Bytes // l.length = ID_LEN} :=
    (List.finite_length_eq Byte ID_LEN).to_subtype
  exact Finite.of_injective (fun a : ID => (⟨a.bytes, a.length_eq⟩ : {l : Bytes // l.length = ID_LEN}))
    fun _ _ h => ID.ext (Subtype.mk.inj h)

end ID

end ChordChat
