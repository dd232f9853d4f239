import ChordChat.INode
import ChordChat.Text.Cut

/-!
# String operations (StringTrim.h, std::string)

`ltrim` and `rtrim` return the string they leave behind. `find` is
`string::find`; `none` is `npos`. A negative character is not white space: the
locale is never set.
-/

namespace ChordChat

/-- The characters of a literal. -/
def chars (s : String) : Bytes := s.toList.map fun c => BitVec.ofNat 8 c.toNat

def ltrim (s : Bytes) : Bytes := s.dropWhile isSpace

def rtrim (s : Bytes) : Bytes := s.rdropWhile isSpace

def trim (s : Bytes) : Bytes := ltrim (rtrim s)

def find (pattern : Bytes) : Bytes → Option ℕ
  | [] => if pattern = [] then some 0 else none
  | c :: s => if pattern.isPrefixOf (c :: s) then some 0 else (find pattern s).map (· + 1)

def substr (s : Bytes) (pos n : ℕ) : Except Fault Bytes :=
  if pos ≤ s.length then .ok ((s.drop pos).take n) else .error .exception

/-- `substr(pos)`: the count defaults to `npos`. -/
def substrFrom (s : Bytes) (pos : ℕ) : Except Fault Bytes :=
  if pos ≤ s.length then .ok (s.drop pos) else .error .exception

/-- `a - b` on `size_t`. -/
def sizeSub (a b : ℕ) : ℕ := (a + 2 ^ 64 - b) % 2 ^ 64

def colon : Byte := 58#8

def atSign : Byte := 64#8

theorem isSpace_colon : isSpace colon = false := by decide

theorem isSpace_atSign : isSpace atSign = false := by decide

theorem ok_bind {ε α β : Type} (a : α) (f : α → Except ε β) : (Except.ok a >>= f) = f a := rfl

theorem trim_eq (s : Bytes) : trim s = Text.trim isSpace s := rfl

theorem colon_mem_trim {s : Bytes} : colon ∈ trim s ↔ colon ∈ s := Text.mem_trim isSpace_colon

theorem atSign_mem_trim {s : Bytes} : atSign ∈ trim s ↔ atSign ∈ s := Text.mem_trim isSpace_atSign

theorem find_eq_zero {pattern s : Bytes} : find pattern s = some 0 ↔ pattern <+: s := by
  cases s with
  | nil => simp [find]
  | cons c s =>
    simp only [find, List.isPrefixOf_iff_prefix]
    split
    next h => exact iff_of_true rfl h
    next h =>
      refine iff_of_false ?_ h
      cases find pattern s <;> simp

theorem find_not_mem {c : Byte} {s : Bytes} (h : c ∉ s) : find [c] s = none := by
  induction s with
  | nil => simp [find]
  | cons d s ih =>
    have hne : c ≠ d := fun he => h (he ▸ List.mem_cons_self ..)
    have ih := ih fun hs => h (List.mem_cons_of_mem d hs)
    simp [find, hne, ih]

theorem find_mem {c : Byte} {s : Bytes} (h : c ∈ s) : find [c] s = some (Text.upTo c s).length := by
  induction s with
  | nil => cases h
  | cons d s ih =>
    by_cases hd : d = c
    · subst hd
      simp [find, Text.upTo]
    · have ih := ih (List.mem_of_ne_of_mem (Ne.symm hd) h)
      have hupTo : Text.upTo c (d :: s) = d :: Text.upTo c s :=
        List.takeWhile_cons_of_pos (by simpa using hd)
      simp [find, Ne.symm hd, ih, hupTo]

theorem substr_upTo (c : Byte) (s : Bytes) :
    substr s 0 (Text.upTo c s).length = .ok (Text.upTo c s) := by
  rw [substr, if_pos (Nat.zero_le _), List.drop_zero, Text.take_upTo]

theorem substr_past {c : Byte} {s : Bytes} (h : c ∈ s) (n : ℕ) :
    substr s ((Text.upTo c s).length + 1) n = .ok ((Text.past c s).take n) := by
  have hlen := Text.length_upTo_past h
  rw [substr, if_pos (by omega), Text.drop_upTo h]

theorem substrFrom_past {c : Byte} {s : Bytes} (h : c ∈ s) :
    substrFrom s ((Text.upTo c s).length + 1) = .ok (Text.past c s) := by
  have hlen := Text.length_upTo_past h
  rw [substrFrom, if_pos (by omega), Text.drop_upTo h]

theorem trim_length_eq_zero {s : Bytes} : (trim s).length = 0 ↔ Text.Blank isSpace s := by
  rw [List.length_eq_zero_iff, trim_eq, Text.trim_eq_nil]

namespace ID

/-- The assertion of `SHA1::addBytes`, on the length as an `int`. -/
def Hashable (str : Bytes) : Prop := 0 < (BitVec.ofNat 32 str.length).toInt

theorem hashable_of_length {str : Bytes} (h0 : str ≠ []) (h : str.length < 2 ^ 31) : Hashable str := by
  have hpos : 0 < str.length := List.length_pos_iff.mpr h0
  rw [Hashable, BitVec.toInt_eq_toNat_cond, BitVec.toNat_ofNat]
  split <;> omega

theorem ofString_eq_none {str : Bytes} : ofString str = none ↔ ¬ Hashable str := by
  rw [ofString, Option.map_eq_none_iff, Sha1.addBytes]
  split
  next h => exact iff_of_false (Option.some_ne_none _) (not_not.mpr h)
  next h => exact iff_of_true rfl h

theorem hashable_of_eq_some {str : Bytes} {id : ID} (h : ofString str = some id) : Hashable str := by
  by_contra hnot
  rw [ofString_eq_none.mpr hnot] at h
  cases h

end ID

end ChordChat
