import ChordChat.ID

/-!
# Node records (INode.h)

Every constructor of `INode` computes `_id` from `_name`, which the record keeps
as a field. `serialize` writes the record as three length-prefixed fields, and
`ofSerial` is the constructor `INode(const char *, size_t)`. It never looks at
its length argument: `serial` is the memory from the pointer on, and reading past
it is the fault `overread`.
-/

namespace ChordChat

/-- Ways in which a call ends other than by returning. An exception can be
caught; the others end the process or leave its behaviour undefined. -/
inductive Fault where
  | exception
  | abort
  | nullDeref
  | overread
  deriving DecidableEq

structure INode where
  name : Bytes
  host : Bytes
  port : BitVec 32
  id : ID
  id_eq : ID.ofString name = some id

namespace INode

theorem ext {a b : INode} (hn : a.name = b.name) (hh : a.host = b.host) (hp : a.port = b.port) :
    a = b := by
  obtain ⟨_, _, _, ida, ha⟩ := a
  obtain ⟨_, _, _, idb, hb⟩ := b
  dsimp only at hn hh hp
  subst hn hh hp
  obtain rfl : ida = idb := Option.some.inj (ha.symm.trans hb)
  rfl

instance : DecidableEq INode := fun a b =>
  decidable_of_iff (a.name = b.name ∧ a.host = b.host ∧ a.port = b.port)
    ⟨fun h => ext h.1 h.2.1 h.2.2, fun h => h ▸ ⟨rfl, rfl, rfl⟩⟩

/-- `INode(name, host, port)`: `ID(_name)` aborts when the name is empty. -/
def new (name host : Bytes) (port : BitVec 32) : Except Fault INode :=
  match h : ID.ofString name with
  | none => .error .abort
  | some id => .ok ⟨name, host, port, id, h⟩

theorem name_ne_nil (n : INode) : n.name ≠ [] := by
  intro h
  have := n.id_eq
  rw [h, ID.ofString_nil] at this
  cases this

theorem new_eq_ok {name host : Bytes} {port : BitVec 32} {n : INode} :
    new name host port = .ok n ↔ n.name = name ∧ n.host = host ∧ n.port = port := by
  unfold new
  split
  next h =>
    refine ⟨fun he => (by cases he), ?_⟩
    rintro ⟨rfl, _, _⟩
    rw [n.id_eq] at h
    cases h
  next id h =>
    constructor
    · rintro he
      cases he
      exact ⟨rfl, rfl, rfl⟩
    · rintro ⟨rfl, rfl, rfl⟩
      exact congrArg Except.ok (ext rfl rfl rfl)

/-! ### Serialization -/

def field (s : Bytes) : Bytes := toChar s.length :: s

def serialize (n : INode) : Bytes := field n.name ++ field n.host ++ field (decimal n.port.toNat)

/-- One field at `position`: the string and the position behind it. A negative
length is an impossible size for `std::string` and throws. -/
def readField (serial : Bytes) (position : ℕ) : Except Fault (Bytes × ℕ) :=
  match serial[position]? with
  | none => .error .overread
  | some c =>
    if charVal c < 0 then .error .exception
    else if position + 1 + (charVal c).toNat ≤ serial.length then
      .ok ((serial.drop (position + 1)).take (charVal c).toNat, position + 1 + (charVal c).toNat)
    else .error .overread

def ofSerial (serial : Bytes) : Except Fault INode :=
  match readField serial 0 with
  | .error e => .error e
  | .ok (name, position) =>
    match readField serial position with
    | .error e => .error e
    | .ok (host, position) =>
      match readField serial position with
      | .error e => .error e
      | .ok (portStr, _) => new name host (atoi portStr)

theorem serialize_length (n : INode) :
    n.serialize.length = n.name.length + n.host.length + (decimal n.port.toNat).length + 3 := by
  simp only [serialize, field, List.length_append, List.length_cons]
  omega

theorem readField_field (before s rest : Bytes) (h : s.length ≤ 127) :
    readField (before ++ field s ++ rest) before.length =
      .ok (s, before.length + (field s).length) := by
  have hc : charVal (toChar s.length) = s.length := charVal_toChar_of_le h
  have hget : (before ++ field s ++ rest)[before.length]? = some (toChar s.length) := by
    simp [field]
  have hle : before.length + 1 + s.length ≤ (before ++ field s ++ rest).length := by
    simp only [field, List.length_append, List.length_cons]
    omega
  have hneg : ¬ (s.length : ℤ) < 0 := by omega
  have hdrop : ((before ++ field s ++ rest).drop (before.length + 1)).take s.length = s := by
    rw [List.append_assoc, List.drop_append, List.drop_of_length_le (by omega)]
    simp [field]
  simp only [readField, hget, hc, hneg, if_false, Int.toNat_natCast, hle, if_true, hdrop]
  simp only [field, List.length_cons]
  congr 2
  omega

/-- Whatever follows the record in memory, decoding yields the record. -/
theorem ofSerial_serialize (n : INode) (rest : Bytes) (hn : n.name.length ≤ 127)
    (hh : n.host.length ≤ 127) : ofSerial (n.serialize ++ rest) = .ok n := by
  have hp := decimal_length_le n.port
  have h1 := readField_field [] n.name (field n.host ++ field (decimal n.port.toNat) ++ rest) hn
  have h2 := readField_field (field n.name) n.host (field (decimal n.port.toNat) ++ rest) hh
  have h3 := readField_field (field n.name ++ field n.host) (decimal n.port.toNat) rest (by omega)
  simp only [List.nil_append, List.length_nil, Nat.zero_add, List.length_append,
    ← List.append_assoc] at h1 h2 h3
  simp only [ofSerial, serialize, h1, h2, h3]
  exact new_eq_ok.mpr ⟨rfl, rfl, (atoi_decimal n.port).symm⟩

theorem readField_eq_ok {serial s : Bytes} {position next : ℕ}
    (h : readField serial position = .ok (s, next)) :
    s.length ≤ 127 ∧ next = position + 1 + s.length ∧ next ≤ serial.length := by
  unfold readField at h
  split at h
  · cases h
  next c hc =>
    have hb := charVal_bounds c
    split at h
    · cases h
    next hneg =>
      split at h
      next hle =>
        cases h
        rw [List.length_take, List.length_drop]
        omega
      · cases h

theorem ofSerial_bounds {serial : Bytes} {n : INode} (h : ofSerial serial = .ok n) :
    n.name.length ≤ 127 ∧ n.host.length ≤ 127 ∧
      n.name.length + n.host.length + 3 ≤ serial.length := by
  unfold ofSerial at h
  split at h
  · cases h
  next name p1 h1 =>
    split at h
    · cases h
    next host p2 h2 =>
      split at h
      · cases h
      next portStr p3 h3 =>
        have hb1 := readField_eq_ok h1
        have hb2 := readField_eq_ok h2
        have hb3 := readField_eq_ok h3
        obtain ⟨rfl, rfl, _⟩ := new_eq_ok.mp h
        omega

end INode

/-! ### Two nodes -/

/-- "alice" on port 8001 of "localhost". -/
def alice : INode where
  name := [97, 108, 105, 99, 101]
  host := [108, 111, 99, 97, 108, 104, 111, 115, 116]
  port := 8001
  id := (ID.ofString [97, 108, 105, 99, 101]).get rfl
  id_eq := (Option.some_get _).symm

/-- "bob" on port 8002 of "localhost". -/
def bob : INode where
  name := [98, 111, 98]
  host := [108, 111, 99, 97, 108, 104, 111, 115, 116]
  port := 8002
  id := (ID.ofString [98, 111, 98]).get rfl
  id_eq := (Option.some_get _).symm

theorem alice_id_ne_bob_id : alice.id ≠ bob.id := by
  intro h
  have hdigest : (ID.ofString alice.name).map ID.bytes ≠ (ID.ofString bob.name).map ID.bytes := by
    decide +kernel
  rw [alice.id_eq, bob.id_eq, h] at hdigest
  exact hdigest rfl

end ChordChat
