import ChordChat.Request
import Mathlib.Data.List.GetD

/-!
# Which bytes of a payload the decoder touches (INode.h)

The buffers of `handleRequest` and `sendMessage` are never overrun: `asio::buffer` takes the
smaller of the announced length and the size of the array. The constructor
`INode(const char *, size_t)` follows three length bytes and does not look at its second
argument, so a record that is cut off sends it behind the payload.
-/

namespace ChordChat

def requested (stream : Bytes) : Option ℕ :=
  (asioRead stream 1).map fun r => bufferSize (charVal (r.1.headD 0))

theorem requested_le {stream : Bytes} {size : ℕ} (h : requested stream = some size) :
    size ≤ MAX_DATA_LENGTH := by
  obtain ⟨r, _, rfl⟩ := Option.map_eq_some_iff.mp h
  exact Nat.min_le_left _ _

namespace INode

/-- The memory from the payload's first byte on; `beyond` is what lies behind the payload. -/
def memoryAt (payload : Bytes) (beyond : ℕ → Byte) (i : ℕ) : Byte := payload.getD i (beyond i)

/-- One field at `position`: the positions inspected or copied, and the position behind it unless
`std::string` throws. -/
def touchField (memory : ℕ → Byte) (position : ℕ) : List ℕ × Option ℕ :=
  let length := charVal (memory position)
  if length < 0 then ([position], none)
  else (position :: List.range' (position + 1) length.toNat, some (position + 1 + length.toNat))

def touched (memory : ℕ → Byte) : ℕ → ℕ → List ℕ
  | 0, _ => []
  | fields + 1, position =>
    match touchField memory position with
    | (positions, none) => positions
    | (positions, some next) => positions ++ touched memory fields next

/-- So many fields are complete, or fewer are and a length byte of 0x80 or more follows. -/
def FieldsFit : ℕ → Bytes → Prop
  | 0, _ => True
  | _ + 1, [] => False
  | fields + 1, c :: rest =>
    charVal c < 0 ∨
      (charVal c).toNat ≤ rest.length ∧ FieldsFit fields (rest.drop (charVal c).toNat)

variable {payload : Bytes} {beyond : ℕ → Byte} {position : ℕ}

theorem memoryAt_of_lt (beyond : ℕ → Byte) (h : position < payload.length) :
    memoryAt payload beyond position = payload[position] :=
  List.getD_eq_getElem _ _ h

theorem head_touched (memory : ℕ → Byte) (fields position : ℕ) :
    position ∈ touched memory (fields + 1) position := by
  rw [touched, touchField]
  by_cases hneg : charVal (memory position) < 0
  · rw [if_pos hneg]
    exact List.mem_singleton_self _
  · rw [if_neg hneg]
    exact List.mem_append_left _ (List.mem_cons_self ..)

/-- The decoder stays in front of the payload's end just when the fields fit. -/
theorem touched_lt_iff (beyond : ℕ → Byte) (fields : ℕ) (h : position ≤ payload.length) :
    (∀ r ∈ touched (memoryAt payload beyond) fields position, r < payload.length) ↔
      FieldsFit fields (payload.drop position) := by
  induction fields generalizing position with
  | zero => exact ⟨fun _ => trivial, fun _ r hr => by cases hr⟩
  | succ fields ih =>
    by_cases hlt : position < payload.length
    · have hcons : payload.drop position = payload[position] :: payload.drop (position + 1) :=
        List.drop_eq_getElem_cons hlt
      have hmem := memoryAt_of_lt beyond hlt
      rw [hcons, FieldsFit, touched, touchField, hmem]
      by_cases hneg : charVal payload[position] < 0
      · rw [if_pos hneg]
        refine ⟨fun _ => Or.inl hneg, fun _ r hr => ?_⟩
        rw [List.mem_singleton.mp hr]
        exact hlt
      · rw [if_neg hneg, or_iff_right hneg, List.drop_drop, List.length_drop]
        generalize (charVal payload[position]).toNat = length
        constructor
        · intro hall
          have hfits : position + 1 + length ≤ payload.length := by
            by_contra hgt
            have hlast := hall (position + length) (List.mem_append_left _ (List.mem_cons.mpr ?_))
            · omega
            · rw [List.mem_range'_1]
              omega
          refine ⟨by omega, (ih hfits).mp fun r hr => ?_⟩
          exact hall r (List.mem_append_right _ hr)
        · intro hfits r hr
          have hle : position + 1 + length ≤ payload.length := by omega
          have hnext := (ih hle).mpr hfits.2
          rcases List.mem_append.mp hr with hfield | hrest
          · rw [List.mem_cons, List.mem_range'_1] at hfield
            omega
          · exact hnext r hrest
    · -- at the end of the payload the length byte itself is missing
      obtain rfl : position = payload.length := by omega
      rw [List.drop_length, FieldsFit]
      refine ⟨fun hall => ?_, False.elim⟩
      exact absurd (hall _ (head_touched _ fields _)) (Nat.lt_irrefl _)

theorem readField_overread_iff {next : Bytes → ℕ → Except Fault INode} (h : position ≤ payload.length)
    (fields : ℕ) (hnext : ∀ s p, p ≤ payload.length →
      (next s p = .error .overread ↔ ¬ FieldsFit fields (payload.drop p))) :
    (match readField payload position with
      | .error e => .error e
      | .ok (s, p) => next s p : Except Fault INode) = .error .overread ↔
        ¬ FieldsFit (fields + 1) (payload.drop position) := by
  by_cases hlt : position < payload.length
  · rw [List.drop_eq_getElem_cons hlt, FieldsFit, readField, List.getElem?_eq_getElem hlt]
    dsimp only
    by_cases hneg : charVal payload[position] < 0
    · rw [if_pos hneg]
      exact ⟨fun he => (by cases he), fun hfit => absurd (Or.inl hneg) hfit⟩
    · rw [if_neg hneg, or_iff_right hneg, List.drop_drop, List.length_drop]
      by_cases hfits : position + 1 + (charVal payload[position]).toNat ≤ payload.length
      · rw [if_pos hfits, and_iff_right (by omega)]
        exact hnext _ _ hfits
      · rw [if_neg hfits]
        exact ⟨fun _ hfit => hfits (by omega), fun _ => rfl⟩
  · obtain rfl : position = payload.length := by omega
    rw [List.drop_length, readField, List.getElem?_eq_none (Nat.le_refl _)]
    exact ⟨fun _ hfit => hfit, fun _ => rfl⟩

/-- `ofSerial` runs into the end of its memory on the same payloads. -/
theorem ofSerial_overread_iff (payload : Bytes) :
    ofSerial payload = .error .overread ↔ ¬ FieldsFit 3 payload := by
  have hnew : ∀ name host port, new name host port ≠ .error .overread := by
    intro name host port h
    unfold new at h
    split at h <;> cases h
  refine readField_overread_iff (Nat.zero_le _) 2 fun name p1 h1 => ?_
  refine readField_overread_iff h1 1 fun host p2 h2 => ?_
  refine readField_overread_iff h2 0 fun portStr p3 _ => ?_
  exact ⟨fun h => absurd h (hnew _ _ _), fun h => absurd trivial h⟩

end INode

/-- Reading the stream fills no buffer beyond its end, and decoding the payload touches no byte
behind it. -/
def StaysInside (stream payload : Bytes) (beyond : ℕ → Byte) : Prop :=
  (∀ size, requested stream = some size → size ≤ MAX_DATA_LENGTH) ∧
    ∀ r ∈ INode.touched (INode.memoryAt payload beyond) 3 0, r < payload.length

theorem staysInside_iff (stream payload : Bytes) (beyond : ℕ → Byte) :
    StaysInside stream payload beyond ↔ INode.FieldsFit 3 payload := by
  have htouched := INode.touched_lt_iff beyond 3 (Nat.zero_le payload.length)
  rw [List.drop_zero] at htouched
  rw [StaysInside, htouched]
  exact and_iff_right fun _ => requested_le

/-- A reply of one byte that announces a name of five. -/
theorem reply_overread : ∃ stream, readFrame stream = some [5] ∧
    ¬ StaysInside stream [5] fun _ => 0 := by
  refine ⟨[1, 5], by decide, fun h => ?_⟩
  exact absurd (h.2 1 (by decide)) (by decide)

end ChordChat
