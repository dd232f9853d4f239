import ChordChat.Lookup
import ChordChat.Stabilize

/-!
# Finger maintenance (LocalNode.cpp)

`fixFingers` draws a slot with `rand() % (M - 2) + 1` and looks up the start of its
finger. On an ideal ring every draw puts the right node into its slot and leaves
the others alone. The draws reach the slots from 1 to `M - 2`; the last slot keeps
what it had.
-/

namespace ChordChat
open Clockwise

namespace Net

/-- One call of `fixFingers` on node `i`; `rand` is the value drawn. A node that is not
there makes no call. -/
def fixFingers (t : Transport) (object fuel : ℕ) (net : Net) (i : ID) (rand : ℕ) :
    Option (Except Fault Unit × Net) :=
  match net.node i with
  | none => none
  | some _ =>
    let k := LocalNode.fingerIndex rand
    match net.findSuccessor t object fuel i (FingerTable.start i k) with
    | none => none
    | some (.error e, net) => some (.error e, net)
    | some (.ok p, net) => some (.ok (), net.onNode i fun n => net.set (n.setFinger k p))

/-- An ideal ring: the successors are right and stand in slot 0, and the other slots hold
members or nothing. -/
structure IdealRingOf (net : Net) (members : Finset ID) : Prop extends net.RingOf members where
  slot_zero : ∀ i n, net.node i = some n → n.finger.entries 0 ≠ none

/-- Slot `k` of node `i` holds the first member from the finger's start on, and the own
object when that is the node itself. -/
def FingerRight (net : Net) (members : Finset ID) (i : ID) (k : Fin M) : Prop :=
  ∃ n p, net.node i = some n ∧ n.finger.entries k = some p ∧
    FirstFrom members (FingerTable.start i k) (p.idAt i) ∧ (p.idAt i = i → p = .self)

/-! ### The draw -/

def fixed (net : Net) (n : LocalNode) (rand : ℕ) (p : Node) : Net :=
  net.set (n.setFinger (LocalNode.fingerIndex rand) (some p))

theorem entries_setFinger (n : LocalNode) (rand : ℕ) (p : Node) (k : Fin M) :
    (n.setFinger (LocalNode.fingerIndex rand) (some p)).finger.entries k =
      if k = LocalNode.fingerIndex rand then n.thisIfOwn (some p) else n.finger.entries k :=
  FingerTable.entries_setNode _ _ _ _

theorem node_fixed (net : Net) {n : LocalNode} {i : ID} (hid : n.getId = i) (rand : ℕ) (p : Node)
    (j : ID) : (net.fixed n rand p).node j =
      if j = i then some (n.setFinger (LocalNode.fingerIndex rand) (some p)) else net.node j := by
  rw [fixed, node_set]
  exact hid ▸ rfl

theorem IdealRingOf.fixed {net : Net} {members : Finset ID} (h : net.IdealRingOf members) {i : ID}
    {n : LocalNode} (hn : net.node i = some n) (rand : ℕ) {p : Node} (hp : n.idOf p ∈ members) :
    (net.fixed n rand p).IdealRingOf members := by
  have hid := net.id_eq i n hn
  have hcases : ∀ {j m}, (net.fixed n rand p).node j = some m → net.node j = some m ∨
      j = i ∧ m = n.setFinger (LocalNode.fingerIndex rand) (some p) := by
    intro j m hm
    rw [node_fixed net hid] at hm
    split at hm
    next hj => exact Or.inr ⟨hj, (Option.some.inj hm).symm⟩
    next => exact Or.inl hm
  have hzero := n.setFinger_slot (LocalNode.fingerIndex_ne_zero rand) (some p)
  refine ⟨⟨fun j => ?_, fun j m hm => ?_, fun j m k q hm hk => ?_⟩, fun j m hm => ?_⟩
  · rw [h.alive j, node_fixed net hid]
    split
    next hj => exact ⟨fun _ => ⟨_, rfl⟩, fun _ => ⟨n, hj ▸ hn⟩⟩
    next => rfl
  · rcases hcases hm with hold | ⟨rfl, rfl⟩
    · exact h.successor j m hold
    · obtain ⟨s, hs⟩ := Option.ne_none_iff_exists'.mp (h.slot_zero _ _ hn)
      have hsucc := h.successor _ n hn
      rw [LocalNode.getSuccessor_of_slot hs] at hsucc
      rw [LocalNode.getSuccessor_of_slot (hzero.trans hs)]
      exact hsucc
  · rcases hcases hm with hold | ⟨rfl, rfl⟩
    · exact h.fingers j m k q hold hk
    · rw [entries_setFinger] at hk
      split at hk
      next =>
        have hq := n.idOf_thisIfOwn (some p)
        rw [hk, Option.map_some, Option.map_some] at hq
        rw [LocalNode.setFinger_idOf, Option.some.inj hq]
        exact hp
      next => exact h.fingers _ n k q hn hk
  · rcases hcases hm with hold | ⟨rfl, rfl⟩
    · exact h.slot_zero j m hold
    · rw [hzero]
      exact h.slot_zero _ n hn

end Net

/-! ### Alice and Bob -/

end ChordChat
