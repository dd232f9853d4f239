import ChordChat.INode
import Mathlib.Logic.Function.Basic

/-!
# Finger tables (FingerTable.cpp)

A `Node` held by a process is a shared pointer: to the process's own `LocalNode`
object, or to a `RemoteNode` object. Two pointers are equal when they point to the
same object, so a remote pointer carries the address of its object besides the
record. The bounds test of `getNode` and `setNode` is the type of the index.
-/

namespace ChordChat

inductive Node where
  | self
  | remote (object : ℕ) (record : INode)
  deriving DecidableEq

def Node.info (own : INode) : Node → INode
  | .self => own
  | .remote _ record => record

structure FingerTable where
  entries : Fin M → Option Node

namespace FingerTable

def empty : FingerTable := ⟨fun _ => none⟩

/-- The loop of `getNode`: the index at which it stops. The slot at index `M`,
which the loop condition reads before it compares the index, does not change the
index. -/
def scan (t : FingerTable) : ℕ → ℕ → ℕ
  | 0, index => index
  | fuel + 1, index =>
    if h : index < M then
      if t.entries ⟨index, h⟩ = none then scan t fuel (index + 1) else index
    else index

def getNode (t : FingerTable) (index : Fin M) : Option Node :=
  let stop := t.scan (M - index) index
  if h : stop < M then t.entries ⟨stop, h⟩ else none

def setNode (t : FingerTable) (index : Fin M) (n : Option Node) : FingerTable :=
  ⟨Function.update t.entries index n⟩

/-- Entries are compared as pointers. -/
def removeNode (t : FingerTable) (n : Node) : FingerTable :=
  ⟨fun i => if t.entries i = some n then none else t.entries i⟩

def start (id : ID) (k : Fin M) : ID :=
  let b := (List.replicate ID_LEN 0x00).set (ID_LEN - k / 8 - 1) (BitVec.ofNat 8 (0x01 <<< (k % 8)))
  id.add (ID.ofChars b)

theorem scan_spec (t : FingerTable) (fuel index : ℕ) (h : fuel + index = M) :
    index ≤ t.scan fuel index ∧ t.scan fuel index ≤ M ∧
      (∀ j : Fin M, index ≤ j → j < t.scan fuel index → t.entries j = none) ∧
      (∀ hs : t.scan fuel index < M, t.entries ⟨t.scan fuel index, hs⟩ ≠ none) := by
  induction fuel generalizing index with
  | zero =>
    have hM : index = M := by omega
    subst hM
    exact ⟨Nat.le_refl _, Nat.le_refl _, fun j h1 h2 => by simp only [scan] at h2; omega,
      fun hs => absurd hs (Nat.lt_irrefl _)⟩
  | succ fuel ih =>
    have hlt : index < M := by omega
    by_cases hnone : t.entries ⟨index, hlt⟩ = none
    · have hstep : t.scan (fuel + 1) index = t.scan fuel (index + 1) := by
        simp only [scan, hlt, hnone, dif_pos, if_true]
      rw [hstep]
      obtain ⟨h1, h2, h3, h4⟩ := ih (index + 1) (by omega)
      refine ⟨by omega, h2, fun j hj1 hj2 => ?_, h4⟩
      by_cases hj : (j : ℕ) = index
      · have hje : j = ⟨index, hlt⟩ := Fin.ext hj
        rw [hje, hnone]
      · exact h3 j (by omega) hj2
    · have hstop : t.scan (fuel + 1) index = index := by
        simp only [scan, hlt, hnone, dif_pos, if_false]
      rw [hstop]
      exact ⟨Nat.le_refl _, by omega, fun j h1 h2 => by omega, fun _ => hnone⟩

/-- `getNode` returns the first occupied slot at or after its index. -/
theorem getNode_eq_some {t : FingerTable} {i : Fin M} {p : Node} :
    t.getNode i = some p ↔
      ∃ j : Fin M, i ≤ j ∧ t.entries j = some p ∧ ∀ k, i ≤ k → k < j → t.entries k = none := by
  obtain ⟨h1, h2, h3, h4⟩ := t.scan_spec (M - i) i (by omega)
  constructor
  · intro h
    simp only [getNode] at h
    split at h
    next hs => exact ⟨⟨_, hs⟩, h1, h, fun k hk1 hk2 => h3 k hk1 hk2⟩
    next => cases h
  · rintro ⟨j, hij, hj, hk⟩
    -- the loop can neither stop before slot `j` nor go past it
    have hstop : t.scan (M - i) i = j := by
      apply Nat.le_antisymm
      · by_contra hlt
        rw [h3 j hij (by omega)] at hj
        cases hj
      · by_contra hlt
        exact h4 (by omega) (hk ⟨_, by omega⟩ h1 (show (t.scan (M - i) i) < (j : ℕ) by omega))
    have hs : t.scan (M - i) i < M := hstop ▸ j.isLt
    have he : (⟨t.scan (M - i) i, hs⟩ : Fin M) = j := Fin.ext hstop
    simp only [getNode, hs, dif_pos, he, hj]

theorem getNode_eq_none {t : FingerTable} {i : Fin M} :
    t.getNode i = none ↔ ∀ j, i ≤ j → t.entries j = none := by
  obtain ⟨h1, h2, h3, h4⟩ := t.scan_spec (M - i) i (by omega)
  constructor
  · intro h j hij
    simp only [getNode] at h
    split at h
    next hs => exact absurd h (h4 hs)
    next hs => exact h3 j hij (by omega)
  · intro h
    simp only [getNode]
    split
    next hs => exact h _ h1
    next => rfl

theorem getNode_of_entry {t : FingerTable} {i : Fin M} {p : Node} (h : t.entries i = some p) :
    t.getNode i = some p :=
  getNode_eq_some.mpr ⟨i, le_refl i, h, fun _ h1 h2 => absurd h2 (not_lt.mpr h1)⟩

theorem entry_of_getNode {t : FingerTable} {i : Fin M} {p : Node} (h : t.getNode i = some p) :
    ∃ j, t.entries j = some p := by
  obtain ⟨j, _, hj, _⟩ := getNode_eq_some.mp h
  exact ⟨j, hj⟩

theorem entries_setNode (t : FingerTable) (i j : Fin M) (n : Option Node) :
    (t.setNode i n).entries j = if j = i then n else t.entries j := by
  simp only [setNode, Function.update_apply]

theorem getNode_setNode_self (t : FingerTable) (i : Fin M) (p : Node) :
    (t.setNode i (some p)).getNode i = some p :=
  getNode_of_entry (by rw [entries_setNode, if_pos rfl])

end FingerTable

end ChordChat
