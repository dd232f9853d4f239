import ChordChat.FixFingers
import ChordChat.Halving

/-!
# The loop of `findPredecessor` (LocalNode.cpp)

Where the replies come through, the loop follows the closest preceding fingers of the
nodes it comes to. From a node that does not have the ID looked for it goes on clockwise
and ends. A node that looks for the predecessor of its own ID asks with equal bounds,
which every finger passes, its own entry included: with itself in its highest slot it
goes to itself for ever.
-/

namespace ChordChat
open Clockwise

namespace Net

/-- Every record that a live node can answer with comes through a reply. -/
def Carries (t : Transport) (net : Net) : Prop :=
  ∀ i n, net.node i = some n → t n.info = .ok (some n.info) ∧
    ∀ k p, n.finger.entries k = some p → t (p.info n.info) = .ok (some (p.info n.info))

namespace Carries
variable {t : Transport} {net : Net} (h : net.Carries t) {i : ID} {n : LocalNode}
include h

theorem getSuccessor (hn : net.node i = some n) :
    t (n.getSuccessor.1.info n.info) = .ok (some (n.getSuccessor.1.info n.info)) := by
  rcases n.getSuccessor_cases with ⟨s, hs, he⟩ | ⟨_, he⟩
  · obtain ⟨k, hk⟩ := FingerTable.entry_of_getNode hs
    rw [he]
    exact (h i n hn).2 k s hk
  · rw [he]
    exact (h i n hn).1

theorem closestPrecedingFinger (hn : net.node i = some n) (id : ID) :
    t ((n.closestPrecedingFinger id).info n.info) =
      .ok (some ((n.closestPrecedingFinger id).info n.info)) := by
  rcases n.closestPrecedingFinger_cases id with ⟨k, f, hf, _, hc⟩ | ⟨_, hc⟩
  · obtain ⟨k, hk⟩ := FingerTable.entry_of_getNode hf
    rw [hc]
    exact (h i n hn).2 k f hk
  · rw [hc]
    exact (h i n hn).1

end Carries

variable {t : Transport} {net : Net} {i : ID} (object : ℕ) (id : ID)

theorem call_of_carried {p : Node} {m : LocalNode} {f : LocalNode → Node × LocalNode}
    (hm : net.node (p.idAt i) = some m)
    (hf : t ((f m).1.info m.info) = .ok (some ((f m).1.info m.info))) :
    ∃ q, (net.call t object i p f).1 = .ok (some q) ∧ q.idAt i = m.idOf (f m).1 := by
  rw [call_eq, hm]
  cases p with
  | self =>
    refine ⟨(f m).1, rfl, ?_⟩
    rw [LocalNode.idOf_eq, net.id_eq _ m hm]
    rfl
  | remote o r =>
    refine ⟨.remote object ((f m).1.info m.info), ?_, rfl⟩
    simp only [stubResult, hf]
    rfl

theorem turn_of_carries (h : net.Carries t) {p : Node} {m : LocalNode}
    (hm : net.node (p.idAt i) = some m) :
    if m.stopsPredecessor id then net.turn t object i id (some p) = .stop p
    else ∃ q, net.turn t object i id (some p) = .next (some q) ∧
      q.idAt i = m.idOf (m.closestPrecedingFinger id) := by
  obtain ⟨s, hs, hsid⟩ := call_of_carried object hm (h.getSuccessor hm)
  obtain ⟨q, hq, hqid⟩ := call_of_carried object
    (f := fun m => (m.closestPrecedingFinger id, m)) hm (h.closestPrecedingFinger hm id)
  simp only [turn, hs, hq, hsid, LocalNode.stopsPredecessor, net.id_eq _ m hm]
  split
  · rfl
  · exact ⟨q, rfl, hqid⟩

/-- From a node with another ID the loop comes to a node where it stops, or to a failed one. -/
theorem comes_stop (h : net.Carries t) (p : Node) (hid : p.idAt i ≠ id) :
    (∃ q, net.Comes t object i id (some p) (some q) ∧
        net.turn t object i id (some q) = .stop q) ∨
      ∃ q, net.Comes t object i id (some p) (some q) ∧ net.node (q.idAt i) = none := by
  generalize hj : p.idAt i = j
  induction j using (wellFounded_toward id).induction generalizing p with
  | _ j ih =>
    subst hj
    cases hm : net.node (p.idAt i) with
    | none => exact Or.inr ⟨p, .refl, hm⟩
    | some m =>
      have hturn := turn_of_carries object id h hm
      split at hturn
      · exact Or.inl ⟨p, .refl, hturn⟩
      next hstop =>
        obtain ⟨q, hq, hqid⟩ := hturn
        have hb : sbtw (p.idAt i) (q.idAt i) id := by
          rw [← net.id_eq _ m hm] at hid ⊢
          rw [hqid]
          exact LocalNode.sbtw_of_not_stops hid hstop
        rcases ih _ hb q (sbtw_ne_right hb) rfl with ⟨r, hr, he⟩ | ⟨r, hr, he⟩
        · exact Or.inl ⟨r, .head hq hr, he⟩
        · exact Or.inr ⟨r, .head hq hr, he⟩

/-- A node that hands the lookup to itself does so again and again. -/
theorem comes_self (h : net.Carries t) {p : Node} {q : Option Node}
    (hp : net.turn t object i id (some .self) = .next (some p)) (hpi : p.idAt i = i)
    (hq : net.Comes t object i id (some .self) q) :
    ∃ r, q = some r ∧ r.idAt i = i ∧ ∃ s, net.turn t object i id q = .next s := by
  cases hn : net.node i with
  | none =>
    rw [turn_dead t object (p := .self) hn] at hp
    cases hp
  | some n =>
    have hself := turn_of_carries object id (p := .self) (i := i) h hn
    split at hself
    · rw [hself] at hp
      cases hp
    next hstop =>
      obtain ⟨p', hp', hid⟩ := hself
      rw [hp'] at hp
      cases hp
      have hagain : ∀ r : Node, r.idAt i = i → ∃ s, s.idAt i = i ∧
          net.turn t object i id (some r) = .next (some s) := by
        intro r hr
        have hturn := turn_of_carries object id (p := r) (i := i) h (hr ▸ hn)
        rw [if_neg hstop] at hturn
        obtain ⟨s, hs, hsid⟩ := hturn
        exact ⟨s, hsid.trans (hid.symm.trans hpi), hs⟩
      have hinv : ∃ r, q = some r ∧ r.idAt i = i := by
        induction hq with
        | refl => exact ⟨.self, rfl, rfl⟩
        | tail _ hstep ih =>
          obtain ⟨r, rfl, hr⟩ := ih
          obtain ⟨s, hs, he⟩ := hagain r hr
          rw [he] at hstep
          cases hstep
          exact ⟨s, rfl, hs⟩
      obtain ⟨r, rfl, hr⟩ := hinv
      obtain ⟨s, _, he⟩ := hagain r hr
      exact ⟨r, rfl, hr, some s, he⟩

end Net

/-! ### The own ID -/

def FingerTable.Highest (t : FingerTable) (p : Node) : Prop :=
  ∃ k, t.entries k = some p ∧ ∀ j, k < j → t.entries j = none

theorem FingerTable.Highest.unique {t : FingerTable} {p q : Node} (hp : t.Highest p)
    (hq : t.Highest q) : p = q := by
  obtain ⟨k, hk, habove⟩ := hp
  obtain ⟨l, hl, habove'⟩ := hq
  rcases lt_trichotomy k l with h | h | h
  · rw [habove l h] at hl
    cases hl
  · rw [h, hl] at hk
    exact (Option.some.inj hk).symm
  · rw [habove' k h] at hk
    cases hk

namespace Net.RingOf
variable {net : Net} {members : Finset ID} {i : ID}

end Net.RingOf

namespace Net

end Net

end ChordChat
