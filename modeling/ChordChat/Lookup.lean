import ChordChat.Walk
import ChordChat.Clockwise.Ideal
import Mathlib.Data.List.Chain
import Mathlib.Data.Finset.Card

/-!
# Lookups

`findSuccessor` on a ring whose successors are right, and its hops while every
table changes. The fingers decide how fast a lookup is, not what it returns, and
each hop that is not the last goes on clockwise before `id`, whatever the tables
hold.
-/

namespace ChordChat
open Clockwise

/-! ### Rings -/

/-- Every successor is the next of the live nodes, and the fingers are live nodes. -/
structure Net.RingOf (net : Net) (members : Finset ID) : Prop where
  alive : ∀ i, i ∈ members ↔ ∃ n, net.node i = some n
  successor : ∀ i n, net.node i = some n → IsNext members i (n.idOf n.getSuccessor.1)
  fingers : ∀ i n k p, net.node i = some n → n.finger.entries k = some p → n.idOf p ∈ members

namespace Net.RingOf
variable {net : Net} {members : Finset ID}

theorem forwards_mem (h : net.RingOf members) {id i j : ID} (hf : net.Forwards id i j) :
    j ∈ members := by
  obtain ⟨n, hn, hs, rfl⟩ := hf
  have he := (LocalNode.hop_forward hs).1
  rcases n.findSuccessorHop_cases id with ⟨_, hc⟩ | ⟨_, _, hc⟩ | ⟨_, _, _, _, ⟨k, hk⟩, _⟩
  · rw [hc] at he
    cases he
  · rw [hc] at he
    cases he
  · exact h.fingers i n k _ hn hk

theorem walk_mem (h : net.RingOf members) {id i j : ID} {k : ℕ} (hw : net.Walk id k i j)
    (hi : i ∈ members) : j ∈ members := by
  induction hw with
  | here => exact hi
  | hop hf _ ih => exact ih (h.forwards_mem hf)

theorem answer_firstFrom (h : net.RingOf members) {id i : ID} {m : LocalNode}
    (hm : net.node i = some m) (hs : m.stopsSuccessor id = true) :
    FirstFrom members id (m.answer id).id := by
  have hid := net.id_eq i m hm
  by_cases hown : m.getId = id
  · have hmem : id ∈ members := (h.alive id).mpr ⟨m, hown ▸ hid.symm ▸ hm⟩
    rw [LocalNode.answer_id, if_pos hown]
    exact ⟨hmem, Or.inl rfl⟩
  · rw [LocalNode.answer_id, if_neg hown]
    have hstop : LocalNode.holds m.getId (m.idOf m.getSuccessor.1) id = true := by
      simpa only [LocalNode.stopsSuccessor, LocalNode.stopsPredecessor, hown, decide_false,
        Bool.false_or] using hs
    rw [hid] at hstop hown
    exact (h.successor i m hm).firstFrom (Ne.symm hown) (LocalNode.holds_iff.mp hstop)

/-- A lookup on a ring ends with the first member from `id` on; the network is the old one
but for the slot 0 of the last node asked. -/
theorem lookup (h : net.RingOf members) (object : ℕ) {i : ID} (hi : i ∈ members) (id : ID) :
    ∃ n p k m, net.node i = some n ∧ net.node m.getId = some m ∧
      (∀ fuel, k < fuel → net.findSuccessor .perfect object fuel i id =
        some (.ok (some p), net.set (m.findSuccessorHop id).2)) ∧
      FirstFrom members id (n.idOf p) := by
  rcases net.walk_ends id i with ⟨k, m, hend⟩ | ⟨k, j, hw, hdead⟩
  · obtain ⟨n, result, net', hn, hrun, hinfo, hnet⟩ :=
      Net.findSuccessor_endsAt .perfect object hend
    obtain ⟨j, hw, hm, hs⟩ := hend
    rw [Net.relay_of_fixed rfl] at hinfo
    match result, hinfo with
    | .ok (some p), hinfo =>
      rw [hnet p rfl] at hrun
      refine ⟨n, p, k, m, hn, (net.id_eq j m hm).symm ▸ hm, hrun, ?_⟩
      have hp : p.info n.info = m.answer id := Option.some.inj (Except.ok.inj hinfo)
      rw [LocalNode.idOf, hp]
      exact h.answer_firstFrom hm hs
  · obtain ⟨n, hn⟩ := (h.alive j).mp (h.walk_mem hw hi)
    rw [hdead] at hn
    cases hn

end Net.RingOf

/-- On a ring `findSuccessor` returns the first member from `id` on, from every node. -/
theorem findSuccessor_first {net : Net} {members : Finset ID} (h : net.RingOf members)
    (object : ℕ) {i : ID} (hi : i ∈ members) (id : ID) :
    ∃ n p k net', net.node i = some n ∧
      (∀ fuel, k < fuel →
        net.findSuccessor .perfect object fuel i id = some (.ok (some p), net')) ∧
      FirstFrom members id (n.idOf p) := by
  obtain ⟨n, p, k, m, hn, _, hrun, hfirst⟩ := h.lookup object hi id
  exact ⟨n, p, k, _, hn, hrun, hfirst⟩

def pairNet : Net :=
  (Net.empty.set ((LocalNode.init alice).setSuccessor (some (.remote 0 bob)))).set
    ((LocalNode.init bob).setSuccessor (some (.remote 0 alice)))

theorem pairNet_node {i : ID} {n : LocalNode} (h : pairNet.node i = some n) :
    ∃ own other, (own = alice ∧ other = bob ∨ own = bob ∧ other = alice) ∧ i = own.id ∧
      n = (LocalNode.init own).setSuccessor (some (.remote 0 other)) := by
  rw [pairNet, Net.node_set, Net.node_set] at h
  split at h
  next hi => exact ⟨bob, alice, Or.inr ⟨rfl, rfl⟩, hi, (Option.some.inj h).symm⟩
  · split at h
    next hi => exact ⟨alice, bob, Or.inl ⟨rfl, rfl⟩, hi, (Option.some.inj h).symm⟩
    · cases h

theorem pairNet_ringOf : pairNet.RingOf {alice.id, bob.id} where
  alive i := by
    rw [Finset.mem_insert, Finset.mem_singleton]
    constructor
    · rintro (rfl | rfl)
      · exact ⟨_, Net.node_set_of_ne alice_id_ne_bob_id |>.trans (Net.node_set_self rfl)⟩
      · exact ⟨_, Net.node_set_self rfl⟩
    · rintro ⟨n, hn⟩
      obtain ⟨own, other, ⟨rfl, rfl⟩ | ⟨rfl, rfl⟩, hi, _⟩ := pairNet_node hn
      · exact Or.inl hi
      · exact Or.inr hi
  successor i n hn := by
    obtain ⟨own, other, hpair, rfl, rfl⟩ := pairNet_node hn
    have hsucc := LocalNode.idOf_getSuccessor_setSuccessor (LocalNode.init own) (.remote 0 other)
    rw [LocalNode.setSuccessor_idOf, hsucc]
    rcases hpair with ⟨rfl, rfl⟩ | ⟨rfl, rfl⟩
    all_goals
      refine ⟨by simp, fun m hm h1 h2 => ?_⟩
      rw [LocalNode.idOf_remote] at h2
      rw [Finset.mem_insert, Finset.mem_singleton] at hm
      grind
  fingers i n k p hn hk := by
    obtain ⟨own, other, hpair, rfl, rfl⟩ := pairNet_node hn
    rcases hpair with ⟨rfl, rfl⟩ | ⟨rfl, rfl⟩
    · rw [LocalNode.entries_init_setSuccessor alice_id_ne_bob_id.symm hk]
      simp
    · rw [LocalNode.entries_init_setSuccessor alice_id_ne_bob_id hk]
      simp

theorem findSuccessor_first_pair : ∃ n p k net', pairNet.node alice.id = some n ∧
    (∀ fuel, k < fuel →
      pairNet.findSuccessor .perfect 0 fuel alice.id bob.id = some (.ok (some p), net')) ∧
    FirstFrom {alice.id, bob.id} bob.id (n.idOf p) :=
  findSuccessor_first pairNet_ringOf 0 (Finset.mem_insert_self _ _) bob.id

/-! ### Hops under churn -/

namespace LocalNode

/-- The node in state `n` hands a lookup on to the node in state `m`; the states
are those of the moments of the two hops. -/
def HandsOn (id : ID) (n m : LocalNode) : Prop :=
  ∃ p, (n.findSuccessorHop id).1 = .forward p ∧ n.idOf p = m.getId

theorem sbtw_of_forward {n : LocalNode} {id : ID} {p : Node}
    (h : (n.findSuccessorHop id).1 = .forward p) : sbtw n.getId (n.idOf p) id := by
  rcases n.findSuccessorHop_cases id with ⟨_, he⟩ | ⟨_, _, he⟩ | ⟨_, _, _, hb, _, he⟩
  · rw [he] at h
    cases h
  · rw [he] at h
    cases h
  · rw [he] at h
    cases h
    exact hb

theorem HandsOn.sbtw {n m : LocalNode} {id : ID} (h : HandsOn id n m) :
    sbtw n.getId m.getId id := by
  obtain ⟨p, hp, hm⟩ := h
  exact hm ▸ sbtw_of_forward hp

theorem pairwise_sbtw {id : ID} {run : List LocalNode} (h : run.IsChain (HandsOn id)) :
    run.Pairwise fun n m => SBtw.sbtw n.getId m.getId id := by
  have htrans : IsTrans LocalNode fun n m => SBtw.sbtw n.getId m.getId id :=
    ⟨fun _ _ _ hab hbc => hab.trans_left hbc⟩
  exact List.isChain_iff_pairwise.mp (h.imp fun _ _ => HandsOn.sbtw)

end LocalNode

/-- A lookup never comes back to a node, whatever the tables hold at each hop. -/
theorem hops_loop_free (id : ID) :
    (∀ (n : LocalNode) (p : Node), (n.findSuccessorHop id).1 = .forward p →
      p ≠ .self ∧ sbtw n.getId (n.idOf p) id) ∧
    ∀ run : List LocalNode, run.IsChain (LocalNode.HandsOn id) →
      (run.map LocalNode.getId).Nodup ∧
      ∀ nodes : Finset ID, (∀ n ∈ run, n.getId ∈ nodes) → run.length ≤ nodes.card := by
  refine ⟨fun n p h => ⟨?_, LocalNode.sbtw_of_forward h⟩, fun run hrun => ?_⟩
  · rintro rfl
    exact sbtw_irrefl_left (LocalNode.sbtw_of_forward h)
  · have hnodup : (run.map LocalNode.getId).Nodup :=
      List.pairwise_map.mpr ((LocalNode.pairwise_sbtw hrun).imp sbtw_ne_left)
    refine ⟨hnodup, fun nodes hmem => ?_⟩
    rw [← List.length_map LocalNode.getId, ← List.toFinset_card_of_nodup hnodup]
    refine Finset.card_le_card fun i hi => ?_
    obtain ⟨n, hn, rfl⟩ := List.mem_map.mp (List.mem_toFinset.mp hi)
    exact hmem n hn

end ChordChat
