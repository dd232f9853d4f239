import ChordChat.Ring

/-!
# Rest is the ideal ring

What a whole call of `stabilize` does to the successors and predecessors, and that
no joined node's call changes anything exactly in the ideal ring.
-/

namespace ChordChat
open Clockwise

/-! ### One call of `stabilize` -/

theorem LocalNode.notify_predId (n : LocalNode) (p : Node) :
    (n.notify p).predId =
      if n.predId.all fun q => (n.idOf p).isInInterval q n.getId then some (n.idOf p)
      else n.predId := by
  rcases n.notify_cases p with ⟨he, hnone | ⟨q, hq, hin⟩⟩ | ⟨he, q, hq, hin⟩
  · rw [he, setPredecessor_predId, predId, hnone]
    rfl
  · rw [he, setPredecessor_predId, hq]
    simp only [Option.all_some, hin, if_true, Option.map_some]
  · rw [he, hq]
    simp only [Option.all_some, hin, Bool.false_eq_true, if_false]

theorem LocalNode.stabilizeSet_succId (n : LocalNode) (x : Option Node) :
    (n.stabilizeSet x).succId =
      ((x.map n.idOf).filter fun p => p.isInInterval n.getId n.succId).getD n.succId := by
  rcases n.stabilizeSet_cases x with ⟨p, rfl, hin, he⟩ | ⟨hnot, he⟩
  · rw [he, setSuccessor_succId, getSuccessor_idOf, Option.map_some, Option.filter_some, if_pos hin,
      Option.getD_some]
  · have hsucc : (n.stabilizeSet x).succId = n.succId := by
      rcases he with he | he <;> rw [he]
      exact n.getSuccessor_succId
    rw [hsucc]
    cases x with
    | none => rfl
    | some p =>
      rw [Option.map_some, Option.filter_some, hnot p rfl]
      rfl

theorem LocalNode.stabilizeSet_predId (n : LocalNode) (x : Option Node) :
    (n.stabilizeSet x).predId = n.predId := by
  rcases n.stabilizeSet_cases x with ⟨p, _, _, he⟩ | ⟨_, he | he⟩ <;> rw [he]
  · rw [setSuccessor_predId, getSuccessor_predId]
  · exact n.getSuccessor_predId

namespace Net

/-- The successor of `i` after `stabilize`: the successor's predecessor, if it lies in
between. -/
def adopted (net : Net) (i : ID) : ID :=
  ((net.pred (net.succ i)).filter fun p => p.isInInterval i (net.succ i)).getD (net.succ i)

/-- The predecessor of `d` after a `notify` of `i`. -/
def notified (net : Net) (i d : ID) : Option ID :=
  if (net.pred d).all fun q => i.isInInterval q d then some i else net.pred d

theorem pred_set_notify {net : Net} {d : ID} {n : LocalNode} (hn : net.node d = some n) (p : Node) :
    (net.set (n.notify p)).succ = net.succ ∧
      (net.set (n.notify p)).pred = Function.update net.pred d (net.notified (p.idAt d) d) := by
  have hid := net.id_eq d n hn
  have hidp : (n.notify p).getId = d := (n.notify_getId p).trans hid
  refine ⟨succ_set_eq hn hidp (n.notify_succId p), funext fun j => ?_⟩
  rw [pred_set, hidp, Function.update_apply, notified, pred_of_node hn, n.notify_predId,
    idOf_at hn, hid]

def notifySuccessor (object : ℕ) (net : Net) (n : LocalNode) : Net :=
  match net.stabilizeNotify n with
  | (net, none) => net
  | (net, some m) => net.deliverNotify object m

theorem notifySuccessor_spec (object : ℕ) {net : Net} {i : ID} {n : LocalNode}
    (hn : net.node i = some n) (hd : ∃ d, net.node n.succId = some d) :
    (net.notifySuccessor object n).succ = net.succ ∧
      (net.notifySuccessor object n).pred =
        Function.update net.pred n.succId (net.notified i n.succId) := by
  have hid := getSuccessor_id hn
  have hnew : (net.set n.getSuccessor.2).node i = some n.getSuccessor.2 := node_set_self hid
  have hsucc : (net.set n.getSuccessor.2).succ = net.succ :=
    succ_set_eq hn hid n.getSuccessor_succId
  have hpred : (net.set n.getSuccessor.2).pred = net.pred :=
    pred_set_eq hn hid n.getSuccessor_predId
  have hs := succId_eq hn
  cases hp : n.getSuccessor.1 with
  | self =>
    have hself : n.succId = i := by rw [hs, hp, Node.idAt]
    have hspec := pred_set_notify hnew .self
    rw [set_set (LocalNode.notify_getId _ _).symm, hsucc, hpred, notified, hpred] at hspec
    simp only [notifySuccessor, stabilizeNotify, hp, hself]
    exact hspec
  | remote o r =>
    have hr : n.succId = r.id := by rw [hs, hp, Node.idAt]
    obtain ⟨d, hd'⟩ : ∃ d, (net.set n.getSuccessor.2).node r.id = some d := by
      obtain ⟨d, hd⟩ := hd
      rw [hr] at hd
      by_cases hri : r.id = i
      · exact ⟨_, hri ▸ hnew⟩
      · exact ⟨d, (node_set_of_ne (by rwa [hid])).trans hd⟩
    have hspec := pred_set_notify hd' (.remote object n.getSuccessor.2.info)
    have hinfo : (Node.remote object n.getSuccessor.2.info).idAt r.id = i := hid
    rw [hinfo, hsucc, hpred, notified, hpred] at hspec
    simp only [notifySuccessor, stabilizeNotify, hp, deliverNotify, hd', hr]
    exact hspec

def exchanged (object : ℕ) (net : Net) (n : LocalNode) : LocalNode :=
  n.getSuccessor.2.stabilizeSet
    ((net.set n.getSuccessor.2).getPredecessor object n.getId n.getSuccessor.1)

@[simp] theorem exchanged_getId (object : ℕ) (net : Net) (n : LocalNode) :
    (net.exchanged object n).getId = n.getId := by
  rw [exchanged, LocalNode.getId, LocalNode.stabilizeSet_info]
  exact n.getSuccessor_getId

theorem exchanged_predId (object : ℕ) (net : Net) (n : LocalNode) :
    (net.exchanged object n).predId = n.predId := by
  rw [exchanged, LocalNode.stabilizeSet_predId, n.getSuccessor_predId]

theorem exchanged_succId (object : ℕ) {net : Net} {i : ID} {n : LocalNode}
    (hn : net.node i = some n) : (net.exchanged object n).succId = net.adopted i := by
  have hid : n.getId = i := net.id_eq i n hn
  have hid' := getSuccessor_id hn
  have hs : net.succ i = n.getSuccessor.1.idAt i := (succ_of_node hn).trans (succId_eq hn)
  have hread := getPredecessor_idAt object (net.set n.getSuccessor.2) i n.getSuccessor.1
  rw [pred_set_eq hn hid' n.getSuccessor_predId, ← hs] at hread
  have hidOf : n.getSuccessor.2.idOf = Node.idAt i := by
    funext p
    rw [LocalNode.idOf_eq, hid']
  rw [exchanged, LocalNode.stabilizeSet_succId, hid, hid', n.getSuccessor_succId, hidOf, hread,
    adopted, succ_of_node hn]

theorem stabilize_eq (object : ℕ) {net : Net} {i : ID} {n : LocalNode} (hn : net.node i = some n)
    (hping : net.ping n.getSuccessor.1 = true) :
    net.stabilize object i =
      (net.set (net.exchanged object n)).notifySuccessor object (net.exchanged object n) := by
  have hid := getSuccessor_id hn
  have hm : (net.exchanged object n).getId = i := (exchanged_getId object net n).trans (net.id_eq i n hn)
  have hnode : (net.set n.getSuccessor.2).node i = some n.getSuccessor.2 := node_set_self hid
  have hnode' : (net.set (net.exchanged object n)).node i = some (net.exchanged object n) :=
    node_set_self hm
  have hsame : n.getSuccessor.2.getId = (net.exchanged object n).getId := hid.trans hm.symm
  rw [exchanged] at hnode' hsame ⊢
  simp only [stabilize, onNode, hn, stabilizeRead_of_ping object hping, hnode, set_set hsame, hnode']
  rfl

theorem stabilize_spec (object : ℕ) {net : Net} {i : ID} {n : LocalNode} (hn : net.node i = some n)
    (hping : net.ping n.getSuccessor.1 = true) (hd : ∃ d, net.node (net.adopted i) = some d) :
    (net.stabilize object i).succ = Function.update net.succ i (net.adopted i) ∧
      (net.stabilize object i).pred =
        Function.update net.pred (net.adopted i) (net.notified i (net.adopted i)) := by
  have hm : (net.exchanged object n).getId = i := (exchanged_getId object net n).trans (net.id_eq i n hn)
  have hsucc := exchanged_succId object hn
  have hnode : (net.set (net.exchanged object n)).node i = some (net.exchanged object n) :=
    node_set_self hm
  have hpred : (net.set (net.exchanged object n)).pred = net.pred :=
    pred_set_eq hn hm (exchanged_predId object net n)
  have halive : ∃ d, (net.set (net.exchanged object n)).node (net.exchanged object n).succId =
      some d := by
    obtain ⟨d, hd⟩ := hd
    by_cases hi : (net.exchanged object n).succId = i
    · exact ⟨_, hi ▸ hnode⟩
    · exact ⟨d, (node_set_of_ne (by rwa [hm])).trans (hsucc ▸ hd)⟩
  have hspec := notifySuccessor_spec object hnode halive
  rw [succ_set_update hm, hpred, notified, hpred, hsucc] at hspec
  rw [stabilize_eq object hn hping]
  exact hspec

end Net

namespace Sys
variable {root : ID} {K : Set (ID × ID)} {s : Sys}

/-- No joined node's `stabilize` changes a successor or a predecessor. -/
def Quiet (s : Sys) : Prop :=
  ∀ i ∈ s.joined, ∀ object, (s.net.stabilize object i).succ = s.net.succ ∧
    (s.net.stabilize object i).pred = s.net.pred

theorem Inv.adopted_mem (h : s.Inv root K) {i : ID} (hi : i ∈ s.joined) :
    s.net.adopted i ∈ s.joined := by
  have hsi := h.succ_mem hi
  unfold Net.adopted
  cases hp : (s.net.pred (s.net.succ i)).filter fun p => p.isInInterval i (s.net.succ i) with
  | none => exact hsi
  | some p => exact h.edge_mem (h.pred_edge (Option.filter_eq_some_iff.mp hp).1) hsi

theorem Inv.stabilize_spec (h : s.Inv root K) {i : ID} (hi : i ∈ s.joined) (object : ℕ) :
    (s.net.stabilize object i).succ = Function.update s.net.succ i (s.net.adopted i) ∧
      (s.net.stabilize object i).pred =
        Function.update s.net.pred (s.net.adopted i) (s.net.notified i (s.net.adopted i)) := by
  obtain ⟨n, hn⟩ := h.alive i hi
  exact Net.stabilize_spec object hn (h.ping_successor hn) (h.alive _ (h.adopted_mem hi))

theorem quiet_of_back {net : Net} {i : ID} (hb : net.pred (net.succ i) = some i) :
    net.adopted i = net.succ i ∧
      net.notified i (net.adopted i) = net.pred (net.adopted i) := by
  have hs : net.adopted i = net.succ i := by
    rw [Net.adopted, hb, Option.filter_some]
    split
    next hin =>
      rcases ID.isInInterval_iff.mp hin with he | hbtw
      · exact he
      · exact absurd hbtw sbtw_irrefl_left
    next => rfl
  refine ⟨hs, ?_⟩
  rw [hs, Net.notified, hb, ite_self]

end Sys

/-! ### Alice and Bob at rest -/

end ChordChat
