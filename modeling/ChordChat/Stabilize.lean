import ChordChat.Network

/-!
# Stabilization

`stabilize` is cut at its remote calls: the ping loop and the read of the
successor's predecessor (`stabilizeRead`), the exchange of the successor
(`stabilizeSet`) and the notification (`stabilizeNotify`), which is a message
when the successor is remote. `Net.stabilize` is one whole call without other
steps in between. A node without predecessor answers `getPredecessor` with NULL.
-/

namespace ChordChat

namespace LocalNode

def succId (n : LocalNode) : ID := n.idOf n.getSuccessor.1

def predId (n : LocalNode) : Option ID := n.predecessor.map n.idOf

/-- What `stabilize` does with the successor's predecessor `x`. -/
def stabilizeSet (n : LocalNode) : Option Node → LocalNode
  | none => n
  | some p =>
    let s := n.getSuccessor
    if (n.idOf p).isInInterval n.getId (n.idOf s.1) then s.2.setSuccessor (some p) else s.2

@[simp] theorem setPredecessor_succId (n : LocalNode) (p : Option Node) :
    (n.setPredecessor p).succId = n.succId := by
  simp only [succId, getSuccessor, setPredecessor]
  split <;> rfl

@[simp] theorem getSuccessor_succId (n : LocalNode) : n.getSuccessor.2.succId = n.succId := by
  rw [succId, getSuccessor_idem, getSuccessor_idOf, succId]

@[simp] theorem setSuccessor_succId (n : LocalNode) (p : Node) :
    (n.setSuccessor (some p)).succId = n.idOf p := n.idOf_getSuccessor_setSuccessor p

@[simp] theorem setPredecessor_predId (n : LocalNode) (p : Option Node) :
    (n.setPredecessor p).predId = p.map n.idOf := n.idOf_thisIfOwn p

@[simp] theorem setSuccessor_predId (n : LocalNode) (p : Option Node) :
    (n.setSuccessor p).predId = n.predId := rfl

@[simp] theorem getSuccessor_predId (n : LocalNode) : n.getSuccessor.2.predId = n.predId := by
  rw [predId, getSuccessor_predecessor, predId]
  exact congrArg (fun f => Option.map f n.predecessor) (funext n.getSuccessor_idOf)

@[simp] theorem hop_predId (n : LocalNode) (id : ID) :
    (n.findSuccessorHop id).2.predId = n.predId := by
  rcases n.findSuccessorHop_cases id with ⟨_, he⟩ | ⟨_, _, he⟩ | ⟨_, _, _, _, _, he⟩ <;> rw [he]
  exact n.getSuccessor_predId

theorem notify_cases (n : LocalNode) (p : Node) :
    n.notify p = n.setPredecessor (some p) ∧
        (n.predecessor = none ∨
          ∃ q, n.predId = some q ∧ (n.idOf p).isInInterval q n.getId = true) ∨
      n.notify p = n ∧ ∃ q, n.predId = some q ∧ (n.idOf p).isInInterval q n.getId = false := by
  unfold notify predId
  cases hp : n.predecessor with
  | none => exact Or.inl ⟨rfl, Or.inl rfl⟩
  | some q =>
    cases hin : (n.idOf p).isInInterval (n.idOf q) n.getId with
    | true =>
      exact Or.inl ⟨by simp only [hin, if_true], Or.inr ⟨_, rfl, hin⟩⟩
    | false =>
      exact Or.inr ⟨by simp only [hin, Bool.false_eq_true, if_false], _, rfl, hin⟩

@[simp] theorem notify_info (n : LocalNode) (p : Node) : (n.notify p).info = n.info := by
  rcases n.notify_cases p with ⟨he, _⟩ | ⟨he, _⟩ <;> rw [he]
  rfl

@[simp] theorem notify_getId (n : LocalNode) (p : Node) : (n.notify p).getId = n.getId := by
  rw [getId, notify_info, getId]

@[simp] theorem notify_succId (n : LocalNode) (p : Node) : (n.notify p).succId = n.succId := by
  rcases n.notify_cases p with ⟨he, _⟩ | ⟨he, _⟩ <;> rw [he]
  exact n.setPredecessor_succId _

theorem stabilizeSet_cases (n : LocalNode) (x : Option Node) :
    (∃ p, x = some p ∧ (n.idOf p).isInInterval n.getId n.succId = true ∧
        n.stabilizeSet x = n.getSuccessor.2.setSuccessor (some p)) ∨
      (∀ p, x = some p → (n.idOf p).isInInterval n.getId n.succId = false) ∧
        (n.stabilizeSet x = n ∨ n.stabilizeSet x = n.getSuccessor.2) := by
  cases x with
  | none => exact Or.inr ⟨fun p h => (nomatch h), Or.inl rfl⟩
  | some p =>
    simp only [stabilizeSet]
    cases hin : (n.idOf p).isInInterval n.getId (n.idOf n.getSuccessor.1) with
    | true => exact Or.inl ⟨p, rfl, hin, by simp only [if_true]⟩
    | false =>
      refine Or.inr ⟨fun q hq => ?_, Or.inr (by simp only [Bool.false_eq_true, if_false])⟩
      rw [← Option.some.inj hq]
      exact hin

@[simp] theorem stabilizeSet_info (n : LocalNode) (x : Option Node) :
    (n.stabilizeSet x).info = n.info := by
  rcases n.stabilizeSet_cases x with ⟨p, _, _, he⟩ | ⟨_, he | he⟩ <;> rw [he]
  · exact n.getSuccessor_info
  · exact n.getSuccessor_info

theorem liveSuccessor_of_ping {ping : Node → Bool} {n : LocalNode} (fuel : ℕ)
    (h : ping n.getSuccessor.1 = true) : liveSuccessor ping (fuel + 1) n = some n.getSuccessor := by
  simp only [liveSuccessor, h, if_true]

end LocalNode

namespace Net

/-- The own node answers, and so does a remote one that is alive. -/
def ping (net : Net) : Node → Bool
  | .self => true
  | .remote _ r => (net.node r.id).isSome

def getPredecessor (object : ℕ) (net : Net) (i : ID) : Node → Option Node
  | .self => (net.node i).bind LocalNode.predecessor
  | .remote _ r => (net.node r.id).bind fun m =>
      m.predecessor.map fun q => .remote object (q.info m.info)

/-- The part of `stabilize` before the exchange, on the node in state `n`. -/
def stabilizeRead (object : ℕ) (net : Net) (n : LocalNode) : Option (Option Node × Net) :=
  (n.liveSuccessor net.ping (M + 1)).map fun s =>
    let t := s.2.getSuccessor
    ((net.set t.2).getPredecessor object t.2.getId t.1, net.set t.2)

/-- The part after the exchange: a call of `notify`, or a message for a remote node. -/
def stabilizeNotify (net : Net) (n : LocalNode) : Net × Option (ID × INode) :=
  let s := n.getSuccessor
  match s.1 with
  | .self => (net.set (s.2.notify .self), none)
  | .remote _ r => (net.set s.2, some (r.id, s.2.info))

def deliverNotify (object : ℕ) (net : Net) (m : ID × INode) : Net :=
  match net.node m.1 with
  | none => net
  | some d => net.set (d.notify (.remote object m.2))

def onNode (net : Net) (i : ID) (f : LocalNode → Net) : Net :=
  match net.node i with
  | none => net
  | some n => f n

def stabilize (object : ℕ) (net : Net) (i : ID) : Net :=
  net.onNode i fun n =>
    match net.stabilizeRead object n with
    | none => net
    | some (x, net) =>
      net.onNode i fun n =>
        let net := net.set (n.stabilizeSet x)
        net.onNode i fun n =>
          match net.stabilizeNotify n with
          | (net, none) => net
          | (net, some m) => net.deliverNotify object m

/-- ID of the successor; a failed node stands for itself. -/
def succ (net : Net) (i : ID) : ID := (net.node i).elim i LocalNode.succId

def pred (net : Net) (i : ID) : Option ID := (net.node i).bind LocalNode.predId

theorem succ_of_node {net : Net} {i : ID} {n : LocalNode} (h : net.node i = some n) :
    net.succ i = n.succId := by
  rw [succ, h, Option.elim_some]

theorem pred_of_node {net : Net} {i : ID} {n : LocalNode} (h : net.node i = some n) :
    net.pred i = n.predId := by
  rw [pred, h, Option.bind_some]

theorem succId_eq {net : Net} {i : ID} {n : LocalNode} (hn : net.node i = some n) :
    n.succId = n.getSuccessor.1.idAt i := idOf_at hn _

theorem pred_eq_some {net : Net} {i x : ID} (h : net.pred i = some x) :
    ∃ n p, net.node i = some n ∧ n.predecessor = some p ∧ p.idAt i = x := by
  obtain ⟨n, hn, hx⟩ := Option.bind_eq_some_iff.mp h
  obtain ⟨p, hp, rfl⟩ := Option.map_eq_some_iff.mp hx
  exact ⟨n, p, hn, hp, (idOf_at hn p).symm⟩

theorem succ_set (net : Net) (n : LocalNode) (i : ID) :
    (net.set n).succ i = if i = n.getId then n.succId else net.succ i := by
  rw [succ, node_set]
  split <;> rfl

theorem pred_set (net : Net) (n : LocalNode) (i : ID) :
    (net.set n).pred i = if i = n.getId then n.predId else net.pred i := by
  rw [pred, node_set]
  split <;> rfl

theorem succ_set_update {net : Net} {i : ID} {n : LocalNode} (h : n.getId = i) :
    (net.set n).succ = Function.update net.succ i n.succId := by
  refine funext fun j => ?_
  rw [succ_set, Function.update_apply, h]

theorem succ_set_eq {net : Net} {i : ID} {n m : LocalNode} (hn : net.node i = some n)
    (hid : m.getId = i) (h : m.succId = n.succId) : (net.set m).succ = net.succ := by
  refine funext fun j => ?_
  rw [succ_set, hid]
  split
  next hj => rw [hj, h, succ_of_node hn]
  next => rfl

theorem pred_set_eq {net : Net} {i : ID} {n m : LocalNode} (hn : net.node i = some n)
    (hid : m.getId = i) (h : m.predId = n.predId) : (net.set m).pred = net.pred := by
  refine funext fun j => ?_
  rw [pred_set, hid]
  split
  next hj => rw [hj, h, pred_of_node hn]
  next => rfl

theorem getPredecessor_idAt (object : ℕ) (net : Net) (i : ID) (p : Node) :
    (net.getPredecessor object i p).map (Node.idAt i) = net.pred (p.idAt i) := by
  cases p with
  | self =>
    simp only [getPredecessor, pred, Node.idAt]
    cases hn : net.node i with
    | none => rfl
    | some n =>
      simp only [Option.bind_some, LocalNode.predId]
      cases n.predecessor with
      | none => rfl
      | some q => rw [Option.map_some, Option.map_some, idOf_at hn]
  | remote o r =>
    simp only [getPredecessor, pred, Node.idAt]
    cases net.node r.id with
    | none => rfl
    | some m =>
      simp only [Option.bind_some, LocalNode.predId, Option.map_map]
      rfl

theorem stabilizeRead_of_ping (object : ℕ) {net : Net} {n : LocalNode}
    (h : net.ping n.getSuccessor.1 = true) :
    net.stabilizeRead object n =
      some ((net.set n.getSuccessor.2).getPredecessor object n.getId n.getSuccessor.1,
        net.set n.getSuccessor.2) := by
  rw [stabilizeRead, LocalNode.liveSuccessor_of_ping M h, Option.map_some]
  simp only [n.getSuccessor_idem, LocalNode.getSuccessor_getId]

end Net

end ChordChat
