import ChordChat.LocalNode

/-!
# Nodes calling each other

`Net` maps the IDs of the live nodes to their states; an ID without a state is a
failed node, or nobody's. A call through a pointer runs on the own object or on
the node of the remote record's ID; a call to a failed node returns NULL. The
record a callee returns goes through a `Transport` and reaches the caller as a new
`RemoteNode` object, whose address `object` the allocator chooses.

Lookups recurse through the network, so they run on fuel; `none` is a run that
the fuel does not cover.
-/

namespace ChordChat

/-- What a stub makes of the reply with a record: the record decoded, NULL or an
exception. -/
abbrev Transport := INode → Except Fault (Option INode)

def Transport.perfect : Transport := fun r => .ok (some r)

structure Net where
  node : ID → Option LocalNode
  id_eq : ∀ i n, node i = some n → n.getId = i

/-- ID behind a pointer of the process of node `i`. -/
def Node.idAt (i : ID) : Node → ID
  | .self => i
  | .remote _ record => record.id

theorem LocalNode.idOf_eq (n : LocalNode) (p : Node) : n.idOf p = p.idAt n.getId := by
  cases p <;> rfl

namespace Net

theorem ext {a b : Net} (h : ∀ i, a.node i = b.node i) : a = b := by
  obtain ⟨fa, _⟩ := a
  obtain ⟨fb, _⟩ := b
  obtain rfl : fa = fb := funext h
  rfl

def empty : Net := ⟨fun _ => none, fun _ _ h => nomatch h⟩

def set (net : Net) (n : LocalNode) : Net where
  node := Function.update net.node n.getId (some n)
  id_eq i m h := by
    by_cases hi : i = n.getId
    · rw [hi, Function.update_self] at h
      rw [hi, Option.some.inj h]
    · rw [Function.update_of_ne hi] at h
      exact net.id_eq i m h

/-- The process of node `i` has ended. -/
def kill (net : Net) (i : ID) : Net where
  node := Function.update net.node i none
  id_eq j m h := by
    by_cases hj : j = i
    · rw [hj, Function.update_self] at h
      cases h
    · rw [Function.update_of_ne hj] at h
      exact net.id_eq j m h

theorem node_set (net : Net) (n : LocalNode) (i : ID) :
    (net.set n).node i = if i = n.getId then some n else net.node i := by
  simp only [set, Function.update_apply]

theorem node_set_self {net : Net} {n : LocalNode} {i : ID} (h : n.getId = i) :
    (net.set n).node i = some n := by
  rw [node_set, if_pos h.symm]

theorem node_set_of_ne {net : Net} {n : LocalNode} {i : ID} (h : i ≠ n.getId) :
    (net.set n).node i = net.node i := by
  rw [node_set, if_neg h]

theorem eq_of_node_set {net : Net} {n m : LocalNode} {i : ID} (hid : n.getId = i)
    (h : (net.set n).node i = some m) : m = n :=
  Option.some.inj (h.symm.trans (node_set_self hid))

theorem idOf_at {net : Net} {i : ID} {n : LocalNode} (hn : net.node i = some n) (p : Node) :
    n.idOf p = p.idAt i := by
  rw [LocalNode.idOf_eq, net.id_eq i n hn]

theorem getSuccessor_id {net : Net} {i : ID} {n : LocalNode} (hn : net.node i = some n) :
    n.getSuccessor.2.getId = i := n.getSuccessor_getId.trans (net.id_eq i n hn)

theorem set_node {net : Net} {n : LocalNode} {i : ID} (h : net.node i = some n) :
    net.set n = net := by
  refine ext fun j => ?_
  rw [node_set]
  split
  next he => rw [he, net.id_eq i n h, h]
  next => rfl

theorem set_set {net : Net} {n m : LocalNode} (h : n.getId = m.getId) :
    (net.set n).set m = net.set m := by
  refine ext fun j => ?_
  simp only [node_set, h]
  split <;> rfl

/-! ### Calls -/

def stubResult (t : Transport) (object : ℕ) (r : INode) : Except Fault (Option Node) :=
  (t r).map (Option.map (Node.remote object))

/-- A call without arguments through pointer `p` of node `i`. -/
def call (t : Transport) (object : ℕ) (net : Net) (i : ID) (p : Node)
    (f : LocalNode → Node × LocalNode) : Except Fault (Option Node) × Net :=
  match p with
  | .self =>
    match net.node i with
    | none => (.ok none, net)
    | some n => (.ok (some (f n).1), net.set (f n).2)
  | .remote _ r =>
    match net.node r.id with
    | none => (.ok none, net)
    | some m => (stubResult t object ((f m).1.info m.info), net.set (f m).2)

/-- A lookup result of the node `callee`, as its caller gets it. `handleRequest`
dereferences a NULL result, which ends the process, and catches exceptions; the
caller gets no reply either way. -/
def lookupReply (t : Transport) (object : ℕ) (callee : INode) :
    Except Fault (Option Node) × Net → Except Fault (Option Node) × Net
  | (.ok (some p), net) => (stubResult t object (p.info callee), net)
  | (.error .exception, net) => (.ok none, net)
  | (_, net) => (.ok none, net.kill callee.id)

def findSuccessor (t : Transport) (object : ℕ) :
    ℕ → Net → ID → ID → Option (Except Fault (Option Node) × Net)
  | 0, _, _, _ => none
  | fuel + 1, net, i, id =>
    match net.node i with
    | none => some (.ok none, net)
    | some n =>
      match n.findSuccessorHop id with
      | (.answer p, n') => some (.ok (some p), net.set n')
      | (.forward .self, n') => findSuccessor t object fuel (net.set n') i id
      | (.forward (.remote _ r), n') =>
        match (net.set n').node r.id with
        | none => some (.ok none, net.set n')
        | some m =>
          (findSuccessor t object fuel (net.set n') r.id id).map (lookupReply t object m.info)

def findPredecessorLoop (t : Transport) (object : ℕ) (i id : ID) :
    ℕ → Net → Option Node → Option (Except Fault Node × Net)
  | 0, _, _ => none
  | _ + 1, net, none => some (.error .nullDeref, net)
  | fuel + 1, net, some n =>
    match net.call t object i n LocalNode.getSuccessor with
    | (.error e, net) => some (.error e, net)
    | (.ok none, net) => some (.error .nullDeref, net)
    | (.ok (some s), net) =>
      if id.isInInterval (n.idAt i) (s.idAt i) then some (.ok n, net)
      else
        match net.call t object i n LocalNode.getSuccessor with
        | (.error e, net) => some (.error e, net)
        | (.ok none, net) => some (.error .nullDeref, net)
        | (.ok (some s), net) =>
          if id = s.idAt i then some (.ok n, net)
          else
            match net.call t object i n fun m => (m.closestPrecedingFinger id, m) with
            | (.error e, net) => some (.error e, net)
            | (.ok next, net) => findPredecessorLoop t object i id fuel net next

def findPredecessor (t : Transport) (object fuel : ℕ) (net : Net) (i id : ID) :
    Option (Except Fault Node × Net) :=
  findPredecessorLoop t object i id fuel net (some .self)

end Net

end ChordChat
