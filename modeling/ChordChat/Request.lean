import ChordChat.Wire

/-!
# Handling a request (LocalNode::handleRequest)

`handleRequest` runs on the live node `i` with the bytes that a peer wrote before
it closed its side. Exceptions are caught there; every other fault ends the
process of the node. A peer that gets no bytes back reads the end of the stream.
-/

namespace ChordChat

/-- What a call of `handleRequest` leaves behind; `fault` is how it ended the
process. -/
structure Served where
  net : Net
  reply : Bytes
  received : List Bytes
  fault : Option Fault

/-- The connection was refused or closed before the request was complete. -/
def Served.nothing (net : Net) : Served := ⟨net, [], [], none⟩

/-- What the switch ends with, as the end of `handleRequest` and its catch block
leave it. -/
def Served.finish (i : ID) : Except Fault Bytes × Net × List Bytes → Served
  | (.ok response, net, received) => ⟨net, writeResponse response, received, none⟩
  | (.error .exception, net, received) => ⟨net, [], received, none⟩
  | (.error e, net, received) => ⟨net.kill i, [], received, some e⟩

namespace LocalNode

/-- `n->serialize()` on a result. -/
def response (n : LocalNode) : Except Fault (Option Node) → Except Fault Bytes
  | .ok (some p) => .ok (p.info n.info).serialize
  | .ok none => .error .nullDeref
  | .error e => .error e

end LocalNode

/-- The argument of `SET_PREDECESSOR` and `SET_SUCCESSOR`. -/
def nodeArgument (object : ℕ) (memory : Bytes) (length : ℕ) : Except Fault (Option Node) :=
  if length = 1 then .ok none
  else (INode.ofSerial memory).map fun r => some (.remote object r)

/-- The switch; `memory` is the memory from `message + offset` on. Requests with
a wrong length are logged and executed. -/
def execute (fuel object : ℕ) (net : Net) (i : ID) (n : LocalNode) (code : Option RPCCode)
    (memory : Bytes) (length : ℕ) : Option (Except Fault Bytes × Net × List Bytes) :=
  match code with
  | some .findPredecessor =>
    (net.findPredecessor wire object fuel i (ID.ofChars memory)).map fun (r, net) =>
      (n.response (r.map some), net, [])
  | some .findSuccessor =>
    (net.findSuccessor wire object fuel i (ID.ofChars memory)).map fun (r, net) =>
      (n.response r, net, [])
  | some .closestPrecedingFinger =>
    some (n.response (.ok (some (n.closestPrecedingFinger (ID.ofChars memory)))), net, [])
  | some .notify =>
    match INode.ofSerial memory with
    | .error e => some (.error e, net, [])
    | .ok r => some (.ok [], net.set (n.notify (.remote object r)), [])
  | some .getPredecessor => some (n.response (.ok n.predecessor), net, [])
  | some .setPredecessor =>
    match nodeArgument object memory length with
    | .error e => some (.error e, net, [])
    | .ok p => some (.ok [], net.set (n.setPredecessor p), [])
  | some .getSuccessor =>
    some (n.response (.ok (some n.getSuccessor.1)), net.set n.getSuccessor.2, [])
  | some .setSuccessor =>
    match nodeArgument object memory length with
    | .error e => some (.error e, net, [])
    | .ok p => some (.ok [], net.set (n.setSuccessor p), [])
  | some .getId => some (.ok n.getId.bytes, net, [])
  | some .receive =>
    match n.receive (memory.take (length - 1)) with
    | .error e => some (.error e, net, [])
    | .ok received => some (.ok [], net, received)
  -- not implemented, nothing to do, or no code at all
  | some .join | some .stabilize | some .fixFinger | some .ping | none => some (.ok [], net, [])

def handleRequest (fuel object : ℕ) (net : Net) (i : ID) (stream : Bytes) : Option Served :=
  match net.node i with
  | none => some (.nothing net)
  | some n =>
    match readRequest stream with
    | none => some (.nothing net)
    | some request =>
      (execute fuel object net i n request.code request.memory request.length).map (Served.finish i)

theorem handleRequest_of_request {net : Net} {i : ID} {n : LocalNode} {stream : Bytes}
    {request : Request} (hn : net.node i = some n) (hr : readRequest stream = some request)
    (fuel object : ℕ) :
    handleRequest fuel object net i stream =
      (execute fuel object net i n request.code request.memory request.length).map
        (Served.finish i) := by
  simp only [handleRequest, hn, hr]

theorem handleRequest_createMessage {net : Net} {i : ID} {n : LocalNode}
    (hn : net.node i = some n) (fuel object : ℕ) (code : RPCCode) {payLoad : Bytes}
    (h : payLoad.length ≤ 126) :
    handleRequest fuel object net i (createMessage code payLoad) =
      (execute fuel object net i n (some code)
        (payLoad ++ List.replicate (1023 - payLoad.length) 0) (payLoad.length + 1)).map
        (Served.finish i) := by
  rw [handleRequest_of_request hn (readRequest_createMessage h), Request.code, List.cons_append,
    List.headD_cons, RPCCode.ofChar_value]
  rfl

theorem ofSerial_argument {r : INode} (h : r.serialize.length ≤ 126) :
    INode.ofSerial (r.serialize ++ List.replicate (1023 - r.serialize.length) 0) = .ok r := by
  have hlen := r.serialize_length
  exact r.ofSerial_serialize _ (by omega) (by omega)

theorem nodeArgument_serialize (object : ℕ) {r : INode} (h : r.serialize.length ≤ 126) :
    nodeArgument object (r.serialize ++ List.replicate (1023 - r.serialize.length) 0)
      (r.serialize.length + 1) = .ok (some (.remote object r)) := by
  have hne : ¬ r.serialize.length + 1 = 1 := fun he =>
    r.serialize_ne_nil (List.length_eq_zero_iff.mp (by omega))
  rw [nodeArgument, if_neg hne, ofSerial_argument h]
  rfl

/-- What the switch on node `i`, with state `n`, makes of the network. -/
inductive Executed (fuel object : ℕ) (net : Net) (i : ID) (n : LocalNode) : Net → Prop
  | read : Executed fuel object net i n net
  | findPredecessor {id : ID} {r : Except Fault Node} {net' : Net}
      (hrun : net.findPredecessor wire object fuel i id = some (r, net')) :
      Executed fuel object net i n net'
  | findSuccessor {id : ID} {r : Except Fault (Option Node)} {net' : Net}
      (hrun : net.findSuccessor wire object fuel i id = some (r, net')) :
      Executed fuel object net i n net'
  | getSuccessor : Executed fuel object net i n (net.set n.getSuccessor.2)
  | notify (p : Node) : Executed fuel object net i n (net.set (n.notify p))
  | setPredecessor (p : Option Node) : Executed fuel object net i n (net.set (n.setPredecessor p))
  | setSuccessor (p : Option Node) : Executed fuel object net i n (net.set (n.setSuccessor p))

theorem execute_spec {fuel object : ℕ} {net net' : Net} {i : ID} {n : LocalNode}
    {code : Option RPCCode} {memory : Bytes} {length : ℕ} {r : Except Fault Bytes}
    {received : List Bytes}
    (h : execute fuel object net i n code memory length = some (r, net', received)) :
    Executed fuel object net i n net' ∧
      (received = [] ∨ received = [memory.take (length - 1)]) := by
  unfold execute at h
  split at h
  · obtain ⟨⟨result, net1⟩, hrun, he⟩ := Option.map_eq_some_iff.mp h
    cases he
    exact ⟨.findPredecessor hrun, Or.inl rfl⟩
  · obtain ⟨⟨result, net1⟩, hrun, he⟩ := Option.map_eq_some_iff.mp h
    cases he
    exact ⟨.findSuccessor hrun, Or.inl rfl⟩
  · cases h
    exact ⟨.read, Or.inl rfl⟩
  · split at h <;> cases h
    · exact ⟨.read, Or.inl rfl⟩
    · exact ⟨.notify _, Or.inl rfl⟩
  · cases h
    exact ⟨.read, Or.inl rfl⟩
  · split at h <;> cases h
    · exact ⟨.read, Or.inl rfl⟩
    · exact ⟨.setPredecessor _, Or.inl rfl⟩
  · cases h
    exact ⟨.getSuccessor, Or.inl rfl⟩
  · split at h <;> cases h
    · exact ⟨.read, Or.inl rfl⟩
    · exact ⟨.setSuccessor _, Or.inl rfl⟩
  · cases h
    exact ⟨.read, Or.inl rfl⟩
  · split at h
    · cases h
      exact ⟨.read, Or.inl rfl⟩
    next hrec =>
      cases h
      unfold LocalNode.receive at hrec
      split at hrec
      · exact ⟨.read, Or.inr (Except.ok.inj hrec).symm⟩
      · cases hrec
  all_goals
    cases h
    exact ⟨.read, Or.inl rfl⟩

end ChordChat
