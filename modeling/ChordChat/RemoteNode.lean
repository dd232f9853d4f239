import ChordChat.Request

/-!
# Stubs (RemoteNode.cpp)

A `RemoteNode` sends each call as a request to the node `peer` and rebuilds the
result from the reply. Every stub yields its result and what the request has done
at the other side.
-/

namespace ChordChat
namespace RemoteNode

section
variable (fuel object : ℕ) (net : Net) (peer : ID)

/-- A refused connection and a missing reply both give the empty string. Without
an expected response the sender does not wait, not even for a handler that never
comes back. -/
def sendMessage (message : Bytes) (responseExpected : Bool) : Option (Bytes × Served) :=
  if responseExpected then
    (handleRequest fuel object net peer message).map fun s => (readReply s.reply, s)
  else some ([], (handleRequest fuel object net peer message).getD (.nothing net))

/-- The stubs that return the node of the reply. -/
def askNode (code : RPCCode) (payLoad : Bytes) : Option (Except Fault (Option INode) × Served) :=
  (sendMessage fuel object net peer (createMessage code payLoad) true).map fun (reply, s) =>
    (ofReply reply, s)

/-- The stubs that return nothing. -/
def tell (code : RPCCode) (payLoad : Bytes) : Option (Except Fault (Option INode) × Served) :=
  (sendMessage fuel object net peer (createMessage code payLoad) false).map fun (_, s) =>
    (.ok none, s)

/-- The stubs that return nothing and serialize their argument without a look at it. -/
def tellNode (code : RPCCode) (n : Option INode) : Option (Except Fault (Option INode) × Served) :=
  match n with
  | none => some (.error .nullDeref, .nothing net)
  | some n => tell fuel object net peer code n.serialize

def findPredecessor (id : ID) := askNode fuel object net peer .findPredecessor id.bytes

def findSuccessor (id : ID) := askNode fuel object net peer .findSuccessor id.bytes

def closestPrecedingFinger (id : ID) := askNode fuel object net peer .closestPrecedingFinger id.bytes

def notify (n : INode) := tell fuel object net peer .notify n.serialize

def getPredecessor := askNode fuel object net peer .getPredecessor []

def setPredecessor (n : Option INode) := tellNode fuel object net peer .setPredecessor n

def getSuccessor := askNode fuel object net peer .getSuccessor []

def setSuccessor (n : Option INode) := tellNode fuel object net peer .setSuccessor n

def receive (message : Bytes) := tell fuel object net peer .receive message

end

/-- A chat message reaches the receive function as it was sent exactly when the
function is set and the message fits a frame. -/
theorem receive_received {net : Net} {peer : ID} {n : LocalNode} (hn : net.node peer = some n)
    (fuel object : ℕ) (message : Bytes) :
    ((handleRequest fuel object net peer (createMessage .receive message)).getD
        (.nothing net)).received = [message] ↔ n.rcvFn = true ∧ message.length ≤ 126 := by
  by_cases hlen : message.length ≤ 126
  · rw [handleRequest_createMessage hn fuel object .receive hlen]
    simp only [execute, LocalNode.receive, Nat.add_sub_cancel, List.take_left, hlen, and_true]
    cases n.rcvFn <;> simp [Served.finish]
  · simp only [hlen, and_false, iff_false]
    intro h
    cases hr : readRequest (createMessage .receive message) with
    | none =>
      simp only [handleRequest, hn, hr, Option.getD_some, Served.nothing] at h
      cases h
    | some request =>
      rw [handleRequest_of_request hn hr] at h
      cases he : execute fuel object net peer n request.code request.memory request.length with
      | none =>
        rw [he] at h
        cases h
      | some out =>
        obtain ⟨r, net', received⟩ := out
        have hrec : received = [message] := by
          rw [he] at h
          cases r with
          | ok response => exact h
          | error fault => cases fault <;> exact h
        rcases (execute_spec he).2 with h0 | h1
        · rw [h0] at hrec
          cases hrec
        · rw [h1] at hrec
          exact payload_ne_of_lt (by omega) hr (List.cons.inj hrec).1

end RemoteNode

end ChordChat
