import ChordChat.RemoteNode
import ChordChat.Failure

/-!
# Sending a chat message (ChatClient.cpp)

`send` looks the recipient up and calls `receive` on the node found. The log
lists the receive functions that have been invoked, with the node and the message.
-/

namespace ChordChat
namespace ChatClient

def deliver (fuel object : ℕ) (net : Net) (sender : ID) (message : Bytes) :
    Node → Except Fault Bool × Net × List (ID × Bytes)
  | .self =>
    match net.node sender with
    | none => (.ok true, net, [])
    | some own =>
      match own.receive message with
      | .error e => (.error e, net, [])
      | .ok received => (.ok true, net, received.map fun m => (sender, m))
  | .remote _ r =>
    match RemoteNode.receive fuel object net r.id message with
    | none => (.ok true, net, [])
    | some (_, s) => (.ok true, s.net, s.received.map fun m => (r.id, m))

def send (fuel object : ℕ) (net : Net) (sender id : ID) (message : Bytes) :
    Option (Except Fault Bool × Net × List (ID × Bytes)) :=
  match net.findSuccessor wire object fuel sender id with
  | none => none
  | some (.error e, net) => some (.error e, net, [])
  | some (.ok none, net) => some (.error .nullDeref, net, [])
  | some (.ok (some n), net) =>
    if n.idAt sender = id then some (deliver fuel object net sender message n)
    else some (.ok false, net, [])

/-- `send` has returned, and what it returned is true. -/
def Reports (id : ID) (message : Bytes)
    (sent : Option (Except Fault Bool × Net × List (ID × Bytes))) : Prop :=
  ∃ net, sent = some (.ok true, net, [(id, message)]) ∨ sent = some (.ok false, net, [])

def Truthful (object : ℕ) (net : Net) (sender id : ID) (message : Bytes) : Prop :=
  ∃ N, ∀ fuel, N ≤ fuel → Reports id message (send fuel object net sender id message)

/-- The lookup's answer reaches the sender, and if it carries the recipient's ID
then the recipient is alive, has a receive function and the message fits. -/
def Deliverable (net : Net) (sender id : ID) (message : Bytes) : Prop :=
  ∃ k m r, net.EndsAt id k sender m ∧ Net.relay wire k (m.answer id) = .ok (some r) ∧
    (r.id = id → (net.node id).map LocalNode.rcvFn = some true ∧
      (id = sender ∨ message.length ≤ 126))

theorem deliver_ne_false (fuel object : ℕ) (net : Net) (sender : ID) (message : Bytes) (p : Node) :
    (deliver fuel object net sender message p).1 ≠ .ok false := by
  unfold deliver
  split <;> split
  · simp
  · split <;> simp
  · simp
  · simp

theorem deliver_iff {net : Net} {sender id : ID} {own : LocalNode}
    (hown : net.node sender = some own) {p : Node} (hp : p.idAt sender = id)
    (hself : id = sender → p = .self) (fuel object : ℕ) (message : Bytes) :
    (deliver fuel object net sender message p).1 = .ok true ∧
        (deliver fuel object net sender message p).2.2 = [(id, message)] ↔
      (net.node id).map LocalNode.rcvFn = some true ∧ (id = sender ∨ message.length ≤ 126) := by
  cases p with
  | self =>
    subst hp
    simp only [deliver, Node.idAt, hown, LocalNode.receive, Option.map_some, true_or, and_true]
    cases own.rcvFn <;> simp
  | remote o r =>
    subst hp
    have hne : ¬ r.id = sender := fun h => Node.noConfusion (hself h)
    simp only [deliver, Node.idAt, RemoteNode.receive, RemoteNode.tell, RemoteNode.sendMessage,
      Bool.false_eq_true, if_false, Option.map_some, true_and, hne, false_or]
    cases hn : net.node r.id with
    | none =>
      simp only [handleRequest, hn, Option.getD_some, Served.nothing]
      constructor
      · intro h
        cases h
      · rintro ⟨h, _⟩
        cases h
    | some n =>
      rw [Option.map_some, Option.some.injEq, ← RemoteNode.receive_received hn fuel object message]
      simp

theorem rcvFn_set_hop {net : Net} {i : ID} {m : LocalNode} (hm : net.node i = some m) (id j : ID) :
    ((net.set (m.findSuccessorHop id).2).node j).map LocalNode.rcvFn =
      (net.node j).map LocalNode.rcvFn := by
  rw [Net.node_set]
  split
  next hj =>
    rw [LocalNode.hop_getId, net.id_eq i m hm] at hj
    rw [hj, hm, Option.map_some, LocalNode.hop_rcvFn, Option.map_some]
  next => rfl

theorem reports_send {object k fuel : ℕ} {net : Net} {sender id : ID} {m : LocalNode}
    (hend : net.EndsAt id k sender m) (hf : k < fuel) (message : Bytes) :
    Reports id message (send fuel object net sender id message) ↔
      ∃ r, Net.relay wire k (m.answer id) = .ok (some r) ∧
        (r.id = id → (net.node id).map LocalNode.rcvFn = some true ∧
          (id = sender ∨ message.length ≤ 126)) := by
  obtain ⟨own, result, net', hown, hrun, hinfo, hnet⟩ := Net.findSuccessor_endsAt wire object hend
  have ⟨j, _, hm, _⟩ := hend
  rw [← hinfo]
  simp only [send, hrun fuel hf]
  match result with
  | .ok none | .error _ =>
    constructor
    · rintro ⟨_, h | h⟩ <;> cases h
    · rintro ⟨_, h, _⟩
      cases h
  | .ok (some p) =>
    have hrcv := rcvFn_set_hop hm id
    rw [← hnet p rfl] at hrcv
    have hpid : (p.info own.info).id = p.idAt sender := by
      rw [← net.id_eq sender own hown]
      exact own.idOf_eq p
    have hinfo' : Net.resultInfo own.info (.ok (some p)) = .ok (some (p.info own.info)) := rfl
    rw [hinfo']
    simp only [Except.ok.injEq, Option.some.injEq, exists_eq_left', hpid]
    by_cases hp : p.idAt sender = id
    · obtain ⟨own', hown'⟩ : ∃ own', net'.node sender = some own' := by
        have h := hrcv sender
        rw [hown] at h
        obtain ⟨own', hown', _⟩ := Option.map_eq_some_iff.mp h
        exact ⟨own', hown'⟩
      have hself : id = sender → p = .self := by
        rintro rfl
        have h := (hrun (k + 1) (Nat.lt_succ_self k)).symm.trans
          (Net.findSuccessor_own wire object hown k)
        cases h
        rfl
      have hiff := deliver_iff hown' hp hself fuel object message
      rw [hrcv] at hiff
      simp only [hp, if_true, true_implies, ← hiff]
      constructor
      · rintro ⟨_, h | h⟩
        · rw [Option.some.inj h]
          exact ⟨rfl, rfl⟩
        · exact absurd (congrArg Prod.fst (Option.some.inj h))
            (deliver_ne_false fuel object net' sender message p)
      · rintro ⟨h1, h2⟩
        exact ⟨_, Or.inl (congrArg some (Prod.ext h1 (Prod.ext rfl h2)))⟩
    · simp only [hp, if_false, false_implies, iff_true]
      exact ⟨net', Or.inr rfl⟩

/-- `send` is truthful exactly when the message is deliverable. -/
theorem truthful_iff_deliverable (object : ℕ) (net : Net) (sender id : ID) (message : Bytes) :
    Truthful object net sender id message ↔ Deliverable net sender id message := by
  constructor
  · rintro ⟨N, h⟩
    rcases net.walk_ends id sender with ⟨k, m, hend⟩ | ⟨k, hfail⟩
    · have hr := h (max N (k + 1)) (Nat.le_max_left _ _)
      rw [reports_send hend (Nat.le_max_right N (k + 1))] at hr
      obtain ⟨r, hrelay, hr⟩ := hr
      exact ⟨k, m, r, hend, hrelay, hr⟩
    · obtain ⟨net', hrun⟩ := Net.findSuccessor_fails wire object hfail
      have hr := h (max N (k + 1)) (Nat.le_max_left _ _)
      simp only [send, hrun _ (Nat.le_max_right N (k + 1))] at hr
      obtain ⟨_, hr | hr⟩ := hr <;> cases hr
  · rintro ⟨k, m, r, hend, hrelay, hr⟩
    exact ⟨k + 1, fun fuel hf => (reports_send hend hf message).mpr ⟨r, hrelay, hr⟩⟩

theorem widow_endsAt (own other : INode) :
    ∃ m, (widowNet own other).EndsAt other.id 0 own.id m ∧ (m.answer other.id).id = other.id := by
  have hsucc := LocalNode.idOf_getSuccessor_setSuccessor (LocalNode.init own) (.remote 0 other)
  refine ⟨_, ⟨_, .here _, widowNet_own own other, ?_⟩, ?_⟩
  · rw [LocalNode.stopsSuccessor, Bool.or_eq_true, LocalNode.stopsPredecessor,
      LocalNode.setSuccessor_idOf, hsucc, LocalNode.holds_iff]
    exact Or.inr (Or.inr rfl)
  · rw [LocalNode.answer_id, LocalNode.setSuccessor_idOf, hsucc]
    split <;> rfl

theorem send_to_failed_node :
    ¬ Truthful 0 (widowNet alice bob) alice.id bob.id [104, 105] := by
  rintro ⟨N, h⟩
  obtain ⟨m, hend, hans⟩ := widow_endsAt alice bob
  have hr := h (N + 1) (Nat.le_succ N)
  rw [reports_send hend (Nat.succ_pos N)] at hr
  obtain ⟨r, hrelay, hr⟩ := hr
  obtain rfl : m.answer bob.id = r := Option.some.inj (Except.ok.inj hrelay)
  have hdead := (hr hans).1
  rw [widowNet, Net.node_set_of_ne alice_id_ne_bob_id.symm] at hdead
  cases hdead

end ChatClient

end ChordChat
