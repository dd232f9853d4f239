import ChordChat.RemoteNode
import ChordChat.Lookup

/-!
# Calls on a stub and on the node itself

Each operation of `INode` runs on the `LocalNode` of the live node `i`
(`Call.onLocal`) and through a stub for it (`Call.onStub`). Both compute a result
and a network; a node argument of the direct call is a pointer to a new object
with the same record.
-/

namespace ChordChat

inductive Call where
  | findPredecessor (id : ID)
  | findSuccessor (id : ID)
  | closestPrecedingFinger (id : ID)
  | notify (n : INode)
  | getPredecessor
  | setPredecessor (n : Option INode)
  | getSuccessor
  | setSuccessor (n : Option INode)
  | receive (message : Bytes)

namespace Call

/-- What the stub puts behind the code. -/
def payLoad : Call → Bytes
  | .findPredecessor id | .findSuccessor id | .closestPrecedingFinger id => id.bytes
  | .notify n => n.serialize
  | .getPredecessor | .getSuccessor => []
  | .setPredecessor n | .setSuccessor n => n.elim [] INode.serialize
  | .receive message => message

variable (fuel object : ℕ) (net : Net) (i : ID)

/-- A call on the node in state `n`: the record behind the result, the network
and the messages received. -/
def onLocal (n : LocalNode) :
    Call → Option (Except Fault (Option INode) × Net × List Bytes)
  | .findPredecessor id => (net.findPredecessor wire object fuel i id).map fun (r, net) =>
      (Net.resultInfo n.info (r.map some), net, [])
  | .findSuccessor id => (net.findSuccessor wire object fuel i id).map fun (r, net) =>
      (Net.resultInfo n.info r, net, [])
  | .closestPrecedingFinger id =>
    some (Net.resultInfo n.info (.ok (some (n.closestPrecedingFinger id))), net, [])
  | .notify r => some (.ok none, net.set (n.notify (.remote object r)), [])
  | .getPredecessor => some (Net.resultInfo n.info (.ok n.predecessor), net, [])
  | .setPredecessor r => some (.ok none, net.set (n.setPredecessor (r.map (.remote object))), [])
  | .getSuccessor =>
    some (Net.resultInfo n.info (.ok (some n.getSuccessor.1)), net.set n.getSuccessor.2, [])
  | .setSuccessor r => some (.ok none, net.set (n.setSuccessor (r.map (.remote object))), [])
  | .receive message =>
    match n.receive message with
    | .error e => some (.error e, net, [])
    | .ok received => some (.ok none, net, received)

def onStub : Call → Option (Except Fault (Option INode) × Served)
  | .findPredecessor id => RemoteNode.findPredecessor fuel object net i id
  | .findSuccessor id => RemoteNode.findSuccessor fuel object net i id
  | .closestPrecedingFinger id => RemoteNode.closestPrecedingFinger fuel object net i id
  | .notify r => RemoteNode.notify fuel object net i r
  | .getPredecessor => RemoteNode.getPredecessor fuel object net i
  | .setPredecessor r => RemoteNode.setPredecessor fuel object net i r
  | .getSuccessor => RemoteNode.getSuccessor fuel object net i
  | .setSuccessor r => RemoteNode.setSuccessor fuel object net i r
  | .receive message => RemoteNode.receive fuel object net i message

/-- Same result, same state, and no NULL dereferenced on either side. -/
def Agree : Option (Except Fault (Option INode) × Net × List Bytes) →
    Option (Except Fault (Option INode) × Served) → Prop
  | none, none => True
  | some (r, net, received), some (r', s) =>
    r' = r ∧ s.net = net ∧ s.received = received ∧ r ≠ .error .nullDeref ∧
      s.fault ≠ some .nullDeref
  | _, _ => False

def Transparent (n : LocalNode) (call : Call) : Prop :=
  ∃ N, ∀ fuel, N ≤ fuel →
    Agree (call.onLocal fuel object net i n) (call.onStub fuel object net i)

/-- The result is a node whose record fits a reply; for the setters, the
argument is a node. -/
def Answerable (n : LocalNode) : Call → Prop
  | .findPredecessor id => ∀ p result, net.Comes wire object i id (some .self) p →
      net.turn wire object i id p = .final result →
        ∃ q, result = .ok q ∧ (q.info n.info).Fits
  | .findSuccessor id => ∃ k m r, net.EndsAt id k i m ∧
      Net.relay wire k (m.answer id) = .ok (some r) ∧ r.Fits
  | .closestPrecedingFinger id => ((n.closestPrecedingFinger id).info n.info).Fits
  | .getPredecessor => ∃ p, n.predecessor = some p ∧ (p.info n.info).Fits
  | .getSuccessor => (n.getSuccessor.1.info n.info).Fits
  | .setPredecessor r | .setSuccessor r => r ≠ none
  | .notify _ | .receive _ => True

/-! ### Results in replies -/

def stubAnswer (i : ID) (n : LocalNode) (r : Except Fault (Option Node)) (net : Net) :
    Except Fault (Option INode) × Served :=
  let s := Served.finish i (n.response r, net, [])
  (ofReply (readReply s.reply), s)

theorem agree_stubAnswer (n : LocalNode) (r : Except Fault (Option Node)) :
    Agree (some (Net.resultInfo n.info r, net, [])) (some (stubAnswer i n r net)) ↔
      ∃ p, r = .ok (some p) ∧ (p.info n.info).Fits := by
  match r with
  | .ok (some p) =>
    have hstub : stubAnswer i n (.ok (some p)) net =
        (wire (p.info n.info), ⟨net, writeResponse (p.info n.info).serialize, [], none⟩) := rfl
    rw [hstub]
    constructor
    · rintro ⟨h, _⟩
      exact ⟨p, rfl, (wire_eq_some_iff _).mp h⟩
    · rintro ⟨q, hq, h⟩
      obtain rfl : p = q := Option.some.inj (Except.ok.inj hq)
      refine ⟨(wire_eq_some_iff _).mpr h, rfl, rfl, ?_, ?_⟩ <;> exact fun h => (nomatch h)
  | .ok none =>
    constructor
    · rintro ⟨_, _, _, _, h⟩
      exact absurd rfl h
    · rintro ⟨_, h, _⟩
      cases h
  | .error .exception | .error .abort | .error .nullDeref | .error .overread =>
    constructor
    · rintro ⟨h, _⟩
      cases h
    · rintro ⟨_, h, _⟩
      cases h

variable {net i} {n : LocalNode} (hn : net.node i = some n)
include hn

theorem askNode_eq {code : RPCCode} {payLoad : Bytes} (h : payLoad.length ≤ 126) :
    RemoteNode.askNode fuel object net i code payLoad =
      (execute fuel object net i n (some code)
        (payLoad ++ List.replicate (1023 - payLoad.length) 0) (payLoad.length + 1)).map fun out =>
        (ofReply (readReply (Served.finish i out).reply), Served.finish i out) := by
  simp only [RemoteNode.askNode, RemoteNode.sendMessage, if_true,
    handleRequest_createMessage hn fuel object code h, Option.map_map]
  rfl

theorem tell_eq {code : RPCCode} {payLoad : Bytes} (h : payLoad.length ≤ 126)
    {out : Except Fault Bytes × Net × List Bytes}
    (he : execute fuel object net i n (some code)
      (payLoad ++ List.replicate (1023 - payLoad.length) 0) (payLoad.length + 1) = some out) :
    RemoteNode.tell fuel object net i code payLoad = some (.ok none, Served.finish i out) := by
  simp only [RemoteNode.tell, RemoteNode.sendMessage, Bool.false_eq_true, if_false, Option.map_some,
    handleRequest_createMessage hn fuel object code h, he, Option.getD_some]

theorem onStub_findSuccessor (id : ID) :
    onStub fuel object net i (.findSuccessor id) =
      (net.findSuccessor wire object fuel i id).map fun r => stubAnswer i n r.1 r.2 := by
  rw [onStub, RemoteNode.findSuccessor, askNode_eq fuel object hn id.bytes_length_le]
  simp only [execute, ID.ofChars_bytes, Option.map_map]
  rfl

theorem onStub_findPredecessor (id : ID) :
    onStub fuel object net i (.findPredecessor id) =
      (net.findPredecessor wire object fuel i id).map fun r =>
        stubAnswer i n (r.1.map some) r.2 := by
  rw [onStub, RemoteNode.findPredecessor, askNode_eq fuel object hn id.bytes_length_le]
  simp only [execute, ID.ofChars_bytes, Option.map_map]
  rfl

theorem onStub_closestPrecedingFinger (id : ID) :
    onStub fuel object net i (.closestPrecedingFinger id) =
      some (stubAnswer i n (.ok (some (n.closestPrecedingFinger id))) net) := by
  rw [onStub, RemoteNode.closestPrecedingFinger, askNode_eq fuel object hn id.bytes_length_le]
  simp only [execute, ID.ofChars_bytes, Option.map_some]
  rfl

theorem onStub_getPredecessor :
    onStub fuel object net i .getPredecessor = some (stubAnswer i n (.ok n.predecessor) net) := by
  rw [onStub, RemoteNode.getPredecessor, askNode_eq fuel object hn (Nat.zero_le _)]
  rfl

theorem onStub_getSuccessor :
    onStub fuel object net i .getSuccessor =
      some (stubAnswer i n (.ok (some n.getSuccessor.1)) (net.set n.getSuccessor.2)) := by
  rw [onStub, RemoteNode.getSuccessor, askNode_eq fuel object hn (Nat.zero_le _)]
  rfl

/-! ### The calls -/

theorem transparent_findSuccessor (id : ID) :
    Transparent object net i n (.findSuccessor id) ↔ Answerable object net i n (.findSuccessor id) := by
  constructor
  · rintro ⟨N, h⟩
    rcases net.walk_ends id i with ⟨k, m, hend⟩ | ⟨k, hfail⟩
    · obtain ⟨n', r, net', hn', hrun, hinfo, _⟩ := Net.findSuccessor_endsAt wire object hend
      obtain rfl : n = n' := Option.some.inj (hn.symm.trans hn')
      have hagree := h (max N (k + 1)) (Nat.le_max_left _ _)
      rw [onStub_findSuccessor _ _ hn, onLocal, hrun _ (Nat.le_max_right N (k + 1))] at hagree
      obtain ⟨p, rfl, hp⟩ := (agree_stubAnswer _ _ _ _).mp hagree
      exact ⟨k, m, _, hend, hinfo.symm, hp⟩
    · obtain ⟨net', hrun⟩ := Net.findSuccessor_fails wire object hfail
      have hagree := h (max N (k + 1)) (Nat.le_max_left _ _)
      rw [onStub_findSuccessor _ _ hn, onLocal, hrun _ (Nat.le_max_right N (k + 1))] at hagree
      obtain ⟨p, hp, _⟩ := (agree_stubAnswer _ _ _ _).mp hagree
      cases hp
  · rintro ⟨k, m, r, hend, hrelay, hfit⟩
    obtain ⟨n', result, net', hn', hrun, hinfo, _⟩ := Net.findSuccessor_endsAt wire object hend
    obtain rfl : n = n' := Option.some.inj (hn.symm.trans hn')
    refine ⟨k + 1, fun fuel hf => ?_⟩
    rw [onStub_findSuccessor _ _ hn, onLocal, hrun fuel hf]
    refine (agree_stubAnswer _ _ _ _).mpr ?_
    rw [hrelay] at hinfo
    match result, hinfo with
    | .ok (some p), hinfo =>
      obtain rfl : p.info n.info = r := Option.some.inj (Except.ok.inj hinfo)
      exact ⟨p, rfl, hfit⟩

theorem transparent_findPredecessor (id : ID) :
    Transparent object net i n (.findPredecessor id) ↔
      Answerable object net i n (.findPredecessor id) := by
  constructor
  · rintro ⟨N, h⟩ p result hp hend
    obtain ⟨k, net', hrun⟩ := Net.findPredecessor_ends wire object hp hend
    have hagree := h (max N k) (Nat.le_max_left _ _)
    rw [onStub_findPredecessor _ _ hn, onLocal, hrun _ (Nat.le_max_right N k)] at hagree
    obtain ⟨q, hq, hfit⟩ := (agree_stubAnswer _ _ _ _).mp hagree
    cases result with
    | error e => cases hq
    | ok q' =>
      cases hq
      exact ⟨q, rfl, hfit⟩
  · intro h
    refine ⟨0, fun fuel _ => ?_⟩
    rw [onStub_findPredecessor _ _ hn, onLocal]
    cases hrun : net.findPredecessor wire object fuel i id with
    | none => trivial
    | some out =>
      obtain ⟨_, p, hp, hend⟩ :=
        Net.findPredecessorLoop_result wire object (Net.Touched.refl net) hrun
      obtain ⟨q, hq, hfit⟩ := h p out.1 hp hend
      refine (agree_stubAnswer _ _ _ _).mpr ⟨q, ?_, hfit⟩
      rw [hq]
      rfl

theorem transparent_tell {call : Call} {code : RPCCode} {payLoad : Bytes}
    (net' : Net) (received : List Bytes) (h : payLoad.length ≤ 126)
    (hlocal : ∀ fuel, call.onLocal fuel object net i n = some (.ok none, net', received))
    (hstub : ∀ fuel, call.onStub fuel object net i = RemoteNode.tell fuel object net i code payLoad)
    (he : ∀ fuel, execute fuel object net i n (some code)
      (payLoad ++ List.replicate (1023 - payLoad.length) 0) (payLoad.length + 1) =
        some (.ok [], net', received)) : Transparent object net i n call := by
  refine ⟨0, fun fuel _ => ?_⟩
  rw [hlocal, hstub, tell_eq fuel object hn h (he fuel)]
  refine ⟨rfl, rfl, rfl, ?_, ?_⟩ <;> exact fun h => (nomatch h)

theorem transparent_notify {r : INode} (h : r.serialize.length ≤ 126) :
    Transparent object net i n (.notify r) :=
  transparent_tell object hn _ _ h (fun _ => rfl) (fun _ => rfl) fun _ => by
    simp only [execute, ofSerial_argument h]

theorem transparent_tellNode {call : Call} {code : RPCCode} {r : Option INode}
    {f : Option Node → LocalNode} (h : (r.elim [] INode.serialize).length ≤ 126)
    (hlocal : ∀ fuel, call.onLocal fuel object net i n =
      some (.ok none, net.set (f (r.map (.remote object))), []))
    (hstub : ∀ fuel, call.onStub fuel object net i =
      RemoteNode.tellNode fuel object net i code r)
    (he : ∀ fuel memory length p, nodeArgument object memory length = .ok p →
      execute fuel object net i n (some code) memory length = some (.ok [], net.set (f p), [])) :
    Transparent object net i n call ↔ r ≠ none := by
  cases r with
  | none =>
    refine ⟨fun ⟨N, h⟩ => ?_, fun h => absurd rfl h⟩
    have hagree := h N (Nat.le_refl N)
    rw [hlocal, hstub] at hagree
    cases hagree.1
  | some s =>
    refine ⟨fun _ => Option.some_ne_none s, fun _ => ?_⟩
    exact transparent_tell object hn _ _ h hlocal hstub fun fuel =>
      he fuel _ _ _ (nodeArgument_serialize object h)

theorem transparent_receive {message : Bytes} (h : message.length ≤ 126)
    (hrcv : n.rcvFn = true) : Transparent object net i n (.receive message) := by
  have hrec : n.receive message = .ok [message] := by
    rw [LocalNode.receive, if_pos hrcv]
  refine transparent_tell object hn net [message] h
    (fun _ => ?_) (fun _ => rfl) fun _ => ?_
  · simp only [onLocal, hrec]
  · simp only [execute, Nat.add_sub_cancel, List.take_left, hrec]

omit hn in
theorem transparent_answer {call : Call} {p : Option Node} {net' : Net}
    (hlocal : ∀ fuel, call.onLocal fuel object net i n =
      some (Net.resultInfo n.info (.ok p), net', []))
    (hstub : ∀ fuel, call.onStub fuel object net i = some (stubAnswer i n (.ok p) net')) :
    Transparent object net i n call ↔ ∃ q, p = some q ∧ (q.info n.info).Fits := by
  have hagree : ∀ fuel, Agree (call.onLocal fuel object net i n) (call.onStub fuel object net i) ↔
      ∃ q, p = some q ∧ (q.info n.info).Fits := by
    intro fuel
    rw [hlocal, hstub, agree_stubAnswer]
    simp only [Except.ok.injEq]
  exact ⟨fun ⟨N, h⟩ => (hagree N).mp (h N (Nat.le_refl N)), fun h => ⟨0, fun fuel _ =>
    (hagree fuel).mpr h⟩⟩

end Call

/-- Exactly the answerable calls do the same through a stub as on the node. -/
theorem transparent_iff_answerable (object : ℕ) {net : Net} {i : ID} {n : LocalNode}
    (hn : net.node i = some n) (call : Call) (hfit : call.payLoad.length ≤ 126)
    (hrcv : ∀ message, call = .receive message → n.rcvFn = true) :
    call.Transparent object net i n ↔ call.Answerable object net i n := by
  cases call with
  | findPredecessor id => exact Call.transparent_findPredecessor object hn id
  | findSuccessor id => exact Call.transparent_findSuccessor object hn id
  | closestPrecedingFinger id =>
    rw [Call.transparent_answer object (fun _ => rfl)
      fun fuel => Call.onStub_closestPrecedingFinger fuel object hn id]
    simp only [Call.Answerable, Option.some.injEq, exists_eq_left']
  | notify r => exact iff_of_true (Call.transparent_notify object hn hfit) trivial
  | getPredecessor =>
    rw [Call.transparent_answer object (fun _ => rfl)
      fun fuel => Call.onStub_getPredecessor fuel object hn]
    rfl
  | setPredecessor r =>
    exact Call.transparent_tellNode object hn (f := n.setPredecessor) hfit (fun _ => rfl)
      (fun _ => rfl) fun _ _ _ _ he => by simp only [execute, he]
  | getSuccessor =>
    rw [Call.transparent_answer object (fun _ => rfl)
      fun fuel => Call.onStub_getSuccessor fuel object hn]
    simp only [Call.Answerable, Option.some.injEq, exists_eq_left']
  | setSuccessor r =>
    exact Call.transparent_tellNode object hn (f := n.setSuccessor) hfit (fun _ => rfl)
      (fun _ => rfl) fun _ _ _ _ he => by simp only [execute, he]
  | receive message =>
    exact iff_of_true (Call.transparent_receive object hn hfit (hrcv message rfl)) trivial

theorem transparent_iff_answerable_pair :
    Call.Transparent 0 pairNet bob.id ((LocalNode.init bob).setSuccessor (some (.remote 0 alice)))
        .getSuccessor ↔
      Call.Answerable 0 pairNet bob.id
        ((LocalNode.init bob).setSuccessor (some (.remote 0 alice))) .getSuccessor :=
  transparent_iff_answerable 0 (Net.node_set_self rfl) .getSuccessor (Nat.zero_le _)
    fun _ h => Call.noConfusion h

theorem getPredecessor_kills_new_node : ¬ Call.getPredecessor.Transparent 0
    (Net.empty.set (LocalNode.init alice)) alice.id (LocalNode.init alice) := by
  rw [Call.transparent_answer (p := none) 0 (fun _ => rfl)
    fun fuel => Call.onStub_getPredecessor fuel 0 (Net.node_set_self rfl)]
  rintro ⟨_, h, _⟩
  cases h

end ChordChat
