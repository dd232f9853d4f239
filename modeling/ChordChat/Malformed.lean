import ChordChat.Request

/-!
# Malformed requests

A stream is harmless when the switch is never reached, when its code has an empty
case, or when the decoding of its record throws. Every other stream has an effect
on some node, well-formed or not: nothing compares the length of a request with
what its code calls for.
-/

namespace ChordChat

def PayloadOk (payLoad : Bytes) : RPCCode → Prop
  | .findPredecessor | .findSuccessor | .closestPrecedingFinger => payLoad.length = ID_LEN
  | .notify => ∃ r : INode, payLoad = r.serialize
  | .setPredecessor | .setSuccessor => payLoad = [] ∨ ∃ r : INode, payLoad = r.serialize
  | .getPredecessor | .getSuccessor | .getId | .ping => payLoad = []
  | .receive | .join | .stabilize | .fixFinger => True

/-- A header in 1..127 and as many bytes, the first a code and the rest its payload. -/
def WellFormed (stream : Bytes) : Prop :=
  ∃ code payLoad, stream = createMessage code payLoad ∧ payLoad.length ≤ 126 ∧
    PayloadOk payLoad code

/-- The request leaves the node's predecessor and fingers alone, reaches no
receive function, is not answered and ends no process. -/
def NoEffect (fuel object : ℕ) (net : Net) (i : ID) (n : LocalNode) (stream : Bytes) : Prop :=
  ∃ s n', handleRequest fuel object net i stream = some s ∧ s.net.node i = some n' ∧
    n'.predecessor = n.predecessor ∧ n'.finger = n.finger ∧ s.received = [] ∧ s.reply = [] ∧
    s.fault = none

/-- No node in any network is affected. -/
def Ignored (stream : Bytes) : Prop :=
  ∀ fuel object net i n, net.node i = some n → NoEffect fuel object net i n stream

/-- The switch does nothing for the request, or throws before it does anything. -/
def Request.Inert (request : Request) : Prop :=
  match request.code with
  | none | some .join | some .stabilize | some .fixFinger | some .ping => True
  | some .notify => INode.ofSerial request.memory = .error .exception
  | some .setPredecessor | some .setSuccessor =>
    request.length ≠ 1 ∧ INode.ofSerial request.memory = .error .exception
  | some .findPredecessor | some .findSuccessor | some .closestPrecedingFinger
  | some .getPredecessor | some .getSuccessor | some .getId | some .receive => False

/-- The stream ends early, or its request is inert. -/
def StreamHarmless (stream : Bytes) : Prop :=
  ∀ request, readRequest stream = some request → request.Inert

theorem execute_inert {fuel object : ℕ} {net : Net} {i : ID} {n : LocalNode} {request : Request}
    (h : request.Inert) :
    (execute fuel object net i n request.code request.memory request.length).map
      (Served.finish i) = some ⟨net, [], [], none⟩ := by
  unfold Request.Inert at h
  cases hc : request.code with
  | none => rfl
  | some code =>
    rw [hc] at h
    cases code with
    | join | stabilize | fixFinger | ping => rfl
    | notify =>
      simp only at h
      simp only [execute, h]
      rfl
    | setPredecessor | setSuccessor =>
      simp only at h
      simp only [execute, nodeArgument, if_neg h.1, h.2]
      rfl
    | findPredecessor | findSuccessor | closestPrecedingFinger | getPredecessor | getSuccessor
    | getId | receive => exact h.elim

theorem ignored_of_harmless {stream : Bytes} (h : StreamHarmless stream) : Ignored stream := by
  intro fuel object net i n hn
  refine ⟨⟨net, [], [], none⟩, n, ?_, hn, rfl, rfl, rfl, rfl, rfl⟩
  cases hr : readRequest stream with
  | none => simp only [handleRequest, hn, hr, Served.nothing]
  | some request =>
    rw [handleRequest_of_request hn hr]
    exact execute_inert (h request hr)

/-! ### Affected nodes -/

def alone (n : LocalNode) : Net := Net.empty.set n

theorem alone_node (n : LocalNode) : (alone n).node n.getId = some n := Net.node_set_self rfl

/-- The switch has left the lone node `n` as it was, without a trace outside. -/
def Unaffected (n : LocalNode) (out : Except Fault Bytes × Net × List Bytes) : Prop :=
  ∃ n', (Served.finish n.getId out).net.node n.getId = some n' ∧
    n'.predecessor = n.predecessor ∧ n'.finger = n.finger ∧ out.2.2 = [] ∧
    (Served.finish n.getId out).reply = [] ∧ (Served.finish n.getId out).fault = none

theorem unaffected_of_ignored {stream : Bytes} {request : Request} (h : Ignored stream)
    (hr : readRequest stream = some request) (n : LocalNode)
    {out : Except Fault Bytes × Net × List Bytes}
    (he : execute 1 0 (alone n) n.getId n request.code request.memory request.length = some out) :
    Unaffected n out := by
  obtain ⟨s, n', hs, hn', hpred, hfinger, hrec, hrep, hfault⟩ :=
    h 1 0 (alone n) n.getId n (alone_node n)
  rw [handleRequest_of_request (alone_node n) hr, he] at hs
  obtain rfl := Option.some.inj hs
  refine ⟨n', hn', hpred, hfinger, ?_, hrep, hfault⟩
  match out, hrec with
  | (.ok _, _, _), hrec | (.error .exception, _, _), hrec | (.error .abort, _, _), hrec
  | (.error .nullDeref, _, _), hrec | (.error .overread, _, _), hrec => exact hrec

theorem exception_of_unaffected {n : LocalNode} {e : Fault} {net : Net} {received : List Bytes}
    (h : Unaffected n (.error e, net, received)) : e = .exception := by
  obtain ⟨_, _, _, _, _, _, hfault⟩ := h
  cases e with
  | exception => rfl
  | abort | nullDeref | overread => cases hfault

theorem pointers_of_unaffected {n m : LocalNode} {received : List Bytes} (hid : m.getId = n.getId)
    (h : Unaffected n (.ok [], (alone n).set m, received)) :
    m.predecessor = n.predecessor ∧ m.finger = n.finger := by
  obtain ⟨n', hn', hpred, hfinger, _⟩ := h
  have hset : ((alone n).set m).node n.getId = some m := Net.node_set_self hid
  obtain rfl : m = n' := Option.some.inj (hset.symm.trans hn')
  exact ⟨hpred, hfinger⟩

theorem writeResponse_ne_nil {response : Bytes} (h0 : response ≠ [])
    (h : response.length ≤ 127) : writeResponse response ≠ [] := by
  have hc : charVal (toChar response.length) = response.length := charVal_toChar_of_le h
  have hpos := List.length_pos_iff.mpr h0
  rw [writeResponse, if_pos (by omega)]
  exact List.cons_ne_nil _ _

def newcomer : LocalNode := (LocalNode.init alice).setReceiveFunction

theorem newcomer_getSuccessor : newcomer.getSuccessor.1 = .self :=
  LocalNode.getSuccessor_of_own fun _ _ hp => by cases hp

theorem newcomer_closestPrecedingFinger (id : ID) :
    newcomer.closestPrecedingFinger id = .self := by
  rcases newcomer.closestPrecedingFinger_cases id with ⟨_, _, hf, _, _⟩ | ⟨_, hc⟩
  · obtain ⟨_, hj⟩ := FingerTable.entry_of_getNode hf
    cases hj
  · exact hc

theorem newcomer_findSuccessor (id : ID) :
    ∃ net, (alone newcomer).findSuccessor wire 0 1 newcomer.getId id =
      some (.ok (some .self), net) := by
  simp only [Net.findSuccessor, alone_node]
  rcases newcomer.findSuccessorHop_cases id with ⟨_, he⟩ | ⟨_, _, he⟩ | ⟨_, _, _, _, ⟨_, hj⟩, _⟩
  · rw [he]
    exact ⟨_, rfl⟩
  · rw [he, newcomer_getSuccessor]
    exact ⟨_, rfl⟩
  · cases hj

theorem newcomer_findPredecessor (id : ID) :
    ∃ net, (alone newcomer).findPredecessor wire 0 1 newcomer.getId id =
      some (.ok .self, net) := by
  have hin : id.isInInterval newcomer.getId newcomer.getId = true :=
    ID.isInInterval_iff.mpr (Clockwise.inArc_self _ _)
  simp only [Net.findPredecessor, Net.findPredecessorLoop, Net.call, alone_node,
    newcomer_getSuccessor, Node.idAt, hin, if_true]
  exact ⟨_, rfl⟩

theorem newcomer_affected {net : Net}
    (h : Unaffected newcomer (newcomer.response (.ok (some .self)), net, [])) : False := by
  obtain ⟨_, _, _, _, _, hrep, _⟩ := h
  exact writeResponse_ne_nil alice.serialize_ne_nil (INode.fits_of_le (by decide)) hrep

def loner : LocalNode := ((LocalNode.init alice).setPredecessor (some .self)).setSuccessor (some .self)

theorem ofSerial_of_ignored {stream : Bytes} {request : Request} (h : Ignored stream)
    (hr : readRequest stream = some request) {f : INode → LocalNode}
    (hid : ∀ r, (f r).getId = newcomer.getId)
    (herr : ∀ e, INode.ofSerial request.memory = .error e →
      execute 1 0 (alone newcomer) newcomer.getId newcomer request.code request.memory
        request.length = some (.error e, alone newcomer, []))
    (hok : ∀ r, INode.ofSerial request.memory = .ok r →
      execute 1 0 (alone newcomer) newcomer.getId newcomer request.code request.memory
        request.length = some (.ok [], (alone newcomer).set (f r), []))
    (hf : ∀ r, (f r).predecessor = none → (f r).finger ≠ .empty) :
    INode.ofSerial request.memory = .error .exception := by
  cases hof : INode.ofSerial request.memory with
  | error e =>
    rw [exception_of_unaffected (unaffected_of_ignored h hr newcomer (herr e hof))]
  | ok r =>
    obtain ⟨hpred, hfinger⟩ :=
      pointers_of_unaffected (hid r) (unaffected_of_ignored h hr newcomer (hok r hof))
    exact absurd hfinger (hf r hpred)

/-- The setters: `f` is what the node does with the argument. -/
theorem argument_of_ignored {stream : Bytes} {request : Request} (h : Ignored stream)
    (hr : readRequest stream = some request) {f : LocalNode → Option Node → LocalNode}
    (hid : ∀ n p, (f n p).getId = n.getId)
    (hexec : ∀ n : LocalNode,
      execute 1 0 (alone n) n.getId n request.code request.memory request.length =
        match nodeArgument 0 request.memory request.length with
        | .error e => some (.error e, alone n, [])
        | .ok p => some (.ok [], (alone n).set (f n p), []))
    (hnone : (f loner none).predecessor = loner.predecessor →
      (f loner none).finger ≠ loner.finger)
    (hsome : ∀ r, (f newcomer (some (.remote 0 r))).predecessor = none →
      (f newcomer (some (.remote 0 r))).finger ≠ .empty) :
    request.length ≠ 1 ∧ INode.ofSerial request.memory = .error .exception := by
  have hlen : request.length ≠ 1 := by
    intro hlen
    have hex : execute 1 0 (alone loner) loner.getId loner request.code request.memory
        request.length = some (.ok [], (alone loner).set (f loner none), []) := by
      rw [hexec, nodeArgument, if_pos hlen]
    obtain ⟨hpred, hfinger⟩ :=
      pointers_of_unaffected (hid _ _) (unaffected_of_ignored h hr loner hex)
    exact hnone hpred hfinger
  refine ⟨hlen, ofSerial_of_ignored h hr (fun r => hid newcomer (some (.remote 0 r))) ?_ ?_ hsome⟩
  · intro e he
    rw [hexec, nodeArgument, if_neg hlen, he]
    rfl
  · intro r he
    rw [hexec, nodeArgument, if_neg hlen, he]
    rfl

/-- A request that is not inert affects a newcomer or a node that has only itself. -/
theorem inert_of_ignored {stream : Bytes} {request : Request} (h : Ignored stream)
    (hr : readRequest stream = some request) : request.Inert := by
  have hnew := @unaffected_of_ignored stream request h hr newcomer
  unfold Request.Inert
  cases hc : request.code with
  | none => trivial
  | some code =>
    rw [hc] at hnew
    cases code with
    | join | stabilize | fixFinger | ping => trivial
    | findPredecessor =>
      obtain ⟨net, hrun⟩ := newcomer_findPredecessor (ID.ofChars request.memory)
      exact newcomer_affected (hnew (by simp only [execute, hrun]; rfl))
    | findSuccessor =>
      obtain ⟨net, hrun⟩ := newcomer_findSuccessor (ID.ofChars request.memory)
      exact newcomer_affected (hnew (by simp only [execute, hrun]; rfl))
    | closestPrecedingFinger =>
      exact newcomer_affected (hnew (by simp only [execute, newcomer_closestPrecedingFinger]; rfl))
    | getSuccessor =>
      exact newcomer_affected (hnew (by simp only [execute, newcomer_getSuccessor]; rfl))
    | getPredecessor =>
      obtain ⟨_, _, _, _, _, _, hfault⟩ := hnew rfl
      cases hfault
    | getId =>
      obtain ⟨_, _, _, _, _, hrep, _⟩ := hnew rfl
      have hlen := newcomer.getId.length_eq
      have hne : newcomer.getId.bytes ≠ [] := List.ne_nil_of_length_eq_add_one hlen
      exact writeResponse_ne_nil hne (hlen.trans_le (by decide)) hrep
    | receive =>
      obtain ⟨_, _, _, _, hrec, _, _⟩ := hnew rfl
      cases hrec
    | notify =>
      refine ofSerial_of_ignored h hr (f := fun r => newcomer.notify (.remote 0 r)) (fun _ => rfl)
        (fun e he => ?_) (fun r he => ?_) fun r hp => ?_
      · simp only [hc, execute, he]
      · simp only [hc, execute, he]
      · cases hp
    | setPredecessor =>
      refine argument_of_ignored h hr (f := LocalNode.setPredecessor) (fun _ _ => rfl)
        (fun _ => by rw [hc]; rfl) ?_ ?_
      · intro hpred
        cases hpred
      · intro r hpred
        cases hpred
    | setSuccessor =>
      refine argument_of_ignored h hr (f := LocalNode.setSuccessor) (fun _ _ => rfl)
        (fun _ => by rw [hc]; rfl) ?_ ?_
      · intro _ hfinger
        have h0 := congrArg (fun t : FingerTable => t.entries 0) hfinger
        cases h0
      · intro r _ hfinger
        have h0 := congrArg (fun t : FingerTable => t.entries 0) hfinger
        cases h0

theorem ignored_iff_harmless (stream : Bytes) : Ignored stream ↔ StreamHarmless stream :=
  ⟨fun h _ hr => inert_of_ignored h hr, ignored_of_harmless⟩

/-- The streams that no node notices, or need not ignore. -/
theorem malformed_ignored_iff (stream : Bytes) :
    (¬ WellFormed stream → Ignored stream) ↔ WellFormed stream ∨ StreamHarmless stream := by
  rw [ignored_iff_harmless]
  by_cases h : WellFormed stream
  · exact iff_of_true (fun hn => absurd h hn) (Or.inl h)
  · exact ⟨fun hi => Or.inr (hi h), fun ho _ => ho.resolve_left h⟩

theorem short_findSuccessor_answered : ¬ (¬ WellFormed [1, 1] → Ignored [1, 1]) := by
  have hmalformed : ¬ WellFormed [1, 1] := by
    rintro ⟨code, payLoad, he, _, hok⟩
    obtain ⟨_, hcode, rfl⟩ := by simpa [createMessage] using he
    have hof := RPCCode.ofChar_value code
    rw [← hcode] at hof
    obtain rfl : RPCCode.findSuccessor = code := Option.some.inj hof
    cases hok
  intro h
  obtain ⟨request, hr, hc⟩ : ∃ request, readRequest [1, 1] = some request ∧
      request.code = some .findSuccessor := ⟨_, rfl, rfl⟩
  have hinert := inert_of_ignored (h hmalformed) hr
  simp only [Request.Inert, hc] at hinert

end ChordChat
