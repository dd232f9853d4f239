import ChordChat.Request
import ChordChat.Threads
import ChordChat.Walk

/-!
# The node among its own pointers (LocalNode.cpp)

A peer's record of this node is decoded to a `RemoteNode`, and calls through it open a
connection. `setPredecessor`, `setSuccessor` and `fixFingers` put the own object in its
place, each on its own; the other writes bring in the own object or nothing. So a pointer
that the node holds is its own object if it has the own ID, whatever the threads, the peers
and the network do (`aliasFree_always`).
-/

namespace ChordChat
open Interleaving

/-- If `p` is the node `i`, then by the own object of `i`. -/
def Node.NoAlias (i : ID) (p : Node) : Prop := p.idAt i = i → p = .self

namespace LocalNode

structure AliasFree (n : LocalNode) : Prop where
  predecessor : ∀ p, n.predecessor = some p → p.NoAlias n.getId
  finger : ∀ k p, n.finger.entries k = some p → p.NoAlias n.getId

variable {n : LocalNode} {p : Node}

theorem self_noAlias (i : ID) : Node.self.NoAlias i := fun _ => rfl

theorem thisIfOwn_noAlias {r : Option Node} (h : n.thisIfOwn r = some p) :
    p.NoAlias n.getId := by
  obtain ⟨q, _, hq⟩ := Option.map_eq_some_iff.mp h
  split at hq
  next => exact hq ▸ self_noAlias _
  next hne =>
    subst hq
    rw [idOf_eq] at hne
    exact fun he => absurd he hne

theorem aliasFree_init (own : INode) : (init own).AliasFree where
  predecessor _ h := by cases h
  finger _ _ h := by cases h

theorem aliasFree_setNode (h : n.AliasFree) {k : Fin M} {r : Option Node}
    (hr : ∀ p, r = some p → p.NoAlias n.getId) :
    AliasFree { n with finger := n.finger.setNode k r } where
  predecessor := h.predecessor
  finger j q hq := by
    rw [FingerTable.entries_setNode] at hq
    split at hq
    · exact hr q hq
    · exact h.finger j q hq

theorem AliasFree.setPredecessor (h : n.AliasFree) (r : Option Node) :
    (n.setPredecessor r).AliasFree where
  predecessor _ hp := thisIfOwn_noAlias hp
  finger := h.finger

theorem AliasFree.setFinger (h : n.AliasFree) (k : Fin M) (r : Option Node) :
    (n.setFinger k r).AliasFree :=
  aliasFree_setNode h fun _ => thisIfOwn_noAlias

theorem AliasFree.setSuccessor (h : n.AliasFree) (r : Option Node) :
    (n.setSuccessor r).AliasFree :=
  h.setFinger 0 r

theorem AliasFree.setReceiveFunction (h : n.AliasFree) : n.setReceiveFunction.AliasFree where
  predecessor := h.predecessor
  finger := h.finger

theorem AliasFree.removeNode (h : n.AliasFree) (s : Node) :
    AliasFree { n with finger := n.finger.removeNode s } where
  predecessor := h.predecessor
  finger k q hq := by
    simp only [FingerTable.removeNode] at hq
    split at hq
    · cases hq
    · exact h.finger k q hq

theorem AliasFree.getSuccessor (h : n.AliasFree) : n.getSuccessor.2.AliasFree := by
  rcases n.getSuccessor_cases with ⟨s, _, he⟩ | ⟨_, he⟩
  · rw [he]
    exact h
  · rw [he]
    exact aliasFree_setNode h fun p hp => Option.some.inj hp ▸ self_noAlias _

theorem AliasFree.getSuccessor_noAlias (h : n.AliasFree) :
    n.getSuccessor.1.NoAlias n.getId := by
  rcases n.getSuccessor_cases with ⟨s, hs, he⟩ | ⟨_, he⟩
  · rw [he]
    obtain ⟨k, hk⟩ := FingerTable.entry_of_getNode hs
    exact h.finger k s hk
  · rw [he]
    exact self_noAlias _

theorem AliasFree.notify (h : n.AliasFree) (p : Node) : (n.notify p).AliasFree := by
  unfold LocalNode.notify
  split
  · exact h.setPredecessor _
  · split
    · exact h.setPredecessor _
    · exact h

/-- What `getSuccessor` keeps, a lookup keeps. -/
theorem hop_keeps {P : LocalNode → Prop} (hP : ∀ n, P n → P n.getSuccessor.2) (hn : P n) (id : ID) :
    P (n.findSuccessorHop id).2 := by
  rcases n.findSuccessorHop_cases id with ⟨_, he⟩ | ⟨_, _, he⟩ | ⟨_, _, _, _, _, he⟩
  · rw [he]
    exact hn
  · rw [he]
    exact hP n hn
  · rw [he]
    exact hn

theorem AliasFree.hop (h : n.AliasFree) (id : ID) : (n.findSuccessorHop id).2.AliasFree :=
  hop_keeps (fun _ hm => hm.getSuccessor) h id

end LocalNode

/-! ### Requests -/

namespace Net
variable {P : LocalNode → Prop} {i : ID} {net : Net}

/-- The node `i` has the property as long as it is alive. -/
def HoldsAt (net : Net) (i : ID) (P : LocalNode → Prop) : Prop :=
  ∀ n, net.node i = some n → P n

theorem HoldsAt.kill (h : net.HoldsAt i P) (j : ID) : (net.kill j).HoldsAt i P := by
  intro n hn
  simp only [Net.kill, Function.update_apply] at hn
  split at hn
  · cases hn
  · exact h n hn

theorem HoldsAt.set (h : net.HoldsAt i P) {j : ID} {m m' : LocalNode} (hm : net.node j = some m)
    (hid : m'.getId = m.getId) (hP : P m → P m') : (net.set m').HoldsAt i P := by
  intro n hn
  rw [node_set] at hn
  split at hn
  next hi =>
    cases hn
    have hj : i = j := hi.trans (hid.trans (net.id_eq j m hm))
    subst hj
    exact hP (h m hm)
  next => exact h n hn

theorem HoldsAt.touched (h : net.HoldsAt i P) {net' : Net} (ht : Touched net net')
    (hP : ∀ n, P n → P n.getSuccessor.2) : net'.HoldsAt i P := by
  intro n hn
  rcases ht i with he | ⟨m, hm, he⟩
  · exact h n (he.symm.trans hn)
  · rw [he] at hn
    cases hn
    exact hP m (h m hm)

theorem HoldsAt.lookupReply (h : net.HoldsAt i P) (t : Transport) (object : ℕ) (callee : INode)
    (r : Except Fault (Option Node)) : (Net.lookupReply t object callee (r, net)).2.HoldsAt i P := by
  unfold Net.lookupReply
  split
  next he =>
    cases he
    exact h
  next he =>
    cases he
    exact h
  next he =>
    cases he
    exact h.kill _

theorem HoldsAt.findSuccessor {t : Transport} {object fuel : ℕ} {j id : ID} {net' : Net}
    {result : Except Fault (Option Node)} (h : net.HoldsAt i P)
    (hP : ∀ n, P n → P n.getSuccessor.2)
    (hrun : net.findSuccessor t object fuel j id = some (result, net')) : net'.HoldsAt i P := by
  induction fuel generalizing net j result net' with
  | zero => cases hrun
  | succ fuel ih =>
    cases hj : net.node j with
    | none =>
      simp only [Net.findSuccessor, hj] at hrun
      cases hrun
      exact h
    | some n =>
      have hhop : (net.set (n.findSuccessorHop id).2).HoldsAt i P :=
        h.set hj (n.hop_getId id) fun hn => LocalNode.hop_keeps hP hn id
      rcases hstep : n.findSuccessorHop id with ⟨p | p, n'⟩
      · rw [hstep] at hhop
        simp only [Net.findSuccessor, hj, hstep] at hrun
        cases hrun
        exact hhop
      · rw [hstep] at hhop
        cases p with
        | self =>
          simp only [Net.findSuccessor, hj, hstep] at hrun
          exact ih hhop hrun
        | remote o r =>
          cases hm : (net.set n').node r.id with
          | none =>
            simp only [Net.findSuccessor, hj, hstep, hm] at hrun
            cases hrun
            exact hhop
          | some m =>
            simp only [Net.findSuccessor, hj, hstep, hm] at hrun
            obtain ⟨⟨reply, net1⟩, hrec, hreply⟩ := Option.map_eq_some_iff.mp hrun
            have hback := (ih hhop hrec).lookupReply t object m.info reply
            rw [hreply] at hback
            exact hback

end Net

section Requests
variable {fuel object : ℕ} {net net' : Net} {i j : ID}

theorem execute_aliasFree {n : LocalNode} {code : Option RPCCode} {memory : Bytes} {length : ℕ}
    {r : Except Fault Bytes} {received : List Bytes} (h : net.HoldsAt i LocalNode.AliasFree)
    (hn : net.node j = some n)
    (hrun : execute fuel object net j n code memory length = some (r, net', received)) :
    net'.HoldsAt i LocalNode.AliasFree := by
  have hread : ∀ m : LocalNode, m.AliasFree → m.getSuccessor.2.AliasFree :=
    fun _ hm => hm.getSuccessor
  cases (execute_spec hrun).1 with
  | read => exact h
  | findPredecessor hfind =>
    exact h.touched (Net.findPredecessorLoop_result wire object (.refl net) hfind).1 hread
  | findSuccessor hfind => exact h.findSuccessor hread hfind
  | getSuccessor => exact h.set hn n.getSuccessor_getId (hread n)
  | notify p => exact h.set hn (n.notify_getId p) fun hm => hm.notify p
  | setPredecessor p => exact h.set hn rfl fun hm => hm.setPredecessor p
  | setSuccessor p => exact h.set hn rfl fun hm => hm.setSuccessor p

theorem handleRequest_aliasFree {stream : Bytes} {served : Served}
    (h : net.HoldsAt i LocalNode.AliasFree)
    (hrun : handleRequest fuel object net j stream = some served) :
    served.net.HoldsAt i LocalNode.AliasFree := by
  cases hn : net.node j with
  | none =>
    simp only [handleRequest, hn] at hrun
    cases hrun
    exact h
  | some n =>
    cases hr : readRequest stream with
    | none =>
      simp only [handleRequest, hn, hr] at hrun
      cases hrun
      exact h
    | some request =>
      rw [handleRequest_of_request hn hr] at hrun
      obtain ⟨⟨result, net1, received⟩, hexec, he⟩ := Option.map_eq_some_iff.mp hrun
      have hleft := execute_aliasFree h hn hexec
      subst he
      unfold Served.finish
      split
      next heq =>
        cases heq
        exact hleft
      next heq =>
        cases heq
        exact hleft
      next heq =>
        cases heq
        exact hleft.kill j

end Requests

namespace LocalNode

/-- What a call from outside the node's own threads makes of it: by the main thread, by a
lookup on its way through the network, or by a request of a peer, to this node or another. -/
inductive Called (n : LocalNode) : LocalNode → Prop
  | setReceiveFunction : Called n n.setReceiveFunction
  | getSuccessor : Called n n.getSuccessor.2
  | setSuccessor (p : Option Node) : Called n (n.setSuccessor p)
  | setPredecessor (p : Option Node) : Called n (n.setPredecessor p)
  | lookup (id : ID) : Called n (n.findSuccessorHop id).2
  | request {net : Net} {fuel object : ℕ} {j : ID} {stream : Bytes} {served : Served}
      {n' : LocalNode} (hn : net.node n.getId = some n)
      (hserved : handleRequest fuel object net j stream = some served)
      (hn' : served.net.node n.getId = some n') : Called n n'

variable {n n' : LocalNode}

theorem Called.getId (h : n.Called n') : n'.getId = n.getId := by
  cases h with
  | setReceiveFunction => rfl
  | getSuccessor => exact n.getSuccessor_getId
  | setSuccessor p => rfl
  | setPredecessor p => rfl
  | lookup id => exact n.hop_getId id
  | request _ _ hn' => exact Net.id_eq _ _ _ hn'

theorem Called.aliasFree (h : n.Called n') (hn : n.AliasFree) : n'.AliasFree := by
  cases h with
  | setReceiveFunction => exact hn.setReceiveFunction
  | getSuccessor => exact hn.getSuccessor
  | setSuccessor p => exact hn.setSuccessor p
  | setPredecessor p => exact hn.setPredecessor p
  | lookup id => exact hn.hop id
  | @request net fuel object j stream served _ hown hserved hn' =>
    have hbefore : net.HoldsAt n.getId AliasFree := by
      intro m hm
      rw [hown] at hm
      cases hm
      exact hn
    exact handleRequest_aliasFree hbefore hserved n' hn'

end LocalNode

/-! ### Runs -/

/-- The node is called, or the other nodes come and go. -/
def Host.Called (h h' : Host) : Prop := h'.node = h.node ∨ h.node.Called h'.node

namespace Point
variable {a : Answer} {h : Host} {t t' : Point}

/-- Where the functions of the node begin. -/
def Entry : Point → Prop
  | .notify _ _ | .checkPredecessor | .stabilize | .fixFingers | .join _ => True
  | _ => False

/-- The pointer that the thread has read and is about to call. -/
def carried : Point → Option Node
  | .checkPing p | .stabilizePing p | .stabilizeRead p => some p
  | _ => none

/-- The node called in the next step of `checkPredecessor` or `stabilize`: to ping it, to ask
for its predecessor or to notify it. -/
def callee (n : LocalNode) : Point → Option Node
  | .stabilizeTell => some n.getSuccessor.1
  | t => t.carried

theorem carried_entry (ht : t.Entry) : t.carried = none := by
  cases t with
  | checkPing p => exact ht.elim
  | stabilizePing p => exact ht.elim
  | stabilizeRead p => exact ht.elim
  | _ => rfl

theorem effect_aliasFree {n : LocalNode} (h : n.AliasFree) (t : Point) : (t.effect n).AliasFree := by
  cases t with
  | notifySet c p read => exact h.setPredecessor _
  | checkSet p => exact h.setPredecessor _
  | join p => exact h.setPredecessor _
  | stabilize => exact h.getSuccessor
  | stabilizeAsk => exact h.getSuccessor
  | stabilizeTest => exact h.getSuccessor
  | stabilizeTell => exact h.getSuccessor
  | stabilizeRemove s => exact h.removeNode s
  | stabilizeSet x => exact h.setSuccessor _
  | fixLookup k => exact h.hop _
  | fixSet k p => exact h.setFinger k p
  | joinSet p => exact h.setSuccessor p
  | _ => exact h

/-- A thread takes a pointer along from the predecessor or from `getSuccessor` only. -/
theorem next_carried (hnext : t.next a h = some t') {p : Node} (hp : t'.carried = some p) :
    h.node.predecessor = some p ∨ h.node.getSuccessor.1 = p := by
  cases t with
  | checkPredecessor =>
    simp only [next] at hnext
    split at hnext
    · cases hnext
      cases hp
    next hpred =>
      split at hnext <;> cases hnext <;> cases hp
      exact Or.inl hpred
  | stabilize =>
    cases hnext
    exact Or.inr (Option.some.inj hp)
  | stabilizeAsk =>
    cases hnext
    exact Or.inr (Option.some.inj hp)
  | notifySet c n read => cases c <;> cases hnext <;> cases hp
  | notifyTest c n =>
    simp only [next] at hnext
    split at hnext
    · cases hnext
      cases hp
    · split at hnext
      · cases hnext
        cases hp
      · cases c <;> cases hnext <;> cases hp
  | notify c n => simp only [next] at hnext; split at hnext <;> cases hnext <;> cases hp
  | checkPing n => simp only [next] at hnext; split at hnext <;> cases hnext <;> cases hp
  | stabilizePing s => simp only [next] at hnext; split at hnext <;> cases hnext <;> cases hp
  | stabilizeRead s => simp only [next] at hnext; split at hnext <;> cases hnext <;> cases hp
  | stabilizeTest x => simp only [next] at hnext; split at hnext <;> cases hnext <;> cases hp
  | stabilizeTell => simp only [next] at hnext; split at hnext <;> cases hnext <;> cases hp
  | fixLookup k => simp only [next] at hnext; split at hnext <;> cases hnext <;> cases hp
  | _ => cases hnext <;> cases hp

theorem callee_noAlias {n : LocalNode} (hn : n.AliasFree)
    (ht : ∀ p, t.carried = some p → p.NoAlias n.getId) {p : Node} (hp : t.callee n = some p) :
    p.NoAlias n.getId := by
  cases t with
  | stabilizeTell =>
    cases hp
    exact hn.getSuccessor_noAlias
  | _ => exact ht p hp

end Point

section Runs
variable {ι : Type*}

theorem aliasFree_stable (i : ID) : Pool.Stable (ι := ι) Point.step Host.Called (fun _ _ => True)
    (fun h => h.node.getId = i ∧ h.node.AliasFree)
    (fun _ _ t => ∀ p, t.carried = some p → p.NoAlias i) where
  shared p j a t s hp _ hstep := by
    obtain ⟨_, rfl⟩ := Point.step_eq_some.mp hstep
    exact ⟨(Point.effect_getId _ _).trans hp.shared.1, Point.effect_aliasFree hp.shared.2 _⟩
  own p j a t s hp _ hstep := by
    obtain ⟨hnext, _⟩ := Point.step_eq_some.mp hstep
    intro r hr
    rw [← hp.shared.1]
    rcases Point.next_carried hnext hr with hpred | hsucc
    · exact hp.shared.2.predecessor r hpred
    · exact hsucc ▸ hp.shared.2.getSuccessor_noAlias
  other p j a t s k hp _ _ _ := hp.thread k
  env p s hp henv := by
    refine ⟨?_, hp.thread⟩
    rcases henv with heq | hcalled
    · dsimp only
      rw [heq]
      exact hp.shared
    · exact ⟨hcalled.getId.trans hp.shared.1, hcalled.aliasFree hp.shared.2⟩

variable [DecidableEq ι] {p q : Pool ι Host Point} {own : INode}

/-- Threads on a new node, with calls from everywhere: what it holds under its own ID is its
own object, and through that `checkPredecessor` and `stabilize` call it. -/
theorem aliasFree_always (hnew : p.shared.node = LocalNode.init own)
    (hstart : ∀ i, (p.thread i).Entry)
    (hrun : Pool.Run Point.step Host.Called (fun _ _ => True) p q) :
    q.shared.node.getId = own.id ∧ q.shared.node.AliasFree ∧
      ∀ i callee, (q.thread i).callee q.shared.node = some callee →
        q.shared.node.idOf callee = own.id → callee = .self := by
  have hbegin : Pool.Asserts (fun h : Host => h.node.getId = own.id ∧ h.node.AliasFree)
      (fun _ _ t => ∀ r, t.carried = some r → r.NoAlias own.id) p := by
    refine ⟨?_, fun i r hr => ?_⟩
    · rw [hnew]
      exact ⟨rfl, LocalNode.aliasFree_init own⟩
    · rw [Point.carried_entry (hstart i)] at hr
      cases hr
  have hend := hrun.asserts (aliasFree_stable own.id) hbegin
  obtain ⟨hid, hfree⟩ := hend.shared
  refine ⟨hid, hfree, fun i callee hcallee hown => ?_⟩
  have hthread : ∀ r, (q.thread i).carried = some r → r.NoAlias q.shared.node.getId := by
    rw [hid]
    exact hend.thread i
  apply Point.callee_noAlias hfree hthread hcallee
  rw [← LocalNode.idOf_eq, hown, hid]

end Runs

/-! ### Alice is told about herself -/

def aliceNotified : LocalNode := (LocalNode.init alice).notify (.remote 1 alice)

def aliceTold : LocalNode := aliceNotified.setSuccessor (some (.remote 2 alice))

theorem aliceTold_called : aliceNotified.Called aliceTold := by
  have hn : (Net.empty.set aliceNotified).node aliceNotified.getId = some aliceNotified :=
    Net.node_set_self rfl
  have hlen : alice.serialize.length ≤ 126 := by decide
  have hserved := handleRequest_createMessage hn 0 2 .setSuccessor hlen
  simp only [execute, nodeArgument_serialize 2 hlen, Option.map_some, Served.finish] at hserved
  exact .request hn hserved (Net.node_set_self rfl)

/-- Alice is new, and somebody notifies her of herself. -/
def newAlice : Pool Unit Host Point where
  shared := ⟨LocalNode.init alice, fun _ => true⟩
  thread := fun _ => .notify .handler (.remote 1 alice)

def toldAlice : Pool Unit Host Point where
  shared := ⟨aliceTold, fun _ => true⟩
  thread := Function.update newAlice.thread () .ended

theorem newAlice_run : Pool.Run Point.step Host.Called (fun _ _ => True) newAlice toldAlice := by
  have hsolo := Point.notify_solo newAlice.shared .handler (.remote 1 alice)
  have hnotify : Pool.Run Point.step Host.Called (fun _ _ => True) newAlice
      ⟨⟨aliceNotified, fun _ => true⟩, Function.update newAlice.thread () .ended⟩ :=
    hsolo.run (p := newAlice) (i := ()) rfl rfl fun _ => trivial
  exact hnotify.tail (Or.inr ⟨toldAlice.shared, Or.inr aliceTold_called, rfl⟩)

theorem aliasFree_alice : toldAlice.shared.node.getId = alice.id ∧
    toldAlice.shared.node.AliasFree ∧
      ∀ i callee, (toldAlice.thread i).callee toldAlice.shared.node = some callee →
        toldAlice.shared.node.idOf callee = alice.id → callee = .self :=
  aliasFree_always (p := newAlice) rfl (fun _ => trivial) newAlice_run

end ChordChat
