import ChordChat.Maintenance
import Mathlib.Data.List.Perm.Basic

/-!
# Chat messages on their way

`send` runs while all other threads go on: its lookup asks one node after the other, each
with the tables of that moment, and a handler of the recipient reads the message some time
after `send` has returned. The nodes may join, stabilize and fix their fingers meanwhile.
-/

namespace ChordChat
open Clockwise

/-- What `send` is called with, and by whom. -/
structure Letter where
  sender : ID
  id : ID
  message : Bytes

/-- Where `send` stands: in its lookup, which waits for node `peer` behind `depth` remote
calls, or with the lookup's result. -/
inductive SendTask where
  | idle
  | lookup (l : Letter) (depth : ℕ) (peer : ID)
  | found (l : Letter) (p : Node)

def SendTask.letters : SendTask → List Letter
  | .idle => []
  | .lookup l _ _ | .found l _ => [l]

/-- `mail` are the requests in flight, with the nodes they are for. The rest is history: the
calls of `send`, what they have returned, and the receive functions that were invoked. -/
structure Chat where
  sys : Sys
  task : ID → SendTask
  mail : List (ID × Bytes)
  typed : List Letter
  receipts : List (Letter × Bool)
  received : List (ID × Bytes)

namespace Chat

/-- `work` is the next part of the node's `send`, `serve` the handler of a request. -/
inductive Action where
  | net (a : Sys.Action)
  | listen (i : ID)
  | send (l : Letter)
  | work (i : ID)
  | serve (k : ℕ)

def setTask (s : Chat) (i : ID) (t : SendTask) : Chat :=
  { s with task := Function.update s.task i t }

def setNode (s : Chat) (n : LocalNode) : Chat := { s with sys := s.sys.setNode n }

/-- `main` constructs the `ChatClient` behind `join`. -/
def listen (s : Chat) (i : ID) : Option Chat :=
  match s.sys.net.node i with
  | none => none
  | some n => if i ∈ s.sys.joined then some (s.setNode n.setReceiveFunction) else none

def send (s : Chat) (l : Letter) : Option Chat :=
  match s.sys.net.node l.sender, s.task l.sender with
  | some n, .idle =>
    if l.sender ∈ s.sys.joined ∧ n.rcvFn = true then
      some { s.setTask l.sender (.lookup l 0 l.sender) with typed := s.typed ++ [l] }
    else none
  | _, _ => none

/-- The lookup at node `peer`. The sender has no further step if no record comes back. -/
def ask (object : ℕ) (s : Chat) (i : ID) (l : Letter) (depth : ℕ) (peer : ID) : Option Chat :=
  match s.sys.net.node peer with
  | none => none
  | some m =>
    match m.findSuccessorHop l.id, depth with
    | (.forward .self, m'), depth => some ((s.setNode m').setTask i (.lookup l depth peer))
    | (.forward (.remote _ r), m'), depth =>
      some ((s.setNode m').setTask i (.lookup l (depth + 1) r.id))
    | (.answer p, m'), 0 => some ((s.setNode m').setTask i (.found l p))
    | (.answer p, m'), depth + 1 =>
      match Net.relay wire (depth + 1) (p.info m.info) with
      | .ok (some r) => some ((s.setNode m').setTask i (.found l (.remote object r)))
      | _ => none

def deliver (s : Chat) (i : ID) (l : Letter) : Node → Option Chat
  | .self =>
    match s.sys.net.node i with
    | none => none
    | some n =>
      match n.receive l.message with
      | .error _ => none
      | .ok received => some { s with received := s.received ++ received.map fun m => (i, m) }
  | .remote _ r => some { s with mail := s.mail ++ [(r.id, createMessage .receive l.message)] }

/-- The rest of `send`. -/
def finish (s : Chat) (i : ID) (l : Letter) (p : Node) : Option Chat :=
  let b := decide (p.idAt i = l.id)
  let s := { s.setTask i .idle with receipts := s.receipts ++ [(l, b)] }
  if b then s.deliver i l p else some s

def work (object : ℕ) (s : Chat) (i : ID) : Option Chat :=
  match s.task i with
  | .idle => none
  | .lookup l depth peer => s.ask object i l depth peer
  | .found l p => s.finish i l p

def serve (fuel object : ℕ) (s : Chat) (k : ℕ) : Option Chat :=
  match s.mail[k]? with
  | none => none
  | some (i, stream) =>
    (handleRequest fuel object s.sys.net i stream).map fun served =>
      { s with
        sys := { s.sys with net := served.net }
        mail := s.mail.eraseIdx k
        received := s.received ++ served.received.map fun m => (i, m) }

def step (fuel object : ℕ) (s : Chat) : Action → Option Chat
  | .net a => (s.sys.step object a).map fun sys => { s with sys := sys }
  | .listen i => s.listen i
  | .send l => s.send l
  | .work i => s.work object i
  | .serve k => s.serve fuel object k

/-- A message to another node fits a frame, and no request is handled before the
`ChatClient` of the recipient exists. -/
def Allowed (s : Chat) : Action → Prop
  | .send l => l.id = l.sender ∨ l.message.length ≤ 126
  | .serve k => ∀ m, s.mail[k]? = some m → s.sys.net.listens m.1 = some true
  | .net _ | .listen _ | .work _ => True

def Step (among : Action → Prop) (s s' : Chat) : Prop :=
  ∃ fuel object a, among a ∧ s.Allowed a ∧ s.step fuel object a = some s'

def Run (among : Action → Prop) : Chat → Chat → Prop := Relation.ReflTransGen (Step among)

/-- Nobody has typed anything, and the records of the nodes fit a reply. -/
structure Init (root : ID) (s : Chat) : Prop where
  sys : s.sys.Init root
  fits : ∀ i n, s.sys.net.node i = some n → n.info.Fits
  task : ∀ i, s.task i = .idle
  mail : s.mail = []
  typed : s.typed = []
  receipts : s.receipts = []
  received : s.received = []

def Reachable (root : ID) (s : Chat) : Prop :=
  ∃ start, Init root start ∧ Run (fun _ => True) start s

/-- The letters that `send` has reported as delivered. -/
def accepted (s : Chat) : List Letter := (s.receipts.filter Prod.snd).map Prod.fst

def ofSender (i : ID) (ls : List Letter) : List Letter := ls.filter fun l => l.sender = i

end Chat

/-! ### The ring below -/

namespace LocalNode

theorem setReceiveFunction_of_rcvFn {n : LocalNode} (h : n.rcvFn = true) :
    n.setReceiveFunction = n := by
  rw [setReceiveFunction, ← h]

theorem setReceiveFunction_succId (n : LocalNode) : n.setReceiveFunction.succId = n.succId := by
  unfold succId getSuccessor setReceiveFunction
  cases n.finger.getNode 0 <;> rfl

theorem Genuine.setReceiveFunction {record : ID → Option INode} {n : LocalNode}
    (h : n.Genuine record) : n.setReceiveFunction.Genuine record := ⟨h.own, h.fingers, h.predecessor⟩

end LocalNode

theorem NodeOk.setReceiveFunction {root : ID} {J : Finset ID} {K : Set (ID × ID)} {i : ID}
    {n : LocalNode} {main : MainTask} {periodic : PeriodicTask}
    (h : NodeOk root J K i n main periodic) :
    NodeOk root J K i n.setReceiveFunction main periodic where
  fingers := h.fingers
  table := h.table
  predecessor := h.predecessor
  mainOk := h.mainOk
  apart := h.apart
  periodicOk := by
    rw [LocalNode.setReceiveFunction_succId]
    exact h.periodicOk

/-- What the chat relies on: the invariant of the ring, and records that are genuine and fit
a reply. -/
structure Sys.Carries (root : ID) (record : ID → Option INode) (s : Sys) : Prop where
  inv : ∃ K, s.Inv root K
  genuine : ∃ listens, s.Genuine record listens
  fits : ∀ i r, record i = some r → r.Fits

namespace Sys
variable {root : ID} {record : ID → Option INode} {s s' : Sys}

/-- A step below keeps who has joined and who listens. -/
structure Keeps (s s' : Sys) : Prop where
  joined : s.joined ⊆ s'.joined
  listens : ∀ i, s.net.listens i = some true → s'.net.listens i = some true

theorem Keeps.refl (s : Sys) : s.Keeps s := ⟨Finset.Subset.refl _, fun _ h => h⟩

theorem Carries.step (h : s.Carries root record) {object : ℕ} {a : Action}
    (hs : s.step object a = some s') : s'.Carries root record ∧ s.Keeps s' := by
  obtain ⟨K, hinv⟩ := h.inv
  obtain ⟨listens, hgen⟩ := h.genuine
  have hgen' := hgen.step hinv hs
  have hinv' : ∃ K', s'.Inv root K' := by
    rcases hinv.step hs with hrest | ⟨_, K', hinv', _⟩
    · exact ⟨K, hrest.inv⟩
    · exact ⟨K', hinv'⟩
  refine ⟨⟨hinv', ⟨listens, hgen'⟩, h.fits⟩, (hinv.step_card hs).1, fun i hi => ?_⟩
  rw [hgen'.keptRcvFn, ← hgen.keptRcvFn, hi]

theorem Carries.hop (h : s.Carries root record) {c : ID} {m : LocalNode}
    (hm : s.net.node c = some m) (id : ID) :
    (s.setNode (m.findSuccessorHop id).2).Carries root record ∧
      s.Keeps (s.setNode (m.findSuccessorHop id).2) ∧
      (s.Ideal → (s.setNode (m.findSuccessorHop id).2).Ideal) := by
  obtain ⟨K, hinv⟩ := h.inv
  obtain ⟨listens, hgen⟩ := h.genuine
  have hrest := hinv.hop hm id
  have hgen' := hgen.setNode hm ((hgen.nodes c m hm).hop id).2 (m.hop_info id) (m.hop_rcvFn id)
  refine ⟨⟨⟨K, hrest.inv⟩, ⟨listens, hgen'⟩, h.fits⟩, ⟨Finset.Subset.refl _, fun i hi => ?_⟩,
    hrest.ideal⟩
  rw [hgen'.keptRcvFn, ← hgen.keptRcvFn, hi]

theorem listens_setReceiveFunction {i : ID} {n : LocalNode} (hn : s.net.node i = some n) (j : ID) :
    (s.setNode n.setReceiveFunction).net.listens j =
      if j = i then some true else s.net.listens j := by
  have hid : n.setReceiveFunction.getId = i := s.net.id_eq i n hn
  rw [Net.listens, Sys.setNode, Net.node_set, hid]
  split
  next => rfl
  next => rfl

theorem Carries.listen (h : s.Carries root record) {i : ID} {n : LocalNode}
    (hn : s.net.node i = some n) :
    (s.setNode n.setReceiveFunction).Carries root record ∧
      s.Keeps (s.setNode n.setReceiveFunction) ∧
      (s.Ideal → (s.setNode n.setReceiveFunction).Ideal) := by
  obtain ⟨K, hinv⟩ := h.inv
  obtain ⟨listens, hgen⟩ := h.genuine
  have hid : n.setReceiveFunction.getId = i := s.net.id_eq i n hn
  have hrest : s.Rests root K (s.setNode n.setReceiveFunction) :=
    hinv.setNode hn hid n.setReceiveFunction_succId (hinv.nodes i n hn).setReceiveFunction
      fun _ _ => rfl
  refine ⟨⟨⟨K, hrest.inv⟩, ⟨_, ⟨?_, rfl, ?_, hgen.found, hgen.read, hgen.slot, hgen.notifies⟩⟩,
    h.fits⟩, ⟨Finset.Subset.refl _, fun j hj => ?_⟩, hrest.ideal⟩
  · rw [← hgen.kept]
    funext j
    rw [Net.record, Sys.setNode, Net.node_set, hid, Net.record]
    split
    next hj => rw [hj, hn, Option.map_some, Option.map_some]; rfl
    next => rfl
  · intro j m hm
    by_cases hj : j = i
    · subst hj
      rw [Net.eq_of_node_set hid hm]
      exact (hgen.nodes j n hn).setReceiveFunction
    · exact hgen.nodes j m ((Net.node_set_of_ne (hid ▸ hj)).symm.trans hm)
  · rw [listens_setReceiveFunction hn, hj, ite_self]

end Sys

namespace Chat
variable {root : ID} {record : ID → Option INode} {s s' : Chat}

/-! ### What the steps are -/

theorem listen_cases {i : ID} (hs : s.listen i = some s') :
    ∃ n, s.sys.net.node i = some n ∧ s' = s.setNode n.setReceiveFunction := by
  unfold listen at hs
  split at hs
  · cases hs
  next n hn =>
    split at hs
    · exact ⟨n, hn, (Option.some.inj hs).symm⟩
    · cases hs

theorem send_cases {l : Letter} (hs : s.send l = some s') :
    s.task l.sender = .idle ∧ l.sender ∈ s.sys.joined ∧
      s.sys.net.listens l.sender = some true ∧
      s' = { s.setTask l.sender (.lookup l 0 l.sender) with typed := s.typed ++ [l] } := by
  unfold send at hs
  split at hs
  next n hn ht =>
    split at hs
    next hready =>
      refine ⟨ht, hready.1, ?_, (Option.some.inj hs).symm⟩
      rw [Net.listens, hn, Option.map_some, hready.2]
    next => cases hs
  next => cases hs

theorem serve_cases {fuel object k : ℕ} (hs : s.serve fuel object k = some s') :
    ∃ (m : ID × Bytes) (served : Served), s.mail[k]? = some m ∧
      s' = { s with
        sys := { s.sys with net := served.net }
        mail := s.mail.eraseIdx k
        received := s.received ++ served.received.map fun b => (m.1, b) } := by
  unfold serve at hs
  split at hs
  · cases hs
  next i stream hk =>
    obtain ⟨served, _, rfl⟩ := Option.map_eq_some_iff.mp hs
    exact ⟨(i, stream), served, hk, rfl⟩

/-! ### Parts of a `send` -/

/-- Node `i` sends `l`, to itself or in a frame. -/
structure Sends (sys : Sys) (i : ID) (l : Letter) : Prop where
  sender : l.sender = i
  frame : l.id = i ∨ l.message.length ≤ 126
  listens : sys.net.listens i = some true

def TaskOk (sys : Sys) (i : ID) : SendTask → Prop
  | .idle => True
  | .lookup l depth peer =>
    Sends sys i l ∧ peer ∈ sys.joined ∧ (depth = 0 → peer = i) ∧ (l.id = i → depth = 0)
  | .found l p => Sends sys i l ∧ p.idAt i ∈ sys.joined ∧ (l.id = i → p = .self)

theorem Sends.mono {sys sys' : Sys} {i : ID} {l : Letter} (h : Sends sys i l)
    (hk : sys.Keeps sys') : Sends sys' i l := ⟨h.sender, h.frame, hk.listens i h.listens⟩

theorem TaskOk.mono {sys sys' : Sys} {i : ID} {t : SendTask} (h : TaskOk sys i t)
    (hk : sys.Keeps sys') : TaskOk sys' i t := by
  cases t with
  | idle => trivial
  | lookup l depth peer => exact ⟨h.1.mono hk, hk.joined h.2.1, h.2.2⟩
  | found l p => exact ⟨h.1.mono hk, hk.joined h.2.1, h.2.2⟩

/-- How a lookup goes on from node `peer`: at a node further on, or with its result. -/
inductive Asked (sys : Sys) (i : ID) (l : Letter) (peer : ID) : SendTask → Prop
  | forward {depth : ℕ} {next : ID} (hnext : sbtw peer next l.id) :
      Asked sys i l peer (.lookup l depth next)
  | answer {p : Node} (hfirst : sys.Ideal → FirstFrom sys.joined l.id (p.idAt i)) :
      Asked sys i l peer (.found l p)

theorem ask_spec (h : s.sys.Carries root record) {i peer : ID} {l : Letter} {depth : ℕ}
    (hok : TaskOk s.sys i (.lookup l depth peer)) (object : ℕ) :
    ∃ m t, s.sys.net.node peer = some m ∧
      s.ask object i l depth peer = some ((s.setNode (m.findSuccessorHop l.id).2).setTask i t) ∧
      TaskOk s.sys i t ∧ Asked s.sys i l peer t := by
  obtain ⟨hsends, hpeer, hfirst, hself⟩ := hok
  obtain ⟨K, hinv⟩ := h.inv
  obtain ⟨listens, hgen⟩ := h.genuine
  obtain ⟨m, hm⟩ := hinv.alive peer hpeer
  have hid := s.sys.net.id_eq peer m hm
  have hknow := ((hinv.nodes peer m hm).hop l.id).2.2
  have hrecord := (hgen.nodes peer m hm).info ((hgen.nodes peer m hm).hop l.id).1
  -- a letter to the sender itself is answered at once
  have hown : l.id = i → m.findSuccessorHop l.id = (.answer .self, m) := by
    intro he
    have heq : m.getId = l.id := by rw [hid, hfirst (hself he), he]
    simp only [LocalNode.findSuccessorHop, heq, if_true]
  cases hh : m.findSuccessorHop l.id with
  | mk hop m' =>
    rw [hh] at hknow hrecord hown
    cases hop with
    | forward p =>
      obtain ⟨hgo, rfl⟩ := LocalNode.hop_eq_forward hh
      have hnext := (LocalNode.hop_forward hgo).2
      rw [hid] at hnext
      have hnot : l.id ≠ i := fun he => by
        have hans := hown he
        cases hans
      cases hp : m.closestPrecedingFinger l.id with
      | self =>
        rw [hp, LocalNode.idOf_self, hid] at hnext
        exact absurd hnext sbtw_irrefl_left
      | remote o r =>
        rw [hp] at hnext hknow
        have hmem : r.id ∈ s.sys.joined := by
          rcases hknow with he | ⟨_, hmem, _⟩
          · cases he
          · exact hmem
        refine ⟨m, .lookup l (depth + 1) r.id, hm, ?_,
          ⟨hsends, hmem, fun he => absurd he (Nat.succ_ne_zero _), fun he => absurd he hnot⟩,
          .forward hnext⟩
        simp only [ask, hm, hh, hp]
    | answer p =>
      obtain ⟨hstop, hans⟩ := LocalNode.hop_eq_answer hh
      have hmem : p.idAt peer ∈ s.sys.joined := by
        rcases hknow with he | ⟨_, hmem, _⟩
        · rw [show p = .self from he]
          exact hpeer
        · exact hmem
      have hinfo : (p.info m.info).id = p.idAt peer := by
        rw [← LocalNode.idOf, Net.idOf_at hm]
      have hideal : s.sys.Ideal → FirstFrom s.sys.joined l.id (p.idAt peer) := by
        intro hring
        rw [← hinfo, hans]
        exact (Sys.answers hm hpeer hstop).2 hring
      cases depth with
      | zero =>
        obtain rfl := hfirst rfl
        refine ⟨m, .found l p, hm, ?_, ⟨hsends, hmem, fun he => ?_⟩, .answer hideal⟩
        · simp only [ask, hm, hh]
        · exact LocalNode.Hop.answer.inj (congrArg Prod.fst (hown he))
      | succ depth =>
        refine ⟨m, .found l (.remote object (p.info m.info)), hm, ?_,
          ⟨hsends, ?_, fun he => absurd (hself he) (Nat.succ_ne_zero _)⟩, .answer fun hring => ?_⟩
        · have hfits : (p.info m.info).Fits := h.fits _ _ hrecord
          simp only [ask, hm, hh, Net.relay_of_fixed (wire_of_fits hfits)]
        · rwa [Node.idAt, hinfo]
        · rw [Node.idAt, hinfo]
          exact hideal hring

/-- What the recipient gets. -/
def content (l : Letter) : ID × Bytes := (l.id, l.message)

/-- What travels. -/
def request (l : Letter) : ID × Bytes := (l.id, createMessage .receive l.message)

def receipt (i : ID) (l : Letter) (p : Node) : Letter × Bool := (l, decide (p.idAt i = l.id))

/-- `finish` reports what it does with the letter. -/
inductive Finished (s : Chat) (i : ID) (l : Letter) (p : Node) : Chat → Prop
  | missed (hne : p.idAt i ≠ l.id) :
      Finished s i l p { s.setTask i .idle with receipts := s.receipts ++ [receipt i l p] }
  | kept (he : p.idAt i = l.id) :
      Finished s i l p
        { s.setTask i .idle with
          receipts := s.receipts ++ [receipt i l p], received := s.received ++ [content l] }
  | posted (he : p.idAt i = l.id) (hlen : l.message.length ≤ 126) :
      Finished s i l p
        { s.setTask i .idle with
          receipts := s.receipts ++ [receipt i l p], mail := s.mail ++ [request l] }

theorem finish_spec {i : ID} {l : Letter} {p : Node} (hok : TaskOk s.sys i (.found l p)) :
    ∃ s', s.finish i l p = some s' ∧ Finished s i l p s' := by
  obtain ⟨hsends, _, hself⟩ := hok
  by_cases he : p.idAt i = l.id
  · cases p with
    | self =>
      obtain rfl : i = l.id := he
      obtain ⟨n, hn, hrcv⟩ := Option.map_eq_some_iff.mp hsends.listens
      refine ⟨_, ?_, .kept rfl⟩
      simp only [finish, deliver, setTask, hn, LocalNode.receive, hrcv, Node.idAt, decide_true,
        if_true, List.map_cons, List.map_nil, receipt, content]
    | remote o r =>
      have hid : r.id = l.id := he
      have hlen : l.message.length ≤ 126 := hsends.frame.resolve_left fun hi =>
        Node.noConfusion (hself hi)
      refine ⟨_, ?_, .posted he hlen⟩
      simp only [finish, deliver, setTask, he, decide_true, if_true, receipt, request, hid]
  · refine ⟨_, ?_, .missed he⟩
    simp only [finish, setTask, he, decide_false, Bool.false_eq_true, if_false, receipt]

theorem serve_spec {k : ℕ} {l : Letter} (hk : s.mail[k]? = some (request l))
    (hlen : l.message.length ≤ 126) (hlistens : s.sys.net.listens l.id = some true)
    (fuel object : ℕ) :
    s.serve fuel object k =
      some { s with mail := s.mail.eraseIdx k, received := s.received ++ [content l] } := by
  obtain ⟨n, hn, hrcv⟩ := Option.map_eq_some_iff.mp hlistens
  simp only [serve, hk, request, handleRequest_createMessage hn fuel object .receive hlen, execute,
    LocalNode.receive, hrcv, if_true, Nat.add_sub_cancel, List.take_left, Option.map_some,
    Served.finish, List.map_cons, List.map_nil, content]

/-! ### The invariant -/

/-- `posted` are the letters whose requests are in flight. -/
structure Accounts (s : Chat) (posted : List Letter) : Prop where
  mail : s.mail = posted.map request
  frame : ∀ l ∈ posted, l.message.length ≤ 126
  once : (s.accepted.map content).Perm (s.received ++ posted.map content)

structure Inv (root : ID) (record : ID → Option INode) (s : Chat) : Prop where
  carries : s.sys.Carries root record
  tasks : ∀ i, TaskOk s.sys i (s.task i)
  order : ∀ i, ofSender i s.typed =
    ofSender i (s.receipts.map Prod.fst) ++ (s.task i).letters
  accounts : ∃ posted, s.Accounts posted
  joined : ∀ r ∈ s.receipts, r.2 = true → r.1.id ∈ s.sys.joined

theorem ofSender_append (i : ID) (l r : List Letter) :
    ofSender i (l ++ r) = ofSender i l ++ ofSender i r := List.filter_append l r

theorem ofSender_singleton (i : ID) (l : Letter) :
    ofSender i [l] = if i = l.sender then [l] else [] := by
  by_cases h : i = l.sender
  · simp [ofSender, h]
  · simp [ofSender, h, Ne.symm h]

theorem letters_update (task : ID → SendTask) (i j : ID) (t : SendTask) :
    (Function.update task i t j).letters = if j = i then t.letters else (task j).letters := by
  rw [Function.update_apply]
  split
  next => rfl
  next => rfl

/-- A client whose receive function is set. -/
theorem listen_again {i : ID} (hi : i ∈ s.sys.joined) (h : s.sys.net.listens i = some true) :
    s.listen i = some s := by
  obtain ⟨n, hn, hrcv⟩ := Option.map_eq_some_iff.mp h
  rw [listen, hn]
  simp only [if_pos hi, LocalNode.setReceiveFunction_of_rcvFn hrcv, setNode, Sys.setNode_node hn]

theorem Init.inv (h : Init root s) : s.Inv root s.sys.net.record where
  carries := by
    refine ⟨⟨_, h.sys.inv⟩, ⟨_, h.sys.genuine⟩, fun i r hr => ?_⟩
    obtain ⟨n, hn, rfl⟩ := Option.map_eq_some_iff.mp hr
    exact h.fits i n hn
  tasks i := by
    rw [h.task]
    trivial
  order i := by
    rw [h.typed, h.receipts, h.task]
    rfl
  accounts := by
    refine ⟨[], h.mail, fun l hl => (by cases hl), ?_⟩
    rw [accepted, h.receipts, h.received]
    exact .refl _
  joined r hr := by
    rw [h.receipts] at hr
    cases hr

theorem Inv.withSys (h : s.Inv root record) {sys : Sys} (hc : sys.Carries root record)
    (hk : s.sys.Keeps sys) : Inv root record { s with sys := sys } where
  carries := hc
  tasks i := (h.tasks i).mono hk
  order := h.order
  accounts := by
    obtain ⟨posted, hmail, hframe, honce⟩ := h.accounts
    exact ⟨posted, hmail, hframe, honce⟩
  joined r hr hb := hk.joined (h.joined r hr hb)

theorem Inv.setTask (h : s.Inv root record) {i : ID} {t : SendTask} (ht : TaskOk s.sys i t)
    (hl : t.letters = (s.task i).letters) : (s.setTask i t).Inv root record where
  carries := h.carries
  tasks j := by
    by_cases hj : j = i
    · subst hj
      simp only [Chat.setTask, Function.update_self]
      exact ht
    · simp only [Chat.setTask, Function.update_of_ne hj]
      exact h.tasks j
  order j := by
    rw [Chat.setTask, letters_update, hl]
    split
    next hj => rw [h.order j, hj]
    next => exact h.order j
  accounts := by
    obtain ⟨posted, hmail, hframe, honce⟩ := h.accounts
    exact ⟨posted, hmail, hframe, honce⟩
  joined := h.joined

theorem Inv.listen (h : s.Inv root record) {i : ID} (hs : s.listen i = some s') :
    s'.Inv root record := by
  obtain ⟨n, hn, rfl⟩ := listen_cases hs
  obtain ⟨hc, hk, _⟩ := h.carries.listen hn
  exact h.withSys hc hk

theorem Inv.send (h : s.Inv root record) {l : Letter}
    (hlen : l.id = l.sender ∨ l.message.length ≤ 126) (hs : s.send l = some s') :
    s'.Inv root record := by
  obtain ⟨ht, hmem, hlistens, rfl⟩ := send_cases hs
  refine ⟨h.carries, fun j => ?_, fun j => ?_, ?_, h.joined⟩
  · by_cases hj : j = l.sender
    · subst hj
      simp only [Chat.setTask, Function.update_self]
      exact ⟨⟨rfl, hlen, hlistens⟩, hmem, fun _ => rfl, fun _ => rfl⟩
    · simp only [Chat.setTask, Function.update_of_ne hj]
      exact h.tasks j
  · have horder := h.order j
    simp only [Chat.setTask, letters_update, ofSender_append, ofSender_singleton]
    split
    next hj =>
      subst hj
      rw [horder, ht, SendTask.letters, SendTask.letters, List.append_nil]
    next => rw [horder, List.append_nil]
  · obtain ⟨posted, hmail, hframe, honce⟩ := h.accounts
    exact ⟨posted, hmail, hframe, honce⟩

theorem Inv.ask (h : s.Inv root record) {object : ℕ} {i peer : ID} {l : Letter} {depth : ℕ}
    (ht : s.task i = .lookup l depth peer) (hs : s.ask object i l depth peer = some s') :
    s'.Inv root record := by
  have hok := h.tasks i
  rw [ht] at hok
  obtain ⟨m, t, hm, hask, htask, hasked⟩ := ask_spec h.carries hok object
  rw [hask] at hs
  obtain rfl := Option.some.inj hs
  obtain ⟨hc, hk, _⟩ := h.carries.hop hm l.id
  refine (h.withSys hc hk).setTask (htask.mono hk) ?_
  rw [show (s.task i).letters = [l] by rw [ht]; rfl]
  cases hasked with
  | forward => rfl
  | answer => rfl

theorem accepted_append (rs : List (Letter × Bool)) (i : ID) (l : Letter) (p : Node) :
    ((rs ++ [receipt i l p]).filter Prod.snd).map Prod.fst =
      (rs.filter Prod.snd).map Prod.fst ++ if p.idAt i = l.id then [l] else [] := by
  by_cases he : p.idAt i = l.id
  · simp [receipt, he]
  · simp [receipt, he]

theorem Inv.finish (h : s.Inv root record) {i : ID} {l : Letter} {p : Node}
    (ht : s.task i = .found l p) (hs : s.finish i l p = some s') : s'.Inv root record := by
  have hok := h.tasks i
  rw [ht] at hok
  obtain ⟨u, hfinish, hcase⟩ := finish_spec hok
  rw [hfinish] at hs
  obtain rfl := Option.some.inj hs
  obtain ⟨posted, hmail, hframe, honce⟩ := h.accounts
  have hsys : u.sys = s.sys ∧ u.task = Function.update s.task i .idle ∧ u.typed = s.typed ∧
      u.receipts = s.receipts ++ [receipt i l p] := by
    cases hcase <;> exact ⟨rfl, rfl, rfl, rfl⟩
  obtain ⟨hsys, htask, htyped, hreceipts⟩ := hsys
  refine ⟨hsys ▸ h.carries, fun j => ?_, fun j => ?_, ?_, fun r hr hb => ?_⟩
  · rw [hsys, htask, Function.update_apply]
    split
    next => trivial
    next => exact h.tasks j
  · rw [htyped, hreceipts, htask, letters_update, List.map_append, List.map_singleton,
      ofSender_append, receipt, ofSender_singleton, hok.1.sender, h.order j]
    split
    next hj =>
      rw [hj, ht, SendTask.letters, SendTask.letters, List.append_nil]
    next => rw [List.append_nil]
  · have hacc := accepted_append s.receipts i l p
    rw [← hreceipts, ← accepted, ← accepted] at hacc
    cases hcase with
    | missed hne =>
      refine ⟨posted, hmail, hframe, ?_⟩
      rw [hacc, if_neg hne, List.append_nil]
      exact honce
    | kept he =>
      refine ⟨posted, hmail, hframe, ?_⟩
      rw [hacc, if_pos he, List.map_append, List.map_singleton, List.append_assoc]
      refine (honce.append_right [content l]).trans ?_
      rw [List.append_assoc]
      exact List.perm_append_comm.append_left s.received
    | posted he hlen =>
      refine ⟨posted ++ [l], ?_, fun m hm => ?_, ?_⟩
      · simp only [hmail, List.map_append, List.map_singleton]
      · rcases List.mem_append.mp hm with hm | hm
        · exact hframe m hm
        · rw [List.mem_singleton.mp hm]
          exact hlen
      · rw [hacc, if_pos he, List.map_append, List.map_append, List.map_singleton,
          ← List.append_assoc]
        exact honce.append_right [content l]
  · rw [hreceipts, List.mem_append, List.mem_singleton] at hr
    rw [hsys]
    rcases hr with hr | rfl
    · exact h.joined r hr hb
    · have he : p.idAt i = l.id := of_decide_eq_true hb
      rw [receipt, ← he]
      exact hok.2.1

theorem Accounts.letter {posted : List Letter} (h : s.Accounts posted) {k : ℕ} {m : ID × Bytes}
    (hk : s.mail[k]? = some m) : ∃ l, posted[k]? = some l ∧ m = request l := by
  rw [h.mail, List.getElem?_map] at hk
  obtain ⟨l, hl, rfl⟩ := Option.map_eq_some_iff.mp hk
  exact ⟨l, hl, rfl⟩

/-- The handler of a request in flight hands the letter to the recipient's receive function. -/
theorem Accounts.serve {posted : List Letter} (h : s.Accounts posted) {k : ℕ} {m : ID × Bytes}
    (hk : s.mail[k]? = some m) (hlistens : s.sys.net.listens m.1 = some true) (fuel object : ℕ) :
    ∃ l, posted[k]? = some l ∧ s.serve fuel object k =
      some { s with mail := s.mail.eraseIdx k, received := s.received ++ [content l] } := by
  obtain ⟨l, hl, rfl⟩ := h.letter hk
  exact ⟨l, hl, serve_spec hk (h.frame l (List.mem_of_getElem? hl)) hlistens fuel object⟩

theorem Inv.serve (h : s.Inv root record) {fuel object k : ℕ}
    (ha : s.Allowed (.serve k)) (hs : s.serve fuel object k = some s') : s'.Inv root record := by
  obtain ⟨posted, hacc⟩ := h.accounts
  obtain ⟨m, _, hk, _⟩ := serve_cases hs
  obtain ⟨l, hl, hserve⟩ := hacc.serve hk (ha m hk) fuel object
  rw [hserve] at hs
  obtain rfl := Option.some.inj hs
  refine ⟨h.carries, h.tasks, h.order, ⟨posted.eraseIdx k, ?_, fun m hm => ?_, ?_⟩, h.joined⟩
  · rw [hacc.mail, List.eraseIdx_map]
  · exact hacc.frame m (List.mem_of_mem_eraseIdx hm)
  · obtain ⟨hlt, hget⟩ := List.getElem?_eq_some_iff.mp hl
    have hperm := (List.getElem_cons_eraseIdx_perm hlt).symm.map content
    rw [hget, List.map_cons] at hperm
    rw [List.append_assoc]
    exact hacc.once.trans (hperm.append_left s.received)

theorem Inv.step (h : s.Inv root record) {fuel object : ℕ} {a : Action} (ha : s.Allowed a)
    (hs : s.step fuel object a = some s') : s'.Inv root record := by
  cases a with
  | net a =>
    obtain ⟨sys, hsys, rfl⟩ := Option.map_eq_some_iff.mp hs
    obtain ⟨hc, hk⟩ := h.carries.step hsys
    exact h.withSys hc hk
  | listen i => exact h.listen hs
  | send l => exact h.send ha hs
  | work i =>
    rw [Chat.step, work] at hs
    cases ht : s.task i with
    | idle =>
      rw [ht] at hs
      cases hs
    | lookup l depth peer =>
      rw [ht] at hs
      exact h.ask ht hs
    | found l p =>
      rw [ht] at hs
      exact h.finish ht hs
  | serve k => exact h.serve ha hs

theorem Inv.run (h : s.Inv root record) {among : Action → Prop} (hr : Run among s s') :
    s'.Inv root record := by
  induction hr with
  | refl => exact h
  | tail _ hs ih =>
    obtain ⟨_, _, _, _, ha, hs⟩ := hs
    exact ih.step ha hs

theorem Reachable.inv (h : Reachable root s) : ∃ record, s.Inv root record := by
  obtain ⟨start, hstart, hrun⟩ := h
  exact ⟨_, hstart.inv.run hrun⟩

theorem Inv.accepted_joined (h : s.Inv root record) {l : Letter} (hl : l ∈ s.accepted) :
    l.id ∈ s.sys.joined := by
  obtain ⟨r, hr, rfl⟩ := List.mem_map.mp hl
  obtain ⟨hmem, hb⟩ := List.mem_filter.mp hr
  exact h.joined r hmem hb

theorem Run.below {among : Sys.Action → Prop} {sys sys' : Sys} (hr : Sys.Run among sys sys')
    (c : Chat) {above : Action → Prop} (ha : ∀ a, among a → above (.net a)) :
    Run above { c with sys := sys } { c with sys := sys' } := by
  induction hr with
  | refl => exact .refl
  | @tail b d _ hs ih =>
    obtain ⟨object, a, hall, hs⟩ := hs
    refine ih.tail ⟨0, object, .net a, ha a hall, trivial, ?_⟩
    simp only [Chat.step, hs, Option.map_some]

/-- No call of `send` is stuck, and no request whose recipient listens. -/
theorem never_stuck (h : Reachable root s) (fuel object : ℕ) :
    (∀ i, s.task i ≠ .idle → ∃ s', s.step fuel object (.work i) = some s') ∧
    ∀ k, k < s.mail.length → s.Allowed (.serve k) → ∃ s', s.step fuel object (.serve k) = some s' := by
  obtain ⟨record, hinv⟩ := h.inv
  constructor
  · intro i hne
    have hok := hinv.tasks i
    rw [Chat.step, work]
    cases ht : s.task i with
    | idle => exact absurd ht hne
    | lookup l depth peer =>
      rw [ht] at hok
      obtain ⟨m, t, _, hask, _⟩ := ask_spec hinv.carries hok object
      exact ⟨_, hask⟩
    | found l p =>
      rw [ht] at hok
      obtain ⟨s', hfinish, _⟩ := finish_spec hok
      exact ⟨s', hfinish⟩
  · intro k hk ha
    obtain ⟨posted, hacc⟩ := hinv.accounts
    have hm := List.getElem?_eq_getElem hk
    obtain ⟨l, _, hserve⟩ := hacc.serve hm (ha _ hm) fuel object
    exact ⟨_, hserve⟩

/-! ### Bob greets Alice -/

/-- Nobody has typed anything. -/
def quiet (sys : Sys) : Chat := ⟨sys, fun _ => .idle, [], [], [], []⟩

end Chat

end ChordChat
