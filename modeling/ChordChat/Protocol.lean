import ChordChat.Stabilize
import Mathlib.Logic.Relation

/-!
# Runs of the network without failures

Every node has two threads of its own: `main`, which joins, and `periodic`, which
stabilizes, fixes fingers and checks the predecessor; the server thread delivers
notifies. A step is the work of one thread between two remote calls, so calls of
different nodes interleave there, and a lookup visits each node in a step of its
own.
-/

namespace ChordChat

/-- Where `join` stands: at the lookup, which waits for node `peer`, or behind it. -/
inductive MainTask where
  | idle
  | lookup (peer : ID)
  | found (r : INode)

/-- Where the periodic thread stands: in `stabilize` (`read` with the successor's
predecessor, `notifying` behind the exchange), in `fixFingers` with slot `k`
(waiting for node `peer`, or with the node found), or between the calls. -/
inductive PeriodicTask where
  | idle
  | read (x : Option Node)
  | notifying
  | lookup (k : Fin M) (peer : ID)
  | found (k : Fin M) (p : Node)

def PeriodicTask.stabilizing : PeriodicTask → Bool
  | .read _ | .notifying => true
  | .idle | .lookup _ _ | .found _ _ => false

/-- `joined` are the nodes that have returned from `join`, and the first node;
`notifies` are the messages in flight, with the node they are for. -/
structure Sys where
  net : Net
  joined : Finset ID
  main : ID → MainTask
  periodic : ID → PeriodicTask
  notifies : List (ID × INode)

namespace Sys

def succ (s : Sys) : ID → ID := s.net.succ

def pred (s : Sys) : ID → Option ID := s.net.pred

def setNode (s : Sys) (n : LocalNode) : Sys := { s with net := s.net.set n }

def setMain (s : Sys) (i : ID) (t : MainTask) : Sys :=
  { s with main := Function.update s.main i t }

def setPeriodic (s : Sys) (i : ID) (t : PeriodicTask) : Sys :=
  { s with periodic := Function.update s.periodic i t }

inductive Action where
  | joinStart (i peer : ID)
  | joinHop (i : ID)
  | joinDone (i : ID)
  | stabilizeRead (i : ID)
  | stabilizeSet (i : ID)
  | stabilizeNotify (i : ID)
  | deliver (k : ℕ)
  | fixStart (i : ID) (rand : ℕ)
  | fixHop (i : ID)
  | fixDone (i : ID)
  | checkPredecessor (i : ID)

def Action.Maintains (a : Action) : Prop := ∀ i, a ≠ .joinDone i

/-- `join(n)` of node `i` starts: `i` has not joined before, `n` is in the
network and `i` is not in its own `stabilize`. -/
def joinStart (s : Sys) (i peer : ID) : Option Sys :=
  match s.net.node i, s.main i with
  | some n, .idle =>
    if i ∉ s.joined ∧ peer ∈ s.joined ∧ (s.periodic i).stabilizing = false then
      some ((s.setNode (n.setPredecessor none)).setMain i (.lookup peer))
    else none
  | _, _ => none

def joinHop (s : Sys) (i : ID) : Option Sys :=
  match s.net.node i, s.main i with
  | some _, .lookup peer =>
    match s.net.node peer with
    | none => none
    | some m =>
      match m.findSuccessorHop i with
      | (.answer p, m') => some ((s.setNode m').setMain i (.found (p.info m.info)))
      | (.forward p, m') => some ((s.setNode m').setMain i (.lookup (p.idAt peer)))
  | _, _ => none

def joinDone (object : ℕ) (s : Sys) (i : ID) : Option Sys :=
  match s.net.node i, s.main i with
  | some n, .found r =>
    let s := (s.setMain i .idle).setNode (n.setSuccessor (some (.remote object r)))
    some { s with joined := insert i s.joined }
  | _, _ => none

def stabilizeRead (object : ℕ) (s : Sys) (i : ID) : Option Sys :=
  match s.net.node i, s.main i, s.periodic i with
  | some n, .idle, .idle =>
    (s.net.stabilizeRead object n).map fun (x, net) =>
      { s with net := net }.setPeriodic i (.read x)
  | _, _, _ => none

def stabilizeSet (s : Sys) (i : ID) : Option Sys :=
  match s.net.node i, s.periodic i with
  | some n, .read x => some ((s.setPeriodic i .notifying).setNode (n.stabilizeSet x))
  | _, _ => none

def stabilizeNotify (s : Sys) (i : ID) : Option Sys :=
  match s.net.node i, s.periodic i with
  | some n, .notifying =>
    let out := s.net.stabilizeNotify n
    some { s.setPeriodic i .idle with net := out.1, notifies := out.2.toList ++ s.notifies }
  | _, _ => none

def deliver (object : ℕ) (s : Sys) (k : ℕ) : Option Sys :=
  match s.notifies[k]? with
  | none => none
  | some m =>
    some { s with net := s.net.deliverNotify object m, notifies := s.notifies.eraseIdx k }

def fixStart (s : Sys) (i : ID) (rand : ℕ) : Option Sys :=
  match s.net.node i, s.periodic i with
  | some _, .idle => some (s.setPeriodic i (.lookup (LocalNode.fingerIndex rand) i))
  | _, _ => none

def fixHop (object : ℕ) (s : Sys) (i : ID) : Option Sys :=
  match s.net.node i, s.periodic i with
  | some _, .lookup k peer =>
    match s.net.node peer with
    | none => none
    | some m =>
      match m.findSuccessorHop (FingerTable.start i k) with
      | (.answer p, m') =>
        -- the node's own answer is a pointer of its own, any other a new object
        let p := if peer = i then p else .remote object (p.info m.info)
        some ((s.setNode m').setPeriodic i (.found k p))
      | (.forward p, m') => some ((s.setNode m').setPeriodic i (.lookup k (p.idAt peer)))
  | _, _ => none

def fixDone (s : Sys) (i : ID) : Option Sys :=
  match s.net.node i, s.periodic i with
  | some n, .found k p => some ((s.setPeriodic i .idle).setNode (n.setFinger k (some p)))
  | _, _ => none

def checkPredecessor (s : Sys) (i : ID) : Option Sys :=
  match s.net.node i, s.periodic i with
  | some n, .idle => some (s.setNode (n.checkPredecessor s.net.ping))
  | _, _ => none

/-- One step; `object` is the address of an object that the step creates. -/
def step (object : ℕ) (s : Sys) : Action → Option Sys
  | .joinStart i peer => s.joinStart i peer
  | .joinHop i => s.joinHop i
  | .joinDone i => s.joinDone object i
  | .stabilizeRead i => s.stabilizeRead object i
  | .stabilizeSet i => s.stabilizeSet i
  | .stabilizeNotify i => s.stabilizeNotify i
  | .deliver k => s.deliver object k
  | .fixStart i rand => s.fixStart i rand
  | .fixHop i => s.fixHop object i
  | .fixDone i => s.fixDone i
  | .checkPredecessor i => s.checkPredecessor i

def Step (allowed : Action → Prop) (s s' : Sys) : Prop :=
  ∃ object a, allowed a ∧ s.step object a = some s'

def Run (allowed : Action → Prop) : Sys → Sys → Prop := Relation.ReflTransGen (Step allowed)

theorem Run.mono {allowed allowed' : Action → Prop} {s s' : Sys} (h : Run allowed s s')
    (ha : ∀ a, allowed a → allowed' a) : Run allowed' s s' := by
  have hstep : Step allowed ≤ Step allowed' :=
    fun _ _ ⟨object, a, hall, hs⟩ => ⟨object, a, ha a hall, hs⟩
  exact Relation.ReflTransGen.mono hstep s s' h

/-- No node knows another one, and one of them is the network. -/
structure Init (root : ID) (s : Sys) : Prop where
  fingers : ∀ i n k p, s.net.node i = some n → n.finger.entries k = some p → p = .self
  predecessor : ∀ i n p, s.net.node i = some n → n.predecessor = some p → p = .self
  started : ∃ n, s.net.node root = some n
  joined : s.joined = {root}
  main : ∀ i, s.main i = .idle
  periodic : ∀ i, s.periodic i = .idle
  notifies : s.notifies = []

def Reachable (root : ID) (s : Sys) : Prop :=
  ∃ start, Init root start ∧ Run (fun _ => True) start s

end Sys

end ChordChat
