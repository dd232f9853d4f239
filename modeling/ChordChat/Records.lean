import ChordChat.Convergence

/-!
# Pointers carry the records of the nodes they name

Names, hosts and ports travel through the network inside node records. In every
reachable state each pointer of a node, each result that a thread waits with and each
notify in flight carries the record of a live node, unchanged.
-/

namespace ChordChat

def Net.record (net : Net) (i : ID) : Option INode := (net.node i).map LocalNode.info

/-- The record behind the pointer is the one of the node with its ID. -/
def Node.Genuine (record : ID → Option INode) : Node → Prop
  | .self => True
  | .remote _ r => record r.id = some r

structure LocalNode.Genuine (record : ID → Option INode) (n : LocalNode) : Prop where
  own : record n.getId = some n.info
  fingers : ∀ k p, n.finger.entries k = some p → p.Genuine record
  predecessor : ∀ p, n.predecessor = some p → p.Genuine record

def Net.listens (net : Net) (i : ID) : Option Bool := (net.node i).map LocalNode.rcvFn

namespace LocalNode
variable {record : ID → Option INode} {n : LocalNode} {p : Node}

theorem notify_rcvFn (n : LocalNode) (p : Node) : (n.notify p).rcvFn = n.rcvFn := by
  rcases n.notify_cases p with ⟨he, _⟩ | ⟨he, _⟩ <;> rw [he]
  rfl

theorem stabilizeSet_rcvFn (n : LocalNode) (x : Option Node) :
    (n.stabilizeSet x).rcvFn = n.rcvFn := by
  rcases n.stabilizeSet_cases x with ⟨p, _, _, he⟩ | ⟨_, he | he⟩ <;> rw [he]
  · exact n.getSuccessor_rcvFn
  · exact n.getSuccessor_rcvFn

theorem checkPredecessor_rcvFn (n : LocalNode) (ping : Node → Bool) :
    (n.checkPredecessor ping).rcvFn = n.rcvFn := by
  unfold checkPredecessor
  split
  · split <;> rfl
  · rfl

theorem Genuine.info (h : n.Genuine record) (hp : p.Genuine record) :
    record (p.info n.info).id = some (p.info n.info) := by
  cases p with
  | self => exact h.own
  | remote o r => exact hp

theorem genuine_thisIfOwn (hp : p.Genuine record) {q : Node}
    (h : n.thisIfOwn (some p) = some q) : q.Genuine record := by
  rw [thisIfOwn, Option.map_some, Option.some_inj] at h
  split at h
  · rw [← h]
    trivial
  · rw [← h]
    exact hp

theorem Genuine.setFinger (h : n.Genuine record) (k : Fin M) (hp : p.Genuine record) :
    (n.setFinger k (some p)).Genuine record where
  own := h.own
  fingers j q hq := by
    rw [LocalNode.setFinger, FingerTable.entries_setNode] at hq
    split at hq
    · exact genuine_thisIfOwn hp hq
    · exact h.fingers j q hq
  predecessor := h.predecessor

theorem Genuine.setSuccessor (h : n.Genuine record) (hp : p.Genuine record) :
    (n.setSuccessor (some p)).Genuine record := h.setFinger 0 hp

theorem Genuine.setPredecessor (h : n.Genuine record) {q : Option Node}
    (hq : ∀ p, q = some p → p.Genuine record) : (n.setPredecessor q).Genuine record where
  own := h.own
  fingers := h.fingers
  predecessor r hr := by
    cases q with
    | none => cases hr
    | some q => exact genuine_thisIfOwn (hq q rfl) hr

theorem Genuine.getSuccessor (h : n.Genuine record) :
    n.getSuccessor.1.Genuine record ∧ n.getSuccessor.2.Genuine record := by
  rcases n.getSuccessor_cases with ⟨s, hs, he⟩ | ⟨hnone, he⟩
  · obtain ⟨k, hk⟩ := FingerTable.entry_of_getNode hs
    rw [he]
    exact ⟨h.fingers k s hk, h⟩
  · rw [he]
    refine ⟨trivial, h.own, fun k p hp => ?_, h.predecessor⟩
    rw [FingerTable.entries_setNode] at hp
    split at hp
    · rw [← Option.some.inj hp]
      trivial
    · exact h.fingers k p hp

theorem Genuine.hop (h : n.Genuine record) (id : ID) :
    (n.findSuccessorHop id).1.pointer.Genuine record ∧ (n.findSuccessorHop id).2.Genuine record := by
  rcases n.findSuccessorHop_cases id with ⟨_, he⟩ | ⟨_, _, he⟩ | ⟨_, _, _, _, ⟨k, hk⟩, he⟩
  · rw [he]
    exact ⟨trivial, h⟩
  · rw [he]
    exact h.getSuccessor
  · rw [he]
    exact ⟨h.fingers k _ hk, h⟩

theorem Genuine.notify (h : n.Genuine record) (hp : p.Genuine record) :
    (n.notify p).Genuine record := by
  rcases n.notify_cases p with ⟨he, _⟩ | ⟨he, _⟩
  · rw [he]
    exact h.setPredecessor fun q hq => Option.some.inj hq ▸ hp
  · rw [he]
    exact h

theorem Genuine.stabilizeSet (h : n.Genuine record) {x : Option Node}
    (hx : ∀ p, x = some p → p.Genuine record) : (n.stabilizeSet x).Genuine record := by
  rcases n.stabilizeSet_cases x with ⟨p, rfl, _, he⟩ | ⟨_, he | he⟩
  · rw [he]
    exact h.getSuccessor.2.setSuccessor (hx p rfl)
  · rw [he]
    exact h
  · rw [he]
    exact h.getSuccessor.2

theorem Genuine.checkPredecessor (h : n.Genuine record) (ping : Node → Bool) :
    (n.checkPredecessor ping).Genuine record := by
  unfold LocalNode.checkPredecessor
  split
  · split
    · exact h.setPredecessor fun p hp => by cases hp
    · exact h
  · exact h

end LocalNode

namespace Sys
variable {record : ID → Option INode} {listens : ID → Option Bool} {s s' : Sys}

/-- The records and receive functions of the nodes are `record` and `listens`, and every
pointer is genuine. -/
structure Genuine (record : ID → Option INode) (listens : ID → Option Bool) (s : Sys) : Prop where
  kept : s.net.record = record
  keptRcvFn : s.net.listens = listens
  nodes : ∀ i n, s.net.node i = some n → n.Genuine record
  found : ∀ i r, s.main i = .found r → record r.id = some r
  read : ∀ i p, s.periodic i = .read (some p) → p.Genuine record
  slot : ∀ i k p, s.periodic i = .found k p → p.Genuine record
  notifies : ∀ m ∈ s.notifies, record m.2.id = some m.2

theorem Genuine.setNode (h : s.Genuine record listens) {i : ID} {n m : LocalNode}
    (hn : s.net.node i = some n) (hm : m.Genuine record)
    (hinfo : m.info = n.info) (hrcv : m.rcvFn = n.rcvFn) : (s.setNode m).Genuine record listens where
  kept := by
    rw [← h.kept]
    funext j
    rw [Net.record, Sys.setNode, Net.node_set]
    split
    next hj =>
      rw [hj, LocalNode.getId, hinfo, ← LocalNode.getId, s.net.id_eq i n hn, Net.record, hn,
        Option.map_some, Option.map_some, hinfo]
    next => rfl
  keptRcvFn := by
    rw [← h.keptRcvFn]
    funext j
    rw [Net.listens, Sys.setNode, Net.node_set]
    split
    next hj =>
      rw [hj, LocalNode.getId, hinfo, ← LocalNode.getId, s.net.id_eq i n hn, Net.listens, hn,
        Option.map_some, Option.map_some, hrcv]
    next => rfl
  nodes j k hk := by
    by_cases hj : j = m.getId
    · rw [Net.eq_of_node_set hj.symm hk]
      exact hm
    · exact h.nodes j k ((Net.node_set_of_ne hj).symm.trans hk)
  found := h.found
  read := h.read
  slot := h.slot
  notifies := h.notifies

theorem Genuine.setMain (h : s.Genuine record listens) {i : ID} {t : MainTask}
    (ht : ∀ r, t = .found r → record r.id = some r) : (s.setMain i t).Genuine record listens where
  kept := h.kept
  keptRcvFn := h.keptRcvFn
  nodes := h.nodes
  found j r hr := by
    by_cases hj : j = i
    · subst hj
      simp only [Sys.setMain, Function.update_self] at hr
      exact ht r hr
    · simp only [Sys.setMain, Function.update_of_ne hj] at hr
      exact h.found j r hr
  read := h.read
  slot := h.slot
  notifies := h.notifies

theorem Genuine.setPeriodic (h : s.Genuine record listens) {i : ID} {t : PeriodicTask}
    (hread : ∀ p, t = .read (some p) → p.Genuine record)
    (hslot : ∀ k p, t = .found k p → p.Genuine record) : (s.setPeriodic i t).Genuine record listens where
  kept := h.kept
  keptRcvFn := h.keptRcvFn
  nodes := h.nodes
  found := h.found
  read j p hp := by
    by_cases hj : j = i
    · subst hj
      simp only [Sys.setPeriodic, Function.update_self] at hp
      exact hread p hp
    · simp only [Sys.setPeriodic, Function.update_of_ne hj] at hp
      exact h.read j p hp
  slot j k p hp := by
    by_cases hj : j = i
    · subst hj
      simp only [Sys.setPeriodic, Function.update_self] at hp
      exact hslot k p hp
    · simp only [Sys.setPeriodic, Function.update_of_ne hj] at hp
      exact h.slot j k p hp
  notifies := h.notifies

theorem Genuine.setNotifies (h : s.Genuine record listens) {q : List (ID × INode)}
    (hq : ∀ m ∈ q, record m.2.id = some m.2) : Genuine record listens { s with notifies := q } :=
  ⟨h.kept, h.keptRcvFn, h.nodes, h.found, h.read, h.slot, hq⟩

/-! ### The steps -/

theorem Genuine.joinStart (h : s.Genuine record listens) {i peer : ID}
    (hs : s.joinStart i peer = some s') : s'.Genuine record listens := by
  unfold Sys.joinStart at hs
  split at hs
  next n hn hm =>
    split at hs
    · obtain rfl := Option.some.inj hs
      have hset : (n.setPredecessor none).Genuine record :=
        (h.nodes i n hn).setPredecessor fun p hp => by cases hp
      exact (h.setNode hn hset rfl rfl).setMain fun r hr => by cases hr
    · cases hs
  next => cases hs

theorem Genuine.joinHop (h : s.Genuine record listens) {i : ID} (hs : s.joinHop i = some s') :
    s'.Genuine record listens := by
  unfold Sys.joinHop at hs
  split at hs
  next n peer hn hm =>
    split at hs
    · cases hs
    next m hpm =>
      obtain ⟨hp, hnew⟩ := (h.nodes peer m hpm).hop i
      have hset := h.setNode hpm hnew (m.hop_info i) (m.hop_rcvFn i)
      split at hs
      next p m' he =>
        obtain rfl := Option.some.inj hs
        rw [he] at hp hset
        refine hset.setMain fun r hr => ?_
        rw [← MainTask.found.inj hr]
        exact (h.nodes peer m hpm).info hp
      next p m' he =>
        obtain rfl := Option.some.inj hs
        rw [he] at hset
        exact hset.setMain fun r hr => by cases hr
  next => cases hs

theorem Genuine.joinDone (h : s.Genuine record listens) {object : ℕ} {i : ID}
    (hs : s.joinDone object i = some s') : s'.Genuine record listens := by
  unfold Sys.joinDone at hs
  split at hs
  next n r hn hm =>
    obtain rfl := Option.some.inj hs
    have hr : (Node.remote object r).Genuine record := h.found i r hm
    have hidle := h.setMain (i := i) (t := .idle) fun r hr => by cases hr
    have hset := hidle.setNode (m := n.setSuccessor (some (.remote object r))) hn
      ((h.nodes i n hn).setSuccessor hr) rfl rfl
    exact ⟨hset.kept, hset.keptRcvFn, hset.nodes, hset.found, hset.read, hset.slot, hset.notifies⟩
  next => cases hs

theorem Genuine.stabilizeRead {root : ID} {K : Set (ID × ID)} (h : s.Genuine record listens)
    (hinv : s.Inv root K) {object : ℕ} {i : ID} (hs : s.stabilizeRead object i = some s') :
    s'.Genuine record listens := by
  unfold Sys.stabilizeRead at hs
  split at hs
  next n hn hm hp =>
    rw [Net.stabilizeRead_of_ping object (hinv.ping_successor hn), Option.map_some] at hs
    obtain rfl := Option.some.inj hs
    have hset := h.setNode hn (h.nodes i n hn).getSuccessor.2 n.getSuccessor_info
      n.getSuccessor_rcvFn
    refine hset.setPeriodic (fun p hp => ?_) fun k p hp => by cases hp
    have hp := PeriodicTask.read.inj hp
    cases hself : n.getSuccessor.1 with
    | self =>
      rw [hself] at hp
      obtain ⟨m, hm, hpred⟩ := Option.bind_eq_some_iff.mp hp
      exact (hset.nodes _ m hm).predecessor p hpred
    | remote o r =>
      rw [hself] at hp
      obtain ⟨m, hm, hpred⟩ := Option.bind_eq_some_iff.mp hp
      obtain ⟨q, hq, rfl⟩ := Option.map_eq_some_iff.mp hpred
      exact (hset.nodes _ m hm).info ((hset.nodes _ m hm).predecessor q hq)
  next => cases hs

theorem Genuine.stabilizeSet (h : s.Genuine record listens) {i : ID} (hs : s.stabilizeSet i = some s') :
    s'.Genuine record listens := by
  unfold Sys.stabilizeSet at hs
  split at hs
  next n x hn hp =>
    obtain rfl := Option.some.inj hs
    have hset := h.setPeriodic (i := i) (t := .notifying) (fun p hp => by cases hp)
      fun k p hp => by cases hp
    exact hset.setNode hn ((h.nodes i n hn).stabilizeSet fun p hx => h.read i p (hx ▸ hp))
      (n.stabilizeSet_info x) (n.stabilizeSet_rcvFn x)
  next => cases hs

theorem Genuine.stabilizeNotify (h : s.Genuine record listens) {i : ID}
    (hs : s.stabilizeNotify i = some s') : s'.Genuine record listens := by
  unfold Sys.stabilizeNotify at hs
  split at hs
  next n hn hp =>
    obtain rfl := Option.some.inj hs
    have hidle := h.setPeriodic (i := i) (t := .idle) (fun p hp => by cases hp)
      fun k p hp => by cases hp
    have hnew := (h.nodes i n hn).getSuccessor.2
    cases hself : n.getSuccessor.1 with
    | self =>
      simp only [Net.stabilizeNotify, hself, Option.toList_none, List.nil_append]
      exact hidle.setNode hn (hnew.notify (p := .self) trivial)
        ((LocalNode.notify_info _ _).trans n.getSuccessor_info)
        ((LocalNode.notify_rcvFn _ _).trans n.getSuccessor_rcvFn)
    | remote o r =>
      simp only [Net.stabilizeNotify, hself, Option.toList_some, List.singleton_append]
      refine (hidle.setNode hn hnew n.getSuccessor_info n.getSuccessor_rcvFn).setNotifies fun m hm => ?_
      rcases List.mem_cons.mp hm with rfl | hm
      · exact hnew.own
      · exact h.notifies m hm
  next => cases hs

theorem Genuine.deliver (h : s.Genuine record listens) {object k : ℕ} (hs : s.deliver object k = some s') :
    s'.Genuine record listens := by
  unfold Sys.deliver at hs
  split at hs
  · cases hs
  next m hm =>
    obtain rfl := Option.some.inj hs
    have hmem := h.notifies m (List.mem_of_getElem? hm)
    have hrest : ∀ q ∈ s.notifies.eraseIdx k, record q.2.id = some q.2 := fun q hq =>
      h.notifies q (List.mem_of_mem_eraseIdx hq)
    cases hd : s.net.node m.1 with
    | none =>
      simp only [Net.deliverNotify, hd]
      exact h.setNotifies hrest
    | some n =>
      simp only [Net.deliverNotify, hd]
      have hnew := (h.nodes m.1 n hd).notify (p := .remote object m.2) hmem
      exact (h.setNode hd hnew (n.notify_info _) (n.notify_rcvFn _)).setNotifies hrest

theorem Genuine.fixStart (h : s.Genuine record listens) {i : ID} {rand : ℕ}
    (hs : s.fixStart i rand = some s') : s'.Genuine record listens := by
  unfold Sys.fixStart at hs
  split at hs
  · obtain rfl := Option.some.inj hs
    exact h.setPeriodic (fun p hp => by cases hp) fun k p hp => by cases hp
  · cases hs

theorem Genuine.fixHop (h : s.Genuine record listens) {object : ℕ} {i : ID}
    (hs : s.fixHop object i = some s') : s'.Genuine record listens := by
  unfold Sys.fixHop at hs
  split at hs
  next n k peer hn hp =>
    split at hs
    · cases hs
    next m hpm =>
      obtain ⟨hgen, hnew⟩ := (h.nodes peer m hpm).hop (FingerTable.start i k)
      have hset := h.setNode hpm hnew (m.hop_info (FingerTable.start i k))
        (m.hop_rcvFn (FingerTable.start i k))
      split at hs
      next p m' he =>
        obtain rfl := Option.some.inj hs
        rw [he] at hgen hset
        refine hset.setPeriodic (fun q hq => by cases hq) fun j q hq => ?_
        obtain ⟨_, rfl⟩ := PeriodicTask.found.inj hq
        split
        · exact hgen
        · exact (h.nodes peer m hpm).info hgen
      next p m' he =>
        obtain rfl := Option.some.inj hs
        rw [he] at hset
        exact hset.setPeriodic (fun q hq => by cases hq) fun j q hq => by cases hq
  next => cases hs

theorem Genuine.fixDone (h : s.Genuine record listens) {i : ID} (hs : s.fixDone i = some s') :
    s'.Genuine record listens := by
  unfold Sys.fixDone at hs
  split at hs
  next n k p hn hp =>
    obtain rfl := Option.some.inj hs
    have hidle := h.setPeriodic (i := i) (t := .idle) (fun p hp => by cases hp)
      fun k p hp => by cases hp
    exact hidle.setNode (m := n.setFinger k (some p)) hn
      ((h.nodes i n hn).setFinger k (h.slot i k p hp)) rfl rfl
  next => cases hs

theorem Genuine.checkPredecessor (h : s.Genuine record listens) {i : ID}
    (hs : s.checkPredecessor i = some s') : s'.Genuine record listens := by
  unfold Sys.checkPredecessor at hs
  split at hs
  next n hn hp =>
    obtain rfl := Option.some.inj hs
    exact h.setNode hn ((h.nodes i n hn).checkPredecessor _) (n.checkPredecessor_info _)
      (n.checkPredecessor_rcvFn _)
  next => cases hs

theorem Genuine.step {root : ID} {K : Set (ID × ID)} (h : s.Genuine record listens) (hinv : s.Inv root K)
    {object : ℕ} {a : Action} (hs : s.step object a = some s') : s'.Genuine record listens := by
  cases a with
  | joinStart i peer => exact h.joinStart hs
  | joinHop i => exact h.joinHop hs
  | joinDone i => exact h.joinDone hs
  | stabilizeRead i => exact h.stabilizeRead hinv hs
  | stabilizeSet i => exact h.stabilizeSet hs
  | stabilizeNotify i => exact h.stabilizeNotify hs
  | deliver k => exact h.deliver hs
  | fixStart i rand => exact h.fixStart hs
  | fixHop i => exact h.fixHop hs
  | fixDone i => exact h.fixDone hs
  | checkPredecessor i => exact h.checkPredecessor hs

theorem Init.genuine {root : ID} (h : Init root s) : s.Genuine s.net.record s.net.listens where
  kept := rfl
  keptRcvFn := rfl
  nodes i n hn := by
    refine ⟨?_, fun k p hp => ?_, fun p hp => ?_⟩
    · rw [s.net.id_eq i n hn, Net.record, hn, Option.map_some]
    · rw [h.fingers i n k p hn hp]
      trivial
    · rw [h.predecessor i n p hn hp]
      trivial
  found i r hr := by
    rw [h.main] at hr
    cases hr
  read i p hp := by
    rw [h.periodic] at hp
    cases hp
  slot i k p hp := by
    rw [h.periodic] at hp
    cases hp
  notifies m hm := by
    rw [h.notifies] at hm
    cases hm

theorem Genuine.run {root : ID} {K : Set (ID × ID)} (h : s.Genuine record listens) (hinv : s.Inv root K)
    {allowed : Action → Prop} (hr : Run allowed s s') : s'.Genuine record listens := by
  induction hr with
  | refl => exact h
  | tail hr hs ih =>
    obtain ⟨K', hinv', _⟩ := hinv.run hr
    obtain ⟨object, a, _, hs⟩ := hs
    exact ih.step hinv' hs

theorem Reachable.genuine {root : ID} (h : Reachable root s) : s.Genuine s.net.record s.net.listens := by
  obtain ⟨start, hstart, hrun⟩ := h
  have hs := hstart.genuine.run hstart.inv hrun
  have hkept := hs.kept
  have hrcv := hs.keptRcvFn
  rwa [hkept, hrcv]

end Sys

/-! ### Every reachable state -/

/-- The record is the one of a live node. -/
def Net.Lives (net : Net) (r : INode) : Prop := ∃ m, net.node r.id = some m ∧ m.info = r

end ChordChat
