import ChordChat.Protocol
import ChordChat.Clockwise.Growth
import ChordChat.Clockwise.Ideal

/-!
# The invariant of the runs

`K` is the history of the successor pointers of joined nodes. Whatever a node may
act on later is an edge of that history: its predecessor, the predecessor that
`stabilize` has read, a notify in flight. So an exchange of a successor is a step
of the growing ring (`Growth.Step.adopt`), and the end of a join is the other one.
-/

namespace ChordChat
open Clockwise

/-- `x` has pointed to `s`, or is `s` itself and has not joined. -/
def Edge (J : Finset ID) (K : Set (ID × ID)) (x s : ID) : Prop := (x, s) ∈ K ∨ x = s ∧ s ∉ J

theorem Edge.mono {J J' : Finset ID} {K K' : Set (ID × ID)} {x s : ID} (h : Edge J K x s)
    (hK : K ⊆ K') (hs : s ∈ J' → s ∈ J) : Edge J' K' x s := by
  rcases h with h | ⟨he, h⟩
  · exact Or.inl (hK h)
  · exact Or.inr ⟨he, fun hj => h (hs hj)⟩

theorem Edge.pointed {J : Finset ID} {K : Set (ID × ID)} {x s : ID} (h : Edge J K x s)
    (hs : s ∈ J) : (x, s) ∈ K := h.resolve_right fun hn => hn.2 hs

/-- The lookup that node `i` joins with goes over joined nodes, and `i` may point
to its result without passing over the first node. -/
def MainOk (root : ID) (J : Finset ID) (i : ID) : MainTask → Prop
  | .idle => True
  | .lookup peer => i ∉ J ∧ peer ∈ J
  | .found r => i ∉ J ∧ r.id ∈ J ∧ Toward root i r.id

/-- What node `i`, with successor `s`, holds on the way through its periodic calls;
`occupied` says that its slot 0 is. -/
def PeriodicOk (J : Finset ID) (K : Set (ID × ID)) (i s : ID) (occupied : Prop) :
    PeriodicTask → Prop
  | .idle | .notifying => True
  | .read x => ∀ p, x = some p → Edge J K (p.idAt i) s
  | .lookup k peer => k ≠ 0 ∧ (peer = i ∨ i ∈ J ∧ peer ∈ J ∧ occupied)
  | .found k p => k ≠ 0 ∧ (p.idAt i = i ∨ i ∈ J ∧ p.idAt i ∈ J ∧ occupied)

structure NodeOk (root : ID) (J : Finset ID) (K : Set (ID × ID)) (i : ID) (n : LocalNode)
    (main : MainTask) (periodic : PeriodicTask) : Prop where
  fingers : ∀ k p, n.finger.entries k = some p → p = .self ∨ i ∈ J ∧ p.idAt i ∈ J ∧ p.idAt i ≠ i
  table : n.finger.entries 0 = none → ∀ k p, n.finger.entries k = some p → p = .self
  predecessor : ∀ p, n.predecessor = some p → main = .idle ∧ Edge J K (p.idAt i) i
  mainOk : MainOk root J i main
  apart : main = .idle ∨ periodic.stabilizing = false
  periodicOk : PeriodicOk J K i n.succId (n.finger.entries 0 ≠ none) periodic

def Sys.growth (s : Sys) (K : Set (ID × ID)) : Growth ID := ⟨s.joined, s.succ, K⟩

/-- The invariant, with the history `K` of the successor pointers. -/
structure Sys.Inv (root : ID) (K : Set (ID × ID)) (s : Sys) : Prop where
  sound : (s.growth K).Sound root
  alive : ∀ i ∈ s.joined, ∃ n, s.net.node i = some n
  nodes : ∀ i n, s.net.node i = some n →
    NodeOk root s.joined K i n (s.main i) (s.periodic i)
  notifies : ∀ m ∈ s.notifies, (m.2.id, m.1) ∈ K

section Node
variable {root : ID} {J J' : Finset ID} {K K' : Set (ID × ID)} {i : ID} {n : LocalNode}
  {main main' : MainTask} {periodic periodic' : PeriodicTask}

theorem PeriodicOk.mono {s : ID} {o o' : Prop} (h : PeriodicOk J K i s o periodic) (hJ : J ⊆ J')
    (hK : K ⊆ K') (hs : s ∈ J' → s ∈ J) (ho : o → o') : PeriodicOk J' K' i s o' periodic := by
  cases periodic with
  | idle => trivial
  | notifying => trivial
  | read x => exact fun p hp => (h p hp).mono hK hs
  | lookup k peer => exact ⟨h.1, h.2.imp_right fun ⟨h1, h2, h3⟩ => ⟨hJ h1, hJ h2, ho h3⟩⟩
  | found k p => exact ⟨h.1, h.2.imp_right fun ⟨h1, h2, h3⟩ => ⟨hJ h1, hJ h2, ho h3⟩⟩

theorem NodeOk.mono (h : NodeOk root J K i n main periodic) (hJ : J ⊆ J') (hK : K ⊆ K')
    (hi : i ∈ J' → i ∈ J) (hs : n.succId ∈ J' → n.succId ∈ J) :
    NodeOk root J' K' i n main periodic where
  fingers k p hp := (h.fingers k p hp).imp_right fun ⟨h1, h2, h3⟩ => ⟨hJ h1, hJ h2, h3⟩
  table := h.table
  predecessor p hp := ⟨(h.predecessor p hp).1, (h.predecessor p hp).2.mono hK hi⟩
  mainOk := by
    have hm := h.mainOk
    cases main with
    | idle => trivial
    | lookup peer => exact ⟨fun hj => hm.1 (hi hj), hJ hm.2⟩
    | found r => exact ⟨fun hj => hm.1 (hi hj), hJ hm.2.1, hm.2.2⟩
  apart := h.apart
  periodicOk := h.periodicOk.mono hJ hK hs id

/-! ### What a node knows -/

theorem NodeOk.successor (h : NodeOk root J K i n main periodic) :
    n.getSuccessor.1 = .self ∨
      i ∈ J ∧ n.getSuccessor.1.idAt i ∈ J ∧ n.getSuccessor.1.idAt i ≠ i := by
  rcases n.getSuccessor_cases with ⟨s, hs, he⟩ | ⟨_, he⟩
  · obtain ⟨k, hk⟩ := FingerTable.entry_of_getNode hs
    rw [he]
    exact h.fingers k s hk
  · exact Or.inl (by rw [he])

theorem NodeOk.unjoined (h : NodeOk root J K i n main periodic) (hi : i ∉ J) :
    n.getSuccessor.1 = .self := h.successor.resolve_right fun hj => hi hj.1

/-! ### What its operations keep -/

theorem NodeOk.joining (h : NodeOk root J K i n main periodic) (hne : main ≠ .idle) :
    n.predecessor = none ∧ periodic.stabilizing = false := by
  refine ⟨?_, h.apart.resolve_left hne⟩
  cases hp : n.predecessor with
  | none => rfl
  | some p => exact absurd (h.predecessor p hp).1 hne

theorem NodeOk.idle (h : NodeOk root J K i n main periodic) (hs : periodic.stabilizing = true) :
    main = .idle := by
  refine h.apart.resolve_right fun hnot => ?_
  rw [hs] at hnot
  cases hnot

theorem NodeOk.idle_of_joined (h : NodeOk root J K i n main periodic) (hi : i ∈ J) :
    main = .idle := by
  have hm := h.mainOk
  cases main with
  | idle => rfl
  | lookup peer => exact absurd hi hm.1
  | found r => exact absurd hi hm.1

theorem NodeOk.withMain (h : NodeOk root J K i n main periodic)
    (hj : n.predecessor = none ∧ periodic.stabilizing = false) (hm : MainOk root J i main') :
    NodeOk root J K i n main' periodic where
  fingers := h.fingers
  table := h.table
  predecessor p hp := by
    rw [hj.1] at hp
    cases hp
  mainOk := hm
  apart := Or.inr hj.2
  periodicOk := h.periodicOk

theorem NodeOk.withPeriodic (h : NodeOk root J K i n main periodic)
    (hs : main = .idle ∨ periodic'.stabilizing = false)
    (hp : PeriodicOk J K i n.succId (n.finger.entries 0 ≠ none) periodic') :
    NodeOk root J K i n main periodic' where
  fingers := h.fingers
  table := h.table
  predecessor := h.predecessor
  mainOk := h.mainOk
  apart := hs
  periodicOk := hp

theorem NodeOk.setPredecessor (h : NodeOk root J K i n main periodic) (hid : n.getId = i)
    {q : Option Node} (hq : ∀ p, q = some p → main = .idle ∧ Edge J K (p.idAt i) i) :
    NodeOk root J K i (n.setPredecessor q) main periodic where
  fingers := h.fingers
  table := h.table
  predecessor p hp := by
    obtain ⟨r, rfl⟩ : ∃ r, q = some r := by
      cases q with
      | none => exact nomatch hp
      | some r => exact ⟨r, rfl⟩
    have he : (n.setPredecessor (some r)).predId = some (n.idOf r) :=
      n.setPredecessor_predId (some r)
    rw [LocalNode.predId, hp, Option.map_some, LocalNode.setPredecessor_idOf, Option.some_inj,
      LocalNode.idOf_eq, LocalNode.idOf_eq, hid] at he
    rw [he]
    exact hq r rfl
  mainOk := h.mainOk
  apart := h.apart
  periodicOk := by
    rw [LocalNode.setPredecessor_succId]
    exact h.periodicOk

theorem NodeOk.getSuccessor (h : NodeOk root J K i n main periodic) :
    NodeOk root J K i n.getSuccessor.2 main periodic := by
  rcases n.getSuccessor_cases with ⟨s, _, he⟩ | ⟨hnone, he⟩
  · rw [he]
    exact h
  · have hsucc : n.getSuccessor.2.succId = n.succId := n.getSuccessor_succId
    rw [he] at hsucc ⊢
    refine ⟨fun k p hp => Or.inl ?_, fun h0 => ?_, h.predecessor, h.mainOk, h.apart, ?_⟩
    · rw [FingerTable.entries_setNode, hnone] at hp
      split at hp
      · exact (Option.some.inj hp).symm
      · cases hp
    · rw [FingerTable.entries_setNode, if_pos rfl] at h0
      cases h0
    · rw [hsucc]
      exact h.periodicOk.mono (Finset.Subset.refl J) subset_rfl id fun h0 => absurd (hnone 0) h0

theorem LocalNode.entries_setFinger {n : LocalNode} {j k : Fin M} {p q : Node}
    (h : (n.setFinger k (some p)).finger.entries j = some q) :
    n.finger.entries j = some q ∨ q = .self ∨ q = p ∧ n.idOf p ≠ n.getId := by
  rw [LocalNode.setFinger, FingerTable.entries_setNode] at h
  split at h
  · rw [LocalNode.thisIfOwn, Option.map_some, Option.some_inj] at h
    split at h
    next => exact Or.inr (Or.inl h.symm)
    next hne => exact Or.inr (Or.inr ⟨h.symm, hne⟩)
  · exact Or.inl h

theorem NodeOk.setFinger (h : NodeOk root J K i n main periodic) (hid : n.getId = i) {k : Fin M}
    {p : Node} (hk : k ≠ 0)
    (hp : p.idAt i = i ∨ i ∈ J ∧ p.idAt i ∈ J ∧ n.finger.entries 0 ≠ none) :
    NodeOk root J K i (n.setFinger k (some p)) main periodic ∧
      (n.setFinger k (some p)).succId = n.succId := by
  have h0 : (n.setFinger k (some p)).finger.entries 0 = n.finger.entries 0 := by
    rw [LocalNode.setFinger, FingerTable.entries_setNode, if_neg (Ne.symm hk)]
  have hfingers : ∀ j q, (n.setFinger k (some p)).finger.entries j = some q →
      q = .self ∨ i ∈ J ∧ q.idAt i ∈ J ∧ q.idAt i ≠ i := by
    intro j q hq
    rcases LocalNode.entries_setFinger hq with hq | hq | ⟨rfl, hne⟩
    · exact h.fingers j q hq
    · exact Or.inl hq
    · rw [LocalNode.idOf_eq, hid] at hne
      obtain ⟨h1, h2, _⟩ := hp.resolve_left hne
      exact Or.inr ⟨h1, h2, hne⟩
  have htable : n.finger.entries 0 = none →
      ∀ j q, (n.setFinger k (some p)).finger.entries j = some q → q = .self := by
    intro hnone j q hq
    rcases LocalNode.entries_setFinger hq with hq | hq | ⟨rfl, hne⟩
    · exact h.table hnone j q hq
    · exact hq
    · rw [LocalNode.idOf_eq, hid] at hne
      exact absurd hnone (hp.resolve_left hne).2.2
  have hsucc : (n.setFinger k (some p)).succId = n.succId := by
    cases hs : n.finger.entries 0 with
    | none =>
      rw [LocalNode.succId, LocalNode.succId, LocalNode.getSuccessor_of_own (htable hs),
        LocalNode.getSuccessor_of_own (h.table hs), LocalNode.setFinger_idOf]
    | some s =>
      have hnew := FingerTable.getNode_of_entry (h0.trans hs)
      have hold := FingerTable.getNode_of_entry hs
      simp only [LocalNode.succId, LocalNode.getSuccessor, hnew, hold, LocalNode.setFinger_idOf]
  refine ⟨⟨hfingers, fun hnone => htable (h0 ▸ hnone), h.predecessor, h.mainOk, h.apart, ?_⟩, hsucc⟩
  rw [hsucc, h0]
  exact h.periodicOk

theorem NodeOk.setSuccessor (h : NodeOk root J K i n .idle periodic) (hid : n.getId = i) {p : Node}
    (hJ : J ⊆ J') (hK : K ⊆ K') (hp : p.idAt i = i ∨ i ∈ J' ∧ p.idAt i ∈ J')
    (hpred : n.predecessor = none ∨ (i ∈ J' → i ∈ J)) (hread : ∀ x, periodic ≠ .read x) :
    NodeOk root J' K' i (n.setSuccessor (some p)) .idle periodic where
  fingers k q hq := by
    rcases LocalNode.entries_setFinger hq with hq | hq | ⟨rfl, hne⟩
    · exact (h.fingers k q hq).imp_right fun hj => ⟨hJ hj.1, hJ hj.2.1, hj.2.2⟩
    · exact Or.inl hq
    · rw [LocalNode.idOf_eq, hid] at hne
      obtain ⟨h1, h2⟩ := hp.resolve_left hne
      exact Or.inr ⟨h1, h2, hne⟩
  table h0 := by
    rw [LocalNode.setSuccessor, FingerTable.entries_setNode, if_pos rfl] at h0
    cases h0
  predecessor q hq := by
    have hq : n.predecessor = some q := hq
    rcases hpred with hnone | hj
    · rw [hnone] at hq
      cases hq
    · exact ⟨rfl, (h.predecessor q hq).2.mono hK hj⟩
  mainOk := trivial
  apart := Or.inl rfl
  periodicOk := by
    have hocc : (n.setSuccessor (some p)).finger.entries 0 ≠ none := by
      rw [LocalNode.setSuccessor, FingerTable.entries_setNode, if_pos rfl]
      exact Option.some_ne_none _
    have hold := h.periodicOk
    cases periodic with
    | idle => trivial
    | notifying => trivial
    | read x => exact absurd rfl (hread x)
    | lookup k peer => exact ⟨hold.1, hold.2.imp_right fun hj => ⟨hJ hj.1, hJ hj.2.1, hocc⟩⟩
    | found k q => exact ⟨hold.1, hold.2.imp_right fun hj => ⟨hJ hj.1, hJ hj.2.1, hocc⟩⟩

end Node

/-- The successor of each joined node is the next one clockwise, its predecessor the
previous one. -/
def Sys.Ideal (s : Sys) : Prop := IdealRing s.joined s.succ s.pred

/-- A step that leaves the ring as it is, and the predecessors too once they are right. -/
structure Sys.Rests (root : ID) (K : Set (ID × ID)) (s s' : Sys) : Prop where
  inv : s'.Inv root K
  growth : s'.growth K = s.growth K
  pred : s.Ideal → ∀ i ∈ s.joined, s'.pred i = s.pred i

def Sys.Grows (root : ID) (K : Set (ID × ID)) (s s' : Sys) : Prop :=
  ∃ K', s'.Inv root K' ∧ Growth.Step root (s.growth K) (s'.growth K')

namespace Sys.Inv
variable {root : ID} {K : Set (ID × ID)} {s : Sys}

theorem rests (h : s.Inv root K) : s.Rests root K s := ⟨h, rfl, fun _ _ _ => rfl⟩

theorem succ_mem (h : s.Inv root K) {i : ID} (hi : i ∈ s.joined) : s.succ i ∈ s.joined :=
  h.sound.rooted.closed i hi

theorem succ_of_node {i : ID} {n : LocalNode} (hn : s.net.node i = some n) :
    s.succ i = n.succId := Net.succ_of_node hn

theorem current (h : s.Inv root K) {i : ID} {n : LocalNode} (hn : s.net.node i = some n)
    (hi : i ∈ s.joined) : (i, n.getSuccessor.1.idAt i) ∈ K := by
  rw [← Net.succId_eq hn, ← succ_of_node hn]
  exact h.sound.current i hi

theorem edge_mem (h : s.Inv root K) {x d : ID} (he : Edge s.joined K x d) (hd : d ∈ s.joined) :
    x ∈ s.joined := (h.sound.arcs x d (he.pointed hd)).1

theorem pred_edge (h : s.Inv root K) {d x : ID} (hx : s.pred d = some x) :
    Edge s.joined K x d := by
  obtain ⟨n, p, hn, hp, rfl⟩ := Net.pred_eq_some hx
  exact ((h.nodes d n hn).predecessor p hp).2

theorem succ_unjoined (h : s.Inv root K) {i : ID} {n : LocalNode} (hn : s.net.node i = some n)
    (hi : i ∉ s.joined) : n.succId = i := by
  rw [Net.succId_eq hn, (h.nodes i n hn).unjoined hi]
  rfl

theorem succ_ne_unjoined (h : s.Inv root K) {i j : ID} {n : LocalNode}
    (hn : s.net.node j = some n) (hji : j ≠ i) (hs : n.succId ∈ insert i s.joined) :
    n.succId ∈ s.joined := by
  rcases Finset.mem_insert.mp hs with he | hs
  · by_cases hj : j ∈ s.joined
    · rw [← succ_of_node hn]
      exact h.succ_mem hj
    · exact absurd ((h.succ_unjoined hn hj).symm.trans he) hji
  · exact hs

theorem ping_joined (h : s.Inv root K) {i : ID} {p : Node} (hp : p.idAt i ∈ s.joined) :
    s.net.ping p = true := by
  cases p with
  | self => rfl
  | remote o r =>
    obtain ⟨m, hm⟩ := h.alive r.id hp
    simp only [Net.ping, hm, Option.isSome_some]

theorem ping_successor (h : s.Inv root K) {i : ID} {n : LocalNode} (hn : s.net.node i = some n) :
    s.net.ping n.getSuccessor.1 = true := by
  rcases (h.nodes i n hn).successor with he | ⟨_, hm, _⟩
  · rw [he]
    rfl
  · exact h.ping_joined hm

/-! ### Writes -/

theorem nodes_set {J : Finset ID} {K' : Set (ID × ID)} {i : ID}
    {m : LocalNode} (hid : m.getId = i)
    (hother : ∀ j n, j ≠ i → s.net.node j = some n →
      NodeOk root J K' j n (s.main j) (s.periodic j))
    (hok : NodeOk root J K' i m (s.main i) (s.periodic i)) (j : ID) (n : LocalNode)
    (hn : (s.net.set m).node j = some n) : NodeOk root J K' j n (s.main j) (s.periodic j) := by
  by_cases hji : j = i
  · subst hji
    obtain rfl := Net.eq_of_node_set hid hn
    exact hok
  · have hne : j ≠ m.getId := fun he => hji (he.trans hid)
    exact hother j n hji ((Net.node_set_of_ne hne).symm.trans hn)

theorem alive_set (h : s.Inv root K) {i : ID} {m : LocalNode} (hid : m.getId = i) (j : ID)
    (hj : j ∈ insert i s.joined) : ∃ n, (s.net.set m).node j = some n := by
  by_cases hji : j = i
  · exact ⟨m, by rw [hji]; exact Net.node_set_self hid⟩
  · obtain ⟨n, hn⟩ := h.alive j ((Finset.mem_insert.mp hj).resolve_left hji)
    exact ⟨n, (Net.node_set_of_ne fun he => hji (he.trans hid)).trans hn⟩

theorem setNode (h : s.Inv root K) {i : ID} {n m : LocalNode} (hn : s.net.node i = some n)
    (hid : m.getId = i) (hsucc : m.succId = n.succId)
    (hok : NodeOk root s.joined K i m (s.main i) (s.periodic i))
    (hpred : s.Ideal → i ∈ s.joined → m.predId = n.predId) :
    s.Rests root K (s.setNode m) := by
  have he : (s.setNode m).growth K = s.growth K :=
    congrArg (Growth.mk s.joined · K) (Net.succ_set_eq hn hid hsucc)
  refine ⟨⟨?_, ?_, ?_, h.notifies⟩, he, fun hideal j hj => ?_⟩
  · rw [he]
    exact h.sound
  · exact fun j hj => h.alive_set hid j (Finset.mem_insert_of_mem hj)
  · exact nodes_set hid (fun j n _ hn => h.nodes j n hn) hok
  · rw [Sys.pred, Sys.setNode, Net.pred_set, hid]
    split
    next hji =>
      rw [hpred hideal (hji ▸ hj), hji, ← Net.pred_of_node hn]
      rfl
    next => rfl

theorem grow (h : s.Inv root K) {i : ID} {m : LocalNode} (hid : m.getId = i)
    (hstep : Growth.Step root (s.growth K) ((s.growth K).point i m.succId))
    (hok : NodeOk root (insert i s.joined) (insert (i, m.succId) K) i m (s.main i)
      (s.periodic i)) :
    s.Grows root K { s.setNode m with joined := insert i s.joined } := by
  have he : Sys.growth { s.setNode m with joined := insert i s.joined } (insert (i, m.succId) K) =
      (s.growth K).point i m.succId :=
    congrArg (Growth.mk (insert i s.joined) · (insert (i, m.succId) K)) (Net.succ_set_update hid)
  have hK : K ⊆ insert (i, m.succId) K := Set.subset_insert _ _
  refine ⟨insert (i, m.succId) K, ⟨?_, h.alive_set hid, nodes_set hid (fun j n hji hn => ?_) hok,
    fun q hq => hK (h.notifies q hq)⟩, he ▸ hstep⟩
  · rw [he]
    exact h.sound.step hstep
  · exact (h.nodes j n hn).mono (Finset.subset_insert _ _) hK
      (fun hj => (Finset.mem_insert.mp hj).resolve_left hji) (h.succ_ne_unjoined hn hji)

theorem setTasks (h : s.Inv root K) {i : ID} {main : MainTask} {periodic : PeriodicTask}
    (hok : ∀ n, s.net.node i = some n → NodeOk root s.joined K i n main periodic) :
    s.Rests root K ((s.setMain i main).setPeriodic i periodic) := by
  refine ⟨⟨h.sound, h.alive, fun j n hn => ?_, h.notifies⟩, rfl, fun _ _ _ => rfl⟩
  by_cases hji : j = i
  · subst hji
    simp only [Sys.setMain, Sys.setPeriodic, Function.update_self]
    exact hok n hn
  · simp only [Sys.setMain, Sys.setPeriodic, Function.update_of_ne hji]
    exact h.nodes j n hn

theorem setMain (h : s.Inv root K) {i : ID} {main : MainTask}
    (hok : ∀ n, s.net.node i = some n → NodeOk root s.joined K i n main (s.periodic i)) :
    s.Rests root K (s.setMain i main) := by
  have he : s.setMain i main = (s.setMain i main).setPeriodic i (s.periodic i) := by
    simp only [Sys.setMain, Sys.setPeriodic, Function.update_eq_self]
  rw [he]
  exact h.setTasks hok

theorem setPeriodic (h : s.Inv root K) {i : ID} {periodic : PeriodicTask}
    (hok : ∀ n, s.net.node i = some n → NodeOk root s.joined K i n (s.main i) periodic) :
    s.Rests root K (s.setPeriodic i periodic) := by
  have he : s.setPeriodic i periodic = (s.setMain i (s.main i)).setPeriodic i periodic := by
    simp only [Sys.setMain, Sys.setPeriodic, Function.update_eq_self]
  rw [he]
  exact h.setTasks hok

theorem setNotifies (h : s.Inv root K) {q : List (ID × INode)}
    (hq : ∀ m ∈ q, (m.2.id, m.1) ∈ K) : s.Rests root K { s with notifies := q } :=
  ⟨⟨h.sound, h.alive, h.nodes, hq⟩, rfl, fun _ _ _ => rfl⟩

end Sys.Inv

end ChordChat
