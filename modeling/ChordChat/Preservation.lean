import ChordChat.Invariant

/-!
# Every step keeps the invariant

One lemma for each action. Only the end of a join and the exchange in `stabilize`
change the ring, each by a step of the growing ring.
-/

namespace ChordChat
open Clockwise

/-! ### Hops -/

def LocalNode.Hop.pointer : LocalNode.Hop → Node
  | .answer p | .forward p => p

theorem NodeOk.hop {root : ID} {J : Finset ID} {K : Set (ID × ID)} {i : ID} {n : LocalNode}
    {main : MainTask} {periodic : PeriodicTask} (h : NodeOk root J K i n main periodic) (id : ID) :
    NodeOk root J K i (n.findSuccessorHop id).2 main periodic ∧
      (n.findSuccessorHop id).2.succId = n.succId ∧
      ((n.findSuccessorHop id).1.pointer = .self ∨
        i ∈ J ∧ (n.findSuccessorHop id).1.pointer.idAt i ∈ J ∧
          (n.findSuccessorHop id).2.finger.entries 0 ≠ none) := by
  rcases n.findSuccessorHop_cases id with ⟨_, he⟩ | ⟨_, _, he⟩ | ⟨_, _, _, _, ⟨k, hk⟩, he⟩
  · rw [he]
    exact ⟨h, rfl, Or.inl rfl⟩
  · rw [he]
    refine ⟨h.getSuccessor, n.getSuccessor_succId, ?_⟩
    rcases h.successor with hs | ⟨h1, h2, h3⟩
    · exact Or.inl hs
    · refine Or.inr ⟨h1, h2, fun hnone => h3 ?_⟩
      have hself := LocalNode.getSuccessor_of_own (h.getSuccessor.table hnone)
      rw [n.getSuccessor_idem] at hself
      rw [hself, Node.idAt]
  · rw [he]
    refine ⟨h, rfl, ?_⟩
    rcases h.fingers k _ hk with hs | ⟨h1, h2, h3⟩
    · exact Or.inl hs
    · refine Or.inr ⟨h1, h2, fun hnone => h3 ?_⟩
      rw [h.table hnone k _ hk, Node.idAt]

namespace Sys
variable {root : ID} {K : Set (ID × ID)} {s s' : Sys}

theorem Rests.joined (h : s.Rests root K s') : s'.joined = s.joined :=
  congrArg Growth.members h.growth

theorem Rests.succ (h : s.Rests root K s') : s'.succ = s.succ := congrArg Growth.succ h.growth

theorem Rests.ideal (h : s.Rests root K s') (hs : s.Ideal) : s'.Ideal := by
  intro i hi
  rw [h.joined] at hi ⊢
  rw [h.succ, h.pred hs i hi]
  exact hs i hi

theorem Rests.trans {s1 s2 s3 : Sys} (h1 : s1.Rests root K s2) (h2 : s2.Rests root K s3) :
    s1.Rests root K s3 := by
  refine ⟨h2.inv, h2.growth.trans h1.growth, fun hideal i hi => ?_⟩
  rw [h2.pred (h1.ideal hideal) i (h1.joined ▸ hi), h1.pred hideal i hi]

theorem Rests.grows {s1 s2 s3 : Sys} (h1 : s1.Rests root K s2) (h2 : s2.Grows root K s3) :
    s1.Grows root K s3 := by
  obtain ⟨K', h, hstep⟩ := h2
  exact ⟨K', h, h1.growth ▸ hstep⟩

theorem setNode_setNode (s : Sys) {n m : LocalNode} (h : n.getId = m.getId) :
    (s.setNode n).setNode m = s.setNode m :=
  congrArg (fun net => { s with net := net }) (Net.set_set h)

theorem setNode_node {i : ID} {n : LocalNode} (hn : s.net.node i = some n) : s.setNode n = s :=
  congrArg (fun net => { s with net := net }) (Net.set_node hn)

theorem Inv.touch (h : s.Inv root K) {i : ID} {n : LocalNode} (hn : s.net.node i = some n) :
    s.Rests root K (s.setNode n.getSuccessor.2) :=
  h.setNode hn (Net.getSuccessor_id hn) n.getSuccessor_succId
    (h.nodes i n hn).getSuccessor fun _ _ => n.getSuccessor_predId

theorem Inv.hop (h : s.Inv root K) {i : ID} {n : LocalNode} (hn : s.net.node i = some n) (id : ID) :
    s.Rests root K (s.setNode (n.findSuccessorHop id).2) := by
  have hok := (h.nodes i n hn).hop id
  exact h.setNode hn ((n.hop_getId id).trans (s.net.id_eq i n hn)) hok.2.1 hok.1
    fun _ _ => n.hop_predId id

/-! ### Joining -/

theorem Inv.joinStart (h : s.Inv root K) {i peer : ID} (hs : s.joinStart i peer = some s') :
    s.Rests root K s' := by
  unfold Sys.joinStart at hs
  split at hs
  next n hn hm =>
    split at hs
    next hg =>
      obtain ⟨hi, hp, hst⟩ := hg
      have hid := s.net.id_eq i n hn
      have hok : NodeOk root s.joined K i (n.setPredecessor none) (s.main i) (s.periodic i) :=
        (h.nodes i n hn).setPredecessor hid fun p hp => nomatch hp
      have hset := h.setNode (m := n.setPredecessor none) hn hid
        (n.setPredecessor_succId none) hok fun _ hj => absurd hj hi
      obtain rfl := Option.some.inj hs
      refine hset.trans (hset.inv.setMain fun k hk => ?_)
      obtain rfl := Net.eq_of_node_set (n := n.setPredecessor none) hid hk
      exact hok.withMain ⟨rfl, hst⟩ ⟨hi, hp⟩
    next => cases hs
  next => cases hs

/-- The answer to a node that has not joined is a joined node, and the arrow to it
does not pass over the first node. -/
theorem Inv.answer_toward (h : s.Inv root K) {c i : ID} {m : LocalNode} {p : Node}
    (hm : s.net.node c = some m) (hc : c ∈ s.joined) (hi : i ∉ s.joined)
    (hp : (m.findSuccessorHop i).1 = .answer p) :
    m.idOf p ∈ s.joined ∧ Toward root i (m.idOf p) := by
  have hid := s.net.id_eq c m hm
  have hsucc : s.succ c = m.succId := Net.succ_of_node hm
  rcases m.findSuccessorHop_cases i with ⟨hown, _⟩ | ⟨_, hin, he⟩ | ⟨_, _, _, _, _, he⟩
  · exact absurd (hid.symm.trans hown ▸ hc) hi
  · rw [he] at hp
    cases hp
    rw [← LocalNode.succId, ← hsucc] at hin ⊢
    rw [hid, LocalNode.holds_iff] at hin
    have hmem := h.succ_mem hc
    have harc := hin.resolve_right fun hs => hi (hs ▸ hmem)
    exact ⟨hmem, toward_end_of_inArc (h.sound.rooted.toward c hc) harc⟩
  · rw [he] at hp
    cases hp

theorem Inv.joinHop (h : s.Inv root K) {i : ID} (hs : s.joinHop i = some s') :
    s.Rests root K s' := by
  unfold Sys.joinHop at hs
  split at hs
  next n peer hn hm =>
    have hmain := (h.nodes i n hn).mainOk
    rw [hm] at hmain
    obtain ⟨hi, hp⟩ := hmain
    split at hs
    · cases hs
    next m hpm =>
      have hhop := h.hop hpm i
      have htask : ∀ t, MainOk root s.joined i t →
          s.Rests root K ((s.setNode (m.findSuccessorHop i).2).setMain i t) := by
        refine fun t ht => hhop.trans (hhop.inv.setMain fun k hk => ?_)
        have hne : s.main i ≠ .idle := fun he => by rw [hm] at he; cases he
        exact (hhop.inv.nodes i k hk).withMain ((hhop.inv.nodes i k hk).joining hne) ht
      split at hs
      next p m' he =>
        obtain rfl := Option.some.inj hs
        rw [he] at htask
        exact htask _ ⟨hi, h.answer_toward hpm hp hi (by rw [he])⟩
      next p m' he =>
        obtain rfl := Option.some.inj hs
        have hknow := ((h.nodes peer m hpm).hop i).2.2
        rw [he] at htask hknow
        refine htask _ ⟨hi, ?_⟩
        rcases hknow with hself | ⟨_, hmem, _⟩
        · rw [show p = .self from hself]
          exact hp
        · exact hmem
  next => cases hs

theorem Inv.joinDone (h : s.Inv root K) {object : ℕ} {i : ID} (hs : s.joinDone object i = some s') :
    s.Grows root K s' := by
  unfold Sys.joinDone at hs
  split at hs
  next n r hn hm =>
    have hid := s.net.id_eq i n hn
    have hmain := (h.nodes i n hn).mainOk
    have hne : s.main i ≠ .idle := fun he => by rw [hm] at he; cases he
    rw [hm] at hmain
    obtain ⟨hi, hr, ht⟩ := hmain
    have hjoin := (h.nodes i n hn).joining hne
    have hidle : s.Rests root K (s.setMain i .idle) :=
      h.setMain fun k hk => (h.nodes i k hk).withMain ((h.nodes i k hk).joining hne) trivial
    have hstep : Growth.Step root (s.growth K) ((s.growth K).point i r.id) := .join hi hr ht
    have hsucc : (n.setSuccessor (some (.remote object r))).succId = r.id :=
      n.setSuccessor_succId _
    have hok := hidle.inv.nodes i n hn
    simp only [Sys.setMain, Function.update_self] at hok
    obtain rfl := Option.some.inj hs
    refine hidle.inv.grow hid (hsucc.symm ▸ hstep) ?_
    simp only [Sys.setMain, Function.update_self]
    refine hok.setSuccessor hid (Finset.subset_insert _ _) (Set.subset_insert _ _)
      (Or.inr ⟨Finset.mem_insert_self _ _, Finset.mem_insert_of_mem hr⟩) (Or.inl hjoin.1)
      fun x hx => ?_
    have hst := hjoin.2
    rw [hx] at hst
    cases hst
  next => cases hs

/-! ### Stabilization -/

theorem Inv.read_edge (h : s.Inv root K) (object : ℕ) {i : ID} {n : LocalNode} {p : Node}
    (hn : s.net.node i = some n) (hp : s.net.getPredecessor object i n.getSuccessor.1 = some p) :
    Edge s.joined K (p.idAt i) n.succId := by
  have hpred := s.net.getPredecessor_idAt object i n.getSuccessor.1
  rw [hp, Option.map_some, ← Net.succId_eq hn] at hpred
  exact h.pred_edge hpred.symm

theorem Inv.stabilizeRead (h : s.Inv root K) {object : ℕ} {i : ID}
    (hs : s.stabilizeRead object i = some s') : s.Rests root K s' := by
  unfold Sys.stabilizeRead at hs
  split at hs
  next n hn hm hp =>
    rw [Net.stabilizeRead_of_ping object (h.ping_successor hn), Option.map_some] at hs
    obtain rfl := Option.some.inj hs
    have htouch := h.touch hn
    refine htouch.trans (htouch.inv.setPeriodic fun k hk => ?_)
    obtain rfl := Net.eq_of_node_set (Net.getSuccessor_id hn) hk
    refine (htouch.inv.nodes i _ hk).withPeriodic (Or.inl hm) fun p hx => ?_
    apply htouch.inv.read_edge object hk
    rw [n.getSuccessor_idem, ← hx, s.net.id_eq i n hn]
    rfl
  next => cases hs

/-- A joined node adopts a point that has pointed to its successor; any other node
stays its own successor. -/
theorem Inv.setSuccessor (h : s.Inv root K) {i : ID} {n : LocalNode} {p : Node}
    (hn : s.net.node i = some n) (hm : s.main i = .idle) (hr : ∀ x, s.periodic i ≠ .read x)
    (hedge : Edge s.joined K (p.idAt i) n.succId)
    (hin : (n.idOf p).isInInterval n.getId n.succId = true) :
    s.Rests root K (s.setNode (n.setSuccessor (some p))) ∨
      ¬ s.Ideal ∧ s.Grows root K (s.setNode (n.setSuccessor (some p))) := by
  have hid := s.net.id_eq i n hn
  have hsucc : (n.setSuccessor (some p)).succId = p.idAt i := by
    rw [LocalNode.setSuccessor_succId, Net.idOf_at hn]
  have hok := h.nodes i n hn
  rw [hm] at hok
  have hsi : s.succ i = n.succId := Net.succ_of_node hn
  have harc : InArc i (p.idAt i) n.succId := by
    rwa [Net.idOf_at hn, hid, ID.isInInterval_iff] at hin
  by_cases hsame : p.idAt i = n.succId
  · left
    refine h.setNode (m := n.setSuccessor (some p)) hn hid (hsucc.trans hsame) ?_ fun _ _ => rfl
    rw [hm]
    refine hok.setSuccessor hid (Finset.Subset.refl _) subset_rfl ?_ (Or.inr id) hr
    by_cases hi : i ∈ s.joined
    · exact Or.inr ⟨hi, hsame ▸ hsi ▸ h.succ_mem hi⟩
    · exact Or.inl (hsame.trans (h.succ_unjoined hn hi))
  · right
    have hi : i ∈ s.joined := by
      by_contra hi
      have hown := h.succ_unjoined hn hi
      rcases hedge with hpt | ⟨he, _⟩
      · exact hi (hown ▸ (h.sound.arcs _ _ hpt).2.1)
      · exact hsame he
    rw [← hsi] at hedge harc hsame
    have hpt : (p.idAt i, s.succ i) ∈ K := hedge.pointed (h.succ_mem hi)
    have hmem : p.idAt i ∈ s.joined := (h.sound.arcs _ _ hpt).1
    have hstep : Growth.Step root (s.growth K) ((s.growth K).point i (p.idAt i)) :=
      .adopt hi hpt harc
    have hgrow : s.Grows root K
        { s.setNode (n.setSuccessor (some p)) with joined := insert i s.joined } := by
      refine h.grow hid (hsucc.symm ▸ hstep) ?_
      rw [hm]
      exact hok.setSuccessor hid (Finset.subset_insert _ _) (Set.subset_insert _ _)
        (Or.inr ⟨Finset.mem_insert_self _ _, Finset.mem_insert_of_mem hmem⟩) (Or.inr fun _ => hi) hr
    rw [Finset.insert_eq_of_mem hi] at hgrow
    exact ⟨fun hideal => hsame ((hideal i hi).1.inArc_member hmem harc).2, hgrow⟩

theorem Inv.stabilizeSet (h : s.Inv root K) {i : ID} (hs : s.stabilizeSet i = some s') :
    s.Rests root K s' ∨ ¬ s.Ideal ∧ s.Grows root K s' := by
  unfold Sys.stabilizeSet at hs
  split at hs
  next n x hn hp =>
    have hok := h.nodes i n hn
    have hm : s.main i = .idle := hok.idle (by rw [hp]; rfl)
    have hread := hok.periodicOk
    rw [hp] at hread
    have hnot : s.Rests root K (s.setPeriodic i .notifying) :=
      h.setPeriodic fun k hk => (h.nodes i k hk).withPeriodic (Or.inl hm) trivial
    obtain rfl := Option.some.inj hs
    have htouch := hnot.trans (hnot.inv.touch hn)
    rcases n.stabilizeSet_cases x with ⟨p, rfl, hin, he⟩ | ⟨_, he | he⟩
    · have hnew : (s.setNode n.getSuccessor.2).net.node i = some n.getSuccessor.2 :=
        Net.node_set_self (Net.getSuccessor_id hn)
      have hset := htouch.inv.setSuccessor (p := p) hnew hm
        (fun x hx => by simp only [Sys.setNode, Sys.setPeriodic, Function.update_self] at hx; cases hx)
        (by rw [n.getSuccessor_succId]; exact hread p rfl)
        (by rw [LocalNode.getSuccessor_idOf, LocalNode.getSuccessor_getId, n.getSuccessor_succId]
            exact hin)
      have hsame : n.getSuccessor.2.getId = (n.getSuccessor.2.setSuccessor (some p)).getId := rfl
      rw [setNode_setNode _ hsame, ← he] at hset
      rcases hset with hrest | ⟨hnot, hgrow⟩
      · exact Or.inl (htouch.trans hrest)
      · exact Or.inr ⟨fun hideal => hnot (htouch.ideal hideal), htouch.grows hgrow⟩
    · have hn' : (s.setPeriodic i .notifying).net.node i = some n := hn
      rw [he, setNode_node hn']
      exact Or.inl hnot
    · rw [he]
      exact Or.inl htouch
  next => cases hs

theorem Inv.notify_ideal (h : s.Inv root K) {i : ID} {n : LocalNode} {p : Node}
    (hn : s.net.node i = some n) (hedge : Edge s.joined K (p.idAt i) i) (hideal : s.Ideal)
    (hi : i ∈ s.joined)
    (hc : n.predecessor = none ∨
      ∃ q, n.predId = some q ∧ (n.idOf p).isInInterval q n.getId = true) :
    (n.setPredecessor (some p)).predId = n.predId := by
  have hid := s.net.id_eq i n hn
  have hmem := h.edge_mem hedge hi
  obtain ⟨q, _, hq, hnext⟩ := (hideal i hi).2
  have hpred : n.predId = some q := (Net.pred_of_node hn).symm.trans hq
  rcases hc with hnone | ⟨q', hq', hin⟩
  · rw [LocalNode.predId, hnone] at hpred
    cases hpred
  · obtain rfl : q = q' := Option.some.inj (hpred.symm.trans hq')
    rw [Net.idOf_at hn, hid, ID.isInInterval_iff] at hin
    obtain ⟨hqi, hpi⟩ := hnext.inArc_member hmem hin
    rw [LocalNode.setPredecessor_predId, Option.map_some, Net.idOf_at hn, hpred, hpi, hqi]

theorem Inv.notify (h : s.Inv root K) {i : ID} {n : LocalNode} {p : Node}
    (hn : s.net.node i = some n) (hm : s.main i = .idle) (hedge : Edge s.joined K (p.idAt i) i) :
    s.Rests root K (s.setNode (n.notify p)) := by
  rcases n.notify_cases p with ⟨he, hc⟩ | ⟨he, _⟩
  · rw [he]
    have hid := s.net.id_eq i n hn
    refine h.setNode (m := n.setPredecessor (some p)) hn hid (n.setPredecessor_succId _) ?_ ?_
    · refine (h.nodes i n hn).setPredecessor hid fun q hq => ?_
      rw [← Option.some.inj hq]
      exact ⟨hm, hedge⟩
    · exact fun hideal hi => h.notify_ideal hn hedge hideal hi hc
  · rw [he, setNode_node hn]
    exact h.rests

theorem Inv.stabilizeNotify (h : s.Inv root K) {i : ID} (hs : s.stabilizeNotify i = some s') :
    s.Rests root K s' := by
  unfold Sys.stabilizeNotify at hs
  split at hs
  next n hn hp =>
    have hok := h.nodes i n hn
    have hm : s.main i = .idle := hok.idle (by rw [hp]; rfl)
    have hidle : s.Rests root K (s.setPeriodic i .idle) :=
      h.setPeriodic fun k hk => (h.nodes i k hk).withPeriodic (Or.inl hm) trivial
    have htouch := hidle.trans (hidle.inv.touch hn)
    have hid := Net.getSuccessor_id hn
    obtain rfl := Option.some.inj hs
    cases hsucc : n.getSuccessor.1 with
    | self =>
      simp only [Net.stabilizeNotify, hsucc, Option.toList_none, List.nil_append]
      have hedge : Edge s.joined K i i := by
        by_cases hi : i ∈ s.joined
        · have hcur := h.current hn hi
          rw [hsucc] at hcur
          exact Or.inl hcur
        · exact Or.inr ⟨rfl, hi⟩
      have hnotify := htouch.inv.notify (p := .self) (Net.node_set_self hid) hm hedge
      rw [setNode_setNode _ (LocalNode.notify_getId _ _).symm] at hnotify
      exact htouch.trans hnotify
    | remote o r =>
      simp only [Net.stabilizeNotify, hsucc, Option.toList_some, List.singleton_append]
      have hpt : (n.getSuccessor.2.info.id, r.id) ∈ K := by
        rcases hok.successor with hself | ⟨hi, _, _⟩
        · rw [hsucc] at hself
          cases hself
        · have hcur := h.current hn hi
          rw [hsucc] at hcur
          rw [← LocalNode.getId, hid]
          exact hcur
      refine htouch.trans (htouch.inv.setNotifies fun q hq => ?_)
      rcases List.mem_cons.mp hq with rfl | hq
      · exact hpt
      · exact h.notifies q hq
  next => cases hs

theorem Inv.deliver (h : s.Inv root K) {object k : ℕ} (hs : s.deliver object k = some s') :
    s.Rests root K s' := by
  unfold Sys.deliver at hs
  split at hs
  · cases hs
  next q hq =>
    obtain ⟨d, r⟩ := q
    have hmem := h.notifies _ (List.mem_of_getElem? hq)
    have hd : d ∈ s.joined := (h.sound.arcs _ _ hmem).2.1
    obtain ⟨n, hn⟩ := h.alive d hd
    have hm : s.main d = .idle := (h.nodes d n hn).idle_of_joined hd
    have hnotify := h.notify (p := .remote object r) hn hm (Or.inl hmem)
    obtain rfl := Option.some.inj hs
    simp only [Net.deliverNotify, hn]
    exact hnotify.trans (hnotify.inv.setNotifies fun q hq => h.notifies q (List.mem_of_mem_eraseIdx hq))

/-! ### The other periodic calls -/

theorem Inv.checkPredecessor (h : s.Inv root K) {i : ID} (hs : s.checkPredecessor i = some s') :
    s.Rests root K s' := by
  unfold Sys.checkPredecessor at hs
  split at hs
  next n hn hp =>
    obtain rfl := Option.some.inj hs
    have hid := s.net.id_eq i n hn
    unfold LocalNode.checkPredecessor
    split
    · split
      next p hpr hdead =>
        refine h.setNode (m := n.setPredecessor none) hn hid (n.setPredecessor_succId none)
          ((h.nodes i n hn).setPredecessor hid fun q hq => nomatch hq) fun _ hi => ?_
        have hedge := ((h.nodes i n hn).predecessor p hpr).2
        have hping := h.ping_joined (h.edge_mem hedge hi)
        rw [hdead.2] at hping
        cases hping
      · rw [setNode_node hn]
        exact h.rests
    · rw [setNode_node hn]
      exact h.rests
  next => cases hs

theorem Inv.fixStart (h : s.Inv root K) {i : ID} {rand : ℕ} (hs : s.fixStart i rand = some s') :
    s.Rests root K s' := by
  unfold Sys.fixStart at hs
  split at hs
  next n hn hp =>
    obtain rfl := Option.some.inj hs
    refine h.setPeriodic fun k hk => (h.nodes i k hk).withPeriodic (Or.inr rfl) ⟨?_, Or.inl rfl⟩
    exact fun he => absurd (congrArg Fin.val he) (Nat.succ_ne_zero _)
  next => cases hs

theorem Inv.hop_known (h : s.Inv root K) {i peer : ID} {n m : LocalNode}
    (hn : s.net.node i = some n) (hm : s.net.node peer = some m)
    (hpeer : peer = i ∨ i ∈ s.joined ∧ peer ∈ s.joined ∧ n.finger.entries 0 ≠ none) (id : ID)
    (d : LocalNode) (hd : (s.setNode (m.findSuccessorHop id).2).net.node i = some d) :
    (m.findSuccessorHop id).1.pointer.idAt peer = i ∨ i ∈ s.joined ∧
      (m.findSuccessorHop id).1.pointer.idAt peer ∈ s.joined ∧ d.finger.entries 0 ≠ none := by
  have hknow := ((h.nodes peer m hm).hop id).2.2
  have hid : (m.findSuccessorHop id).2.getId = peer := (m.hop_getId id).trans (s.net.id_eq peer m hm)
  by_cases hpi : peer = i
  · subst hpi
    obtain rfl := Net.eq_of_node_set hid hd
    refine hknow.imp_left fun hself => ?_
    rw [hself]
    rfl
  · have hne : i ≠ (m.findSuccessorHop id).2.getId := fun he => hpi (he.trans hid).symm
    obtain rfl : n = d :=
      Option.some.inj (hn.symm.trans ((Net.node_set_of_ne hne).symm.trans hd))
    obtain ⟨h1, h2, h3⟩ := hpeer.resolve_left hpi
    refine Or.inr ⟨h1, ?_, h3⟩
    rcases hknow with hself | ⟨_, hmem, _⟩
    · rw [hself]
      exact h2
    · exact hmem

theorem Inv.fixHop (h : s.Inv root K) {object : ℕ} {i : ID} (hs : s.fixHop object i = some s') :
    s.Rests root K s' := by
  unfold Sys.fixHop at hs
  split at hs
  next n k peer hn hp =>
    have hper := (h.nodes i n hn).periodicOk
    rw [hp] at hper
    obtain ⟨hk, hpeer⟩ := hper
    split at hs
    · cases hs
    next m hpm =>
      have hhop := h.hop hpm (FingerTable.start i k)
      have hnext := h.hop_known hn hpm hpeer (FingerTable.start i k)
      have htask : ∀ t, t.stabilizing = false →
          (∀ d, (s.setNode (m.findSuccessorHop (FingerTable.start i k)).2).net.node i = some d →
            PeriodicOk s.joined K i d.succId (d.finger.entries 0 ≠ none) t) →
          s.Rests root K
            ((s.setNode (m.findSuccessorHop (FingerTable.start i k)).2).setPeriodic i t) :=
        fun t ht hok => hhop.trans (hhop.inv.setPeriodic fun d hd =>
          (hhop.inv.nodes i d hd).withPeriodic (Or.inr ht) (hok d hd))
      split at hs
      next p m' he =>
        obtain rfl := Option.some.inj hs
        rw [he] at htask hnext
        refine htask _ rfl fun d hd => ⟨hk, ?_⟩
        have hid : (if peer = i then p else .remote object (p.info m.info)).idAt i =
            p.idAt peer := by
          split
          next hpi => rw [hpi]
          next => rw [Node.idAt, ← LocalNode.idOf, Net.idOf_at hpm]
        rw [hid]
        exact hnext d hd
      next p m' he =>
        obtain rfl := Option.some.inj hs
        rw [he] at htask hnext
        exact htask _ rfl fun d hd => ⟨hk, hnext d hd⟩
  next => cases hs

theorem Inv.fixDone (h : s.Inv root K) {i : ID} (hs : s.fixDone i = some s') :
    s.Rests root K s' := by
  unfold Sys.fixDone at hs
  split at hs
  next n k p hn hp =>
    have hok := h.nodes i n hn
    have hper := hok.periodicOk
    rw [hp] at hper
    have hid := s.net.id_eq i n hn
    have hidle : s.Rests root K (s.setPeriodic i .idle) :=
      h.setPeriodic fun k hk => (h.nodes i k hk).withPeriodic (Or.inr rfl) trivial
    have hset := (hidle.inv.nodes i n hn).setFinger hid hper.1 hper.2
    obtain rfl := Option.some.inj hs
    exact hidle.trans (hidle.inv.setNode hn hid hset.2 hset.1 fun _ _ => rfl)
  next => cases hs

/-! ### Steps and runs -/

/-- A step lets the ring rest or is one of the growing ring, and that only where a
join ends or the ring is not ideal. -/
theorem Inv.step (h : s.Inv root K) {object : ℕ} {a : Action} (hs : s.step object a = some s') :
    s.Rests root K s' ∨ ((∃ i, a = .joinDone i) ∨ ¬ s.Ideal) ∧ s.Grows root K s' := by
  cases a with
  | joinStart i peer => exact Or.inl (h.joinStart hs)
  | joinHop i => exact Or.inl (h.joinHop hs)
  | joinDone i => exact Or.inr ⟨Or.inl ⟨i, rfl⟩, h.joinDone hs⟩
  | stabilizeRead i => exact Or.inl (h.stabilizeRead hs)
  | stabilizeSet i => exact (h.stabilizeSet hs).imp_right fun ⟨h1, h2⟩ => ⟨Or.inr h1, h2⟩
  | stabilizeNotify i => exact Or.inl (h.stabilizeNotify hs)
  | deliver k => exact Or.inl (h.deliver hs)
  | fixStart i rand => exact Or.inl (h.fixStart hs)
  | fixHop i => exact Or.inl (h.fixHop hs)
  | fixDone i => exact Or.inl (h.fixDone hs)
  | checkPredecessor i => exact Or.inl (h.checkPredecessor hs)

theorem Inv.run (h : s.Inv root K) {allowed : Action → Prop} (hr : Run allowed s s') :
    ∃ K', s'.Inv root K' ∧ Growth.Run root (s.growth K) (s'.growth K') := by
  induction hr with
  | refl => exact ⟨K, h, .refl⟩
  | tail _ hs ih =>
    obtain ⟨K', hinv, hrun⟩ := ih
    obtain ⟨object, a, _, hs⟩ := hs
    rcases hinv.step hs with hrest | ⟨_, K'', hinv', hgrow⟩
    · exact ⟨K', hrest.inv, hrest.growth ▸ hrun⟩
    · exact ⟨K'', hinv', hrun.tail hgrow⟩

theorem Init.inv (h : Init root s) : s.Inv root {(root, root)} := by
  obtain ⟨n, hn⟩ := h.started
  have hsucc : s.succ root = root := by
    rw [Sys.succ, Net.succ_of_node hn, LocalNode.succId,
      LocalNode.getSuccessor_of_own fun k p hp => h.fingers root n k p hn hp]
    exact s.net.id_eq root n hn
  have hgrowth : s.growth {(root, root)} = Growth.start root s.succ :=
    congrArg (Growth.mk · s.succ {(root, root)}) h.joined
  refine ⟨hgrowth ▸ Growth.start_sound hsucc, fun i hi => ?_, fun i m hm => ?_, fun q hq => ?_⟩
  · rw [h.joined, Finset.mem_singleton] at hi
    exact ⟨n, hi ▸ hn⟩
  · rw [h.main, h.periodic]
    refine ⟨fun k p hp => Or.inl (h.fingers i m k p hm hp), fun _ k p hp => h.fingers i m k p hm hp,
      fun p hp => ⟨rfl, ?_⟩, trivial, Or.inl rfl, trivial⟩
    rw [h.predecessor i m p hm hp, Node.idAt, h.joined]
    by_cases hi : i = root
    · exact Or.inl (hi ▸ rfl)
    · exact Or.inr ⟨rfl, fun hmem => hi (Finset.mem_singleton.mp hmem)⟩
  · rw [h.notifies] at hq
    cases hq

theorem Reachable.inv (h : Reachable root s) : ∃ K, s.Inv root K := by
  obtain ⟨start, hstart, hrun⟩ := h
  obtain ⟨K, hinv, _⟩ := hstart.inv.run hrun
  exact ⟨K, hinv⟩

theorem Reachable.run {allowed : Action → Prop} (h : Reachable root s) (hr : Run allowed s s') :
    Reachable root s' := by
  obtain ⟨start, hstart, hrun⟩ := h
  exact ⟨start, hstart, hrun.trans (hr.mono fun _ _ => trivial)⟩

end Sys

end ChordChat
