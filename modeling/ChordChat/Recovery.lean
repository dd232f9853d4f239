import ChordChat.Clockwise.Mending
import ChordChat.FingerSlots
import ChordChat.Rounds

/-!
# Recovery from failures

Some nodes of an ideal ring fail, and at most one of the others loses its successor (one
failed node, or neighbours). The survivors go on with what `periodic` calls,
`checkPredecessor` and `stabilize`, in rounds and in any order within a round. After
as many rounds as there are survivors and two more the ring of the survivors is
ideal, whatever the finger tables hold (`failure_repaired`).
-/

namespace ChordChat
open Clockwise

namespace Net

def checkPredecessor (net : Net) (i : ID) : Net :=
  net.onNode i fun n => net.set (n.checkPredecessor net.ping)

/-- Two of the calls that `periodic` makes in a pass. -/
def maintain (object : ℕ) (net : Net) (i : ID) : Net :=
  (net.checkPredecessor i).stabilize object i

def killAll (net : Net) (failed : Finset ID) : Net where
  node i := if i ∈ failed then none else net.node i
  id_eq i n h := by
    split at h
    · cases h
    · exact net.id_eq i n h

def table (net : Net) (i : ID) : Option FingerTable := (net.node i).map LocalNode.finger

/-- The first node of the finger table of `i` that answers. -/
def live (net : Net) (i : ID) : ID := (net.node i).elim i fun n => (n.firstLive net.ping).idAt i

variable {net : Net} {i j : ID} {n : LocalNode}

theorem table_set (net : Net) (n : LocalNode) (j : ID) :
    (net.set n).table j = if j = n.getId then some n.finger else net.table j := by
  rw [table, node_set]
  split <;> rfl

theorem live_of_node (hn : net.node i = some n) : net.live i = (n.firstLive net.ping).idAt i := by
  rw [live, hn, Option.elim_some]

/-! ### `checkPredecessor` -/

theorem checkPredecessor_getId (n : LocalNode) (ping : Node → Bool) :
    (n.checkPredecessor ping).getId = n.getId := by
  rw [LocalNode.getId, LocalNode.checkPredecessor_info, LocalNode.getId]

theorem checkPredecessor_succId (n : LocalNode) (ping : Node → Bool) :
    (n.checkPredecessor ping).succId = n.succId := by
  unfold LocalNode.checkPredecessor
  split
  · split
    · exact n.setPredecessor_succId none
    · rfl
  · rfl

theorem checkPredecessor_predId (hn : net.node i = some n) :
    (n.checkPredecessor net.ping).predId = n.predId.filter fun x => (net.node x).isSome := by
  have hi : net.Alive i := alive_of_node hn
  unfold LocalNode.checkPredecessor LocalNode.predId
  cases hp : n.predecessor with
  | none => rw [hp]; rfl
  | some p =>
    have hping := ping_iff hi p
    rw [Option.map_some, Option.filter_some, idOf_at hn]
    cases p with
    | self =>
      have hsome : (net.node i).isSome = true := hi
      simp only [ne_eq, not_true_eq_false, false_and, if_false, hp, Option.map_some, Node.idAt, hsome,
        if_true]
      rw [LocalNode.idOf_self, net.id_eq i n hn]
    | remote o r =>
      by_cases hr : net.ping (.remote o r) = true
      · have hsome : (net.node r.id).isSome = true := hping.mp hr
        simp [hr, hp, Node.idAt, hsome]
      · have hnone : ¬ (net.node r.id).isSome = true := fun h => hr (hping.mpr h)
        simp [hr, Node.idAt, hnone, LocalNode.setPredecessor, LocalNode.thisIfOwn]

theorem checkPredecessor_spec (net : Net) (i : ID) :
    (net.checkPredecessor i).succ = net.succ ∧
      (net.checkPredecessor i).pred = Function.update net.pred i
        ((net.pred i).filter fun x => (net.node x).isSome) ∧
      (net.checkPredecessor i).table = net.table ∧
      ∀ j, (net.checkPredecessor i).Alive j ↔ net.Alive j := by
  unfold checkPredecessor onNode
  cases hn : net.node i with
  | none =>
    have hpred : net.pred i = none := by rw [pred, hn, Option.bind_none]
    refine ⟨rfl, ?_, rfl, fun _ => Iff.rfl⟩
    rw [hpred, Option.filter_none, ← hpred, Function.update_eq_self]
  | some n =>
    have hid : (n.checkPredecessor net.ping).getId = i :=
      (checkPredecessor_getId n _).trans (net.id_eq i n hn)
    refine ⟨succ_set_eq hn hid (checkPredecessor_succId n _), ?_, ?_, ?_⟩
    · funext j
      rw [pred_set, hid, Function.update_apply, checkPredecessor_predId hn, pred_of_node hn]
    · funext j
      rw [table_set, hid, LocalNode.checkPredecessor_finger]
      split
      next hj => rw [hj, table, hn, Option.map_some]
      next => rfl
    · exact alive_set (hid.symm ▸ alive_of_node hn)

/-! ### `stabilize` -/

/-- The successor of `i` after `stabilize`, which starts at the first node that answers. -/
def chosen (net : Net) (i : ID) : ID :=
  ((net.pred (net.live i)).filter fun x => x.isInInterval i (net.live i)).getD (net.live i)

theorem notifySuccessor_lost (object : ℕ) (hn : net.node i = some n) (hd : ¬ net.Alive n.succId) :
    (net.notifySuccessor object n).pred = net.pred := by
  have hid := getSuccessor_id hn
  have hs := succId_eq hn
  have hpred : (net.set n.getSuccessor.2).pred = net.pred :=
    pred_set_eq hn hid n.getSuccessor_predId
  cases hp : n.getSuccessor.1 with
  | self =>
    rw [hs, hp, Node.idAt] at hd
    exact absurd (alive_of_node hn) hd
  | remote o r =>
    rw [hs, hp, Node.idAt] at hd
    have hri : r.id ≠ i := fun he => hd (he ▸ alive_of_node hn)
    have hnone : (net.set n.getSuccessor.2).node r.id = none := by
      rw [node_set_of_ne (by rwa [hid])]
      exact Option.not_isSome_iff_eq_none.mp hd
    simp only [notifySuccessor, stabilizeNotify, hp, deliverNotify, hnone]
    exact hpred

theorem stabilize_chosen (object : ℕ) (hi : net.Alive i) :
    (net.stabilize object i).succ = Function.update net.succ i (net.chosen i) ∧
      (net.Alive (net.chosen i) → (net.stabilize object i).pred =
        Function.update net.pred (net.chosen i) (net.notified i (net.chosen i))) ∧
      (¬ net.Alive (net.chosen i) → (net.stabilize object i).pred = net.pred) ∧
      ∀ j, (net.stabilize object i).Alive j ↔ net.Alive j := by
  obtain ⟨n, hn⟩ := Option.isSome_iff_exists.mp hi
  obtain ⟨m, heq, hm, hfirst, hpred, hping, halive⟩ := stabilize_loop object hn
  have hid : m.getId = i := (net.set m).id_eq i m hm
  have hlive := live_of_node hn
  have hsucc : (net.set m).succ = Function.update net.succ i (net.live i) := by
    rw [succ_set_update hid, succId_eq hm, hfirst, hlive]
  have hadopted : (net.set m).adopted i = net.chosen i := by
    rw [adopted, hsucc, Function.update_self, hpred, chosen]
  have hide : ((net.set m).exchanged object m).getId = i := (exchanged_getId object _ m).trans hid
  have hnode : ((net.set m).set ((net.set m).exchanged object m)).node i =
      some ((net.set m).exchanged object m) := node_set_self hide
  have hsucce : ((net.set m).set ((net.set m).exchanged object m)).succ =
      Function.update net.succ i (net.chosen i) := by
    rw [succ_set_update hide, exchanged_succId object hm, hadopted, hsucc, Function.update_idem]
  have hframe := notifySuccessor_frame object hnode
  rw [heq]
  refine ⟨?_, ?_, ?_, ?_⟩
  · rw [stabilize_eq object hm (hfirst ▸ hping), hframe.1, hsucce]
  · intro ha
    have hd := Option.isSome_iff_exists.mp ((halive _).mpr ha)
    rw [← hadopted] at hd
    have hspec := (stabilize_spec object hm (hfirst ▸ hping) hd).2
    rwa [hadopted, hpred, notified, hpred] at hspec
  · intro ha
    have hd : ¬ ((net.set m).set ((net.set m).exchanged object m)).Alive
        ((net.set m).exchanged object m).succId := by
      rw [alive_set (by rw [hide]; exact alive_of_node hm), halive, exchanged_succId object hm,
        hadopted]
      exact ha
    rw [stabilize_eq object hm (hfirst ▸ hping), notifySuccessor_lost object hnode hd, ← hpred]
    exact pred_set_eq hm hide (exchanged_predId object _ m)
  · intro j
    rw [stabilize_eq object hm (hfirst ▸ hping), hframe.2,
      alive_set (by rw [hide]; exact alive_of_node hm), halive]

/-! ### Finger tables -/

theorem deliverNotify_table (object : ℕ) (net : Net) (m : ID × INode) :
    (net.deliverNotify object m).table = net.table := by
  unfold deliverNotify
  cases hd : net.node m.1 with
  | none => rfl
  | some d =>
    funext j
    have hfinger : (d.notify (.remote object m.2)).finger = d.finger := by
      rcases d.notify_cases (.remote object m.2) with ⟨he, _⟩ | ⟨he, _⟩ <;> rw [he]
      rfl
    rw [table_set, LocalNode.notify_getId, net.id_eq _ d hd, hfinger]
    split
    next hj => rw [hj, table, hd, Option.map_some]
    next => rfl

theorem notifySuccessor_table (object : ℕ) (hn : net.node i = some n) :
    (net.notifySuccessor object n).table =
      Function.update net.table i (some n.getSuccessor.2.finger) := by
  have hid := getSuccessor_id hn
  have hset : ∀ m : LocalNode, m.getId = i → (net.set m).table =
      Function.update net.table i (some m.finger) := by
    intro m hm
    funext j
    rw [table_set, hm, Function.update_apply]
  cases hp : n.getSuccessor.1 with
  | self =>
    have hfinger : (n.getSuccessor.2.notify .self).finger = n.getSuccessor.2.finger := by
      rcases n.getSuccessor.2.notify_cases .self with ⟨he, _⟩ | ⟨he, _⟩ <;> rw [he]
      rfl
    simp only [notifySuccessor, stabilizeNotify, hp]
    rw [hset _ ((LocalNode.notify_getId _ _).trans hid), hfinger]
  | remote o r =>
    simp only [notifySuccessor, stabilizeNotify, hp]
    rw [deliverNotify_table, hset _ hid]

/-- `stabilize` in one equation: the ping loop, the exchange and the notification. -/
theorem stabilize_whole (object : ℕ) (hn : net.node i = some n) :
    ∃ m, LocalNode.liveSuccessor net.ping (M + 1) n = some (n.firstLive net.ping, m) ∧
      m.getId = i ∧ m.getSuccessor = (n.firstLive net.ping, m) ∧
      ∃ x, x.map (Node.idAt i) = net.pred (net.live i) ∧ net.stabilize object i =
        (net.set (m.stabilizeSet x)).notifySuccessor object (m.stabilizeSet x) := by
  obtain ⟨m, hm, hsucc, hinfo, hpredm⟩ := LocalNode.liveSuccessor_spec
    (rfl : net.ping .self = true) (M + 1) n (by have := n.finger.occupied_card_le; omega)
  have hid : m.getId = i := by
    rw [LocalNode.getId, hinfo]
    exact net.id_eq i n hn
  have hpred : m.predId = n.predId := by
    rw [LocalNode.predId, LocalNode.predId, hpredm]
    refine congrArg (fun f => Option.map f n.predecessor) (funext fun p => ?_)
    rw [LocalNode.idOf, LocalNode.idOf, hinfo]
  refine ⟨m, hm, hid, hsucc, (net.set m).getPredecessor object i (n.firstLive net.ping), ?_, ?_⟩
  · rw [getPredecessor_idAt, pred_set_eq hn hid hpred, live_of_node hn]
  · have hsame : ∀ x, m.getId = (m.stabilizeSet x).getId := fun x => by
      rw [LocalNode.getId, LocalNode.getId, m.stabilizeSet_info]
    have hnode : (net.set m).node i = some m := node_set_self hid
    simp only [stabilize, onNode, hn, stabilizeRead, hm, Option.map_some, hsucc, hid, hnode,
      set_set (hsame _)]
    rw [node_set_self ((hsame _).symm.trans hid)]
    rfl

theorem stabilize_table_ne (object : ℕ) (hji : j ≠ i) :
    (net.stabilize object i).table j = net.table j := by
  cases hn : net.node i with
  | none => simp only [stabilize, onNode, hn]
  | some n =>
    obtain ⟨m, _, hid, _, x, _, heq⟩ := stabilize_whole object hn
    have hidx : (m.stabilizeSet x).getId = i := by
      rw [LocalNode.getId, m.stabilizeSet_info]
      exact hid
    rw [heq, notifySuccessor_table object (node_set_self hidx), Function.update_of_ne hji, table_set,
      hidx, if_neg hji]

/-- The finger table of `i` holds nodes of `J` only. -/
def Knows (net : Net) (J : Finset ID) (i : ID) : Prop :=
  ∀ t, net.table i = some t → ∀ k p, t.entries k = some p → p.idAt i ∈ J

theorem Knows.stabilize {J : Finset ID} (h : net.Knows J i) (object : ℕ) (hi : net.Alive i)
    (hJ : i ∈ J) (hpred : ∀ x, net.pred (net.live i) = some x → x ∈ J) :
    (net.stabilize object i).Knows J i := by
  obtain ⟨n, hn⟩ := Option.isSome_iff_exists.mp hi
  obtain ⟨m, hloop, hid, hsucc, x, hx, heq⟩ := stabilize_whole object hn
  have hidx : (m.stabilizeSet x).getId = i := by
    rw [LocalNode.getId, m.stabilizeSet_info]
    exact hid
  have hold : ∀ k p, m.finger.entries k = some p → p.idAt i ∈ J := by
    intro k p hp
    rcases (LocalNode.liveSuccessor_slots rfl hloop).2 k p hp with hq | ⟨_, hq, _⟩
    · exact h n.finger (by rw [table, hn, Option.map_some]) k p hq
    · rw [hq]
      exact hJ
  have hset : ∀ k p, (m.stabilizeSet x).finger.entries k = some p → p.idAt i ∈ J := by
    intro k p hp
    rcases m.stabilizeSet_cases x with ⟨q, hq, _, he⟩ | ⟨_, he | he⟩
    · rw [he, hsucc, LocalNode.setSuccessor, FingerTable.entries_setNode] at hp
      split at hp
      · rw [LocalNode.thisIfOwn, Option.map_some, Option.some_inj] at hp
        split at hp
        · rw [← hp]
          exact hJ
        · rw [← hp]
          exact hpred _ (hx.symm.trans (by rw [hq, Option.map_some]))
      · exact hold k p hp
    · exact hold k p (he ▸ hp)
    · rw [he, hsucc] at hp
      exact hold k p hp
  intro t ht k p hp
  rw [heq, notifySuccessor_table object (node_set_self hidx), Function.update_self,
    Option.some_inj] at ht
  rw [← ht] at hp
  rcases (m.stabilizeSet x).getSuccessor_cases with ⟨s, _, he⟩ | ⟨hnone, he⟩
  · rw [he] at hp
    exact hset k p hp
  · rw [he, FingerTable.entries_setNode] at hp
    split at hp
    · rw [← Option.some.inj hp]
      exact hJ
    · rw [hnone k] at hp
      cases hp

theorem Knows.live_mem {J S : Finset ID} (h : net.Knows J i)
    (halive : ∀ j ∈ J, net.Alive j ↔ j ∈ S) (hi : net.Alive i) (hS : i ∈ S) : net.live i ∈ S := by
  obtain ⟨n, hn⟩ := Option.isSome_iff_exists.mp hi
  have hping := n.firstLive_ping (rfl : net.ping .self = true)
  rw [live_of_node hn]
  unfold LocalNode.firstLive at hping ⊢
  cases hf : (n.finger.live net.ping).getNode 0 with
  | none => exact hS
  | some p =>
    rw [hf, Option.getD_some] at hping
    obtain ⟨k, hk⟩ := FingerTable.entry_of_getNode hf
    have hentry : n.finger.entries k = some p := (Option.filter_eq_some_iff.mp hk).1
    have hmem := h n.finger (by rw [table, hn, Option.map_some]) k p hentry
    exact (halive _ hmem).mp ((ping_iff hi p).mp hping)

theorem live_of_alive (hi : net.Alive i) (hs : net.Alive (net.succ i)) : net.live i = net.succ i := by
  obtain ⟨n, hn⟩ := Option.isSome_iff_exists.mp hi
  rw [succ_of_node hn, succId_eq hn] at hs ⊢
  rw [live_of_node hn, LocalNode.firstLive_of_ping ((ping_iff hi _).mpr hs)]

/-! ### The ring with a gap -/

/-- The survivors `S` of the ring `J` have closed up but for the pointer of `i`, whose next
survivor is `n`. -/
structure Mends (net : Net) (J S : Finset ID) (i n : ID) : Prop where
  sub : S ⊆ J
  alive : ∀ j ∈ J, net.Alive j ↔ j ∈ S
  knows : net.Knows J i
  shape : Mending J S i n net.succ net.pred

/-- The predecessor of `n`, if there is one, has not failed. -/
def Clean (net : Net) (n : ID) : Prop := ∀ x, net.pred n = some x → net.Alive x

def Mended (net : Net) (i n : ID) : Prop := net.succ i = n ∧ net.pred n = some i

/-- How many survivors the pointer of `i` passes over; all of them, while it is dead. -/
noncomputable def gap (net : Net) (S : Finset ID) (i : ID) : ℕ :=
  if (net.node (net.succ i)).isSome then (between S i (net.succ i)).card else S.card

namespace Mends
variable {J S : Finset ID} {w : ID}

theorem alive_of_mem (h : net.Mends J S i w) (hj : j ∈ S) : net.Alive j :=
  (h.alive j (h.sub hj)).mpr hj

theorem clean_cases (h : net.Mends J S i w) (hc : net.Clean w) :
    net.pred w = none ∨ net.Mended i w := by
  rcases h.shape.gap with hnone | ⟨x, hx, hb, hxS, _⟩ | hmended
  · exact Or.inl hnone
  · exact absurd ((h.alive x hx).mp (hc x hb)) hxS
  · exact Or.inr hmended

theorem clean_of_mended (h : net.Mends J S i w) (hm : net.Mended i w) : net.Clean w := by
  intro x hx
  rw [hm.2, Option.some_inj] at hx
  exact hx ▸ h.alive_of_mem h.shape.own

/-- What stays when the successors, the predecessors and the table of `i` do. -/
theorem congr (h : net.Mends J S i w) {net' : Net} (hsucc : net'.succ = net.succ)
    (hpred : net'.pred = net.pred) (htable : net'.table i = net.table i)
    (halive : ∀ j, net'.Alive j ↔ net.Alive j) : net'.Mends J S i w where
  sub := h.sub
  alive j hj := (halive j).trans (h.alive j hj)
  knows := by
    intro t ht
    exact h.knows t (htable ▸ ht)
  shape := by
    rw [hsucc, hpred]
    exact h.shape

theorem checkPredecessor (h : net.Mends J S i w) (j : ID) :
    (net.checkPredecessor j).Mends J S i w ∧ (net.checkPredecessor j).succ = net.succ ∧
      (∀ k, (net.checkPredecessor j).Alive k ↔ net.Alive k) ∧
      (net.Clean w ∨ j = w → (net.checkPredecessor j).Clean w) ∧
      (net.Mended i w → (net.checkPredecessor j).Mended i w) := by
  obtain ⟨hsucc, hpred, htable, halive⟩ := checkPredecessor_spec net j
  have hkeep : ∀ d q, net.pred d = some q → net.Alive q →
      (net.checkPredecessor j).pred d = some q := by
    intro d q hq hlive
    have hsome : (net.node q).isSome = true := hlive
    rw [hpred, Function.update_apply]
    split
    next hd => rw [← hd, hq, Option.filter_some, if_pos hsome]
    next => exact hq
  have hless : ∀ d q, (net.checkPredecessor j).pred d = some q →
      net.pred d = some q ∧ (d = j → net.Alive q) := by
    intro d q hq
    rw [hpred, Function.update_apply] at hq
    split at hq
    next hd =>
      obtain ⟨hold, hlive⟩ := Option.filter_eq_some_iff.mp hq
      exact ⟨hd ▸ hold, fun _ => hlive⟩
    next hd => exact ⟨hq, fun he => absurd he hd⟩
  have hmended : net.Mended i w → (net.checkPredecessor j).Mended i w := by
    intro hm
    exact ⟨hsucc ▸ hm.1, hkeep w i hm.2 (h.alive_of_mem h.shape.own)⟩
  refine ⟨⟨h.sub, fun k hk => (halive k).trans (h.alive k hk), ?_, ?_⟩, hsucc, halive, ?_, hmended⟩
  · intro t ht
    exact h.knows t (htable ▸ ht)
  · refine ⟨h.shape.own, h.shape.next, fun k hk hki => ?_, ?_⟩
    · rw [hsucc]
      have hother := h.shape.others k hk hki
      exact ⟨hother.1, hkeep _ k hother.2 (h.alive_of_mem hk)⟩
    · cases hq : (net.checkPredecessor j).pred w with
      | none => exact Or.inl rfl
      | some q =>
        have hold := (hless w q hq).1
        rcases h.shape.gap with hnone | ⟨x, hx, hb, hxS, hin⟩ | hm
        · rw [hnone] at hold
          cases hold
        · refine Or.inr (Or.inl ⟨x, hx, ?_, hxS, hin⟩)
          rw [← hb, hold]
        · exact Or.inr (Or.inr ⟨hsucc ▸ hm.1, hold.symm.trans hm.2⟩)
  · intro hc x hx
    obtain ⟨hold, hlive⟩ := hless w x hx
    rw [halive]
    rcases hc with hc | hjw
    · exact hc x hold
    · exact hlive hjw.symm

theorem stabilize_other (h : net.Mends J S i w) (object : ℕ) (hj : j ∈ S) (hji : j ≠ i) :
    (net.stabilize object j).Mends J S i w ∧ (net.stabilize object j).succ = net.succ ∧
      (net.stabilize object j).pred = net.pred ∧
      ∀ k, (net.stabilize object j).Alive k ↔ net.Alive k := by
  obtain ⟨hnext, hback⟩ := h.shape.others j hj hji
  have halive := h.alive_of_mem hj
  have hsucc : net.Alive (net.succ j) := h.alive_of_mem hnext.1
  obtain ⟨hadopted, hnotified⟩ := Sys.quiet_of_back hback
  have hchosen : net.chosen j = net.succ j := by
    rw [chosen, live_of_alive halive hsucc]
    exact hadopted
  obtain ⟨hs, hp, _, hframe⟩ := stabilize_chosen object halive
  rw [hchosen] at hs hp
  rw [hadopted] at hnotified
  have hs' : (net.stabilize object j).succ = net.succ := by rw [hs, Function.update_eq_self]
  have hp' : (net.stabilize object j).pred = net.pred := by
    rw [hp hsucc, hnotified, Function.update_eq_self]
  exact ⟨h.congr hs' hp' (stabilize_table_ne object (Ne.symm hji)) hframe, hs', hp', hframe⟩

theorem live_mem (h : net.Mends J S i w) : net.live i ∈ S :=
  h.knows.live_mem h.alive (h.alive_of_mem h.shape.own) h.shape.own

theorem live_of_mended (h : net.Mends J S i w) (hm : net.Mended i w) : net.live i = w := by
  have hsucc : net.Alive (net.succ i) := hm.1.symm ▸ h.alive_of_mem h.shape.next.1
  rw [live_of_alive (h.alive_of_mem h.shape.own) hsucc, hm.1]

theorem between_le_gap (h : net.Mends J S i w) : (between S i (net.live i)).card ≤ net.gap S i := by
  unfold gap
  split
  next hsome => rw [live_of_alive (h.alive_of_mem h.shape.own) hsome]
  next => exact (between_card_lt h.live_mem).le

/-- The survivors but `i` do not point to its next survivor. -/
theorem succ_ne (h : net.Mends J S i w) (hj : j ∈ S) (hji : j ≠ i) : net.succ j ≠ w := by
  intro he
  have hnext := (h.shape.others j hj hji).1
  exact hji ((he ▸ hnext).unique_left hj h.shape.own h.shape.next)

/-- A stabilization of `i` that leaves the predecessors of all survivors alone. -/
theorem of_pred_kept (h : net.Mends J S i w) (object : ℕ)
    (hs : ∃ c, (net.stabilize object i).succ = Function.update net.succ i c)
    (hp : (net.stabilize object i).pred = net.pred) (hm : ¬ net.Mended i w)
    (hframe : ∀ j, (net.stabilize object i).Alive j ↔ net.Alive j)
    (hknows : (net.stabilize object i).Knows J i) : (net.stabilize object i).Mends J S i w := by
  obtain ⟨c, hs⟩ := hs
  refine ⟨h.sub, fun j hj => (hframe j).trans (h.alive j hj), hknows, h.shape.own, h.shape.next,
    fun j hj hji => ?_, ?_⟩
  · rw [hs, Function.update_of_ne hji, hp]
    exact h.shape.others j hj hji
  · rw [hp]
    rcases h.shape.gap with hnone | hdead | hmended
    · exact Or.inl hnone
    · exact Or.inr (Or.inl hdead)
    · exact absurd hmended hm

/-- A stabilization of `i` that tells its next survivor. -/
theorem of_told (h : net.Mends J S i w) (object : ℕ)
    (hs : (net.stabilize object i).succ = Function.update net.succ i w)
    (hp : (net.stabilize object i).pred = Function.update net.pred w (some i))
    (hframe : ∀ j, (net.stabilize object i).Alive j ↔ net.Alive j)
    (hknows : (net.stabilize object i).Knows J i) :
    (net.stabilize object i).Mends J S i w ∧ (net.stabilize object i).Mended i w := by
  have hmended : (net.stabilize object i).Mended i w := by
    rw [Mended, hs, hp, Function.update_self, Function.update_self]
    exact ⟨rfl, rfl⟩
  refine ⟨⟨h.sub, fun j hj => (hframe j).trans (h.alive j hj), hknows, h.shape.own, h.shape.next,
    fun j hj hji => ?_, Or.inr (Or.inr hmended)⟩, hmended⟩
  rw [hs, Function.update_of_ne hji, hp, Function.update_of_ne (h.succ_ne hj hji)]
  exact h.shape.others j hj hji

/-- `stabilize` at the survivor that has lost its successor. -/
theorem stabilize_own (h : net.Mends J S i w) (object : ℕ) :
    (net.stabilize object i).Mends J S i w ∧
      (net.Clean w → (net.stabilize object i).Clean w ∧
        ((net.stabilize object i).Mended i w ∨
          (net.stabilize object i).gap S i < net.gap S i)) ∧
      (net.Mended i w → (net.stabilize object i).Mended i w) := by
  have hi := h.alive_of_mem h.shape.own
  have hw := h.alive_of_mem h.shape.next.1
  obtain ⟨hs, hp, hlost, hframe⟩ := stabilize_chosen object hi
  have hknows : (net.stabilize object i).Knows J i := by
    apply h.knows.stabilize object hi (h.sub h.shape.own)
    intro x hx
    by_cases hu : net.live i = w
    · rw [hu] at hx
      rcases h.shape.gap with hnone | ⟨y, hy, hb, _, _⟩ | hm
      · rw [hnone] at hx
        cases hx
      · rw [hb, Option.some_inj] at hx
        exact hx ▸ hy
      · rw [hm.2, Option.some_inj] at hx
        exact hx ▸ h.sub h.shape.own
    · obtain ⟨v, hv, _, hb, _⟩ := h.shape.back h.live_mem hu
      rw [hb, Option.some_inj] at hx
      exact hx ▸ h.sub hv
  by_cases hu : net.live i = w
  · -- `i` has found its next survivor and tells it, unless that one leads it back into the gap
    have htold : (∀ x, net.pred w = some x → x = i) →
        net.chosen i = w ∧ net.notified i w = some i := by
      intro honly
      unfold chosen notified
      rw [hu]
      cases hq : net.pred w with
      | none => exact ⟨rfl, rfl⟩
      | some x =>
        obtain rfl := honly x hq
        rw [Option.filter_some]
        refine ⟨?_, by rw [ite_self]⟩
        split
        next hin =>
          rcases ID.isInInterval_iff.mp hin with he | hb
          · exact he
          · exact absurd hb sbtw_irrefl_left
        next => rfl
    by_cases hclean : net.Clean w
    · have honly : ∀ x, net.pred w = some x → x = i := by
        intro x hx
        rcases h.clean_cases hclean with hnone | hm
        · rw [hnone] at hx
          cases hx
        · rw [hm.2, Option.some_inj] at hx
          exact hx.symm
      obtain ⟨hchosen, hnotified⟩ := htold honly
      rw [hchosen] at hs hp
      rw [hnotified] at hp
      obtain ⟨hmends, hmended⟩ := h.of_told object hs (hp hw) hframe hknows
      exact ⟨hmends, fun _ => ⟨hmends.clean_of_mended hmended, Or.inl hmended⟩, fun _ => hmended⟩
    · have hnot : ¬ net.Mended i w := fun hm => hclean (h.clean_of_mended hm)
      obtain ⟨x, hx, hb, hxS, hin⟩ : ∃ x ∈ J, net.pred w = some x ∧ x ∉ S ∧ InArc i x w := by
        rcases h.shape.gap with hnone | hdead | hm
        · exact absurd (fun x hx => (by rw [hnone] at hx; cases hx)) hclean
        · exact hdead
        · exact absurd hm hnot
      have hchosen : net.chosen i = x := by
        rw [chosen, hu, hb, Option.filter_some, if_pos (ID.isInInterval_iff.mpr hin),
          Option.getD_some]
      have hdead : ¬ net.Alive (net.chosen i) := by
        rw [hchosen, h.alive x hx]
        exact hxS
      exact ⟨h.of_pred_kept object ⟨_, hs⟩ (hlost hdead) hnot hframe hknows,
        fun hc => absurd hc hclean, fun hm => absurd hm hnot⟩
  · -- `i` goes back one survivor
    have hnot : ¬ net.Mended i w := fun hm => hu (h.live_of_mended hm)
    obtain ⟨v, hv, hvi, hb, hnext, hin, hless⟩ := h.shape.back h.live_mem hu
    have hchosen : net.chosen i = v := by
      rw [chosen, hb, Option.filter_some, if_pos (ID.isInInterval_iff.mpr hin), Option.getD_some]
    have hvalive := h.alive_of_mem hv
    rw [hchosen] at hs hp
    have hgap : (net.stabilize object i).gap S i < net.gap S i := by
      have hle := h.between_le_gap
      have hsucc : (net.stabilize object i).succ i = v := by rw [hs, Function.update_self]
      have hsome : ((net.stabilize object i).node v).isSome = true := (hframe v).mpr hvalive
      rw [gap, hsucc, if_pos hsome]
      omega
    have hkeep : ∀ t, net.pred v = some t → ¬ InArc t i v → net.notified i v = net.pred v := by
      intro t ht hout
      rw [notified, ht, Option.all_some, if_neg (fun hh => hout (ID.isInInterval_iff.mp hh))]
    have hsame : net.notified i v = net.pred v →
        (net.stabilize object i).pred = net.pred := by
      intro he
      rw [hp hvalive, he, Function.update_eq_self]
    by_cases hvw : v = w
    · subst hvw
      by_cases hclean : net.Clean v
      · have hnone : net.pred v = none := (h.clean_cases hclean).resolve_right hnot
        have hnotified : net.notified i v = some i := by
          rw [notified, hnone]
          rfl
        have hp' := hp hvalive
        rw [hnotified] at hp'
        obtain ⟨hmends, hmended⟩ := h.of_told object hs hp' hframe hknows
        exact ⟨hmends, fun _ => ⟨hmends.clean_of_mended hmended, Or.inl hmended⟩, fun _ => hmended⟩
      · obtain ⟨x, _, hbx, _, hinx⟩ : ∃ x ∈ J, net.pred v = some x ∧ x ∉ S ∧ InArc i x v := by
          rcases h.shape.gap with hnone | hdead | hm
          · exact absurd (fun x hx => (by rw [hnone] at hx; cases hx)) hclean
          · exact hdead
          · exact absurd hm hnot
        have hiv : i ≠ v := hvi.symm
        have hbtw := (inArc_of_ne hiv).mp hinx
        have hout : ¬ InArc x i v := by
          rintro (he | hb')
          · exact sbtw_ne_right hbtw he
          · exact sbtw_not_swap hbtw hb'.cyclic_left
        have hpred := hsame (hkeep x hbx hout)
        exact ⟨h.of_pred_kept object ⟨_, hs⟩ hpred hnot hframe hknows,
          fun hc => absurd hc hclean, fun hm => absurd hm hnot⟩
    · obtain ⟨t, _, _, hbt, hnextt, _⟩ := h.shape.back hv hvw
      have hout : ¬ InArc t i v := fun hin' => hvi (hnextt.inArc_member h.shape.own hin').2.symm
      have hpred := hsame (hkeep t hbt hout)
      refine ⟨h.of_pred_kept object ⟨_, hs⟩ hpred hnot hframe hknows, fun hc => ⟨?_, Or.inr hgap⟩,
        fun hm => absurd hm hnot⟩
      intro x hx
      rw [hpred] at hx
      exact (hframe x).mpr (hc x hx)

/-! ### Runs of maintenance calls -/

/-- What a call of any survivor keeps and achieves. -/
structure Better (net net' : Net) (J S : Finset ID) (i w : ID) : Prop where
  mends : net'.Mends J S i w
  clean : net.Clean w → net'.Clean w
  mended : net.Mended i w → net'.Mended i w
  gap : net.Clean w → net'.Mended i w ∨ net'.gap S i ≤ net.gap S i

theorem Better.trans {a b c : Net} (hab : Better a b J S i w) (hbc : Better b c J S i w) :
    Better a c J S i w where
  mends := hbc.mends
  clean hc := hbc.clean (hab.clean hc)
  mended hm := hbc.mended (hab.mended hm)
  gap hc := by
    rcases hab.gap hc with hm | hle
    · exact Or.inl (hbc.mended hm)
    · exact (hbc.gap (hab.clean hc)).imp_right fun hle' => hle'.trans hle

theorem gap_congr {net' : Net} (hsucc : net'.succ = net.succ)
    (halive : ∀ k, net'.Alive k ↔ net.Alive k) : net'.gap S i = net.gap S i := by
  have hsome : (net'.node (net.succ i)).isSome = (net.node (net.succ i)).isSome :=
    Bool.eq_iff_iff.mpr (halive _)
  rw [gap, gap, hsucc, hsome]

theorem maintain (h : net.Mends J S i w) (object : ℕ) (hj : j ∈ S) :
    Better net (net.maintain object j) J S i w ∧
      (j = w → (net.maintain object j).Clean w) ∧
      (j = i → net.Clean w →
        (net.maintain object j).Mended i w ∨ (net.maintain object j).gap S i < net.gap S i) := by
  obtain ⟨hcheck, hsucc, halive, hclean, hmended⟩ := h.checkPredecessor j
  have hgap : (net.checkPredecessor j).gap S i = net.gap S i := gap_congr hsucc halive
  unfold Net.maintain
  by_cases hji : j = i
  · subst hji
    obtain ⟨hmends, hprogress, hkeep⟩ := hcheck.stabilize_own object
    rw [hgap] at hprogress
    refine ⟨⟨hmends, fun hc => (hprogress (hclean (Or.inl hc))).1, fun hm => hkeep (hmended hm),
      fun hc => (hprogress (hclean (Or.inl hc))).2.imp_right fun hlt => hlt.le⟩,
      fun hjw => (hprogress (hclean (Or.inr hjw))).1,
      fun _ hc => (hprogress (hclean (Or.inl hc))).2⟩
  · obtain ⟨hmends, hs, hp, hframe⟩ := hcheck.stabilize_other object hj hji
    have hcleans : (net.checkPredecessor j).Clean w →
        ((net.checkPredecessor j).stabilize object j).Clean w := by
      intro hc x hx
      rw [hp] at hx
      exact (hframe x).mpr (hc x hx)
    refine ⟨⟨hmends, fun hc => hcleans (hclean (Or.inl hc)), fun hm => ?_, fun hc => Or.inr ?_⟩,
      fun hjw => hcleans (hclean (Or.inr hjw)), fun he => absurd he hji⟩
    · rw [Mended, hs, hp]
      exact hmended hm
    · rw [gap_congr hs hframe, hgap]

end Mends

/-- The calls of a round, with the addresses of the objects they create. -/
def maintains (net : Net) (calls : List (ℕ × ID)) : Net :=
  calls.foldl (fun net c => net.maintain c.1 c.2) net

namespace Mends
variable {J S : Finset ID} {w : ID}

theorem maintains (h : net.Mends J S i w) {calls : List (ℕ × ID)} (hcalls : ∀ c ∈ calls, c.2 ∈ S) :
    Better net (net.maintains calls) J S i w ∧
      ((∃ c ∈ calls, c.2 = w) → (net.maintains calls).Clean w) ∧
      ((∃ c ∈ calls, c.2 = i) → net.Clean w →
        (net.maintains calls).Mended i w ∨ (net.maintains calls).gap S i < net.gap S i) := by
  induction calls generalizing net with
  | nil =>
    refine ⟨⟨h, id, id, fun _ => Or.inr le_rfl⟩, ?_, ?_⟩
    · intro hc
      obtain ⟨c, hc, _⟩ := hc
      cases hc
    · intro hc
      obtain ⟨c, hc, _⟩ := hc
      cases hc
  | cons c calls ih =>
    obtain ⟨hfirst, hclean, hprogress⟩ := h.maintain c.1 (hcalls c List.mem_cons_self)
    obtain ⟨hrest, hclean', hprogress'⟩ :=
      ih hfirst.mends fun d hd => hcalls d (List.mem_cons_of_mem c hd)
    refine ⟨hfirst.trans hrest, fun hw => ?_, fun hi hc => ?_⟩
    · obtain ⟨d, hd, hdw⟩ := hw
      rcases List.mem_cons.mp hd with rfl | hd
      · exact hrest.clean (hclean hdw)
      · exact hclean' ⟨d, hd, hdw⟩
    · obtain ⟨d, hd, hdi⟩ := hi
      have hc' := hfirst.clean hc
      rcases List.mem_cons.mp hd with rfl | hd
      · rcases hprogress hdi hc with hm | hlt
        · exact Or.inl (hrest.mended hm)
        · exact (hrest.gap hc').imp_right fun hle => Nat.lt_of_le_of_lt hle hlt
      · rcases hfirst.gap hc with hm | hle
        · exact Or.inl (hrest.mended hm)
        · exact (hprogress' ⟨d, hd, hdi⟩ hc').imp_right fun hlt => Nat.lt_of_lt_of_le hlt hle

end Mends

end Net

/-! ### The failure -/

namespace Sys
variable {root : ID} {s : Sys} {failed : Finset ID}

theorem Inv.mends {K : Set (ID × ID)} (h : s.Inv root K) (hideal : s.Ideal) {i : ID}
    (hi : i ∈ s.joined \ failed)
    (hlost : ∀ j ∈ s.joined \ failed, s.succ j ∈ failed → j = i) :
    ∃ w, (s.net.killAll failed).Mends s.joined (s.joined \ failed) i w := by
  have hnode : ∀ j, j ∉ failed → (s.net.killAll failed).node j = s.net.node j := fun j hj =>
    if_neg hj
  have hmem : ∀ {j}, j ∈ s.joined \ failed → j ∈ s.joined ∧ j ∉ failed := Finset.mem_sdiff.mp
  obtain ⟨w, hw⟩ := exists_isNext hi
  have hshape : Mending s.joined (s.joined \ failed) i w s.succ s.pred := by
    refine Mending.of_ideal hideal Finset.sdiff_subset hi (fun j hj hji => ?_) hw
    refine Finset.mem_sdiff.mpr ⟨h.succ_mem (hmem hj).1, fun hf => hji (hlost j hj hf)⟩
  have hsucc : ∀ j ∈ s.joined \ failed, (s.net.killAll failed).succ j = s.succ j := by
    intro j hj
    rw [Net.succ, hnode j (hmem hj).2, succ, Net.succ]
  have hpred : ∀ j ∈ s.joined \ failed, (s.net.killAll failed).pred j = s.pred j := by
    intro j hj
    rw [Net.pred, hnode j (hmem hj).2, pred, Net.pred]
  refine ⟨w, Finset.sdiff_subset, fun j hj => ?_, fun t ht k p hp => ?_, hi, hw, fun j hj hji => ?_, ?_⟩
  · rw [Finset.mem_sdiff, Net.Alive]
    by_cases hf : j ∈ failed
    · have hnone : (s.net.killAll failed).node j = none := if_pos hf
      rw [hnone]
      exact ⟨fun hn => (by cases hn), fun hn => absurd hf hn.2⟩
    · obtain ⟨n, hn⟩ := h.alive j hj
      rw [hnode j hf, hn]
      exact ⟨fun _ => ⟨hj, hf⟩, fun _ => rfl⟩
  · rw [Net.table, hnode i (hmem hi).2] at ht
    obtain ⟨n, hn, rfl⟩ := Option.map_eq_some_iff.mp ht
    rcases (h.nodes i n hn).fingers k p hp with rfl | ⟨_, hJ, _⟩
    · exact (hmem hi).1
    · exact hJ
  · have hother := hshape.others j hj hji
    rw [hsucc j hj, hpred _ hother.1.1]
    exact hother
  · rw [hsucc i hi, hpred w hw.1]
    exact hshape.gap

end Sys

/-! ### Bob fails -/

end ChordChat
