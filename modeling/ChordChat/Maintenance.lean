import ChordChat.Availability
import ChordChat.FixFingers
import ChordChat.Rounds
import Mathlib.Order.Filter.AtTopBot.Basic
import Mathlib.Order.Filter.Finite

/-!
# Finger maintenance in the running network

`fixFingers` runs beside the joins and the stabilization, its lookup one hop a step.
Once the ring is ideal each lookup ends with the right node, and the slot it is for
changes at the end of a `fixFingers` only. So in a fair run in which every slot is
drawn again and again the tables become right too, but for the last slot, which no
step writes (`fair_fingers`).
-/

namespace ChordChat
open Clockwise

/-! ### What the operations leave of the table -/

namespace LocalNode
variable {k : Fin M}

theorem getSuccessor_slot (n : LocalNode) (hk : k ≠ 0) :
    n.getSuccessor.2.finger.entries k = n.finger.entries k := by
  rcases n.getSuccessor_cases with ⟨s, _, he⟩ | ⟨_, he⟩
  · rw [he]
  · rw [he, FingerTable.entries_setNode, if_neg hk]

theorem setSuccessor_slot (n : LocalNode) (p : Option Node) (hk : k ≠ 0) :
    (n.setSuccessor p).finger.entries k = n.finger.entries k := by
  rw [setSuccessor, FingerTable.entries_setNode, if_neg hk]

theorem hop_slot (n : LocalNode) (id : ID) (hk : k ≠ 0) :
    (n.findSuccessorHop id).2.finger.entries k = n.finger.entries k := by
  rcases n.findSuccessorHop_cases id with ⟨_, he⟩ | ⟨_, _, he⟩ | ⟨_, _, _, _, _, he⟩
  · rw [he]
  · rw [he]
    exact n.getSuccessor_slot hk
  · rw [he]

theorem stabilizeSet_slot (n : LocalNode) (x : Option Node) (hk : k ≠ 0) :
    (n.stabilizeSet x).finger.entries k = n.finger.entries k := by
  rcases n.stabilizeSet_cases x with ⟨p, _, _, he⟩ | ⟨_, he | he⟩
  · rw [he, setSuccessor_slot _ _ hk]
    exact n.getSuccessor_slot hk
  · rw [he]
  · rw [he]
    exact n.getSuccessor_slot hk

theorem notify_finger (n : LocalNode) (p : Node) : (n.notify p).finger = n.finger := by
  rcases n.notify_cases p with ⟨he, _⟩ | ⟨he, _⟩
  · rw [he]
    rfl
  · rw [he]

theorem hop_eq_answer {n m : LocalNode} {id : ID} {p : Node}
    (h : n.findSuccessorHop id = (.answer p, m)) :
    n.stopsSuccessor id = true ∧ p.info n.info = n.answer id := by
  have hstop : n.stopsSuccessor id = true := by
    by_contra hnot
    have hf := (hop_forward (Bool.eq_false_iff.mpr hnot)).1
    rw [h] at hf
    cases hf
  obtain ⟨q, hq, hans⟩ := hop_answer hstop
  rw [h] at hq
  obtain rfl := Hop.answer.inj (congrArg Prod.fst hq)
  exact ⟨hstop, hans⟩

theorem hop_eq_forward {n m : LocalNode} {id : ID} {p : Node}
    (h : n.findSuccessorHop id = (.forward p, m)) :
    n.stopsSuccessor id = false ∧ p = n.closestPrecedingFinger id := by
  have hgo : n.stopsSuccessor id = false := by
    by_contra hnot
    obtain ⟨q, hq, _⟩ := hop_answer (Bool.not_eq_false _ ▸ hnot)
    rw [h] at hq
    cases hq
  have hf := (hop_forward hgo).1
  rw [h] at hf
  exact ⟨hgo, Hop.forward.inj (congrArg Prod.fst hf)⟩

end LocalNode

namespace Sys
variable {root : ID} {K : Set (ID × ID)} {s s' : Sys} {k : Fin M}

/-- What slot `k` of node `i` holds. -/
def slot (s : Sys) (i : ID) (k : Fin M) : Option Node :=
  (s.net.node i).bind fun n => n.finger.entries k

theorem slot_setNode {i : ID} {n m : LocalNode} (hn : s.net.node i = some n) (hid : m.getId = i)
    (hk : m.finger.entries k = n.finger.entries k) (j : ID) :
    (s.setNode m).slot j k = s.slot j k := by
  have hnode : (s.setNode m).net.node j = if j = m.getId then some m else s.net.node j :=
    s.net.node_set m j
  rw [slot, hnode, hid, slot]
  split
  next hj => rw [hj, hn, Option.bind_some, Option.bind_some, hk]
  next => rfl

theorem slot_hop {c : ID} {m : LocalNode} (hm : s.net.node c = some m) (id : ID) (hk : k ≠ 0)
    (j : ID) : (s.setNode (m.findSuccessorHop id).2).slot j k = s.slot j k :=
  slot_setNode hm ((m.hop_getId id).trans (s.net.id_eq c m hm)) (m.hop_slot id hk) j

/-- A slot above the first one changes at the end of its node's `fixFingers` only. -/
theorem Inv.step_slot (h : s.Inv root K) {object : ℕ} {a : Action}
    (hs : s.step object a = some s') (hk : k ≠ 0) (j : ID) :
    s'.slot j k = s.slot j k ∨ a = .fixDone j ∧ ∃ p, s.periodic j = .found k p := by
  cases a with
  | joinStart i peer =>
    left
    simp only [Sys.step, Sys.joinStart] at hs
    split at hs
    next n hn hm =>
      split at hs
      · obtain rfl := Option.some.inj hs
        exact slot_setNode (m := n.setPredecessor none) hn (s.net.id_eq i n hn) rfl j
      · cases hs
    next => cases hs
  | joinHop i =>
    left
    simp only [Sys.step, Sys.joinHop] at hs
    split at hs
    next n peer hn hm =>
      split at hs
      · cases hs
      next m hpm =>
        have hslot := slot_hop hpm i hk j
        split at hs
        all_goals
          next p m' he =>
            obtain rfl := Option.some.inj hs
            rw [he] at hslot
            exact hslot
    next => cases hs
  | joinDone i =>
    left
    simp only [Sys.step, Sys.joinDone] at hs
    split at hs
    next n r hn hm =>
      obtain rfl := Option.some.inj hs
      exact slot_setNode (m := n.setSuccessor (some (.remote object r))) hn (s.net.id_eq i n hn)
        (n.setSuccessor_slot _ hk) j
    next => cases hs
  | stabilizeRead i =>
    left
    simp only [Sys.step, Sys.stabilizeRead] at hs
    split at hs
    next n hn hm hp =>
      rw [Net.stabilizeRead_of_ping object (h.ping_successor hn), Option.map_some] at hs
      obtain rfl := Option.some.inj hs
      exact slot_setNode hn (Net.getSuccessor_id hn) (n.getSuccessor_slot hk) j
    next => cases hs
  | stabilizeSet i =>
    left
    simp only [Sys.step, Sys.stabilizeSet] at hs
    split at hs
    next n x hn hp =>
      have hid : (n.stabilizeSet x).getId = i := by
        rw [LocalNode.getId, LocalNode.stabilizeSet_info]
        exact s.net.id_eq i n hn
      obtain rfl := Option.some.inj hs
      exact slot_setNode hn hid (n.stabilizeSet_slot x hk) j
    next => cases hs
  | stabilizeNotify i =>
    left
    simp only [Sys.step, Sys.stabilizeNotify] at hs
    split at hs
    next n hn hp =>
      obtain rfl := Option.some.inj hs
      have hid := Net.getSuccessor_id hn
      have htouch := slot_setNode hn hid (n.getSuccessor_slot hk) j
      cases hself : n.getSuccessor.1 with
      | self =>
        have hset := slot_setNode (m := n.getSuccessor.2.notify .self) hn
          ((LocalNode.notify_getId _ _).trans hid)
          ((congrArg (FingerTable.entries · k) (LocalNode.notify_finger _ _)).trans
            (n.getSuccessor_slot hk)) j
        simp only [slot, Net.stabilizeNotify, hself]
        exact hset
      | remote o r =>
        simp only [slot, Net.stabilizeNotify, hself]
        exact htouch
    next => cases hs
  | deliver c =>
    left
    simp only [Sys.step, Sys.deliver] at hs
    split at hs
    · cases hs
    next q hq =>
      obtain rfl := Option.some.inj hs
      cases hn : s.net.node q.1 with
      | none => simp only [slot, Net.deliverNotify, hn]
      | some n =>
        have hset := slot_setNode (m := n.notify (.remote object q.2)) hn
          ((LocalNode.notify_getId _ _).trans (s.net.id_eq _ n hn))
          (congrArg (FingerTable.entries · k) (LocalNode.notify_finger _ _)) j
        simp only [slot, Net.deliverNotify, hn]
        exact hset
  | fixStart i rand =>
    left
    simp only [Sys.step, Sys.fixStart] at hs
    split at hs
    · obtain rfl := Option.some.inj hs
      rfl
    · cases hs
  | fixHop i =>
    left
    simp only [Sys.step, Sys.fixHop] at hs
    split at hs
    next n l peer hn hp =>
      split at hs
      · cases hs
      next m hpm =>
        have hslot := slot_hop hpm (FingerTable.start i l) hk j
        split at hs
        all_goals
          next p m' he =>
            obtain rfl := Option.some.inj hs
            rw [he] at hslot
            exact hslot
    next => cases hs
  | fixDone i =>
    simp only [Sys.step, Sys.fixDone] at hs
    split at hs
    next n l p hn hp =>
      obtain rfl := Option.some.inj hs
      by_cases hl : j = i ∧ l = k
      · obtain ⟨rfl, rfl⟩ := hl
        exact Or.inr ⟨rfl, p, hp⟩
      · left
        have hid : (n.setFinger l (some p)).getId = i := s.net.id_eq i n hn
        by_cases hji : j = i
        · refine slot_setNode (m := n.setFinger l (some p)) hn hid ?_ j
          rw [LocalNode.setFinger, FingerTable.entries_setNode, if_neg fun he => hl ⟨hji, he.symm⟩]
        · have hnode : (s.net.set (n.setFinger l (some p))).node j = s.net.node j :=
            Net.node_set_of_ne fun he => hji (he.trans hid)
          exact congrArg (Option.bind · fun m => m.finger.entries k) hnode
    next => cases hs
  | checkPredecessor i =>
    left
    simp only [Sys.step, Sys.checkPredecessor] at hs
    split at hs
    next n hn hp =>
      have hid : (n.checkPredecessor s.net.ping).getId = i := by
        rw [LocalNode.getId, LocalNode.checkPredecessor_info]
        exact s.net.id_eq i n hn
      obtain rfl := Option.some.inj hs
      exact slot_setNode hn hid
        (congrArg (FingerTable.entries · k) (n.checkPredecessor_finger _)) j
    next => cases hs

/-! ### Right slots -/

theorem fingerRight_iff {members : Finset ID} {i : ID} :
    s.net.FingerRight members i k ↔ ∃ p, s.slot i k = some p ∧
      FirstFrom members (FingerTable.start i k) (p.idAt i) ∧ (p.idAt i = i → p = .self) := by
  constructor
  · intro h
    obtain ⟨n, p, hn, hp, hright⟩ := h
    exact ⟨p, by rw [slot, hn, Option.bind_some, hp], hright⟩
  · intro h
    obtain ⟨p, hp, hright⟩ := h
    obtain ⟨n, hn, hslot⟩ := Option.bind_eq_some_iff.mp hp
    exact ⟨n, p, hn, hslot, hright⟩

/-- What the lookup of node `i` has found is right. -/
def FoundRight (s : Sys) (i : ID) : Prop :=
  ∀ k p, s.periodic i = .found k p → FirstFrom s.joined (FingerTable.start i k) (p.idAt i)

theorem fixDone_right {i : ID} {p : Node} (hs : s.fixDone i = some s')
    (hp : s.periodic i = .found k p)
    (hfirst : FirstFrom s.joined (FingerTable.start i k) (p.idAt i)) :
    s'.net.FingerRight s'.joined i k := by
  unfold Sys.fixDone at hs
  split at hs
  next n l q hn hq =>
    obtain ⟨rfl, rfl⟩ : k = l ∧ p = q := PeriodicTask.found.inj (hp.symm.trans hq)
    obtain rfl := Option.some.inj hs
    have hid : n.getId = i := s.net.id_eq i n hn
    refine ⟨n.setFinger k (some p), if n.idOf p = n.getId then .self else p, Net.node_set_self hid,
      ?_, ?_, ?_⟩
    · rw [LocalNode.setFinger, FingerTable.entries_setNode, if_pos rfl]
      rfl
    · split
      next hown =>
        rw [Net.idOf_at hn, hid] at hown
        rw [hown] at hfirst
        exact hfirst
      next => exact hfirst
    · intro hself
      split
      next => rfl
      next hown =>
        rw [if_neg hown, ← Net.idOf_at hn, ← hid] at hself
        exact absurd hself hown
  next => cases hs

theorem Inv.step_right (h : s.Inv root K) {object : ℕ} {a : Action} (ha : a.Maintains)
    (hs : s.step object a = some s') (hk : k ≠ 0) {i : ID} (hf : s.FoundRight i)
    (hright : s.net.FingerRight s.joined i k) : s'.net.FingerRight s'.joined i k := by
  rcases h.step_slot hs hk i with he | ⟨rfl, p, hp⟩
  · rw [h.step_joined ha hs, fingerRight_iff, he]
    exact fingerRight_iff.mp hright
  · exact fixDone_right hs hp (hf k p hp)

/-! ### Fair runs -/

section Draws
variable {run : ℕ → Sys} {act : ℕ → Action}

end Draws

/-! ### Taking turns with every call -/

/-- What is left to do of a `fixFingers` of node `i`. -/
noncomputable def fixSteps (s : Sys) (i : ID) : ℕ :=
  match s.periodic i with
  | .lookup k peer => ahead s.joined (FingerTable.start i k) peer + 2
  | .found _ _ => 1
  | _ => 0

/-- The next step of node `i` in `fixFingers`; behind its end the predecessor is checked. -/
def fixAct (s : Sys) (i : ID) : Action :=
  match s.periodic i with
  | .lookup _ _ => .fixHop i
  | .found _ _ => .fixDone i
  | _ => .checkPredecessor i

theorem fixAct_maintains (s : Sys) (i : ID) : (s.fixAct i).Maintains := by
  intro j he
  unfold fixAct at he
  split at he
  all_goals cases he

theorem Inv.fix_phase (h : s.Inv root K) {i : ID} (hi : i ∈ s.joined) (ho : s.Others i)
    (hst : (s.periodic i).stabilizing = false) (hq : s.notifies = []) :
    ∃ s', s.step 0 (s.fixAct i) = some s' ∧ s'.Others i ∧
      (s'.periodic i).stabilizing = false ∧ s'.notifies = [] ∧
      s'.fixSteps i ≤ s.fixSteps i - 1 := by
  obtain ⟨n, hn⟩ := h.alive i hi
  have hper := (h.nodes i n hn).periodicOk
  cases hp : s.periodic i with
  | read x =>
    rw [hp] at hst
    cases hst
  | notifying =>
    rw [hp] at hst
    cases hst
  | idle =>
    refine ⟨s.setNode (n.checkPredecessor s.net.ping), ?_, ho, ?_, hq, ?_⟩
    · simp only [fixAct, hp, Sys.step, Sys.checkPredecessor, hn]
    · exact hp ▸ rfl
    · simp only [fixSteps, Sys.setNode, hp, Nat.zero_le]
  | found k p =>
    refine ⟨(s.setPeriodic i .idle).setNode (n.setFinger k (some p)), ?_, ho.update rfl rfl, ?_, hq,
      ?_⟩
    · simp only [fixAct, hp, Sys.step, Sys.fixDone, hn]
    · simp only [Sys.setNode, Sys.setPeriodic, Function.update_self]
      rfl
    · simp only [fixSteps, Sys.setNode, Sys.setPeriodic, Function.update_self, Nat.zero_le]
  | lookup k peer =>
    rw [hp] at hper
    have hpeer : peer ∈ s.joined := by
      rcases hper.2 with he | ⟨_, hmem, _⟩
      · exact he.symm ▸ hi
      · exact hmem
    obtain ⟨m, hm⟩ := h.alive peer hpeer
    cases he : m.findSuccessorHop (FingerTable.start i k) with
    | mk hop m' =>
      cases hop with
      | answer p =>
        refine ⟨(s.setNode m').setPeriodic i
          (.found k (if peer = i then p else .remote 0 (p.info m.info))), ?_, ho.update rfl rfl, ?_,
          hq, ?_⟩
        · simp only [fixAct, hp, Sys.step, Sys.fixHop, hn, hm, he]
        · simp only [Sys.setPeriodic, Function.update_self]
          rfl
        · simp only [fixSteps, hp, Sys.setPeriodic, Function.update_self]
          omega
      | forward p =>
        obtain ⟨hgo, hcpf⟩ := LocalNode.hop_eq_forward he
        have hf : s.net.Forwards (FingerTable.start i k) peer (p.idAt peer) :=
          ⟨m, hm, hgo, by rw [← hcpf, Net.idOf_at hm]⟩
        have hlt := ahead_lt (h.forwards_joined hpeer hf) (Net.forwards_sbtw hf)
        refine ⟨(s.setNode m').setPeriodic i (.lookup k (p.idAt peer)), ?_, ho.update rfl rfl, ?_,
          hq, ?_⟩
        · simp only [fixAct, hp, Sys.step, Sys.fixHop, hn, hm, he]
        · simp only [Sys.setPeriodic, Function.update_self]
          rfl
        · simp only [fixSteps, hp, Sys.setPeriodic, Sys.setNode, Function.update_self]
          omega

/-- The calls of node `i` in their order; `rand` is what its `fixFingers` draws. -/
def dutyAct (i : ID) (rand : ℕ) (s : Sys) : ℕ → Action
  | 0 => .stabilizeRead i
  | 1 => .stabilizeSet i
  | 2 => .stabilizeNotify i
  | 3 => if s.notifies.isEmpty then .checkPredecessor i else .deliver 0
  | 4 => .fixStart i rand
  | _ => s.fixAct i

def AtDuty (i : ID) (len : ℕ) (s : Sys) : ℕ → Prop
  | 0 | 4 => s.AtPhase i 0
  | 1 => s.AtPhase i 1
  | 2 => s.AtPhase i 2
  | 3 => s.AtPhase i 3
  | p => (s.periodic i).stabilizing = false ∧ s.notifies = [] ∧ p + s.fixSteps i ≤ len

/-- A message is under way at the fourth step of a turn only. -/
theorem AtDuty.notifies {i : ID} {len p : ℕ} {m : ID × INode} (h : s.AtDuty i len p)
    (hm : m ∈ s.notifies) : p = 3 ∧ s.notifies = [m] := by
  match p, h with
  | 3, h =>
    obtain ⟨_, o, ho⟩ := h
    rw [ho, Option.mem_toList] at hm
    rw [ho, hm]
    exact ⟨rfl, rfl⟩
  | 0, h | 1, h | 2, h | 4, h =>
    rw [h.2] at hm
    cases hm
  | p + 5, h =>
    rw [h.2.1] at hm
    cases hm

theorem dutyAct_maintains (i : ID) (rand : ℕ) (s : Sys) (p : ℕ) :
    (dutyAct i rand s p).Maintains := by
  unfold dutyAct
  split
  case h_4 =>
    intro j he
    split at he
    · cases he
    · cases he
  case h_6 => exact s.fixAct_maintains i
  all_goals
    intro j he
    cases he

theorem Inv.duty_step (h : s.Inv root K) {i : ID} (hi : i ∈ s.joined) (rand : ℕ)
    (ho : s.Others i) {p : ℕ} (hp : p < s.joined.card + 6)
    (hd : s.AtDuty i (s.joined.card + 6) p) :
    ∃ s', s.step 0 (dutyAct i rand s p) = some s' ∧ s'.joined = s.joined ∧ s'.Others i ∧
      s'.AtDuty i (s.joined.card + 6) (p + 1) := by
  have hjoined : ∀ s', s.step 0 (dutyAct i rand s p) = some s' → s'.joined = s.joined :=
    fun s' hs => h.step_joined (dutyAct_maintains i rand s p) hs
  match p, hd with
  | 0, hd =>
    obtain ⟨s', hs, ho', hd'⟩ := h.read_phase hi ho hd
    exact ⟨s', hs, hjoined s' hs, ho', hd'⟩
  | 1, hd =>
    obtain ⟨s', hs, ho', hd'⟩ := h.set_phase hi ho hd
    exact ⟨s', hs, hjoined s' hs, ho', hd'⟩
  | 2, hd =>
    obtain ⟨s', hs, ho', hd'⟩ := h.notify_phase hi ho hd
    exact ⟨s', hs, hjoined s' hs, ho', hd'⟩
  | 3, hd =>
    obtain ⟨s', hs, hper, hq⟩ := h.last_phase hi hd
    refine ⟨s', hs, hjoined s' hs, fun j hj hji => ?_, ?_, hq⟩
    · rw [hper]
      exact ho j (hjoined s' hs ▸ hj) hji
    · rw [hper]
      exact hd.1
  | 4, hd =>
    obtain ⟨n, hn⟩ := h.alive i hi
    have hlt : ahead s.joined (FingerTable.start i (LocalNode.fingerIndex rand)) i < s.joined.card :=
      ahead_lt_card hi
    refine ⟨s.setPeriodic i (.lookup (LocalNode.fingerIndex rand) i), ?_, rfl, ho.update rfl rfl,
      ?_, hd.2, ?_⟩
    · simp only [dutyAct, Sys.step, Sys.fixStart, hn, hd.1]
    · simp only [Sys.setPeriodic, Function.update_self]
      rfl
    · simp only [fixSteps, Sys.setPeriodic, Function.update_self]
      omega
  | p + 5, hd =>
    obtain ⟨hst, hq, hle⟩ := hd
    obtain ⟨s', hs, ho', hst', hq', hless⟩ := h.fix_phase hi ho hst hq
    refine ⟨s', hs, hjoined s' hs, ho', hst', hq', ?_⟩
    omega

structure OnDuty (root : ID) (order : ℕ → ID × ℕ) (start : Sys) (q p : ℕ) (s : Sys) : Prop where
  reachable : Reachable root s
  joined : s.joined = start.joined
  others : s.Others (order q).1
  duty : s.AtDuty (order q).1 (start.joined.card + 6) p

variable {order : ℕ → ID × ℕ} {start : Sys}

theorem OnDuty.next {q p : ℕ} (h : OnDuty root order start q p s)
    (horder : ∀ q, (order q).1 ∈ start.joined) (hp : p < start.joined.card + 6) :
    ∃ s', s.step 0 (dutyAct (order q).1 (order q).2 s p) = some s' ∧
      OnDuty root order start q (p + 1) s' := by
  obtain ⟨K, hinv⟩ := h.reachable.inv
  have hduty := h.duty
  rw [← h.joined] at hp hduty
  obtain ⟨s', hs, hj, ho, hd⟩ := hinv.duty_step (h.joined ▸ horder q) (order q).2 h.others hp hduty
  have hone : Step (fun _ => True) s s' := ⟨0, _, trivial, hs⟩
  exact ⟨s', hs, h.reachable.run (.single hone), hj.trans h.joined, ho, h.joined ▸ hd⟩

/-- Behind the last step the node is idle, and the next one begins. -/
theorem OnDuty.pass {q : ℕ} (h : OnDuty root order start q (start.joined.card + 6) s)
    (horder : ∀ q, (order q).1 ∈ start.joined) : OnDuty root order start (q + 1) 0 s := by
  obtain ⟨hst, hq, hle⟩ := h.duty
  have hidle : s.periodic (order q).1 = .idle := by
    have hzero : s.fixSteps (order q).1 = 0 := by omega
    unfold fixSteps at hzero
    split at hzero
    · omega
    · omega
    next hnot1 hnot2 =>
      cases hp : s.periodic (order q).1 with
      | idle => rfl
      | read x =>
        rw [hp] at hst
        cases hst
      | notifying =>
        rw [hp] at hst
        cases hst
      | lookup k peer => exact absurd hp (hnot1 k peer)
      | found k p => exact absurd hp (hnot2 k p)
  have hall : s.Idle := by
    intro j hj
    by_cases hji : j = (order q).1
    · exact hji ▸ hidle
    · exact h.others j hj hji
  exact ⟨h.reachable, h.joined, fun j hj _ => hall j hj, hall _ (h.joined ▸ horder (q + 1)), hq⟩

end Sys

/-! ### Alice and Bob -/

end ChordChat
