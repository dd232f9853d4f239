import ChordChat.Threads
import Mathlib.Data.Fin.VecNotation
import Mathlib.Tactic.FinCases

/-!
# Joining while the periodic thread runs

`stabilize` tests a node against the successor and sets it as the successor in two
steps, and `join` may set the successor in between. The join stands if, when it
writes, no thread is about to write a successor that lies beyond the one found by
the lookup (`join_kept`). A node that is alone has itself as such a pending
successor, whenever it stabilizes (`join_undone`).
-/

namespace ChordChat
open Clockwise Interleaving

/-- `x` is `r` or strictly between `own` and `r`. -/
def Toward (own r x : ID) : Prop := x = r ∨ sbtw own x r

theorem Toward.ne {own r x : ID} (hr : r ≠ own) (h : Toward own r x) : x ≠ own := by
  rcases h with rfl | h
  · exact hr
  · exact (sbtw_ne_left h).symm

theorem Toward.inArc {own r x y : ID} (hr : r ≠ own) (hy : Toward own r y)
    (hx : InArc own x y) : Toward own r x := by
  have hb : sbtw own x y := (inArc_of_ne (hy.ne hr).symm).mp hx
  rcases hy with rfl | hy
  · exact Or.inr hb
  · exact Or.inr (sbtw_trans_right hb hy)

namespace LocalNode

/-- Slot 0 is occupied, by a node with this ID. -/
def Linked (n : LocalNode) (x : ID) : Prop := ∃ s, n.finger.entries 0 = some s ∧ n.idOf s = x

theorem Linked.getSuccessor {n : LocalNode} {x : ID} (h : n.Linked x) :
    n.idOf n.getSuccessor.1 = x ∧ n.getSuccessor.2 = n := by
  obtain ⟨s, hs, hx⟩ := h
  rw [getSuccessor_of_slot hs]
  exact ⟨hx, rfl⟩

theorem Linked.succId {n : LocalNode} {x : ID} (h : n.Linked x) : n.succId = x := h.getSuccessor.1

theorem Linked.hop {n : LocalNode} {x : ID} (h : n.Linked x) (id : ID) :
    (n.findSuccessorHop id).2 = n := by
  obtain ⟨s, hs, _⟩ := h
  exact hop_of_slot hs id

theorem linked_setSuccessor (n : LocalNode) (p : Node) :
    (n.setSuccessor (some p)).Linked (n.idOf p) := by
  refine ⟨if n.idOf p = n.getId then .self else p, ?_, ?_⟩
  · rw [setSuccessor, FingerTable.entries_setNode, if_pos rfl]
    rfl
  · split
    next h => exact h.symm
    next => rfl

theorem Linked.setFinger {n : LocalNode} {x : ID} (h : n.Linked x) {k : Fin M} (hk : k ≠ 0)
    (p : Option Node) : (n.setFinger k p).Linked x := by
  obtain ⟨s, hs, hx⟩ := h
  exact ⟨s, (n.setFinger_slot hk p).trans hs, hx⟩

end LocalNode

namespace Host

def Looks (h h' : Host) : Prop := h' = { h with node := h.node.getSuccessor.2 }

end Host

namespace Point
variable {t t' : Point} {a : Answer} {h : Host} {r : Node}

/-- Points of the other threads while all nodes are alive. -/
def Works : Point → Prop
  | .stabilizeRemove _ | .join _ | .joinLookup _ | .joinSet _ | .joined _ => False
  | .fixLookup k | .fixReply k | .fixSet k _ => k ≠ 0
  | _ => True

/-- Points of the main thread when its lookup returns `r`. -/
def Joins (r : Node) : Point → Prop
  | .join n | .joinLookup n | .joinSet n | .joined n => n = some r
  | _ => False

theorem works_next (hlive : ∀ x, h.live x = true) (ht : t.Works) (hnext : t.next a h = some t') :
    t'.Works := by
  have hcame := next_came hnext
  cases t' with
  | stabilizeRemove s =>
    have hdead := hcame.2
    rw [Host.ping, hlive] at hdead
    cases hdead
  | fixLookup k => exact hcame
  | fixReply k =>
    obtain rfl := hcame
    exact ht
  | fixSet k p =>
    obtain rfl | rfl := hcame
    · exact ht
    · exact ht
  | join => exact hcame.elim
  | joinLookup n =>
    obtain rfl := hcame
    exact ht.elim
  | joinSet n =>
    obtain rfl := hcame
    exact ht.elim
  | joined n =>
    obtain rfl := hcame
    exact ht.elim
  | _ => trivial

theorem joins_next (ht : t.Joins r) (hnext : t.next a h = some t') : t'.Joins r := by
  cases t with
  | join n => cases hnext; exact ht
  | joinLookup n => cases hnext; exact ht
  | joinSet n => cases hnext; exact ht
  | joined n => cases hnext
  | _ => exact ht.elim

/-- Only `stabilizeSet` moves an occupied slot 0. -/
theorem effect_linked {n : LocalNode} {x : ID} (ht : t.Works) (hn : n.Linked x) :
    (t.effect n).Linked x ∨ ∃ y, t = .stabilizeSet y ∧ (t.effect n).Linked (n.idOf y) := by
  have hsame := hn.getSuccessor.2
  cases t with
  | stabilizeSet y => exact Or.inr ⟨y, rfl, n.linked_setSuccessor y⟩
  | fixSet k p => exact Or.inl (hn.setFinger ht p)
  | fixLookup k =>
    left
    rw [effect, hn.hop]
    exact hn
  | stabilize => left; rw [effect, hsame]; exact hn
  | stabilizeAsk => left; rw [effect, hsame]; exact hn
  | stabilizeTest => left; rw [effect, hsame]; exact hn
  | stabilizeTell => left; rw [effect, hsame]; exact hn
  | stabilizeRemove => exact ht.elim
  | joinSet => exact ht.elim
  | _ => exact Or.inl hn

end Point

/-! ### Runs -/

section Runs
variable {ι : Type*} {p q : Pool ι Host Point} {main : ι} {r : Node}

/-- The main thread is about to join with the successor `r`; the periodic thread and
request handlers run besides. -/
structure Joining (main : ι) (r : Node) (p : Pool ι Host Point) : Prop where
  join : p.thread main = .join (some r)
  others : ∀ j, j ≠ main → p.thread j = .checkPredecessor ∨ ∃ n, p.thread j = .notify .handler n
  alive : ∀ x, p.shared.live x = true
  other : p.shared.node.idOf r ≠ p.shared.node.getId

/-- If thread `i` is about to set the successor in `join`, nobody else is about to set
one beyond it. -/
def JoinClear (p : Pool ι Host Point) (i : ι) : Prop :=
  ∀ r j x, p.thread i = .joinSet (some r) → p.thread j = .stabilizeSet x →
    Toward p.shared.node.getId (p.shared.node.idOf r) (p.shared.node.idOf x)

abbrev ClearRun [DecidableEq ι] : Pool ι Host Point → Pool ι Host Point → Prop :=
  Pool.Run Point.step Host.Looks JoinClear

theorem joining_stable (main : ι) (r : Node) (own : INode) :
    Pool.Stable Point.step Host.Looks JoinClear
      (fun h => h.node.info = own ∧ ∀ x, h.live x = true)
      (fun i (_ : Host) t => (i = main → t.Joins r) ∧ (i ≠ main → t.Works)) where
  shared p i a t s hp _ hstep := by
    obtain ⟨_, rfl⟩ := Point.step_eq_some.mp hstep
    refine ⟨(Point.effect_info _ _).trans hp.shared.1, fun x => ?_⟩
    rw [Point.live_effect]
    exact hp.shared.2 x
  own p i a t s hp _ hstep := by
    obtain ⟨hnext, rfl⟩ := Point.step_eq_some.mp hstep
    exact ⟨fun hi => Point.joins_next ((hp.thread i).1 hi) hnext,
      fun hi => Point.works_next hp.shared.2 ((hp.thread i).2 hi) hnext⟩
  other p i a t s j hp _ _ _ := hp.thread j
  env p s hp henv := by
    have hs : s = _ := henv
    subst hs
    refine ⟨⟨p.shared.node.getSuccessor_info.trans hp.shared.1, fun x => ?_⟩, hp.thread⟩
    rw [Host.live, LocalNode.getSuccessor_getId]
    exact hp.shared.2 x

/-- After the join: the successor and all successors about to be set lie toward `r`. -/
structure Settled (own : INode) (r : Node) (p : Pool ι Host Point) : Prop where
  linked : ∃ x, p.shared.node.Linked x ∧ Toward own.id (r.idAt own.id) x
  pending : ∀ j x, p.thread j = .stabilizeSet x → Toward own.id (r.idAt own.id) (x.idAt own.id)

theorem settled_joinSet [DecidableEq ι] {own : INode} (hown : p.shared.node.info = own)
    (hjoin : p.thread main = .joinSet (some r)) (hclear : JoinClear p main) :
    Settled own r ⟨{ p.shared with node := p.shared.node.setSuccessor (some r) },
      Function.update p.thread main (.joined (some r))⟩ where
  linked := by
    subst hown
    exact ⟨_, p.shared.node.linked_setSuccessor r, Or.inl (p.shared.node.idOf_eq r)⟩
  pending j x hj := by
    subst hown
    dsimp only at hj
    by_cases hm : j = main
    · rw [hm, Function.update_self] at hj
      cases hj
    · rw [Function.update_of_ne hm] at hj
      have htoward := hclear r j x hjoin hj
      rw [LocalNode.idOf_eq, LocalNode.idOf_eq] at htoward
      exact htoward

theorem settled_step [DecidableEq ι] {own : INode} {i : ι} {a : Answer} {t : Point}
    (hr : r.idAt own.id ≠ own.id) (hown : p.shared.node.info = own)
    (hworks : (p.thread i).Works) (hset : Settled own r p)
    (hnext : (p.thread i).next a p.shared = some t) :
    Settled own r ⟨{ p.shared with node := (p.thread i).effect p.shared.node },
      Function.update p.thread i t⟩ where
  linked := by
    subst hown
    obtain ⟨x, hx, htoward⟩ := hset.linked
    rcases Point.effect_linked hworks hx with hsame | ⟨y, hy, hmoved⟩
    · exact ⟨x, hsame, htoward⟩
    · refine ⟨_, hmoved, ?_⟩
      rw [LocalNode.idOf_eq]
      exact hset.pending i y hy
  pending j y hj := by
    subst hown
    dsimp only at hj
    by_cases hi : j = i
    · rw [hi, Function.update_self] at hj
      subst hj
      obtain ⟨x, hx, htoward⟩ := hset.linked
      obtain ⟨_, harc⟩ := Point.next_came hnext
      rw [hx.succId, LocalNode.idOf_eq] at harc
      exact htoward.inArc hr harc
    · rw [Function.update_of_ne hi] at hj
      exact hset.pending j y hj

theorem settled_next [DecidableEq ι] {own : INode} (hr : r.idAt own.id ≠ own.id)
    (hp : Pool.Asserts (fun h => h.node.info = own ∧ ∀ x, h.live x = true)
      (fun i (_ : Host) t => (i = main → t.Joins r) ∧ (i ≠ main → t.Works)) p)
    (hset : p.thread main = .joined (some r) → Settled own r p)
    (hnext : Pool.Next Point.step Host.Looks JoinClear p q)
    (hq : q.thread main = .joined (some r)) : Settled own r q := by
  obtain ⟨i, a, hclear, hact⟩ | ⟨s, henv, rfl⟩ := hnext
  · obtain ⟨t, s, hstep, rfl⟩ := Pool.act_eq_some.mp hact
    obtain ⟨hpoint, rfl⟩ := Point.step_eq_some.mp hstep
    dsimp only at hq
    by_cases hi : i = main
    · subst hi
      rw [Function.update_self] at hq
      subst hq
      have hjoin : p.thread i = .joinSet (some r) := Point.next_came hpoint
      rw [hjoin]
      exact settled_joinSet hp.shared.1 hjoin hclear
    · rw [Function.update_of_ne (Ne.symm hi)] at hq
      exact settled_step hr hp.shared.1 ((hp.thread i).2 hi) (hset hq) hpoint
  · have hs : s = _ := henv
    subst hs
    obtain ⟨x, hx, htoward⟩ := (hset hq).linked
    refine ⟨⟨x, ?_, htoward⟩, (hset hq).pending⟩
    dsimp only
    rw [hx.getSuccessor.2]
    exact hx

theorem joining_asserts (hp : Joining main r p) :
    Pool.Asserts (fun h => h.node.info = p.shared.node.info ∧ ∀ x, h.live x = true)
      (fun i (_ : Host) t => (i = main → t.Joins r) ∧ (i ≠ main → t.Works)) p where
  shared := ⟨rfl, hp.alive⟩
  thread i := by
    refine ⟨fun hi => ?_, fun hi => ?_⟩
    · rw [hi, hp.join]
      rfl
    · rcases hp.others i hi with ht | ⟨n, ht⟩
      · rw [ht]
        trivial
      · rw [ht]
        trivial

/-- In every run in which `join` sets the successor at a clear moment, the successor is
from then on the node of the lookup or one before it. -/
theorem join_kept [DecidableEq ι] (hp : Joining main r p) (hrun : ClearRun p q)
    (hq : q.thread main = .joined (some r)) :
    Toward p.shared.node.getId (p.shared.node.idOf r) q.shared.node.succId ∧
      q.shared.node.succId ≠ p.shared.node.getId := by
  have hother : r.idAt p.shared.node.info.id ≠ p.shared.node.info.id := by
    have hne := hp.other
    rw [LocalNode.idOf_eq] at hne
    exact hne
  have hsettled : q.thread main = .joined (some r) → Settled p.shared.node.info r q := by
    clear hq
    induction hrun with
    | refl =>
      intro hq
      rw [hp.join] at hq
      cases hq
    | tail hrun hnext ih =>
      have hall := Pool.Run.asserts hrun (joining_stable main r p.shared.node.info)
        (joining_asserts hp)
      exact settled_next hother hall ih hnext
  obtain ⟨x, hx, htoward⟩ := (hsettled hq).linked
  rw [hx.succId, LocalNode.idOf_eq]
  exact ⟨htoward, htoward.ne hother⟩

end Runs

/-! ### A node that is alone -/

namespace LocalNode

/-- The own successor and the own predecessor. -/
structure Alone (n : LocalNode) : Prop where
  slot : n.finger.entries 0 = some .self
  pred : n.predecessor = some .self

theorem init_getSuccessor (own : INode) : ∃ n, (init own).getSuccessor.2 = n ∧
    (init own).getSuccessor.1 = .self ∧ n.finger.entries 0 = some .self := by
  rcases (init own).getSuccessor_cases with ⟨s, hs, _⟩ | ⟨_, he⟩
  · obtain ⟨j, hj⟩ := FingerTable.entry_of_getNode hs
    cases hj
  · rw [he]
    refine ⟨_, rfl, rfl, ?_⟩
    rw [FingerTable.entries_setNode, if_pos rfl]

theorem hop_of_slot_self {n : LocalNode} (h : n.finger.entries 0 = some .self) (id : ID) :
    n.findSuccessorHop id = (.answer .self, n) := by
  have hsucc := getSuccessor_of_slot h
  by_cases hid : n.getId = id
  · simp only [findSuccessorHop, hid, if_true]
  · rw [hop_of_self (congrArg Prod.fst hsucc) hid, hsucc]

end LocalNode

namespace Point

theorem stabilize_solo_slot {h : Host} (hs : h.node.getSuccessor.1 = .self) :
    Pool.Solo step (.stabilize, h)
      (.stabilizeAsk, { h with node := h.node.getSuccessor.2 }) := by
  have hping : h.ping h.node.getSuccessor.1 = true := by
    rw [hs, Host.ping, LocalNode.idOf_self, Host.live, decide_eq_true rfl, Bool.true_or]
  exact liveSuccessor_solo (LocalNode.liveSuccessor_of_ping 0 hping)

theorem fixFingers_solo {h : Host} (hs : h.node.finger.entries 0 = some .self) :
    ∃ k : Fin M, k ≠ 0 ∧ Pool.Solo step (.fixFingers, h)
      (.checkPredecessor, { h with node := h.node.setFinger k (some .self) }) := by
  have a : Answer := ⟨0, none⟩
  have hhop := LocalNode.hop_of_slot_self hs
    (FingerTable.start h.node.getId (LocalNode.fingerIndex a.rand))
  have hdraw : Pool.Solo step (.fixFingers, h) (.fixLookup (LocalNode.fingerIndex a.rand), h) :=
    solo_step (a := a) rfl
  have hlook : Pool.Solo step (.fixLookup (LocalNode.fingerIndex a.rand), h)
      (.fixSet (LocalNode.fingerIndex a.rand) (some .self), h) :=
    solo_same (a := a) (by simp only [next, hhop]) (congrArg Prod.snd hhop)
  exact ⟨LocalNode.fingerIndex a.rand, LocalNode.fingerIndex_ne_zero _,
    (hdraw.trans hlook).trans (solo_step (a := a) rfl)⟩

/-- The first round of the periodic thread leaves a new node with itself on both sides. -/
theorem first_round (own : INode) (alive : ID → Bool) :
    ∃ n, Pool.Solo step (.checkPredecessor, ⟨.init own, alive⟩) (.checkPredecessor, ⟨n, alive⟩) ∧
      n.info = own ∧ n.Alone := by
  have a : Answer := ⟨0, none⟩
  obtain ⟨n, hn, hself, hslot⟩ := LocalNode.init_getSuccessor own
  have hsame := LocalNode.getSuccessor_of_slot hslot
  have hinfo : n.info = own := hn ▸ (LocalNode.init own).getSuccessor_info
  have hpred : n.predecessor = none := hn ▸ (LocalNode.init own).getSuccessor_predecessor
  have hcheck : Pool.Solo step (.checkPredecessor, ⟨.init own, alive⟩)
      (.stabilize, ⟨.init own, alive⟩) := checkPredecessor_solo ⟨.init own, alive⟩
  have hping : Pool.Solo step (.stabilize, ⟨.init own, alive⟩) (.stabilizeAsk, ⟨n, alive⟩) := by
    have hping := stabilize_solo_slot (h := ⟨.init own, alive⟩) hself
    rw [hn] at hping
    exact hping
  have hask : Pool.Solo step (.stabilizeAsk, ⟨n, alive⟩) (.stabilizeTell, ⟨n, alive⟩) := by
    have hask := stabilizeSet_solo ⟨n, alive⟩ none fun _ => hpred.symm
    rw [hsame] at hask
    exact hask
  have htell : Pool.Solo step (.stabilizeTell, ⟨n, alive⟩) (.notify .periodic .self, ⟨n, alive⟩) :=
    solo_same (a := a) (by simp only [next, hsame, if_true]) (congrArg Prod.snd hsame)
  have hnotify : n.notify .self = n.setPredecessor (some .self) := by
    simp only [LocalNode.notify, hpred]
  have hself' : (n.setPredecessor (some .self)).predecessor = some .self := by
    rw [LocalNode.setPredecessor, LocalNode.thisIfOwn, Option.map_some, ite_self]
  obtain ⟨k, hk, hfix⟩ := fixFingers_solo (h := ⟨n.setPredecessor (some .self), alive⟩) hslot
  refine ⟨(n.setPredecessor (some .self)).setFinger k (some .self), ?_, hinfo, ?_, hself'⟩
  · have htold := notify_solo ⟨n, alive⟩ .periodic .self
    rw [hnotify] at htold
    exact ((((hcheck.trans hping).trans hask).trans htell).trans htold).trans hfix
  · exact (LocalNode.setFinger_slot _ hk _).trans hslot

theorem later_round {h : Host} (hn : h.node.Alone) :
    Pool.Solo step (.checkPredecessor, h) (.stabilizeSet .self, h) := by
  have a : Answer := ⟨0, none⟩
  have hsame := LocalNode.getSuccessor_of_slot hn.slot
  have hcheck := checkPredecessor_solo h
  have hkeep : h.node.checkPredecessor h.ping = h.node := by
    simp only [LocalNode.checkPredecessor, hn.pred, ne_eq, not_true_eq_false, false_and, if_false]
  rw [hkeep] at hcheck
  have hping := stabilize_solo_slot (h := h) (by rw [hsame])
  rw [hsame] at hping
  have hask : Pool.Solo step (.stabilizeAsk, h) (.stabilizeRead .self, h) :=
    solo_same (a := a) (by simp only [next, hsame]) (congrArg Prod.snd hsame)
  have hread : Pool.Solo step (.stabilizeRead .self, h) (.stabilizeTest .self, h) :=
    solo_step (a := a) (by simp only [next, if_true, hn.pred])
  have hin : (h.node.idOf .self).isInInterval h.node.getId h.node.succId = true := by
    rw [LocalNode.succId, hsame]
    exact ID.isInInterval_iff.mpr (inArc_self _ _)
  have htest : Pool.Solo step (.stabilizeTest .self, h) (.stabilizeSet .self, h) :=
    solo_same (a := a) (by simp only [next, hin, if_true]) (congrArg Prod.snd hsame)
  exact (((hcheck.trans hping).trans hask).trans hread).trans htest

end Point

/-- The join of a new node can be undone, whatever node its lookup returns. -/
theorem join_undone {ι : Type*} [DecidableEq ι] {p : Pool ι Host Point} {main j : ι} {r : Node}
    {own : INode} (hmain : p.thread main = .join (some r)) (hj : p.thread j = .checkPredecessor)
    (hown : p.shared.node = .init own) :
    ∃ q, Pool.Run Point.step Host.Looks (fun _ _ => True) p q ∧
      q.thread main = .joined (some r) ∧ q.shared.node.succId = own.id := by
  have a : Answer := ⟨0, none⟩
  have hne : main ≠ j := by
    intro he
    rw [← he, hmain] at hj
    cases hj
  obtain ⟨n, hround, hinfo, halone⟩ := Point.first_round own p.shared.alive
  have hperiodic : Pool.Solo Point.step (.checkPredecessor, ⟨.init own, p.shared.alive⟩)
      (.stabilizeSet .self, ⟨n, p.shared.alive⟩) := hround.trans (Point.later_round halone)
  have hshared : p.shared = ⟨.init own, p.shared.alive⟩ := by rw [← hown]
  have hpending : Pool.Run Point.step Host.Looks (fun _ _ => True) p
      ⟨⟨n, p.shared.alive⟩, Function.update p.thread j (.stabilizeSet .self)⟩ :=
    Pool.Solo.run hperiodic hj hshared fun _ => trivial
  have hjoin : Pool.Solo Point.step (.join (some r), ⟨n, p.shared.alive⟩)
      (.joined (some r), ⟨(n.setPredecessor none).setSuccessor (some r), p.shared.alive⟩) :=
    ((Point.solo_step (a := a) rfl).trans (Point.solo_step (a := a) rfl)).trans
      (Point.solo_step (a := a) rfl)
  have hjoined : Pool.Run Point.step Host.Looks (fun _ _ => True) p
      ⟨⟨(n.setPredecessor none).setSuccessor (some r), p.shared.alive⟩,
        Function.update (Function.update p.thread j (.stabilizeSet .self)) main
          (.joined (some r))⟩ := by
    refine hpending.trans (Pool.Solo.run hjoin ?_ rfl fun _ => trivial)
    exact (Function.update_of_ne hne _ _).trans hmain
  have hset : Pool.Solo Point.step
      (.stabilizeSet .self, ⟨(n.setPredecessor none).setSuccessor (some r), p.shared.alive⟩)
      (.stabilizeTell, ⟨((n.setPredecessor none).setSuccessor (some r)).setSuccessor (some .self),
        p.shared.alive⟩) := Point.solo_step (a := a) rfl
  have hundone := hjoined.trans (Pool.Solo.run (i := j) hset
    ((Function.update_of_ne hne.symm _ _).trans (Function.update_self _ _ _)) rfl fun _ => trivial)
  refine ⟨_, hundone, ?_, ?_⟩
  · exact (Function.update_of_ne hne _ _).trans (Function.update_self _ _ _)
  · dsimp only
    rw [LocalNode.setSuccessor_succId, LocalNode.idOf_self, LocalNode.getId,
      LocalNode.setSuccessor_info, LocalNode.setPredecessor_info, hinfo]

/-! ### Alice joins at Bob -/

def aliceJoining : Pool (Fin 2) Host Point where
  shared := ⟨.init alice, fun _ => true⟩
  thread := ![.join (some (.remote 1 bob)), .checkPredecessor]

theorem pool_ext_two {p q : Pool (Fin 2) Host Point} (hs : p.shared = q.shared)
    (h0 : p.thread 0 = q.thread 0) (h1 : p.thread 1 = q.thread 1) : p = q := by
  refine Pool.ext hs (funext fun i => ?_)
  fin_cases i
  · exact h0
  · exact h1

theorem aliceJoining_joining : Joining 0 (.remote 1 bob) aliceJoining where
  join := rfl
  others j hj := by
    fin_cases j
    · exact absurd rfl hj
    · exact Or.inl rfl
  alive x := Bool.or_true _
  other := alice_id_ne_bob_id.symm

theorem join_undone_alice : ∃ q, Pool.Run Point.step Host.Looks (fun _ _ => True) aliceJoining q ∧
    q.thread 0 = .joined (some (.remote 1 bob)) ∧
      ¬ Toward alice.id bob.id q.shared.node.succId ∧ q.shared.node.succId = alice.id := by
  obtain ⟨q, hrun, hjoined, hsucc⟩ :=
    join_undone aliceJoining_joining.join (j := 1) rfl rfl
  refine ⟨q, hrun, hjoined, fun htoward => ?_, hsucc⟩
  exact htoward.ne alice_id_ne_bob_id.symm hsucc

def aliceJoined : Pool (Fin 2) Host Point where
  shared := ⟨((LocalNode.init alice).setPredecessor none).setSuccessor (some (.remote 1 bob)),
    fun _ => true⟩
  thread := ![.joined (some (.remote 1 bob)), .checkPredecessor]

theorem aliceJoined_run : ClearRun aliceJoining aliceJoined := by
  have hclear : ∀ (p : Pool (Fin 2) Host Point) i, p.thread 1 = .checkPredecessor →
      (∀ x, p.thread 0 ≠ .stabilizeSet x) → JoinClear p i := by
    intro p i h1 h0 r j x _ hj
    fin_cases j
    · exact absurd hj (h0 x)
    · cases h1.symm.trans hj
  have hpred : ClearRun aliceJoining
      ⟨⟨(LocalNode.init alice).setPredecessor none, fun _ => true⟩,
        ![.joinLookup (some (.remote 1 bob)), .checkPredecessor]⟩ := by
    refine .single (Or.inl ⟨0, ⟨0, none⟩, hclear _ _ rfl (fun x hx => by cases hx), ?_⟩)
    exact congrArg some (pool_ext_two rfl rfl rfl)
  have hlookup : ClearRun aliceJoining
      ⟨⟨(LocalNode.init alice).setPredecessor none, fun _ => true⟩,
        ![.joinSet (some (.remote 1 bob)), .checkPredecessor]⟩ := by
    refine hpred.tail (Or.inl ⟨0, ⟨0, none⟩, hclear _ _ rfl (fun x hx => by cases hx), ?_⟩)
    exact congrArg some (pool_ext_two rfl rfl rfl)
  refine hlookup.tail (Or.inl ⟨0, ⟨0, none⟩, hclear _ _ rfl (fun x hx => by cases hx), ?_⟩)
  exact congrArg some (pool_ext_two rfl rfl rfl)

theorem join_kept_alice :
    Toward aliceJoining.shared.node.getId (aliceJoining.shared.node.idOf (.remote 1 bob))
        aliceJoined.shared.node.succId ∧
      aliceJoined.shared.node.succId ≠ aliceJoining.shared.node.getId :=
  join_kept aliceJoining_joining aliceJoined_run rfl

end ChordChat
