import ChordChat.Interleaving.Pool
import ChordChat.Stabilize

/-!
# The threads of one node

The main thread, the periodic thread and one thread for each request work on one
`LocalNode`. The mutex is held inside a getter or setter only, never from one to
the next. A `Point` is where a thread stands: its next step is one getter, setter
or finger table access, one ping or one remote call, with the code up to the next
of them. A thread that nothing interrupts does what the functions of `LocalNode`
do (`notify_solo`, `checkPredecessor_solo`, `liveSuccessor_solo`,
`stabilizeSet_solo`).
-/

namespace ChordChat
open Clockwise Interleaving

/-- `alive` tells which of the other nodes answer; the node itself does. -/
structure Host where
  node : LocalNode
  alive : ID → Bool

namespace Host

def live (h : Host) (x : ID) : Bool := decide (x = h.node.getId) || h.alive x

def ping (h : Host) (p : Node) : Bool := h.live (h.node.idOf p)

theorem ping_of_info {h : Host} {m : LocalNode} (hm : m.info = h.node.info) :
    ping { h with node := m } = h.ping := by
  funext p
  have hid : m.getId = h.node.getId := congrArg INode.id hm
  have hof : m.idOf p = h.node.idOf p := by rw [LocalNode.idOf, hm, LocalNode.idOf]
  show (decide (m.idOf p = m.getId) || h.alive (m.idOf p)) = _
  rw [hid, hof]
  rfl

end Host

/-- What a step gets from outside: a random number, the reply of a remote call. -/
structure Answer where
  rand : ℕ
  reply : Option Node

/-- Who called `notify`: a request handler, or `stabilize` on the node itself. -/
inductive Caller where
  | handler
  | periodic

/-- `read` of `notifySet` is the predecessor's ID as the thread last read it, and the
node of `join` is the one its lookup returns. -/
inductive Point where
  | notify (caller : Caller) (n : Node)
  | notifyTest (caller : Caller) (n : Node)
  | notifySet (caller : Caller) (n : Node) (read : Option ID)
  | checkPredecessor
  | checkPing (n : Node)
  | checkSet (n : Node)
  | stabilize
  | stabilizePing (s : Node)
  | stabilizeRemove (s : Node)
  | stabilizeAsk
  | stabilizeRead (s : Node)
  | stabilizeTest (x : Node)
  | stabilizeSet (x : Node)
  | stabilizeTell
  | stabilizeNotify
  | fixFingers
  | fixLookup (k : Fin M)
  | fixReply (k : Fin M)
  | fixSet (k : Fin M) (n : Option Node)
  | join (n : Option Node)
  | joinLookup (n : Option Node)
  | joinSet (n : Option Node)
  | joined (n : Option Node)
  | ended
  | crashed

def Caller.next : Caller → Point
  | .handler => .ended
  | .periodic => .fixFingers

namespace Point

/-- What the step of a thread at this point does to the node. -/
def effect (n : LocalNode) : Point → LocalNode
  | .notifySet _ p _ => n.setPredecessor (some p)
  | .checkSet _ => n.setPredecessor none
  | .stabilize | .stabilizeAsk | .stabilizeTest _ | .stabilizeTell => n.getSuccessor.2
  | .stabilizeRemove s => { n with finger := n.finger.removeNode s }
  | .stabilizeSet x => n.setSuccessor (some x)
  | .fixLookup k => (n.findSuccessorHop (FingerTable.start n.getId k)).2
  | .fixSet k p => n.setFinger k p
  | .join _ => n.setPredecessor none
  | .joinSet p => n.setSuccessor p
  | _ => n

/-- Where the thread stands after its step. The second read of `notify` dereferences
the predecessor without a test. -/
def next (a : Answer) (h : Host) : Point → Option Point
  | .notify c n =>
    match h.node.predecessor with
    | none => some (.notifySet c n none)
    | some _ => some (.notifyTest c n)
  | .notifyTest c n =>
    match h.node.predecessor with
    | none => some .crashed
    | some q =>
      if (h.node.idOf n).isInInterval (h.node.idOf q) h.node.getId then
        some (.notifySet c n (some (h.node.idOf q)))
      else some c.next
  | .notifySet c _ _ => some c.next
  | .checkPredecessor =>
    match h.node.predecessor with
    | none => some .stabilize
    | some n => if n ≠ .self then some (.checkPing n) else some .stabilize
  | .checkPing n => if h.ping n then some .stabilize else some (.checkSet n)
  | .checkSet _ => some .stabilize
  | .stabilize => some (.stabilizePing h.node.getSuccessor.1)
  | .stabilizePing s => if h.ping s then some .stabilizeAsk else some (.stabilizeRemove s)
  | .stabilizeRemove _ => some .stabilize
  | .stabilizeAsk => some (.stabilizeRead h.node.getSuccessor.1)
  | .stabilizeRead s =>
    match if s = .self then h.node.predecessor else a.reply with
    | none => some .stabilizeTell
    | some x => some (.stabilizeTest x)
  | .stabilizeTest x =>
    if (h.node.idOf x).isInInterval h.node.getId h.node.succId then some (.stabilizeSet x)
    else some .stabilizeTell
  | .stabilizeSet _ => some .stabilizeTell
  | .stabilizeTell =>
    if h.node.getSuccessor.1 = .self then some (.notify .periodic .self) else some .stabilizeNotify
  | .stabilizeNotify => some .fixFingers
  | .fixFingers => some (.fixLookup (LocalNode.fingerIndex a.rand))
  | .fixLookup k =>
    match (h.node.findSuccessorHop (FingerTable.start h.node.getId k)).1 with
    | .answer p => some (.fixSet k (some p))
    | .forward _ => some (.fixReply k)
  | .fixReply k => some (.fixSet k a.reply)
  | .fixSet _ _ => some .checkPredecessor
  | .join n => some (.joinLookup n)
  | .joinLookup n => some (.joinSet n)
  | .joinSet n => some (.joined n)
  | .joined _ | .ended | .crashed => none

def step (a : Answer) (h : Host) (t : Point) : Option (Point × Host) :=
  (t.next a h).map fun t' => (t', { h with node := t.effect h.node })

/-- The ID that the step writes to the predecessor, if it writes it. -/
def write (n : LocalNode) : Point → Option (Option ID)
  | .notifySet _ p _ => some (some (n.idOf p))
  | .checkSet _ | .join _ => some none
  | _ => none

theorem step_eq_some {a : Answer} {h h' : Host} {t t' : Point} :
    t.step a h = some (t', h') ↔
      t.next a h = some t' ∧ h' = { h with node := t.effect h.node } := by
  rw [step, Option.map_eq_some_iff]
  constructor
  · intro hstep
    obtain ⟨u, hu, he⟩ := hstep
    cases he
    exact ⟨hu, rfl⟩
  · intro hstep
    exact ⟨t', hstep.1, by rw [hstep.2]⟩

@[simp] theorem effect_info (n : LocalNode) (t : Point) : (t.effect n).info = n.info := by
  cases t with
  | stabilize => exact n.getSuccessor_info
  | stabilizeAsk => exact n.getSuccessor_info
  | stabilizeTest => exact n.getSuccessor_info
  | stabilizeTell => exact n.getSuccessor_info
  | fixLookup k => exact n.hop_info _
  | _ => rfl

@[simp] theorem effect_getId (n : LocalNode) (t : Point) : (t.effect n).getId = n.getId :=
  congrArg INode.id (effect_info n t)

@[simp] theorem effect_idOf (n : LocalNode) (t : Point) (p : Node) :
    (t.effect n).idOf p = n.idOf p := by
  rw [LocalNode.idOf, effect_info, LocalNode.idOf]

/-- The predecessor changes by the writes alone. -/
theorem effect_predId (n : LocalNode) (t : Point) :
    (t.effect n).predId = (t.write n).getD n.predId := by
  cases t with
  | notifySet c p read => exact n.setPredecessor_predId _
  | checkSet p => exact n.setPredecessor_predId _
  | join p => exact n.setPredecessor_predId _
  | stabilize => exact n.getSuccessor_predId
  | stabilizeAsk => exact n.getSuccessor_predId
  | stabilizeTest => exact n.getSuccessor_predId
  | stabilizeTell => exact n.getSuccessor_predId
  | fixLookup k => exact n.hop_predId _
  | _ => rfl

@[simp] theorem live_effect (h : Host) (t : Point) (x : ID) :
    Host.live { h with node := t.effect h.node } x = h.live x := by
  simp only [Host.live, effect_getId]

/-- How a thread comes to a point: from which point, and what it found there. -/
def Came (h : Host) (t : Point) : Point → Prop
  | .notify c n => t = .stabilizeTell ∧ c = .periodic ∧ n = .self
  | .notifyTest c n => t = .notify c n
  | .notifySet c n read => t = .notify c n ∧ read = none ∨
      t = .notifyTest c n ∧ ∃ q, read = some q ∧ InArc q (h.node.idOf n) h.node.getId
  | .checkSet n => t = .checkPing n ∧ h.ping n = false
  | .stabilizeRemove s => t = .stabilizePing s ∧ h.ping s = false
  | .stabilizeSet x => t = .stabilizeTest x ∧ InArc h.node.getId (h.node.idOf x) h.node.succId
  | .fixLookup k => k ≠ 0
  | .fixReply k => t = .fixLookup k
  | .fixSet k _ => t = .fixLookup k ∨ t = .fixReply k
  | .join _ => False
  | .joinLookup n => t = .join n
  | .joinSet n => t = .joinLookup n
  | .joined n => t = .joinSet n
  | .ended => ∃ n, (∃ read, t = .notifySet .handler n read) ∨
      t = .notifyTest .handler n ∧
        ∃ q, h.node.predId = some q ∧ ¬ InArc q (h.node.idOf n) h.node.getId
  | .crashed => ∃ c n, t = .notifyTest c n ∧ h.node.predecessor = none
  | _ => True

theorem next_came {a : Answer} {h : Host} {t t' : Point} (hnext : t.next a h = some t') :
    Came h t t' := by
  cases t with
  | notify c n =>
    simp only [next] at hnext
    split at hnext <;> cases hnext
    · exact Or.inl ⟨rfl, rfl⟩
    · exact rfl
  | notifyTest c n =>
    simp only [next] at hnext
    split at hnext
    next hp =>
      cases hnext
      exact ⟨c, n, rfl, hp⟩
    next q hp =>
      split at hnext
      next hin =>
        cases hnext
        exact Or.inr ⟨rfl, _, rfl, ID.isInInterval_iff.mp hin⟩
      next hout =>
        rw [ID.isInInterval_iff] at hout
        cases c with
        | handler =>
          cases hnext
          have hpred : h.node.predId = some (h.node.idOf q) := by rw [LocalNode.predId, hp]; rfl
          exact ⟨n, Or.inr ⟨rfl, _, hpred, hout⟩⟩
        | periodic =>
          cases hnext
          trivial
  | notifySet c n read =>
    cases c with
    | handler =>
      cases hnext
      exact ⟨n, Or.inl ⟨read, rfl⟩⟩
    | periodic =>
      cases hnext
      trivial
  | checkPredecessor =>
    simp only [next] at hnext
    split at hnext
    · cases hnext
      trivial
    · split at hnext <;> cases hnext <;> trivial
  | checkPing n =>
    simp only [next] at hnext
    split at hnext <;> cases hnext
    next => trivial
    next hping => exact ⟨rfl, Bool.eq_false_iff.mpr hping⟩
  | stabilizePing s =>
    simp only [next] at hnext
    split at hnext <;> cases hnext
    next => trivial
    next hping => exact ⟨rfl, Bool.eq_false_iff.mpr hping⟩
  | stabilizeRead s => simp only [next] at hnext; split at hnext <;> cases hnext <;> trivial
  | stabilizeTest x =>
    simp only [next] at hnext
    split at hnext <;> cases hnext
    next hin => exact ⟨rfl, ID.isInInterval_iff.mp hin⟩
    next => trivial
  | stabilizeTell =>
    simp only [next] at hnext
    split at hnext <;> cases hnext
    · exact ⟨rfl, rfl, rfl⟩
    · trivial
  | fixFingers =>
    cases hnext
    exact LocalNode.fingerIndex_ne_zero _
  | fixLookup k =>
    simp only [next] at hnext
    split at hnext <;> cases hnext
    · exact Or.inl rfl
    · exact rfl
  | fixReply k =>
    cases hnext
    exact Or.inr rfl
  | join n => cases hnext; exact rfl
  | joinLookup n => cases hnext; exact rfl
  | joinSet n => cases hnext; exact rfl
  | _ => cases hnext <;> trivial

/-! ### A thread that nothing interrupts -/

theorem solo_step {a : Answer} {h : Host} {t t' : Point} (hnext : t.next a h = some t') :
    Pool.Solo step (t, h) (t', { h with node := t.effect h.node }) :=
  .single ⟨a, step_eq_some.mpr ⟨hnext, rfl⟩⟩

theorem solo_same {a : Answer} {h : Host} {t t' : Point} (hnext : t.next a h = some t')
    (hsame : t.effect h.node = h.node) : Pool.Solo step (t, h) (t', h) := by
  have hstep := solo_step hnext
  rw [hsame] at hstep
  exact hstep

theorem notify_solo (h : Host) (c : Caller) (n : Node) :
    Pool.Solo step (.notify c n, h) (c.next, { h with node := h.node.notify n }) := by
  have a : Answer := ⟨0, none⟩
  cases hp : h.node.predecessor with
  | none =>
    have hread : Pool.Solo step (.notify c n, h) (.notifySet c n none, h) :=
      solo_step (a := a) (by simp only [next, hp])
    have hset : h.node.notify n = h.node.setPredecessor (some n) := by
      simp only [LocalNode.notify, hp]
    rw [hset]
    exact hread.trans (solo_step (a := a) rfl)
  | some q =>
    have hread : Pool.Solo step (.notify c n, h) (.notifyTest c n, h) :=
      solo_step (a := a) (by simp only [next, hp])
    refine hread.trans ?_
    cases hin : (h.node.idOf n).isInInterval (h.node.idOf q) h.node.getId with
    | true =>
      have htest : Pool.Solo step (.notifyTest c n, h)
          (.notifySet c n (some (h.node.idOf q)), h) :=
        solo_step (a := a) (by simp only [next, hp, hin, if_true])
      have hset : h.node.notify n = h.node.setPredecessor (some n) := by
        simp only [LocalNode.notify, hp, hin, if_true]
      rw [hset]
      exact htest.trans (solo_step (a := a) rfl)
    | false =>
      have hkeep : h.node.notify n = h.node := by
        simp only [LocalNode.notify, hp, hin, Bool.false_eq_true, if_false]
      rw [hkeep]
      exact solo_step (a := a) (by simp only [next, hp, hin, Bool.false_eq_true, if_false])

theorem checkPredecessor_solo (h : Host) :
    Pool.Solo step (.checkPredecessor, h)
      (.stabilize, { h with node := h.node.checkPredecessor h.ping }) := by
  have a : Answer := ⟨0, none⟩
  cases hp : h.node.predecessor with
  | none =>
    have hkeep : h.node.checkPredecessor h.ping = h.node := by
      simp only [LocalNode.checkPredecessor, hp]
    rw [hkeep]
    exact solo_step (a := a) (by simp only [next, hp])
  | some n =>
    by_cases hself : n = .self
    · have hkeep : h.node.checkPredecessor h.ping = h.node := by
        simp only [LocalNode.checkPredecessor, hp, hself, ne_eq, not_true_eq_false, false_and,
          if_false]
      rw [hkeep]
      exact solo_step (a := a) (by simp only [next, hp, hself, ne_eq, not_true_eq_false, if_false])
    · have hread : Pool.Solo step (.checkPredecessor, h) (.checkPing n, h) :=
        solo_step (a := a) (by simp only [next, hp, ne_eq, hself, not_false_eq_true, if_true])
      refine hread.trans ?_
      cases hping : h.ping n with
      | true =>
        have hkeep : h.node.checkPredecessor h.ping = h.node := by
          simp only [LocalNode.checkPredecessor, hp, hping, Bool.true_eq_false, and_false, if_false]
        rw [hkeep]
        exact solo_step (a := a) (by simp only [next, hping, if_true])
      | false =>
        have hset : h.node.checkPredecessor h.ping = h.node.setPredecessor none := by
          simp only [LocalNode.checkPredecessor, hp, hping, ne_eq, hself, not_false_eq_true,
            and_self, if_true]
        have hfail : Pool.Solo step (.checkPing n, h) (.checkSet n, h) :=
          solo_step (a := a) (by simp only [next, hping, Bool.false_eq_true, if_false])
        rw [hset]
        exact hfail.trans (solo_step (a := a) rfl)

/-- The ping loop of `stabilize`, up to the successor that answers. -/
theorem liveSuccessor_solo {fuel : ℕ} {h : Host} {s : Node} {m : LocalNode}
    (hloop : h.node.liveSuccessor h.ping fuel = some (s, m)) :
    Pool.Solo step (.stabilize, h) (.stabilizeAsk, { h with node := m }) := by
  have a : Answer := ⟨0, none⟩
  induction fuel generalizing h with
  | zero => cases hloop
  | succ fuel ih =>
    have hread : Pool.Solo step (.stabilize, h)
        (.stabilizePing h.node.getSuccessor.1, { h with node := h.node.getSuccessor.2 }) :=
      solo_step (a := a) rfl
    refine hread.trans ?_
    have hpings : Host.ping { h with node := h.node.getSuccessor.2 } = h.ping :=
      Host.ping_of_info h.node.getSuccessor_info
    rw [LocalNode.liveSuccessor] at hloop
    cases hping : h.ping h.node.getSuccessor.1 with
    | true =>
      simp only [hping, if_true, Option.some.injEq] at hloop
      have hm : h.node.getSuccessor.2 = m := congrArg Prod.snd hloop
      rw [← hm]
      exact solo_step (a := a) (by simp only [next, hpings, hping, if_true])
    | false =>
      simp only [hping, Bool.false_eq_true, if_false] at hloop
      have hfail : Pool.Solo step
          (.stabilizePing h.node.getSuccessor.1, { h with node := h.node.getSuccessor.2 })
          (.stabilizeRemove h.node.getSuccessor.1, { h with node := h.node.getSuccessor.2 }) :=
        solo_step (a := a) (by simp only [next, hpings, hping, Bool.false_eq_true, if_false])
      refine hfail.trans (.trans (solo_step (a := a) rfl) (ih ?_))
      rw [Host.ping_of_info ((effect_info _ _).trans h.node.getSuccessor_info)]
      exact hloop

/-- The exchange of the successor, from the reply `x` on. -/
theorem stabilizeSet_solo (h : Host) (x : Option Node)
    (hx : h.node.getSuccessor.1 = .self → x = h.node.predecessor) :
    Pool.Solo step (.stabilizeAsk, h)
      (.stabilizeTell, { h with node := h.node.getSuccessor.2.stabilizeSet x }) := by
  have hask : Pool.Solo step (.stabilizeAsk, h)
      (.stabilizeRead h.node.getSuccessor.1, { h with node := h.node.getSuccessor.2 }) :=
    solo_step (a := ⟨0, x⟩) rfl
  refine hask.trans ?_
  have hsame : h.node.getSuccessor.2.getSuccessor.2 = h.node.getSuccessor.2 :=
    congrArg Prod.snd h.node.getSuccessor_idem
  have hreply : (if h.node.getSuccessor.1 = .self then h.node.getSuccessor.2.predecessor else x) =
      x := by
    split
    next hself => rw [hx hself, LocalNode.getSuccessor_predecessor]
    next => rfl
  cases x with
  | none => exact solo_step (a := ⟨0, none⟩) (by simp only [next, hreply])
  | some p =>
    have hread : Pool.Solo step
        (.stabilizeRead h.node.getSuccessor.1, { h with node := h.node.getSuccessor.2 })
        (.stabilizeTest p, { h with node := h.node.getSuccessor.2 }) :=
      solo_step (a := ⟨0, some p⟩) (by simp only [next, hreply])
    refine hread.trans ?_
    rcases h.node.getSuccessor.2.stabilizeSet_cases (some p) with
      ⟨q, hq, hin, he⟩ | ⟨hout, he⟩
    · cases hq
      have htest : Pool.Solo step (.stabilizeTest p, { h with node := h.node.getSuccessor.2 })
          (.stabilizeSet p, { h with node := h.node.getSuccessor.2.getSuccessor.2 }) :=
        solo_step (a := ⟨0, none⟩) (by simp only [next, hin, if_true])
      rw [he]
      exact htest.trans (solo_step (a := ⟨0, none⟩) rfl)
    · have hkeep : h.node.getSuccessor.2.stabilizeSet (some p) =
          h.node.getSuccessor.2.getSuccessor.2 := by
        rcases he with he | he
        · rw [he, hsame]
        · exact he
      rw [hkeep]
      exact solo_step (a := ⟨0, none⟩)
        (by simp only [next, hout p rfl, Bool.false_eq_true, if_false])

end Point

end ChordChat
