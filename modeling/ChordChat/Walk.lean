import ChordChat.Network
import Mathlib.Logic.Relation

/-!
# The walks of the lookups

A lookup for `id` goes from node to node over the closest preceding fingers. These
are the specifications of `findSuccessor` and `findPredecessor` on a network: the
walk is read off the states before the call, and the call's result off the end of
its walk.
-/

namespace ChordChat
open Clockwise

namespace LocalNode

def stopsPredecessor (n : LocalNode) (id : ID) : Bool :=
  holds n.getId (n.idOf n.getSuccessor.1) id

def stopsSuccessor (n : LocalNode) (id : ID) : Bool :=
  decide (n.getId = id) || n.stopsPredecessor id

def answer (n : LocalNode) (id : ID) : INode :=
  if n.getId = id then n.info else n.getSuccessor.1.info n.info

theorem answer_id (n : LocalNode) (id : ID) :
    (n.answer id).id = if n.getId = id then id else n.idOf n.getSuccessor.1 := by
  unfold answer
  split
  next h => exact h
  next => rfl

theorem hop_answer {n : LocalNode} {id : ID} (h : n.stopsSuccessor id = true) :
    ∃ p, n.findSuccessorHop id = (.answer p, (n.findSuccessorHop id).2) ∧
      p.info n.info = n.answer id := by
  rcases n.findSuccessorHop_cases id with ⟨hid, he⟩ | ⟨hid, _, he⟩ | ⟨hid, hf, _⟩
  · exact ⟨.self, by rw [he], by simp only [answer, hid, if_true, Node.info]⟩
  · exact ⟨n.getSuccessor.1, by rw [he], by simp only [answer, hid, if_false]⟩
  · simp only [stopsSuccessor, stopsPredecessor, hid, hf, decide_false, Bool.or_false,
      Bool.false_eq_true] at h

theorem hop_forward {n : LocalNode} {id : ID} (h : n.stopsSuccessor id = false) :
    n.findSuccessorHop id = (.forward (n.closestPrecedingFinger id), n) ∧
      sbtw n.getId (n.idOf (n.closestPrecedingFinger id)) id := by
  rcases n.findSuccessorHop_cases id with ⟨hid, _⟩ | ⟨_, ht, _⟩ | ⟨_, _, _, hb, _, he⟩
  · simp only [stopsSuccessor, hid, decide_true, Bool.true_or, Bool.true_eq_false] at h
  · simp only [stopsSuccessor, stopsPredecessor, ht, Bool.or_true, Bool.true_eq_false] at h
  · exact ⟨he, hb⟩

theorem sbtw_of_not_stops {n : LocalNode} {id : ID} (hid : n.getId ≠ id)
    (h : ¬ n.stopsPredecessor id = true) :
    sbtw n.getId (n.idOf (n.closestPrecedingFinger id)) id := by
  refine (hop_forward ?_).2
  simp only [stopsSuccessor, hid, h, decide_false, Bool.or_false]

theorem closestPrecedingFinger_getSuccessor (n : LocalNode) (id : ID) :
    n.getSuccessor.2.closestPrecedingFinger id = n.closestPrecedingFinger id := by
  rcases n.getSuccessor_cases with ⟨s, _, he⟩ | ⟨hempty, he⟩
  · rw [he]
  · have hold : n.closestPrecedingFinger id = .self := by
      rcases n.closestPrecedingFinger_cases id with ⟨i, f, hf, _, _⟩ | ⟨_, hc⟩
      · obtain ⟨j, hj⟩ := FingerTable.entry_of_getNode hf
        rw [hempty] at hj
        cases hj
      · exact hc
    rw [hold, he]
    rcases closestPrecedingFinger_cases { n with finger := n.finger.setNode 0 (some .self) } id
      with ⟨i, f, hf, _, hc⟩ | ⟨_, hc⟩
    · obtain ⟨j, hj⟩ := FingerTable.entry_of_getNode hf
      rw [FingerTable.entries_setNode] at hj
      split at hj
      · rw [hc, Option.some.inj hj]
      · rw [hempty] at hj
        cases hj
    · exact hc

end LocalNode

namespace Net

/-! ### The walk of `findSuccessor` -/

/-- Node `i` is alive and hands the lookup for `id` on to `j`. -/
def Forwards (net : Net) (id i j : ID) : Prop :=
  ∃ n, net.node i = some n ∧ n.stopsSuccessor id = false ∧
    n.idOf (n.closestPrecedingFinger id) = j

inductive Walk (net : Net) (id : ID) : ℕ → ID → ID → Prop
  | here (i : ID) : Walk net id 0 i i
  | hop {k : ℕ} {i j l : ID} : net.Forwards id i j → Walk net id k j l → Walk net id (k + 1) i l

/-- The walk from `i` ends after `k` hops at the live node `m`. -/
def EndsAt (net : Net) (id : ID) (k : ℕ) (i : ID) (m : LocalNode) : Prop :=
  ∃ j, net.Walk id k i j ∧ net.node j = some m ∧ m.stopsSuccessor id = true

/-- The walk from `i` comes after `k` hops to a failed node. -/
def FailsAfter (net : Net) (id : ID) (k : ℕ) (i : ID) : Prop :=
  ∃ j, net.Walk id k i j ∧ net.node j = none

theorem forwards_sbtw {net : Net} {id i j : ID} (h : net.Forwards id i j) : sbtw i j id := by
  obtain ⟨n, hn, hs, rfl⟩ := h
  exact net.id_eq i n hn ▸ (LocalNode.hop_forward hs).2

/-- Every walk ends: each hop goes on clockwise before `id`. -/
theorem walk_ends (net : Net) (id i : ID) :
    (∃ k m, net.EndsAt id k i m) ∨ ∃ k, net.FailsAfter id k i := by
  induction i using (wellFounded_toward id).induction with
  | _ i ih =>
    cases hn : net.node i with
    | none => exact Or.inr ⟨0, i, .here i, hn⟩
    | some n =>
      cases hs : n.stopsSuccessor id with
      | true => exact Or.inl ⟨0, n, i, .here i, hn, hs⟩
      | false =>
        have hf : net.Forwards id i (n.idOf (n.closestPrecedingFinger id)) := ⟨n, hn, hs, rfl⟩
        rcases ih _ (forwards_sbtw hf) with ⟨k, m, j, hw, hend⟩ | ⟨k, j, hw, hend⟩
        · exact Or.inl ⟨k + 1, m, j, .hop hf hw, hend⟩
        · exact Or.inr ⟨k + 1, j, .hop hf hw, hend⟩

/-- What is left of a record after so many replies; once a reply is lost, the
nodes further back end with NULL. -/
def relay (t : Transport) : ℕ → INode → Except Fault (Option INode)
  | 0, r => .ok (some r)
  | k + 1, r =>
    match relay t k r with
    | .ok (some r) => t r
    | _ => .ok none

theorem relay_of_fixed {t : Transport} {r : INode} (h : t r = .ok (some r)) (k : ℕ) :
    relay t k r = .ok (some r) := by
  induction k with
  | zero => rfl
  | succ k ih => simp only [relay, ih, h]

variable (t : Transport) (object : ℕ)

def resultInfo (own : INode) (result : Except Fault (Option Node)) : Except Fault (Option INode) :=
  result.map (Option.map (Node.info own))

theorem resultInfo_stubResult (own r : INode) : resultInfo own (stubResult t object r) = t r := by
  simp only [resultInfo, stubResult]
  cases t r with
  | error e => rfl
  | ok r => cases r <;> rfl

theorem lookupReply_spec (own : INode) (callee : INode) (k : ℕ) (r : INode)
    (result : Except Fault (Option Node)) (net : Net)
    (h : resultInfo callee result = relay t k r) :
    resultInfo own (lookupReply t object callee (result, net)).1 = relay t (k + 1) r ∧
      ∀ p, (lookupReply t object callee (result, net)).1 = .ok (some p) →
        (lookupReply t object callee (result, net)).2 = net ∧ ∃ q, result = .ok (some q) := by
  simp only [relay, ← h]
  match result with
  | .ok (some p) => exact ⟨resultInfo_stubResult t object own _, fun _ _ => ⟨rfl, p, rfl⟩⟩
  | .ok none => exact ⟨rfl, fun _ h => nomatch h⟩
  | .error .exception => exact ⟨rfl, fun _ h => nomatch h⟩
  | .error .abort => exact ⟨rfl, fun _ h => nomatch h⟩
  | .error .nullDeref => exact ⟨rfl, fun _ h => nomatch h⟩
  | .error .overread => exact ⟨rfl, fun _ h => nomatch h⟩

theorem findSuccessor_hop {net : Net} {id i j : ID} (h : net.Forwards id i j) (fuel : ℕ) :
    net.findSuccessor t object (fuel + 1) i id =
      match net.node j with
      | none => some (.ok none, net)
      | some m => (net.findSuccessor t object fuel j id).map (lookupReply t object m.info) := by
  have hb := forwards_sbtw h
  obtain ⟨n, hn, hs, rfl⟩ := h
  obtain ⟨he, _⟩ := LocalNode.hop_forward hs
  cases hc : n.closestPrecedingFinger id with
  | self =>
    rw [hc, LocalNode.idOf_self, net.id_eq i n hn] at hb
    exact absurd hb sbtw_irrefl_left
  | remote o r =>
    rw [hc] at he
    cases hm : net.node r.id with
    | none => simp only [findSuccessor, hn, he, set_node hn, LocalNode.idOf_remote, hm]
    | some m => simp only [findSuccessor, hn, he, set_node hn, LocalNode.idOf_remote, hm]

theorem findSuccessor_own {net : Net} {i : ID} {n : LocalNode} (hn : net.node i = some n)
    (fuel : ℕ) : net.findSuccessor t object (fuel + 1) i i = some (.ok (some .self), net) := by
  have hid := net.id_eq i n hn
  simp only [findSuccessor, hn, LocalNode.findSuccessorHop, hid, if_true, set_node hn]

/-- A lookup whose walk ends at a live node returns what the replies leave of the
record answered. -/
theorem findSuccessor_endsAt {net : Net} {id i : ID} {k : ℕ} {m : LocalNode}
    (h : net.EndsAt id k i m) :
    ∃ n result net', net.node i = some n ∧
      (∀ fuel, k < fuel → net.findSuccessor t object fuel i id = some (result, net')) ∧
      resultInfo n.info result = relay t k (m.answer id) ∧
      ∀ p, result = .ok (some p) → net' = net.set (m.findSuccessorHop id).2 := by
  obtain ⟨j, hw, hm, hs⟩ := h
  induction hw with
  | here i =>
    obtain ⟨p, he, hp⟩ := LocalNode.hop_answer hs
    refine ⟨m, .ok (some p), net.set (m.findSuccessorHop id).2, hm, fun fuel hf => ?_, ?_,
      fun _ _ => rfl⟩
    · obtain ⟨fuel, rfl⟩ : ∃ f, fuel = f + 1 := ⟨fuel - 1, by omega⟩
      simp only [findSuccessor, hm]
      rw [he]
    · simp only [resultInfo, relay, Except.map, Option.map_some, hp]
  | @hop k i j l hf _ ih =>
    obtain ⟨n, result, net', hj, hrun, hinfo, hnet⟩ := ih hm
    have ⟨own, hown, _⟩ := hf
    obtain ⟨hreply, hkeep⟩ := lookupReply_spec t object own.info n.info k _ result net' hinfo
    refine ⟨own, _, (lookupReply t object n.info (result, net')).2, hown, fun fuel hk => ?_,
      hreply, fun p hp => ?_⟩
    · obtain ⟨fuel, rfl⟩ : ∃ f, fuel = f + 1 := ⟨fuel - 1, by omega⟩
      rw [findSuccessor_hop t object hf, hj]
      simp only [hrun fuel (by omega), Option.map_some]
    · obtain ⟨he, q, hq⟩ := hkeep p hp
      exact he.trans (hnet q hq)

theorem findSuccessor_fails {net : Net} {id i : ID} {k : ℕ} (h : net.FailsAfter id k i) :
    ∃ net', ∀ fuel, k < fuel → net.findSuccessor t object fuel i id = some (.ok none, net') := by
  obtain ⟨j, hw, hdead⟩ := h
  induction hw with
  | here i =>
    refine ⟨net, fun fuel hf => ?_⟩
    obtain ⟨fuel, rfl⟩ : ∃ f, fuel = f + 1 := ⟨fuel - 1, by omega⟩
    simp only [findSuccessor, hdead]
  | @hop k i j l hf _ ih =>
    obtain ⟨net', hrun⟩ := ih hdead
    cases hj : net.node j with
    | none =>
      refine ⟨net, fun fuel hk => ?_⟩
      obtain ⟨fuel, rfl⟩ : ∃ f, fuel = f + 1 := ⟨fuel - 1, by omega⟩
      rw [findSuccessor_hop t object hf, hj]
    | some m =>
      refine ⟨net'.kill m.info.id, fun fuel hk => ?_⟩
      obtain ⟨fuel, rfl⟩ : ∃ f, fuel = f + 1 := ⟨fuel - 1, by omega⟩
      rw [findSuccessor_hop t object hf, hj]
      simp only [hrun fuel (by omega), Option.map_some, lookupReply]

/-! ### The walk of `findPredecessor` -/

/-- What the loop of `findPredecessor` does at a pointer. -/
inductive Turn where
  | stop (p : Node)
  | next (p : Option Node)
  | fault (e : Fault)

def Turn.final : Except Fault Node → Turn
  | .ok p => .stop p
  | .error e => .fault e

def turn (net : Net) (i id : ID) : Option Node → Turn
  | none => .fault .nullDeref
  | some p =>
    match (net.call t object i p LocalNode.getSuccessor).1 with
    | .error e => .fault e
    | .ok none => .fault .nullDeref
    | .ok (some s) =>
      if LocalNode.holds (p.idAt i) (s.idAt i) id then .stop p
      else
        match (net.call t object i p fun m => (m.closestPrecedingFinger id, m)).1 with
        | .error e => .fault e
        | .ok q => .next q

/-- The loop comes from pointer `p` to pointer `q`. -/
def Comes (net : Net) (i id : ID) : Option Node → Option Node → Prop :=
  Relation.ReflTransGen fun p q => net.turn t object i id p = .next q

/-- `getSuccessor` has been called on some nodes of `net`, no more. -/
def Touched (net net' : Net) : Prop :=
  ∀ j, net'.node j = net.node j ∨ ∃ m, net.node j = some m ∧ net'.node j = some m.getSuccessor.2

theorem Touched.refl (net : Net) : Touched net net := fun _ => Or.inl rfl

theorem call_eq (net : Net) (i : ID) (p : Node) (f : LocalNode → Node × LocalNode) :
    net.call t object i p f =
      match net.node (p.idAt i) with
      | none => (.ok none, net)
      | some m =>
        ((match p with
          | .self => .ok (some (f m).1)
          | .remote _ _ => stubResult t object ((f m).1.info m.info)), net.set (f m).2) := by
  cases p with
  | self => cases hm : net.node i <;> simp only [call, Node.idAt, hm]
  | remote o r => cases hm : net.node r.id <;> simp only [call, Node.idAt, hm]

theorem Touched.set {net net' : Net} (h : Touched net net') {j : ID} {m n : LocalNode}
    (hm : net.node j = some m) (hn : n = m ∨ n = m.getSuccessor.2) : Touched net (net'.set n) := by
  have hid : n.getId = j := by
    rcases hn with rfl | rfl
    · exact net.id_eq j n hm
    · rw [LocalNode.getSuccessor_getId, net.id_eq j m hm]
  intro l
  rw [node_set, hid]
  split
  next hl =>
    rw [hl]
    rcases hn with rfl | rfl
    · exact Or.inl hm.symm
    · exact Or.inr ⟨m, hm, rfl⟩
  next => exact h l

theorem Touched.call {net net' : Net} (h : Touched net net') (i : ID) (p : Node)
    {f : LocalNode → Node × LocalNode} (hf : ∀ m, (f m.getSuccessor.2).1 = (f m).1)
    (hs : ∀ m, (f m).2 = m ∨ (f m).2 = m.getSuccessor.2) :
    (net'.call t object i p f).1 = (net.call t object i p f).1 ∧
      Touched net (net'.call t object i p f).2 := by
  rw [call_eq, call_eq]
  rcases h (p.idAt i) with he | ⟨m, hm, he⟩
  · rw [he]
    cases hm : net.node (p.idAt i) with
    | none => exact ⟨rfl, h⟩
    | some m => exact ⟨rfl, h.set hm (hs m)⟩
  · rw [he, hm]
    refine ⟨by simp only [hf, LocalNode.getSuccessor_info], h.set hm ?_⟩
    rcases hs m.getSuccessor.2 with h2 | h2
    · exact Or.inr h2
    · exact Or.inr (h2.trans (congrArg Prod.snd m.getSuccessor_idem))

theorem Touched.call_getSuccessor {net net' : Net} (h : Touched net net') (i : ID) (p : Node) :
    ∃ net'', Touched net net'' ∧ net'.call t object i p LocalNode.getSuccessor =
      ((net.call t object i p LocalNode.getSuccessor).1, net'') := by
  have hc := h.call t object i p (f := LocalNode.getSuccessor)
    (fun m => congrArg Prod.fst m.getSuccessor_idem) (fun _ => Or.inr rfl)
  exact ⟨_, hc.2, Prod.ext hc.1 rfl⟩

theorem Touched.call_closest {net net' : Net} (h : Touched net net') (i id : ID) (p : Node) :
    ∃ net'', Touched net net'' ∧
      (net'.call t object i p fun m => (m.closestPrecedingFinger id, m)) =
        ((net.call t object i p fun m => (m.closestPrecedingFinger id, m)).1, net'') := by
  have hc := h.call t object i p (f := fun m => (m.closestPrecedingFinger id, m))
    (fun m => m.closestPrecedingFinger_getSuccessor id) (fun _ => Or.inl rfl)
  exact ⟨_, hc.2, Prod.ext hc.1 rfl⟩

theorem findPredecessorLoop_turn {net net' : Net} (h : Touched net net') (i id : ID)
    (p : Option Node) :
    ∃ net'', Touched net net'' ∧ ∀ fuel,
      findPredecessorLoop t object i id (fuel + 1) net' p =
        match net.turn t object i id p with
        | .stop q => some (.ok q, net'')
        | .next q => findPredecessorLoop t object i id fuel net'' q
        | .fault e => some (.error e, net'') := by
  cases p with
  | none => exact ⟨net', h, fun fuel => rfl⟩
  | some p =>
    obtain ⟨net1, h1, he1⟩ := h.call_getSuccessor t object i p
    obtain ⟨net2, h2, he2⟩ := h1.call_getSuccessor t object i p
    obtain ⟨net3, h3, he3⟩ := h2.call_closest t object i id p
    simp only [turn]
    rcases hs : (net.call t object i p LocalNode.getSuccessor).1 with e | s | s
    · exact ⟨net1, h1, fun fuel => by simp only [findPredecessorLoop, he1, hs]⟩
    · exact ⟨net1, h1, fun fuel => by simp only [findPredecessorLoop, he1, hs]⟩
    · cases hin : id.isInInterval (p.idAt i) (s.idAt i) with
      | true =>
        refine ⟨net1, h1, fun fuel => ?_⟩
        simp only [findPredecessorLoop, he1, hs, LocalNode.holds, hin, Bool.true_or, if_true]
      | false =>
        by_cases hid : id = s.idAt i
        · refine ⟨net2, h2, fun fuel => ?_⟩
          simp only [findPredecessorLoop, he1, he2, hs, LocalNode.holds, hin, if_pos hid,
            decide_eq_true hid, Bool.or_true, Bool.false_eq_true, if_false, if_true]
        · refine ⟨net3, h3, fun fuel => ?_⟩
          simp only [findPredecessorLoop, he1, he2, he3, hs, LocalNode.holds, hin, hid,
            decide_false, Bool.or_false, Bool.false_eq_true, if_false]
          rcases (net.call t object i p fun m => (m.closestPrecedingFinger id, m)).1 with e | q <;>
            rfl

theorem Comes.run {net net' : Net} {i id : ID} {p q : Option Node}
    (hc : net.Comes t object i id p q) (h : Touched net net') :
    ∃ k net'', Touched net net'' ∧
      ∀ fuel, findPredecessorLoop t object i id (fuel + k) net' p =
        findPredecessorLoop t object i id fuel net'' q := by
  induction hc using Relation.ReflTransGen.head_induction_on generalizing net' with
  | refl => exact ⟨0, net', h, fun _ => rfl⟩
  | @head p r hturn _ ih =>
    obtain ⟨net1, h1, he⟩ := findPredecessorLoop_turn t object h i id p
    obtain ⟨k, net2, h2, hrun⟩ := ih h1
    refine ⟨k + 1, net2, h2, fun fuel => ?_⟩
    rw [← Nat.add_assoc, he, hturn]
    exact hrun fuel

/-- The result of the loop is read off the end of its walk; the loop only reads. -/
theorem findPredecessorLoop_result {net net' net'' : Net} {i id : ID} {p : Option Node}
    {fuel : ℕ} {result : Except Fault Node} (h : Touched net net')
    (hrun : findPredecessorLoop t object i id fuel net' p = some (result, net'')) :
    Touched net net'' ∧ ∃ q, net.Comes t object i id p q ∧
      net.turn t object i id q = .final result := by
  induction fuel generalizing p net' with
  | zero => cases p <;> cases hrun
  | succ fuel ih =>
    obtain ⟨net1, h1, he⟩ := findPredecessorLoop_turn t object h i id p
    rw [he fuel] at hrun
    cases ht : net.turn t object i id p with
    | stop q =>
      rw [ht] at hrun
      cases hrun
      exact ⟨h1, p, .refl, ht⟩
    | next q =>
      rw [ht] at hrun
      obtain ⟨htouched, r, hr, hend⟩ := ih h1 hrun
      exact ⟨htouched, r, .head ht hr, hend⟩
    | fault e =>
      rw [ht] at hrun
      cases hrun
      exact ⟨h1, p, .refl, ht⟩

theorem findPredecessor_ends {net : Net} {i id : ID} {q : Option Node}
    (hc : net.Comes t object i id (some .self) q) {result : Except Fault Node}
    (hend : net.turn t object i id q = .final result) :
    ∃ k net', ∀ fuel, k ≤ fuel → net.findPredecessor t object fuel i id = some (result, net') := by
  obtain ⟨k, net1, h1, hrun⟩ := hc.run t object (Touched.refl net)
  obtain ⟨net2, _, he⟩ := findPredecessorLoop_turn t object h1 i id q
  refine ⟨k + 1, net2, fun fuel hf => ?_⟩
  obtain ⟨fuel, rfl⟩ : ∃ f, fuel = f + 1 + k := ⟨fuel - 1 - k, by omega⟩
  rw [findPredecessor, hrun, he, hend]
  cases result <;> rfl

theorem final_unique {net : Net} {i id : ID} {p q : Option Node} {r s : Except Fault Node}
    (hp : net.Comes t object i id (some .self) p) (hr : net.turn t object i id p = .final r)
    (hq : net.Comes t object i id (some .self) q) (hs : net.turn t object i id q = .final s) :
    r = s := by
  obtain ⟨k, _, hrun⟩ := findPredecessor_ends t object hp hr
  obtain ⟨k', _, hrun'⟩ := findPredecessor_ends t object hq hs
  have hboth := (hrun (max k k') (by omega)).symm.trans (hrun' (max k k') (by omega))
  exact congrArg Prod.fst (Option.some.inj hboth)

theorem turn_dead {net : Net} {i id : ID} {p : Node} (h : net.node (p.idAt i) = none) :
    net.turn t object i id (some p) = .final (.error .nullDeref) := by
  simp only [turn, call_eq, h]
  rfl

end Net

end ChordChat
