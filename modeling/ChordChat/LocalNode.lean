import ChordChat.FingerTable

/-!
# The local node (LocalNode.cpp)

State and operations of one `LocalNode` as far as they stay inside its process.
`findSuccessor` is split at its remote call: `findSuccessorHop` is what one node
does with a lookup, an answer or the node to ask next.
-/

namespace ChordChat
open Clockwise

/-- `rcvFn`: the receive function has been set. -/
structure LocalNode where
  info : INode
  predecessor : Option Node
  finger : FingerTable
  rcvFn : Bool

namespace LocalNode

def init (info : INode) : LocalNode := ⟨info, none, .empty, false⟩

def getId (n : LocalNode) : ID := n.info.id

def setReceiveFunction (n : LocalNode) : LocalNode := { n with rcvFn := true }

/-- `receive`: the messages handed to the receive function. Calling an empty
`std::function` throws. -/
def receive (n : LocalNode) (message : Bytes) : Except Fault (List Bytes) :=
  if n.rcvFn then .ok [message] else .error .exception

def idOf (n : LocalNode) (p : Node) : ID := (p.info n.info).id

/-- A pointer to a node with the own ID is replaced by the own object. -/
def thisIfOwn (n : LocalNode) (p : Option Node) : Option Node :=
  p.map fun q => if n.idOf q = n.getId then .self else q

def setPredecessor (n : LocalNode) (p : Option Node) : LocalNode :=
  { n with predecessor := n.thisIfOwn p }

/-- An empty table gets the node itself in slot 0. -/
def getSuccessor (n : LocalNode) : Node × LocalNode :=
  match n.finger.getNode 0 with
  | some s => (s, n)
  | none => (.self, { n with finger := n.finger.setNode 0 (some .self) })

def setSuccessor (n : LocalNode) (p : Option Node) : LocalNode :=
  { n with finger := n.finger.setNode 0 (n.thisIfOwn p) }

def closestPrecedingFinger (n : LocalNode) (id : ID) : Node :=
  ((List.finRange M).reverse.findSome? fun i =>
    (n.finger.getNode i).filter fun f => (n.idOf f).isInInterval n.getId id).getD .self

def notify (n : LocalNode) (p : Node) : LocalNode :=
  match n.predecessor with
  | none => n.setPredecessor (some p)
  | some q =>
    if (n.idOf p).isInInterval (n.idOf q) n.getId then n.setPredecessor (some p) else n

def checkPredecessor (n : LocalNode) (ping : Node → Bool) : LocalNode :=
  match n.predecessor with
  | some p => if p ≠ .self ∧ ping p = false then n.setPredecessor none else n
  | none => n

/-- The last lines of `fixFingers`, with the result of the lookup. -/
def setFinger (n : LocalNode) (i : Fin M) (p : Option Node) : LocalNode :=
  { n with finger := n.finger.setNode i (n.thisIfOwn p) }

/-- The index `fixFingers` draws: `rand() % (M - 2) + 1`. -/
def fingerIndex (rand : ℕ) : Fin M :=
  ⟨rand % (M - 2) + 1, by have := Nat.mod_lt rand (show 0 < M - 2 by decide); omega⟩

def liveSuccessor (ping : Node → Bool) : ℕ → LocalNode → Option (Node × LocalNode)
  | 0, _ => none
  | fuel + 1, n =>
    let s := n.getSuccessor
    if ping s.1 then some s
    else liveSuccessor ping fuel { s.2 with finger := s.2.finger.removeNode s.1 }

inductive Hop where
  | answer (p : Node)
  | forward (p : Node)

def holds (n s id : ID) : Bool := id.isInInterval n s || decide (id = s)

def findSuccessorHop (n : LocalNode) (id : ID) : Hop × LocalNode :=
  if n.getId = id then (.answer .self, n)
  else
    let s := n.getSuccessor
    if holds n.getId (n.idOf s.1) id then (.answer s.1, s.2)
    else (.forward (s.2.closestPrecedingFinger id), s.2)

/-! ### Getters and setters -/

@[simp] theorem idOf_self (n : LocalNode) : n.idOf .self = n.getId := rfl

@[simp] theorem idOf_remote (n : LocalNode) (o : ℕ) (r : INode) : n.idOf (.remote o r) = r.id := rfl

theorem idOf_thisIfOwn (n : LocalNode) (p : Option Node) :
    (n.thisIfOwn p).map n.idOf = p.map n.idOf := by
  cases p with
  | none => rfl
  | some q =>
    simp only [thisIfOwn, Option.map_some]
    split
    next h => rw [idOf_self, h]
    next => rfl

@[simp] theorem setPredecessor_info (n : LocalNode) (p : Option Node) :
    (n.setPredecessor p).info = n.info := rfl

@[simp] theorem setPredecessor_finger (n : LocalNode) (p : Option Node) :
    (n.setPredecessor p).finger = n.finger := rfl

@[simp] theorem setSuccessor_info (n : LocalNode) (p : Option Node) :
    (n.setSuccessor p).info = n.info := rfl

@[simp] theorem setSuccessor_predecessor (n : LocalNode) (p : Option Node) :
    (n.setSuccessor p).predecessor = n.predecessor := rfl

@[simp] theorem setFinger_info (n : LocalNode) (i : Fin M) (p : Option Node) :
    (n.setFinger i p).info = n.info := rfl

@[simp] theorem setFinger_predecessor (n : LocalNode) (i : Fin M) (p : Option Node) :
    (n.setFinger i p).predecessor = n.predecessor := rfl

@[simp] theorem setPredecessor_idOf (n : LocalNode) (p : Option Node) (q : Node) :
    (n.setPredecessor p).idOf q = n.idOf q := rfl

@[simp] theorem setSuccessor_idOf (n : LocalNode) (p : Option Node) (q : Node) :
    (n.setSuccessor p).idOf q = n.idOf q := rfl

@[simp] theorem setFinger_idOf (n : LocalNode) (i : Fin M) (p : Option Node) (q : Node) :
    (n.setFinger i p).idOf q = n.idOf q := rfl

@[simp] theorem getSuccessor_info (n : LocalNode) : n.getSuccessor.2.info = n.info := by
  unfold getSuccessor
  split <;> rfl

@[simp] theorem getSuccessor_predecessor (n : LocalNode) :
    n.getSuccessor.2.predecessor = n.predecessor := by
  unfold getSuccessor
  split <;> rfl

@[simp] theorem getSuccessor_rcvFn (n : LocalNode) : n.getSuccessor.2.rcvFn = n.rcvFn := by
  unfold getSuccessor
  split <;> rfl

@[simp] theorem getSuccessor_getId (n : LocalNode) : n.getSuccessor.2.getId = n.getId := by
  rw [getId, getSuccessor_info, getId]

@[simp] theorem getSuccessor_idOf (n : LocalNode) (p : Node) :
    n.getSuccessor.2.idOf p = n.idOf p := by
  rw [idOf, getSuccessor_info, idOf]

theorem getSuccessor_cases (n : LocalNode) :
    (∃ s, n.finger.getNode 0 = some s ∧ n.getSuccessor = (s, n)) ∨
      (∀ i, n.finger.entries i = none) ∧
        n.getSuccessor = (.self, { n with finger := n.finger.setNode 0 (some .self) }) := by
  cases h : n.finger.getNode 0 with
  | some s => exact Or.inl ⟨s, rfl, by simp only [getSuccessor, h]⟩
  | none =>
    refine Or.inr ⟨fun i => FingerTable.getNode_eq_none.mp h i (Fin.zero_le i), ?_⟩
    simp only [getSuccessor, h]

theorem getSuccessor_idem (n : LocalNode) :
    n.getSuccessor.2.getSuccessor = n.getSuccessor := by
  rcases n.getSuccessor_cases with ⟨s, hs, he⟩ | ⟨_, he⟩
  · rw [he, he]
  · rw [he]
    simp only [getSuccessor, FingerTable.getNode_setNode_self]

theorem getSuccessor_of_ne {n : LocalNode} (h : n.idOf n.getSuccessor.1 ≠ n.getId) :
    n.getSuccessor.2 = n := by
  rcases n.getSuccessor_cases with ⟨s, _, he⟩ | ⟨_, he⟩
  · rw [he]
  · rw [he] at h
    exact absurd rfl h

theorem getSuccessor_of_own {n : LocalNode} (h : ∀ k p, n.finger.entries k = some p → p = .self) :
    n.getSuccessor.1 = .self := by
  rcases n.getSuccessor_cases with ⟨s, hs, he⟩ | ⟨_, he⟩
  · obtain ⟨k, hk⟩ := FingerTable.entry_of_getNode hs
    rw [he, h k s hk]
  · rw [he]

theorem getSuccessor_of_slot {n : LocalNode} {s : Node} (h : n.finger.entries 0 = some s) :
    n.getSuccessor = (s, n) := by
  simp only [getSuccessor, FingerTable.getNode_of_entry h]

theorem getSuccessor_setSuccessor (n : LocalNode) (p : Node) :
    (n.setSuccessor (some p)).getSuccessor =
      (if n.idOf p = n.getId then .self else p, n.setSuccessor (some p)) := by
  have h : (n.setSuccessor (some p)).finger.getNode 0 =
      some (if n.idOf p = n.getId then .self else p) := FingerTable.getNode_setNode_self _ _ _
  simp only [getSuccessor, h]

theorem idOf_getSuccessor_setSuccessor (n : LocalNode) (p : Node) :
    n.idOf (n.setSuccessor (some p)).getSuccessor.1 = n.idOf p := by
  rw [getSuccessor_setSuccessor]
  dsimp only
  split
  next h => rw [idOf_self, h]
  next => rfl

theorem setFinger_slot (n : LocalNode) {k : Fin M} (hk : k ≠ 0) (p : Option Node) :
    (n.setFinger k p).finger.entries 0 = n.finger.entries 0 := by
  rw [setFinger, FingerTable.entries_setNode, if_neg hk.symm]

theorem fingerIndex_val (rand : ℕ) : (fingerIndex rand : ℕ) = rand % (M - 2) + 1 := rfl

theorem fingerIndex_ne_zero (rand : ℕ) : fingerIndex rand ≠ 0 := by
  intro h
  have hval := congrArg Fin.val h
  rw [fingerIndex_val] at hval
  exact Nat.succ_ne_zero _ hval

theorem entries_init_setSuccessor {own other : INode} {o : ℕ} {p : Node} {k : Fin M}
    (hid : other.id ≠ own.id)
    (h : ((init own).setSuccessor (some (.remote o other))).finger.entries k = some p) :
    p = .remote o other := by
  rw [setSuccessor, FingerTable.entries_setNode] at h
  split at h
  · have hne : ¬ (init own).idOf (.remote o other) = (init own).getId := hid
    rw [thisIfOwn, Option.map_some, if_neg hne] at h
    exact (Option.some.inj h).symm
  · cases h

/-! ### The lookup at one node -/

theorem holds_iff {n s id : ID} : holds n s id = true ↔ InArc n id s ∨ id = s := by
  simp only [holds, Bool.or_eq_true, ID.isInInterval_iff, decide_eq_true_eq]

theorem sbtw_of_not_holds {n s id : ID} (hn : n ≠ id) (h : holds n s id = false) :
    sbtw n s id := by
  have hnot : ¬ (InArc n id s ∨ id = s) := fun hh => by
    rw [holds_iff.mpr hh] at h
    cases h
  have hns : n ≠ s := fun he => hnot (Or.inl (Or.inl he))
  have hsid : s ≠ id := fun he => hnot (Or.inr he.symm)
  exact (sbtw_or_sbtw hns hsid hn).resolve_right fun hb => hnot (Or.inl (Or.inr hb))

theorem closestPrecedingFinger_cases (n : LocalNode) (id : ID) :
    (∃ i f, n.finger.getNode i = some f ∧ (n.idOf f).isInInterval n.getId id = true ∧
        n.closestPrecedingFinger id = f) ∨
      (∀ i f, n.finger.getNode i = some f → (n.idOf f).isInInterval n.getId id = false) ∧
        n.closestPrecedingFinger id = .self := by
  unfold closestPrecedingFinger
  generalize hr : (List.finRange M).reverse.findSome? (fun i => (n.finger.getNode i).filter
    fun f => (n.idOf f).isInInterval n.getId id) = result
  cases result with
  | some f =>
    obtain ⟨i, _, hi⟩ := List.exists_of_findSome?_eq_some hr
    obtain ⟨hget, hin⟩ := Option.filter_eq_some_iff.mp hi
    exact Or.inl ⟨i, f, hget, hin, rfl⟩
  | none =>
    refine Or.inr ⟨fun i f hf => ?_, rfl⟩
    have hnone := List.findSome?_eq_none_iff.mp hr i
      (List.mem_reverse.mpr (List.mem_finRange i))
    rw [hf] at hnone
    simpa using hnone

theorem closestPrecedingFinger_found {n : LocalNode} {id : ID} {s : Node}
    (hs : n.finger.getNode 0 = some s) (hin : (n.idOf s).isInInterval n.getId id = true) :
    ∃ i f, n.finger.getNode i = some f ∧ (n.idOf f).isInInterval n.getId id = true ∧
      n.closestPrecedingFinger id = f := by
  rcases n.closestPrecedingFinger_cases id with h | ⟨h, _⟩
  · exact h
  · rw [h 0 s hs] at hin
    cases hin

/-- What one node does with a lookup. -/
theorem findSuccessorHop_cases (n : LocalNode) (id : ID) :
    (n.getId = id ∧ n.findSuccessorHop id = (.answer .self, n)) ∨
    (n.getId ≠ id ∧ holds n.getId (n.idOf n.getSuccessor.1) id = true ∧
      n.findSuccessorHop id = (.answer n.getSuccessor.1, n.getSuccessor.2)) ∨
    (n.getId ≠ id ∧ holds n.getId (n.idOf n.getSuccessor.1) id = false ∧
      n.getSuccessor.2 = n ∧ sbtw n.getId (n.idOf (n.closestPrecedingFinger id)) id ∧
      (∃ i, n.finger.entries i = some (n.closestPrecedingFinger id)) ∧
      n.findSuccessorHop id = (.forward (n.closestPrecedingFinger id), n)) := by
  by_cases hid : n.getId = id
  · exact Or.inl ⟨hid, by simp only [findSuccessorHop, hid, if_true]⟩
  · cases hh : holds n.getId (n.idOf n.getSuccessor.1) id with
    | true =>
      refine Or.inr (Or.inl ⟨hid, rfl, ?_⟩)
      simp only [findSuccessorHop, hid, hh, if_false, if_true]
    | false =>
      have hb := sbtw_of_not_holds hid hh
      have hn : n.getSuccessor.2 = n := getSuccessor_of_ne (sbtw_ne_left hb).symm
      have hs : n.finger.getNode 0 = some n.getSuccessor.1 := by
        rcases n.getSuccessor_cases with ⟨s, hs, he⟩ | ⟨_, he⟩
        · rw [hs, he]
        · rw [he] at hb
          exact absurd hb sbtw_irrefl_left
      obtain ⟨i, f, hf, hin, hc⟩ := closestPrecedingFinger_found hs
        (ID.isInInterval_iff.mpr (Or.inr hb))
      refine Or.inr (Or.inr ⟨hid, rfl, hn, ?_, ?_, ?_⟩)
      · rw [hc]
        exact (inArc_of_ne hid).mp (ID.isInInterval_iff.mp hin)
      · rw [hc]
        exact FingerTable.entry_of_getNode hf
      · simp only [findSuccessorHop, hid, hh, hn, if_false, Bool.false_eq_true]

theorem hop_of_self {n : LocalNode} (hs : n.getSuccessor.1 = .self) {id : ID} (hid : n.getId ≠ id) :
    n.findSuccessorHop id = (.answer .self, n.getSuccessor.2) := by
  have hholds : holds n.getId n.getId id = true := holds_iff.mpr (Or.inl (inArc_self _ _))
  simp only [findSuccessorHop, hid, hs, idOf_self, hholds, if_false, if_true]

theorem hop_of_slot {n : LocalNode} {s : Node} (h : n.finger.entries 0 = some s) (id : ID) :
    (n.findSuccessorHop id).2 = n := by
  rcases n.findSuccessorHop_cases id with ⟨_, he⟩ | ⟨_, _, he⟩ | ⟨_, _, _, _, _, he⟩ <;> rw [he]
  rw [getSuccessor_of_slot h]

@[simp] theorem hop_info (n : LocalNode) (id : ID) : (n.findSuccessorHop id).2.info = n.info := by
  rcases n.findSuccessorHop_cases id with ⟨_, he⟩ | ⟨_, _, he⟩ | ⟨_, _, _, _, _, he⟩ <;> rw [he]
  exact n.getSuccessor_info

@[simp] theorem hop_getId (n : LocalNode) (id : ID) : (n.findSuccessorHop id).2.getId = n.getId :=
  congrArg INode.id (n.hop_info id)

@[simp] theorem hop_rcvFn (n : LocalNode) (id : ID) :
    (n.findSuccessorHop id).2.rcvFn = n.rcvFn := by
  rcases n.findSuccessorHop_cases id with ⟨_, he⟩ | ⟨_, _, he⟩ | ⟨_, _, _, _, _, he⟩ <;> rw [he]
  exact n.getSuccessor_rcvFn

end LocalNode

end ChordChat
