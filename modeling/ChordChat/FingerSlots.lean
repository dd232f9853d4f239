import ChordChat.Repair

/-!
# The slots of a finger table, read and emptied (FingerTable.cpp, LocalNode.cpp)

Three loops over the entries. The loop of `getNode` reads an entry before it compares
the index with `M`: with nothing left to find it reads behind the array. The ping loop
of `stabilize` empties the slots of the nodes that do not answer and no others. The
loop of `removeNode` compares pointers, so a node that is in the table as a second object
stays in it.
-/

namespace ChordChat
open Clockwise

/-! ### The reads of `getNode` -/

namespace FingerTable

/-- `_entries[index]`; `beyond` is what lies behind the array. -/
def entryAt (t : FingerTable) (beyond : ℕ → Option Node) (index : ℕ) : Option Node :=
  if h : index < M then t.entries ⟨index, h⟩ else beyond index

/-- The loop of `getNode`: the index it stops at and the positions it has read; `none` when
the fuel does not suffice. -/
def searchLoop (t : FingerTable) (beyond : ℕ → Option Node) : ℕ → ℕ → Option (ℕ × List ℕ)
  | 0, _ => none
  | fuel + 1, index =>
    if t.entryAt beyond index = none ∧ index < M then
      (searchLoop t beyond fuel (index + 1)).map fun r => (r.1, index :: r.2)
    else some (index, [index])

/-- `getNode` with all positions of `_entries` that it reads. -/
def search (t : FingerTable) (beyond : ℕ → Option Node) (fuel : ℕ) (index : Fin M) :
    Option (Option Node × List ℕ) :=
  (t.searchLoop beyond fuel index).map fun r =>
    if r.1 = M then (none, r.2) else (t.entryAt beyond r.1, r.2 ++ [r.1])

theorem searchLoop_spec (t : FingerTable) (beyond : ℕ → Option Node) {fuel index : ℕ}
    (hi : index ≤ M) (hf : M - index < fuel) :
    t.searchLoop beyond fuel index = some (t.scan (M - index) index,
      List.range' index (t.scan (M - index) index + 1 - index)) := by
  induction fuel generalizing index with
  | zero => omega
  | succ fuel ih =>
    have hstop : ∀ stop, stop = index → some (index, [index]) =
        some (stop, List.range' index (stop + 1 - index)) := by
      intro stop hs
      rw [hs, Nat.add_sub_cancel_left]
      rfl
    by_cases hlt : index < M
    · have hfuel : M - index = M - (index + 1) + 1 := by omega
      have hat : t.entryAt beyond index = t.entries ⟨index, hlt⟩ := dif_pos hlt
      by_cases hnone : t.entries ⟨index, hlt⟩ = none
      · have hscan : t.scan (M - index) index = t.scan (M - (index + 1)) (index + 1) := by
          rw [hfuel, scan, dif_pos hlt, if_pos hnone]
        have hge := (t.scan_spec (M - (index + 1)) (index + 1) (by omega)).1
        have hcons : ∀ stop, index + 1 ≤ stop → List.range' index (stop + 1 - index) =
            index :: List.range' (index + 1) (stop + 1 - (index + 1)) := by
          intro stop hs
          rw [show stop + 1 - index = stop + 1 - (index + 1) + 1 by omega, List.range'_succ]
        rw [searchLoop, hat, if_pos ⟨hnone, hlt⟩, ih hlt (by omega), hscan, hcons _ hge,
          Option.map_some]
      · rw [searchLoop, hat, if_neg fun h => hnone h.1]
        apply hstop
        rw [hfuel, scan, dif_pos hlt, if_neg hnone]
    · rw [searchLoop, if_neg fun h => hlt h.2]
      apply hstop
      rw [show M - index = 0 by omega, scan]

def reads (t : FingerTable) (i : Fin M) : List ℕ :=
  let stop := t.scan (M - i) i
  List.range' i (stop + 1 - i) ++ if stop = M then [] else [stop]

/-- What lies behind the array changes neither the result nor the positions read. -/
theorem search_eq (t : FingerTable) (beyond : ℕ → Option Node) {fuel : ℕ} (i : Fin M)
    (hf : M < fuel) : t.search beyond fuel i = some (t.getNode i, t.reads i) := by
  have hle := (t.scan_spec (M - i) i (by omega)).2.1
  rw [search, t.searchLoop_spec beyond i.isLt.le (by omega), Option.map_some, getNode, reads]
  by_cases hM : t.scan (M - i) i = M
  · simp only [hM, if_true, Nat.lt_irrefl, dif_neg, not_false_iff, List.append_nil]
  · have hlt : t.scan (M - i) i < M := by omega
    simp only [hM, if_false, hlt, dif_pos, entryAt]

theorem reads_lt_iff (t : FingerTable) (i : Fin M) :
    (∀ r ∈ t.reads i, r < M) ↔ ∃ j, i ≤ j ∧ t.entries j ≠ none := by
  obtain ⟨hge, hle, hnone, hstop⟩ := t.scan_spec (M - i) i (by omega)
  constructor
  · intro h
    have hlt : t.scan (M - i) i < M := by
      apply h
      rw [reads, List.mem_append, List.mem_range'_1]
      omega
    exact ⟨⟨_, hlt⟩, hge, hstop hlt⟩
  · intro h r hr
    obtain ⟨j, hij, hj⟩ := h
    have hlt : t.scan (M - i) i ≤ j := by
      by_contra hgt
      exact hj (hnone j hij (by omega))
    rw [reads, List.mem_append, List.mem_range'_1, if_neg (by omega), List.mem_singleton] at hr
    omega

/-- `getNode` ends, reads entries of the array only, and returns the entry of the least occupied
slot from `i` on, null just when there is none. -/
def FindsNext (t : FingerTable) (beyond : ℕ → Option Node) (i : Fin M) : Prop :=
  ∃ result reads, (∃ k, ∀ fuel, k ≤ fuel → t.search beyond fuel i = some (result, reads)) ∧
    (∀ r ∈ reads, r < M) ∧
    (∀ p, result = some p ↔
      ∃ j, i ≤ j ∧ t.entries j = some p ∧ ∀ k, i ≤ k → k < j → t.entries k = none) ∧
    (result = none ↔ ∀ j, i ≤ j → t.entries j = none)

theorem FindsNext.reads_lt {t : FingerTable} {beyond : ℕ → Option Node} {i : Fin M}
    (h : t.FindsNext beyond i) : ∀ r ∈ t.reads i, r < M := by
  obtain ⟨result, reads, hends, hlt, _⟩ := h
  obtain ⟨k, hk⟩ := hends
  have heq := hk (k + M + 1) (by omega)
  rw [t.search_eq beyond i (by omega), Option.some.injEq, Prod.mk.injEq] at heq
  rw [heq.2]
  exact hlt

theorem findsNext_iff (t : FingerTable) (beyond : ℕ → Option Node) (i : Fin M) :
    t.FindsNext beyond i ↔ ∃ j, i ≤ j ∧ t.entries j ≠ none := by
  rw [← reads_lt_iff]
  constructor
  · exact FindsNext.reads_lt
  · intro h
    exact ⟨t.getNode i, t.reads i, ⟨M + 1, fun fuel hf => t.search_eq beyond i hf⟩, h,
      fun p => getNode_eq_some, getNode_eq_none⟩

/-- The table of the unit test: entries at 0 and 10, searched from 11. -/
theorem findsNext_test :
    ¬ ((empty.setNode 0 (some (.remote 1 alice))).setNode 10 (some (.remote 2 bob))).FindsNext
      (fun _ => none) 11 := by
  intro h
  obtain ⟨j, hij, hj⟩ := (reads_lt_iff _ _).mp h.reads_lt
  have h0 : j ≠ 0 := fun he => by rw [he] at hij; exact absurd hij (by decide)
  have h10 : j ≠ 10 := fun he => by rw [he] at hij; exact absurd hij (by decide)
  rw [entries_setNode, if_neg h10, entries_setNode, if_neg h0] at hj
  exact hj rfl

theorem removeNode_entry {t : FingerTable} {p q : Node} {i : Fin M} :
    (t.removeNode p).entries i = some q ↔ t.entries i = some q ∧ q ≠ p := by
  rw [removeNode]
  dsimp only
  split
  next hp =>
    constructor
    · intro h
      cases h
    · intro h
      exact absurd (Option.some.inj (h.1.symm.trans hp)) h.2
  next hp =>
    constructor
    · intro h
      exact ⟨h, fun he => hp (he ▸ h)⟩
    · intro h
      exact h.1

end FingerTable

/-! ### The ping loop -/

namespace LocalNode
variable {ping : Node → Bool}

def foundDead (ping : Node → Bool) : ℕ → LocalNode → List Node
  | 0, _ => []
  | fuel + 1, n =>
    let s := n.getSuccessor
    if ping s.1 then []
    else s.1 :: foundDead ping fuel { s.2 with finger := s.2.finger.removeNode s.1 }

def NoneLive (ping : Node → Bool) (n : LocalNode) : Prop :=
  ∀ i p, n.finger.entries i = some p → ping p = false

/-- What the ping loop does to the slots: live entries stay, and nothing new comes in but the
node itself, into slot 0 of a table that had become empty. -/
theorem liveSuccessor_slots (hself : ping .self = true) {fuel : ℕ} {n m : LocalNode} {s : Node}
    (h : liveSuccessor ping fuel n = some (s, m)) :
    (∀ i p, n.finger.entries i = some p → ping p = true → m.finger.entries i = some p) ∧
      ∀ i q, m.finger.entries i = some q → n.finger.entries i = some q ∨
        i = 0 ∧ q = .self ∧ NoneLive ping n ∧ ∀ j, j ≠ 0 → m.finger.entries j = none := by
  induction fuel generalizing n with
  | zero => cases h
  | succ fuel ih =>
    rw [liveSuccessor] at h
    rcases n.getSuccessor_cases with ⟨t, ht, he⟩ | ⟨hempty, he⟩
    · rw [he] at h
      cases hp : ping t with
      | true =>
        rw [if_pos hp, Option.some.injEq, Prod.mk.injEq] at h
        rw [← h.2]
        exact ⟨fun i p hi _ => hi, fun i q hi => Or.inl hi⟩
      | false =>
        rw [if_neg (by rw [hp]; exact Bool.false_ne_true)] at h
        obtain ⟨hstay, hnew⟩ := ih h
        constructor
        · intro i p hi hping
          apply hstay i p _ hping
          refine FingerTable.removeNode_entry.mpr ⟨hi, fun hpt => ?_⟩
          rw [hpt, hp] at hping
          cases hping
        · intro i q hi
          rcases hnew i q hi with hold | ⟨hi0, hq, hnone, hrest⟩
          · exact Or.inl (FingerTable.removeNode_entry.mp hold).1
          · refine Or.inr ⟨hi0, hq, fun j p hj => ?_, hrest⟩
            by_cases hpt : p = t
            · rw [hpt, hp]
            · exact hnone j p (FingerTable.removeNode_entry.mpr ⟨hj, hpt⟩)
    · rw [he, if_pos hself, Option.some.injEq, Prod.mk.injEq] at h
      rw [← h.2]
      constructor
      · intro i p hi
        rw [hempty i] at hi
        cases hi
      · intro i q hi
        have hslot := FingerTable.entries_setNode n.finger 0
        rw [hslot] at hi
        by_cases hi0 : i = 0
        · rw [if_pos hi0] at hi
          refine Or.inr ⟨hi0, (Option.some.inj hi).symm, fun j p hj => ?_, fun j hj => ?_⟩
          · rw [hempty j] at hj
            cases hj
          · rw [hslot, if_neg hj, hempty j]
        · rw [if_neg hi0] at hi
          exact Or.inl hi

theorem liveSuccessor_mono {fuel fuel' : ℕ} {n : LocalNode} {r : Node × LocalNode}
    (h : liveSuccessor ping fuel n = some r) (hle : fuel ≤ fuel') :
    liveSuccessor ping fuel' n = some r := by
  induction fuel generalizing n fuel' with
  | zero => cases h
  | succ fuel ih =>
    obtain ⟨k, rfl⟩ : ∃ k, fuel' = k + 1 := ⟨fuel' - 1, by omega⟩
    rw [liveSuccessor] at h ⊢
    by_cases hp : ping n.getSuccessor.1 = true
    · rw [if_pos hp] at h ⊢
      exact h
    · rw [if_neg hp] at h ⊢
      exact ih h (Nat.le_of_succ_le_succ hle)

theorem firstLive_entry (ping : Node → Bool) (n : LocalNode) :
    (∃ j, n.finger.entries j = some (n.firstLive ping) ∧ ping (n.firstLive ping) = true ∧
        ∀ i < j, ∀ p, n.finger.entries i = some p → ping p = false) ∨
      n.firstLive ping = .self ∧ NoneLive ping n := by
  have hdead : ∀ i, (n.finger.live ping).entries i = none →
      ∀ p, n.finger.entries i = some p → ping p = false := by
    intro i hi p hp
    rw [FingerTable.live] at hi
    dsimp only at hi
    rw [hp, Option.filter_eq_none_iff] at hi
    exact eq_false_of_ne_true (hi p rfl)
  rw [firstLive]
  cases h : (n.finger.live ping).getNode 0 with
  | none => exact Or.inr ⟨rfl, fun i p => hdead i (FingerTable.getNode_eq_none.mp h i (Fin.zero_le i)) p⟩
  | some p =>
    obtain ⟨j, _, hj, hbefore⟩ := FingerTable.getNode_eq_some.mp h
    obtain ⟨hentry, hping⟩ := Option.filter_eq_some_iff.mp hj
    exact Or.inl ⟨j, hentry, hping, fun i hi => hdead i (hbefore i (Fin.zero_le i) hi)⟩

/-- Node `n` becomes `m`, with `s` as its successor. -/
structure NearestLive (ping : Node → Bool) (n : LocalNode) (s : Node) (m : LocalNode) : Prop where
  successor : m.getSuccessor = (s, m)
  nearest : (∃ j, n.finger.entries j = some s ∧ ping s = true ∧
      ∀ i < j, ∀ p, n.finger.entries i = some p → ping p = false) ∨
    s = .self ∧ NoneLive ping n
  kept : ∀ i p, n.finger.entries i = some p → ping p = true → m.finger.entries i = some p
  filled : ∀ i q, m.finger.entries i = some q → n.finger.entries i = some q ∨
    i = 0 ∧ q = .self ∧ NoneLive ping n ∧ ∀ j, j ≠ 0 → m.finger.entries j = none

/-- The ping loop ends at the first live entry of the initial table. -/
theorem liveSuccessor_nearest (hself : ping .self = true) (n : LocalNode) :
    ∃ s m, (∃ k, ∀ fuel, k ≤ fuel → liveSuccessor ping fuel n = some (s, m)) ∧
      NearestLive ping n s m := by
  have hcard := n.finger.occupied_card_le
  obtain ⟨m, hm, hsucc, _, _⟩ := liveSuccessor_spec hself (M + 1) n (by omega)
  obtain ⟨hkept, hfilled⟩ := liveSuccessor_slots hself hm
  exact ⟨n.firstLive ping, m, ⟨M + 1, fun fuel hf => liveSuccessor_mono hm hf⟩, hsucc,
    n.firstLive_entry ping, hkept, hfilled⟩

/-- Bob is in slots 0 and 1 as two objects. -/
def aliceTwice : LocalNode :=
  ((init alice).setSuccessor (some (.remote 1 bob))).setFinger 1 (some (.remote 2 bob))

theorem liveSuccessor_nearest_alice :
    ∃ s m, (∃ k, ∀ fuel, k ≤ fuel →
        liveSuccessor (fun p => p = .self ∨ p = .remote 2 bob) fuel aliceTwice = some (s, m)) ∧
      NearestLive (fun p => p = .self ∨ p = .remote 2 bob) aliceTwice s m :=
  liveSuccessor_nearest (by decide) aliceTwice

/-! ### A removed node -/

/-- A node that the ping loop has found dead is in no slot afterwards. -/
theorem foundDead_gone (hself : ping .self = true) {fuel : ℕ} {n m : LocalNode} {s p : Node}
    (hp : p ∈ foundDead ping fuel n) (h : liveSuccessor ping fuel n = some (s, m)) (i : Fin M) :
    m.finger.entries i ≠ some p := by
  induction fuel generalizing n with
  | zero => cases h
  | succ fuel ih =>
    rw [liveSuccessor] at h
    rw [foundDead] at hp
    by_cases hping : ping n.getSuccessor.1 = true
    · rw [if_pos hping] at hp
      cases hp
    · rw [if_neg hping] at h hp
      rcases List.mem_cons.mp hp with rfl | htail
      · intro hi
        rcases (liveSuccessor_slots hself h).2 i _ hi with hold | ⟨_, hown, _⟩
        · exact (FingerTable.removeNode_entry.mp hold).2 rfl
        · rw [hown] at hping
          exact hping hself
      · exact ih htail h

theorem closestPrecedingFinger_entry (n : LocalNode) (id : ID) :
    n.closestPrecedingFinger id = .self ∨
      ∃ i, n.finger.entries i = some (n.closestPrecedingFinger id) := by
  rcases n.closestPrecedingFinger_cases id with ⟨i, f, hf, _, hc⟩ | ⟨_, hc⟩
  · rw [hc]
    exact Or.inr (FingerTable.entry_of_getNode hf)
  · exact Or.inl hc

/-- `removeNode` leaves no node with the ID of `p` and leaves all others where they are; and once
the ping loop has found `p` dead, no lookup is forwarded to a node with its ID. -/
structure Forgets (n : LocalNode) (p : Node) : Prop where
  gone : ∀ i q, (n.finger.removeNode p).entries i = some q → n.idOf q ≠ n.idOf p
  others : ∀ i q, n.finger.entries i = some q → n.idOf q ≠ n.idOf p →
    (n.finger.removeNode p).entries i = some q
  notReturned : ∀ ping fuel s m, ping .self = true → p ∈ foundDead ping fuel n →
    liveSuccessor ping fuel n = some (s, m) →
      ∀ id, m.closestPrecedingFinger id = .self ∨ n.idOf (m.closestPrecedingFinger id) ≠ n.idOf p

theorem forgets_iff (n : LocalNode) (p : Node) :
    Forgets n p ↔ ∀ i q, n.finger.entries i = some q → n.idOf q = n.idOf p → q = p := by
  constructor
  · intro h i q hi hid
    by_contra hne
    exact h.gone i q (FingerTable.removeNode_entry.mpr ⟨hi, hne⟩) hid
  · intro h
    refine ⟨fun i q hi hid => ?_, fun i q hi hid => ?_, fun ping fuel s m hself hp hm id => ?_⟩
    · obtain ⟨hold, hne⟩ := FingerTable.removeNode_entry.mp hi
      exact hne (h i q hold hid)
    · exact FingerTable.removeNode_entry.mpr ⟨hi, fun he => hid (by rw [he])⟩
    · rcases m.closestPrecedingFinger_entry id with hown | ⟨i, hi⟩
      · exact Or.inl hown
      · rcases (liveSuccessor_slots hself hm).2 i _ hi with hold | ⟨_, hown, _⟩
        · refine Or.inr fun hid => foundDead_gone hself hp hm i ?_
          rw [← h i _ hold hid]
          exact hi
        · exact Or.inl hown

theorem aliceTwice_not_forgets : ¬ Forgets aliceTwice (.remote 1 bob) := by
  intro h
  have hne : ¬ (init alice).idOf (.remote 2 bob) = (init alice).getId := alice_id_ne_bob_id.symm
  have hslot : aliceTwice.finger.entries 1 = some (.remote 2 bob) := by
    rw [aliceTwice, setFinger, FingerTable.entries_setNode, if_pos rfl]
    exact congrArg some (if_neg hne)
  exact h.gone 1 _ (FingerTable.removeNode_entry.mpr ⟨hslot, by decide⟩) rfl

end LocalNode
end ChordChat
