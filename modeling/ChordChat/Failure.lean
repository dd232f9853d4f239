import ChordChat.Predecessor
import ChordChat.Request

/-!
# Lookup requests among failed nodes

`handleRequest` serializes the result of a lookup without asking whether it is
NULL. So a node survives a lookup request exactly when the lookup's walk, read
off the states before the request, ends at a live node whose record comes through
every reply, or when a reply throws in the stub of the node asked.
-/

namespace ChordChat

inductive Lookup where
  | findPredecessor
  | findSuccessor
  | closestPrecedingFinger

namespace Lookup

def code : Lookup → RPCCode
  | .findPredecessor => .findPredecessor
  | .findSuccessor => .findSuccessor
  | .closestPrecedingFinger => .closestPrecedingFinger

def request (q : Lookup) (id : ID) : Bytes := createMessage q.code id.bytes

end Lookup

/-- The result can be serialized, or is an exception that the handler catches. -/
def Harmless {α : Type} : Except Fault (Option α) → Prop
  | .ok (some _) => True
  | .error .exception => True
  | _ => False

theorem Harmless.map {α β : Type} {r : Except Fault (Option α)} (f : α → β) :
    Harmless (r.map (Option.map f)) ↔ Harmless r := by
  match r with
  | .ok (some _) | .ok none | .error .exception | .error .abort | .error .nullDeref
  | .error .overread => exact Iff.rfl

theorem finish_response_fault (i : ID) (n : LocalNode) (r : Except Fault (Option Node)) (net : Net)
    (received : List Bytes) :
    (Served.finish i (n.response r, net, received)).fault = none ↔ Harmless r := by
  match r with
  | .ok (some _) | .error .exception => exact ⟨fun _ => trivial, fun _ => rfl⟩
  | .ok none | .error .abort | .error .nullDeref | .error .overread =>
    exact ⟨fun h => (nomatch h), fun h => h.elim⟩

namespace Lookup
variable (object : ℕ) (net : Net) (i id : ID)

def RunsIntoFailed : Lookup → Prop
  | .findPredecessor =>
    ∃ p, net.Comes wire object i id (some .self) (some p) ∧ net.node (p.idAt i) = none
  | .findSuccessor => ∃ k, net.FailsAfter id k i
  | .closestPrecedingFinger => False

/-- The node survives the request, and answers nothing when the lookup runs into
a failed node. -/
def Withstands (q : Lookup) : Prop :=
  ∃ N, ∀ fuel, N ≤ fuel → ∃ s, handleRequest fuel object net i (q.request id) = some s ∧
    s.fault = none ∧ (q.RunsIntoFailed object net i id → s.reply = [])

/-- The walk of the lookup ends, and its result reaches the node asked. -/
def Completes : Lookup → Prop
  | .findPredecessor =>
    ∃ p result, net.Comes wire object i id (some .self) p ∧
      net.turn wire object i id p = .final result ∧ Harmless (result.map some)
  | .findSuccessor => ∃ k m, net.EndsAt id k i m ∧ Harmless (Net.relay wire k (m.answer id))
  | .closestPrecedingFinger => True

variable {net i} {n : LocalNode}

theorem handleRequest_request (hn : net.node i = some n) (fuel : ℕ) (q : Lookup) :
    handleRequest fuel object net i (q.request id) =
      match q with
      | .findPredecessor => (net.findPredecessor wire object fuel i id).map fun r =>
          Served.finish i (n.response (r.1.map some), r.2, [])
      | .findSuccessor => (net.findSuccessor wire object fuel i id).map fun r =>
          Served.finish i (n.response r.1, r.2, [])
      | .closestPrecedingFinger =>
        some (Served.finish i (n.response (.ok (some (n.closestPrecedingFinger id))), net, [])) := by
  rw [request, handleRequest_createMessage hn fuel object _ id.bytes_length_le]
  cases q <;> simp only [code, execute, ID.ofChars_bytes, Option.map_map, Option.map_some] <;> rfl

theorem withstands_findSuccessor (hn : net.node i = some n) :
    Withstands object net i id .findSuccessor ↔ Completes object net i id .findSuccessor := by
  constructor
  · rintro ⟨N, h⟩
    rcases net.walk_ends id i with ⟨k, m, hend⟩ | ⟨k, hfail⟩
    · obtain ⟨n', r, net', hn', hrun, hinfo, _⟩ :=
        Net.findSuccessor_endsAt wire object hend
      obtain ⟨s, hs, hfault, _⟩ := h (max N (k + 1)) (Nat.le_max_left _ _)
      rw [handleRequest_request object id hn] at hs
      simp only [hrun _ (Nat.le_max_right N (k + 1)), Option.map_some, Option.some.injEq] at hs
      rw [← hs, finish_response_fault] at hfault
      exact ⟨k, m, hend, hinfo ▸ (Harmless.map _).mpr hfault⟩
    · obtain ⟨net', hrun⟩ := Net.findSuccessor_fails wire object hfail
      obtain ⟨s, hs, hfault, _⟩ := h (max N (k + 1)) (Nat.le_max_left _ _)
      rw [handleRequest_request object id hn] at hs
      simp only [hrun _ (Nat.le_max_right N (k + 1)), Option.map_some, Option.some.injEq] at hs
      rw [← hs] at hfault
      cases hfault
  · rintro ⟨k, m, hend, hharm⟩
    obtain ⟨n', r, net', hn', hrun, hinfo, _⟩ := Net.findSuccessor_endsAt wire object hend
    rw [← hinfo] at hharm
    have hr := (Harmless.map _).mp hharm
    refine ⟨k + 1, fun fuel hf => ?_⟩
    rw [handleRequest_request object id hn]
    simp only [hrun fuel hf, Option.map_some]
    refine ⟨_, rfl, (finish_response_fault ..).mpr hr, ?_⟩
    rintro ⟨k', hfail⟩
    obtain ⟨net'', hrun'⟩ := Net.findSuccessor_fails wire object hfail
    have hboth := (hrun (max k k' + 1) (by omega)).symm.trans (hrun' (max k k' + 1) (by omega))
    cases hboth
    exact hr.elim

theorem withstands_findPredecessor (hn : net.node i = some n) :
    Withstands object net i id .findPredecessor ↔ Completes object net i id .findPredecessor := by
  constructor
  · rintro ⟨N, h⟩
    obtain ⟨s, hs, hfault, _⟩ := h N (Nat.le_refl N)
    rw [handleRequest_request object id hn] at hs
    obtain ⟨⟨r, net'⟩, hrun, rfl⟩ := Option.map_eq_some_iff.mp hs
    obtain ⟨_, q, hq, hturn⟩ :=
      Net.findPredecessorLoop_result wire object (Net.Touched.refl net) hrun
    exact ⟨q, r, hq, hturn, (finish_response_fault ..).mp hfault⟩
  · rintro ⟨p, result, hp, hturn, hharm⟩
    obtain ⟨k, net', hrun⟩ := Net.findPredecessor_ends wire object hp hturn
    refine ⟨k, fun fuel hf => ?_⟩
    rw [handleRequest_request object id hn]
    simp only [hrun fuel hf, Option.map_some]
    refine ⟨_, rfl, (finish_response_fault ..).mpr hharm, ?_⟩
    rintro ⟨q, hq, hdead⟩
    rw [Net.final_unique wire object hp hturn hq (Net.turn_dead wire object hdead)] at hharm
    exact hharm.elim

end Lookup

/-! ### Records that fit -/

/-- Every record that a live node can answer with fits a frame. -/
def Net.Fits (net : Net) : Prop :=
  ∀ i n, net.node i = some n → n.info.Fits ∧
    ∀ k p, n.finger.entries k = some p → (p.info n.info).Fits

namespace Net.Fits
variable {net : Net} (h : net.Fits) {i : ID} {n : LocalNode}
include h

theorem carries : net.Carries wire :=
  fun i n hn => ⟨wire_of_fits (h i n hn).1, fun k p hk => wire_of_fits ((h i n hn).2 k p hk)⟩

theorem answer (hn : net.node i = some n) (id : ID) : (n.answer id).Fits := by
  unfold LocalNode.answer
  split
  · exact (h i n hn).1
  · exact (wire_eq_some_iff _).mp (h.carries.getSuccessor hn)

end Net.Fits

namespace Lookup
variable (object : ℕ) {net : Net} {i : ID} (id : ID)

theorem completes_findSuccessor_iff (h : net.Fits) :
    Completes object net i id .findSuccessor ↔
      ¬ RunsIntoFailed object net i id .findSuccessor := by
  constructor
  · rintro ⟨k, m, hend, hharm⟩ ⟨k', hfail⟩
    obtain ⟨_, r, _, _, hrun, hinfo, _⟩ := Net.findSuccessor_endsAt wire object hend
    obtain ⟨_, hrun'⟩ := Net.findSuccessor_fails wire object hfail
    have hboth := (hrun (max k k' + 1) (by omega)).symm.trans (hrun' (max k k' + 1) (by omega))
    cases hboth
    rw [← hinfo] at hharm
    exact hharm
  · intro hfail
    rcases net.walk_ends id i with ⟨k, m, hend⟩ | hf
    · have ⟨j, _, hm, _⟩ := hend
      refine ⟨k, m, hend, ?_⟩
      rw [Net.relay_of_fixed (wire_of_fits (h.answer hm id))]
      trivial
    · exact absurd hf hfail

theorem completes_findPredecessor_iff (h : net.Fits) :
    Completes object net i id .findPredecessor ↔
      ¬ RunsIntoFailed object net i id .findPredecessor ∧
      ¬ ∃ p, net.turn wire object i id (some .self) = .next (some p) ∧ p.idAt i = i := by
  constructor
  · rintro ⟨q, result, hq, hend, hharm⟩
    refine ⟨?_, ?_⟩
    · rintro ⟨p, hp, hdead⟩
      rw [Net.final_unique wire object hq hend hp (Net.turn_dead wire object hdead)] at hharm
      exact hharm
    · rintro ⟨p, hp, hpi⟩
      obtain ⟨_, _, _, _, hr⟩ := Net.comes_self object id h.carries hp hpi hq
      rw [hr] at hend
      cases result <;> cases hend
  · rintro ⟨hfail, hstuck⟩
    cases hn : net.node i with
    | none => exact absurd ⟨.self, .refl, hn⟩ hfail
    | some n =>
      have hturn := Net.turn_of_carries object id (p := .self) (i := i) h.carries hn
      split at hturn
      · exact ⟨_, .ok .self, .refl, hturn, trivial⟩
      next hstop =>
        obtain ⟨p, hp, hpid⟩ := hturn
        have hne : p.idAt i ≠ id := by
          intro he
          rw [hpid] at he
          by_cases hid : n.getId = id
          · exact hstuck ⟨p, hp, hpid.trans (he.trans (hid.symm.trans (net.id_eq i n hn)))⟩
          · exact Clockwise.sbtw_ne_right (LocalNode.sbtw_of_not_stops hid hstop) he
        rcases Net.comes_stop object id h.carries p hne with ⟨q, hq, hqt⟩ | ⟨q, hq, hdead⟩
        · exact ⟨_, .ok q, .head hp hq, hqt, trivial⟩
        · exact absurd ⟨q, .head hp hq, hdead⟩ hfail

end Lookup

/-! ### The requests -/

/-- A live node withstands a lookup request exactly when the lookup completes. -/
theorem withstands_iff_completes (object : ℕ) {net : Net} {i : ID} {n : LocalNode}
    (hn : net.node i = some n) (q : Lookup) (id : ID) :
    q.Withstands object net i id ↔ q.Completes object net i id := by
  cases q with
  | findPredecessor => exact Lookup.withstands_findPredecessor object id hn
  | findSuccessor => exact Lookup.withstands_findSuccessor object id hn
  | closestPrecedingFinger =>
    refine ⟨fun _ => trivial, fun _ => ⟨0, fun fuel _ => ?_⟩⟩
    rw [Lookup.handleRequest_request object id hn]
    exact ⟨_, rfl, (finish_response_fault ..).mpr trivial, fun h => nomatch h⟩

def widowNet (own other : INode) : Net :=
  Net.empty.set ((LocalNode.init own).setSuccessor (some (.remote 0 other)))

theorem widowNet_own (own other : INode) : (widowNet own other).node own.id =
    some ((LocalNode.init own).setSuccessor (some (.remote 0 other))) := Net.node_set_self rfl

section
variable {own other : INode} (hid : other.id ≠ own.id)
include hid

theorem widowNet_fits (ho : own.Fits) (hf : other.Fits) : (widowNet own other).Fits := by
  intro i n hn
  rw [widowNet, Net.node_set] at hn
  split at hn
  · obtain rfl := Option.some.inj hn
    refine ⟨ho, fun k p hk => ?_⟩
    rw [LocalNode.entries_init_setSuccessor hid hk]
    exact hf
  · cases hn

/-- Asked for the predecessor of its own ID, the node follows its only finger. -/
theorem widow_runsIntoFailed (ho : own.Fits) (hf : other.Fits) :
    Lookup.findPredecessor.RunsIntoFailed 0 (widowNet own other) own.id own.id := by
  have hstop : ¬ ((LocalNode.init own).setSuccessor (some (.remote 0 other))).stopsPredecessor
      own.id = true := by
    intro h
    rw [LocalNode.stopsPredecessor, LocalNode.setSuccessor_idOf,
      LocalNode.idOf_getSuccessor_setSuccessor, LocalNode.holds_iff] at h
    rcases h with (h | h) | h
    · exact hid h.symm
    · exact sbtw_irrefl_left h
    · exact hid h.symm
  have hturn := Net.turn_of_carries 0 own.id (p := .self) (i := own.id)
    (widowNet_fits hid ho hf).carries (widowNet_own own other)
  rw [if_neg hstop] at hturn
  obtain ⟨q, hq, hqid⟩ := hturn
  obtain ⟨i, f, hfi, _, hc⟩ := LocalNode.closestPrecedingFinger_found
    (n := (LocalNode.init own).setSuccessor (some (.remote 0 other)))
    (FingerTable.getNode_setNode_self _ _ _)
    (ID.isInInterval_iff.mpr (Clockwise.inArc_self own.id _))
  obtain ⟨k, hk⟩ := FingerTable.entry_of_getNode hfi
  rw [hc, LocalNode.entries_init_setSuccessor hid hk] at hqid
  refine ⟨q, .single hq, ?_⟩
  rw [hqid]
  exact Net.node_set_of_ne hid

end

theorem findPredecessor_request_kills :
    ¬ Lookup.findPredecessor.Withstands 0 (widowNet alice bob) alice.id alice.id := by
  have hid := alice_id_ne_bob_id.symm
  have ho : alice.Fits := INode.fits_of_le (by decide)
  have hf : bob.Fits := INode.fits_of_le (by decide)
  rw [Lookup.withstands_findPredecessor 0 alice.id (widowNet_own alice bob),
    Lookup.completes_findPredecessor_iff 0 alice.id (widowNet_fits hid ho hf)]
  exact fun h => h.1 (widow_runsIntoFailed hid ho hf)

theorem withstands_iff_completes_pair :
    Lookup.findSuccessor.Withstands 0 pairNet alice.id bob.id ↔
      Lookup.findSuccessor.Completes 0 pairNet alice.id bob.id :=
  withstands_iff_completes 0
    (Net.node_set_of_ne alice_id_ne_bob_id |>.trans (Net.node_set_self rfl)) .findSuccessor bob.id

end ChordChat
