import Mathlib.Data.Nat.Notation
import Mathlib.Logic.Function.Basic
import Mathlib.Logic.Relation

/-!
# The threads of a node from its constructor to its destructor (LocalNode.cpp)

The constructor starts the periodic thread and the server thread; the periodic thread
joins a server that has ended and starts the next one; the destructor sets `_stop` and
joins both. A move is one access to a flag or to a thread pointer, the start or the
join of a thread, or what a thread waits for: the opening of the acceptor, a connection.
-/

namespace ChordChat
namespace Lifecycle

/-- The thread that constructs the node and destroys it. `keepServer k` is about to store
the thread object of server `k`. -/
inductive Owner where
  | init
  | startPeriodic
  | keepPeriodic
  | startServer
  | keepServer (k : ℕ)
  | alive
  | destroy
  | joinPeriodic
  | destroyServer
  | joinServer (k : ℕ)
  | destroyed
  deriving DecidableEq

/-- `work` stands for `checkPredecessor`, `stabilize` and `fixFingers`. -/
inductive Periodic where
  | absent
  | loop
  | work
  | testServer
  | testThread
  | joinServer (k : ℕ)
  | restart
  | startServer
  | keepServer (k : ℕ)
  | sleep
  | ended
  deriving DecidableEq

inductive Server where
  | absent
  | start
  | listen
  | loop
  | accept
  | leave
  | ended
  deriving DecidableEq

end Lifecycle

open Lifecycle

/-- The flags and thread pointers of a node, and where its threads stand; `created` servers
have been started so far, and `deleted` are those whose thread objects are joined and gone. -/
structure Life where
  stop : Bool
  serverRunning : Bool
  periodicThread : Bool
  serverThread : Option ℕ
  created : ℕ
  deleted : ℕ → Bool
  owner : Owner
  periodic : Periodic
  server : ℕ → Server

namespace Life

def start : Life := ⟨false, true, false, none, 0, fun _ => false, .init, .absent, fun _ => .absent⟩

/-- A server moves when its call has succeeded or thrown. -/
inductive Move where
  | owner
  | periodic
  | server (k : ℕ) (ok : Bool)

/-- `new std::thread(&LocalNode::server, this)`. -/
def newServer (s : Life) : Life :=
  { s with created := s.created + 1, server := Function.update s.server s.created .start }

/-- `_serverThread->join(); delete _serverThread;` -/
def joinServer (s : Life) (k : ℕ) : Option Life :=
  if s.server k = .ended then some { s with deleted := Function.update s.deleted k true } else none

def stepOwner (s : Life) : Option Life :=
  match s.owner with
  | .init => some { s with serverRunning := true, owner := .startPeriodic }
  | .startPeriodic => some { s with periodic := .loop, owner := .keepPeriodic }
  | .keepPeriodic => some { s with periodicThread := true, owner := .startServer }
  | .startServer => some { s.newServer with owner := .keepServer s.created }
  | .keepServer k => some { s with serverThread := some k, owner := .alive }
  | .alive => some { s with owner := .destroy }
  | .destroy =>
    if s.periodicThread then some { s with stop := true, owner := .joinPeriodic }
    else some { s with owner := .destroyServer }
  | .joinPeriodic =>
    match s.periodic with
    | .ended => some { s with periodicThread := false, owner := .destroyServer }
    | _ => none
  | .destroyServer =>
    match s.serverThread with
    | none => some { s with owner := .destroyed }
    | some k => some { s with stop := true, owner := .joinServer k }
  | .joinServer k =>
    (s.joinServer k).map fun s => { s with serverThread := none, owner := .destroyed }
  | .destroyed => none

def stepPeriodic (s : Life) : Option Life :=
  match s.periodic with
  | .absent => none
  | .loop => some { s with periodic := if s.stop then .ended else .work }
  | .work => some { s with periodic := .testServer }
  | .testServer => some { s with periodic := if s.serverRunning then .sleep else .testThread }
  | .testThread =>
    match s.serverThread with
    | none => some { s with periodic := .restart }
    | some k => some { s with periodic := .joinServer k }
  | .joinServer k => (s.joinServer k).map fun s => { s with periodic := .restart }
  | .restart => some { s with serverRunning := true, periodic := .startServer }
  | .startServer => some { s.newServer with periodic := .keepServer s.created }
  | .keepServer k => some { s with serverThread := some k, periodic := .sleep }
  | .sleep => some { s with periodic := .loop }
  | .ended => none

def setServer (s : Life) (k : ℕ) (t : Server) : Life :=
  { s with server := Function.update s.server k t }

def stepServer (s : Life) (k : ℕ) (ok : Bool) : Option Life :=
  match s.server k with
  | .absent => none
  | .start => some { s.setServer k .listen with serverRunning := true }
  | .listen => some (s.setServer k (if ok then .loop else .leave))
  | .loop => some (s.setServer k (if s.stop then .leave else .accept))
  | .accept => some (s.setServer k (if ok then .loop else .leave))
  | .leave => some { s.setServer k .ended with serverRunning := false }
  | .ended => none

def step (s : Life) : Move → Option Life
  | .owner => s.stepOwner
  | .periodic => s.stepPeriodic
  | .server k ok => s.stepServer k ok

def Step (allowed : Life → Move → Prop) (s s' : Life) : Prop :=
  ∃ m, allowed s m ∧ s.step m = some s'

def Run (allowed : Life → Move → Prop) : Life → Life → Prop :=
  Relation.ReflTransGen (Step allowed)

/-! ### One server at a time -/

def Serving (s : Life) (k : ℕ) : Prop := s.server k ≠ .absent ∧ s.server k ≠ .ended

/-- A server has been started, and every one has ended. -/
def Quiet (s : Life) : Prop := 0 < s.created ∧ ∀ k < s.created, s.server k = .ended

def Restarts : Periodic → Prop
  | .testThread | .joinServer _ | .restart | .startServer => True
  | _ => False

def Starts : Owner → Prop
  | .init | .startPeriodic | .keepPeriodic | .startServer => True
  | _ => False

structure Inv (s : Life) : Prop where
  older : ∀ k, k + 1 < s.created → s.server k = .ended
  later : ∀ k, s.created ≤ k → s.server k = .absent
  running : s.serverRunning = false → s.Quiet
  starts : Starts s.owner → s.created = 0
  restarts : Restarts s.periodic → s.Quiet
  restarted : s.periodic = .startServer → s.serverRunning = true

variable {s s' : Life} {allowed : Life → Move → Prop}

theorem joinServer_eq_some {k : ℕ} : s.joinServer k = some s' ↔
    s.server k = .ended ∧ s' = { s with deleted := Function.update s.deleted k true } := by
  unfold joinServer
  split
  next he => simp only [he, Option.some.injEq, true_and, eq_comm]
  next he => simp only [he, reduceCtorEq, false_and]

theorem start_inv : start.Inv where
  older _ hk := absurd hk (Nat.not_lt_zero _)
  later _ _ := rfl
  running h := Bool.noConfusion h
  starts _ := rfl
  restarts h := h.elim
  restarted h := Periodic.noConfusion h

theorem Inv.serving_last (h : s.Inv) {k : ℕ} (hk : s.Serving k) : k + 1 = s.created := by
  by_contra hne
  rcases Nat.lt_or_ge k s.created with hlt | hge
  · exact hk.2 (h.older k (by omega))
  · exact hk.1 (h.later k hge)

theorem Quiet.not_serving (h : s.Inv) (hq : s.Quiet) (k : ℕ) : ¬ s.Serving k := by
  intro hk
  have hlast := h.serving_last hk
  exact hk.2 (hq.2 k (by omega))

/-- A move that starts no server and moves none. -/
theorem Inv.frame (h : s.Inv) (hc : s'.created = s.created) (hv : s'.server = s.server)
    (hrun : s'.serverRunning = false → s.serverRunning = false)
    (ho : Starts s'.owner → Starts s.owner) (hp : Restarts s'.periodic → s.Quiet)
    (hr : s'.periodic = .startServer → s'.serverRunning = true) : s'.Inv := by
  have hquiet : s.Quiet → s'.Quiet := fun hq => by
    rw [Quiet, hc, hv]
    exact hq
  refine ⟨?_, ?_, fun hs => hquiet (h.running (hrun hs)), ?_, fun hs => hquiet (hp hs), hr⟩
  · rw [hc, hv]
    exact h.older
  · rw [hc, hv]
    exact h.later
  · rw [hc]
    exact fun hs => h.starts (ho hs)

/-- A server is started when there is no other. -/
theorem Inv.create (h : s.Inv) (hended : ∀ k < s.created, s.server k = .ended)
    (hflag : s.serverRunning = true) {owner : Owner} {periodic : Periodic} (ho : ¬ Starts owner)
    (hp : ¬ Restarts periodic) :
    Inv { s.newServer with owner := owner, periodic := periodic } where
  older k hk := by
    have hlt : k < s.created := Nat.lt_of_succ_lt_succ hk
    exact (Function.update_of_ne (Nat.ne_of_lt hlt) _ _).trans (hended k hlt)
  later k hk := by
    have hlt : s.created < k := hk
    exact (Function.update_of_ne (Nat.ne_of_gt hlt) _ _).trans (h.later k (Nat.le_of_lt hlt))
  running hs := by
    have hs' : s.serverRunning = false := hs
    rw [hflag] at hs'
    cases hs'
  starts hs := absurd hs ho
  restarts hs := absurd hs hp
  restarted _ := hflag

/-- The server that runs moves, and clears the flag at its end only. -/
theorem Inv.serve (h : s.Inv) {k : ℕ} (hk : s.Serving k) {t : Server} {flag : Bool}
    (hflag : flag = true ∨ flag = s.serverRunning ∨ t = .ended) :
    Inv { s.setServer k t with serverRunning := flag } := by
  have hlast := h.serving_last hk
  have hnot : ¬ s.Quiet := fun hq => hq.not_serving h k hk
  have hset : s.serverRunning = true := by
    by_contra hs
    exact hnot (h.running (Bool.eq_false_iff.mpr hs))
  refine ⟨fun j hj => ?_, fun j hj => ?_, fun hs => ?_, h.starts, fun hs => absurd (h.restarts hs) hnot,
    fun hs => absurd (h.restarts (by rw [show s.periodic = .startServer from hs]; trivial)) hnot⟩
  · have hj' : j + 1 < s.created := hj
    exact (Function.update_of_ne (by omega) _ _).trans (h.older j hj')
  · have hj' : s.created ≤ j := hj
    exact (Function.update_of_ne (by omega) _ _).trans (h.later j hj')
  · have hs' : flag = false := hs
    have hend : t = .ended := by
      rcases hflag with hf | hf | hf
      · rw [hs'] at hf
        cases hf
      · rw [hs', hset] at hf
        cases hf
      · exact hf
    refine ⟨show 0 < s.created by omega, fun j hj => ?_⟩
    have hj' : j < s.created := hj
    by_cases hjk : j = k
    · subst hjk
      exact (Function.update_self _ _ _).trans hend
    · exact (Function.update_of_ne hjk _ _).trans (h.older j (by omega))

theorem Inv.stepOwner (h : s.Inv) (hs : s.stepOwner = some s') : s'.Inv := by
  unfold Life.stepOwner at hs
  split at hs
  next ho =>
    obtain rfl := Option.some.inj hs
    exact h.frame rfl rfl (fun he => Bool.noConfusion he) (fun _ => by rw [ho]; trivial) h.restarts
      fun _ => rfl
  next ho =>
    obtain rfl := Option.some.inj hs
    exact h.frame rfl rfl id (fun _ => by rw [ho]; trivial) (fun he => he.elim) fun he => (by cases he)
  next ho =>
    obtain rfl := Option.some.inj hs
    exact h.frame rfl rfl id (fun _ => by rw [ho]; trivial) h.restarts h.restarted
  next ho =>
    obtain rfl := Option.some.inj hs
    have hc : s.created = 0 := h.starts (by rw [ho]; trivial)
    have hrun : s.serverRunning = true := by
      by_contra hoff
      have hpos := (h.running (Bool.eq_false_iff.mpr hoff)).1
      omega
    have hp : ¬ Restarts s.periodic := fun hp => by
      have hpos := (h.restarts hp).1
      omega
    exact h.create (fun k hk => by omega) hrun (fun hno => hno.elim) hp
  next k ho =>
    obtain rfl := Option.some.inj hs
    exact h.frame rfl rfl id (fun he => he.elim) h.restarts h.restarted
  next ho =>
    obtain rfl := Option.some.inj hs
    exact h.frame rfl rfl id (fun he => he.elim) h.restarts h.restarted
  next ho =>
    split at hs
    all_goals
      obtain rfl := Option.some.inj hs
      exact h.frame rfl rfl id (fun he => he.elim) h.restarts h.restarted
  next ho =>
    split at hs
    · obtain rfl := Option.some.inj hs
      exact h.frame rfl rfl id (fun he => he.elim) h.restarts h.restarted
    · cases hs
  next ho =>
    split at hs
    all_goals
      obtain rfl := Option.some.inj hs
      exact h.frame rfl rfl id (fun he => he.elim) h.restarts h.restarted
  next k ho =>
    obtain ⟨_, hjoin, rfl⟩ := Option.map_eq_some_iff.mp hs
    obtain ⟨_, rfl⟩ := joinServer_eq_some.mp hjoin
    exact h.frame rfl rfl id (fun he => he.elim) h.restarts h.restarted
  next ho => cases hs

theorem Inv.stepPeriodic (h : s.Inv) (hs : s.stepPeriodic = some s') : s'.Inv := by
  unfold Life.stepPeriodic at hs
  split at hs
  next hp => cases hs
  next hp =>
    obtain rfl := Option.some.inj hs
    refine h.frame rfl rfl id id (fun he => ?_) fun he => ?_
    all_goals
      dsimp only at he
      split at he
      all_goals cases he
  next hp =>
    obtain rfl := Option.some.inj hs
    exact h.frame rfl rfl id id (fun he => he.elim) fun he => (by cases he)
  next hp =>
    obtain rfl := Option.some.inj hs
    refine h.frame rfl rfl id id (fun he => ?_) fun he => ?_
    · dsimp only at he
      split at he
      next => cases he
      next hoff => exact h.running (Bool.eq_false_iff.mpr hoff)
    · dsimp only at he
      split at he
      all_goals cases he
  next hp =>
    have hq : s.Quiet := h.restarts (by rw [hp]; trivial)
    split at hs
    all_goals
      obtain rfl := Option.some.inj hs
      exact h.frame rfl rfl id id (fun _ => hq) fun he => (by cases he)
  next k hp =>
    have hq : s.Quiet := h.restarts (by rw [hp]; trivial)
    obtain ⟨_, hjoin, rfl⟩ := Option.map_eq_some_iff.mp hs
    obtain ⟨_, rfl⟩ := joinServer_eq_some.mp hjoin
    exact h.frame rfl rfl id id (fun _ => hq) fun he => (by cases he)
  next hp =>
    have hq : s.Quiet := h.restarts (by rw [hp]; trivial)
    obtain rfl := Option.some.inj hs
    exact h.frame rfl rfl (fun he => Bool.noConfusion he) id (fun _ => hq) fun _ => rfl
  next hp =>
    have hq : s.Quiet := h.restarts (by rw [hp]; trivial)
    obtain rfl := Option.some.inj hs
    refine h.create hq.2 (h.restarted hp) (fun ho => ?_) fun he => he.elim
    have hzero := h.starts ho
    have hpos := hq.1
    omega
  next k hp =>
    obtain rfl := Option.some.inj hs
    exact h.frame rfl rfl id id (fun he => he.elim) fun he => (by cases he)
  next hp =>
    obtain rfl := Option.some.inj hs
    exact h.frame rfl rfl id id (fun he => he.elim) fun he => (by cases he)
  next hp => cases hs

theorem Inv.stepServer (h : s.Inv) {k : ℕ} {ok : Bool} (hs : s.stepServer k ok = some s') :
    s'.Inv := by
  have hserving : ∀ t, s.server k = t → t ≠ .absent → t ≠ .ended → s.Serving k :=
    fun t ht h1 h2 => ⟨ht ▸ h1, ht ▸ h2⟩
  unfold Life.stepServer at hs
  split at hs
  next hk => cases hs
  next hk =>
    obtain rfl := Option.some.inj hs
    exact h.serve (hserving _ hk (by decide) (by decide)) (Or.inl rfl)
  next hk =>
    obtain rfl := Option.some.inj hs
    exact h.serve (hserving _ hk (by decide) (by decide)) (Or.inr (Or.inl rfl))
  next hk =>
    obtain rfl := Option.some.inj hs
    exact h.serve (hserving _ hk (by decide) (by decide)) (Or.inr (Or.inl rfl))
  next hk =>
    obtain rfl := Option.some.inj hs
    exact h.serve (hserving _ hk (by decide) (by decide)) (Or.inr (Or.inl rfl))
  next hk =>
    obtain rfl := Option.some.inj hs
    exact h.serve (hserving _ hk (by decide) (by decide)) (Or.inr (Or.inr rfl))
  next hk => cases hs

theorem Inv.step (h : s.Inv) {m : Move} (hs : s.step m = some s') : s'.Inv := by
  cases m with
  | owner => exact h.stepOwner hs
  | periodic => exact h.stepPeriodic hs
  | server k ok => exact h.stepServer hs

theorem Run.inv (hrun : Run allowed start s) : s.Inv := by
  induction hrun with
  | refl => exact start_inv
  | tail _ hs ih =>
    obtain ⟨m, _, hs⟩ := hs
    exact ih.step hs

/-- However the threads are scheduled, no two servers of the node are alive at once, and none
is while the flag says so. -/
theorem one_server (hrun : Run allowed start s) :
    (∀ j k, s.Serving j → s.Serving k → j = k) ∧
      (s.serverRunning = false → ∀ k, ¬ s.Serving k) := by
  have hinv := hrun.inv
  constructor
  · intro j k hj hk
    have h1 := hinv.serving_last hj
    have h2 := hinv.serving_last hk
    omega
  · intro hoff
    exact (hinv.running hoff).not_serving hinv

/-! ### Shutdown -/

/-- The constructor has stored its server's thread object. -/
def Built : Owner → Prop
  | .init | .startPeriodic | .keepPeriodic | .startServer | .keepServer _ => False
  | _ => True

/-- The periodic thread looks at the server for the first time behind the constructor. -/
def Ordered (s : Life) : Move → Prop
  | .periodic => s.periodic = .testServer → Built s.owner
  | _ => True

def Freed : Periodic → Prop
  | .restart | .startServer => True
  | _ => False

def Replaces : Periodic → Prop
  | .testThread | .joinServer _ | .restart | .startServer | .keepServer _ => True
  | _ => False

/-- The periodic thread has been joined. -/
def Downs : Owner → Prop
  | .destroyServer | .joinServer _ | .destroyed => True
  | _ => False

def Stores : Owner → Prop
  | .startServer | .keepServer _ | .alive | .destroy => True
  | _ => False

/-- Where the threads stand beside each other. -/
structure Phases (s : Life) : Prop where
  built : Replaces s.periodic → Built s.owner
  periodicKeeps : ∀ k, s.periodic = .keepServer k → k + 1 = s.created
  ownerKeeps : ∀ k, s.owner = .keepServer k → k + 1 = s.created
  periodicThread : Stores s.owner → s.periodicThread = true
  ended : Downs s.owner → s.periodic = .ended

/-- The pointer is that of the newest server, and the objects of the older ones are gone. -/
structure Kept (s : Life) : Prop extends Phases s where
  newest : Built s.owner → s.owner ≠ .destroyed → (∀ k, s.periodic ≠ .keepServer k) →
    0 < s.created ∧ s.serverThread = some (s.created - 1)
  periodicJoins : ∀ k, s.periodic = .joinServer k → k + 1 = s.created
  ownerJoins : ∀ k, s.owner = .joinServer k → k + 1 = s.created
  older : ∀ k, k + 1 < s.created → s.deleted k = true
  last : ∀ k, k + 1 = s.created →
    (s.deleted k = true ↔ Freed s.periodic ∨ s.owner = .destroyed)
  later : ∀ k, s.created ≤ k → s.deleted k = false

theorem Phases.stepOwner (hi : s.Inv) (h : s.Phases) (hs : s.stepOwner = some s') :
    s'.Phases := by
  have hc := hi.starts
  obtain ⟨h1, h2, h3, h4, h5⟩ := h
  unfold Life.stepOwner at hs
  constructor
  all_goals grind [newServer, joinServer, Built, Starts, Downs, Replaces, Stores]

theorem Phases.stepPeriodic (hi : s.Inv) (h : s.Phases) (ho : Ordered s .periodic)
    (hs : s.stepPeriodic = some s') : s'.Phases := by
  have hc := hi.starts
  obtain ⟨h1, h2, h3, h4, h5⟩ := h
  unfold Life.stepPeriodic at hs
  constructor
  all_goals grind [newServer, joinServer, Built, Starts, Downs, Replaces, Stores, Ordered]

/-- A move that starts, stores and joins no server. -/
theorem Kept.same (h : s.Kept) (hph : s'.Phases) (hc : s'.created = s.created)
    (hd : s'.deleted = s.deleted) (ht : s'.serverThread = s.serverThread)
    (hn : Built s'.owner → Built s.owner)
    (hk : (∀ k, s'.periodic ≠ .keepServer k) → ∀ k, s.periodic ≠ .keepServer k)
    (hpj : ∀ k, s'.periodic = .joinServer k → k + 1 = s.created)
    (hoj : ∀ k, s'.owner = .joinServer k → k + 1 = s.created)
    (hlive : s'.owner = .destroyed ↔ s.owner = .destroyed)
    (hf : Freed s'.periodic ↔ Freed s.periodic) : s'.Kept := by
  refine ⟨hph, fun hb hlive' hk' => ?_, ?_, ?_, ?_, fun k hlast => ?_, ?_⟩
  · rw [hc, ht]
    exact h.newest (hn hb) (fun he => hlive' (hlive.mpr he)) (hk hk')
  · rwa [hc]
  · rwa [hc]
  · rw [hc, hd]
    exact h.older
  · rw [hc] at hlast
    rw [hd, h.last k hlast, hf, hlive]
  · rw [hc, hd]
    exact h.later

/-- A server is started when the objects of all others are gone. -/
theorem Kept.create (h : s.Kept) (hph : s'.Phases) (hc : s'.created = s.created + 1)
    (hd : s'.deleted = s.deleted) (hgone : ∀ k < s.created, s.deleted k = true)
    (hn : Built s'.owner → ∃ k, s'.periodic = .keepServer k)
    (hpj : ∀ k, s'.periodic ≠ .joinServer k) (hoj : ∀ k, s'.owner ≠ .joinServer k)
    (hf : ¬ (Freed s'.periodic ∨ s'.owner = .destroyed)) : s'.Kept := by
  refine ⟨hph, fun hb _ hk => ?_, fun k hk => absurd hk (hpj k), fun k hk => absurd hk (hoj k),
    fun k hk => ?_, fun k hk => ?_, fun k hk => ?_⟩
  · obtain ⟨k, hkeep⟩ := hn hb
    exact absurd hkeep (hk k)
  · rw [hd]
    exact hgone k (by omega)
  · rw [hd, h.later k (by omega)]
    exact iff_of_false Bool.false_ne_true hf
  · rw [hd]
    exact h.later k (by omega)

/-- The object of the newest server is stored. -/
theorem Kept.store (h : s.Kept) (hph : s'.Phases) {k : ℕ} (hk : k + 1 = s.created)
    (hc : s'.created = s.created) (hd : s'.deleted = s.deleted) (ht : s'.serverThread = some k)
    (hpj : ∀ k, s'.periodic ≠ .joinServer k) (hoj : ∀ k, s'.owner ≠ .joinServer k)
    (hf : Freed s'.periodic ∨ s'.owner = .destroyed ↔ Freed s.periodic ∨ s.owner = .destroyed) :
    s'.Kept := by
  refine ⟨hph, fun _ _ _ => ?_, fun k hk => absurd hk (hpj k), fun k hk => absurd hk (hoj k), ?_,
    fun k hlast => ?_, ?_⟩
  · rw [hc, ht, ← hk]
    exact ⟨Nat.succ_pos k, rfl⟩
  · rw [hc, hd]
    exact h.older
  · rw [hc] at hlast
    rw [hd, h.last k hlast, hf]
  · rw [hc, hd]
    exact h.later

/-- The newest server is joined, and its object deleted. -/
theorem Kept.join (h : s.Kept) (hph : s'.Phases) {k : ℕ} (hk : k + 1 = s.created)
    (hc : s'.created = s.created) (hd : s'.deleted = Function.update s.deleted k true)
    (hn : s'.owner ≠ .destroyed → s'.serverThread = some k)
    (hpj : ∀ k, s'.periodic ≠ .joinServer k) (hoj : ∀ k, s'.owner ≠ .joinServer k)
    (hf : Freed s'.periodic ∨ s'.owner = .destroyed) : s'.Kept := by
  refine ⟨hph, fun _ hlive _ => ?_, fun k hk => absurd hk (hpj k), fun k hk => absurd hk (hoj k),
    fun j hj => ?_, fun j hj => ?_, fun j hj => ?_⟩
  · rw [hc, hn hlive, ← hk]
    exact ⟨Nat.succ_pos k, rfl⟩
  · rw [hd, Function.update_of_ne (by omega)]
    exact h.older j (by omega)
  · obtain rfl : j = k := by omega
    rw [hd, Function.update_self]
    exact iff_of_true rfl hf
  · rw [hd, Function.update_of_ne (by omega)]
    exact h.later j (by omega)

theorem Kept.stepServer (h : s.Kept) {k : ℕ} {ok : Bool} (hs : s.stepServer k ok = some s') :
    s'.Kept := by
  have hset : ∀ (t : Server) (flag : Bool), Kept { s.setServer k t with serverRunning := flag } :=
    fun t flag => ⟨⟨h.built, h.periodicKeeps, h.ownerKeeps, h.periodicThread, h.ended⟩, h.newest,
      h.periodicJoins, h.ownerJoins, h.older, h.last, h.later⟩
  unfold Life.stepServer at hs
  split at hs
  all_goals
    cases hs
  all_goals
    exact hset _ _

theorem Kept.stepOwner (hi : s.Inv) (h : s.Kept) (hs : s.stepOwner = some s') : s'.Kept := by
  have hph := h.toPhases.stepOwner hi hs
  have hfreed : Freed s.periodic → Replaces s.periodic := fun hf => by
    revert hf
    cases s.periodic <;> simp [Freed, Replaces]
  unfold Life.stepOwner at hs
  split at hs
  next ho =>
    obtain rfl := Option.some.inj hs
    exact h.same hph rfl rfl rfl (fun hb => hb.elim) id h.periodicJoins (fun k he => (by cases he))
      (by simp [ho]) Iff.rfl
  next ho =>
    obtain rfl := Option.some.inj hs
    have hnot : ¬ Replaces s.periodic := fun hr => by simpa [ho, Built] using h.built hr
    exact h.same hph rfl rfl rfl (fun hb => hb.elim)
      (fun _ k hk => hnot (by rw [hk]; trivial)) (fun k he => (by cases he))
      (fun k he => (by cases he)) (by simp [ho]) (iff_of_false id fun hf => hnot (hfreed hf))
  next ho =>
    obtain rfl := Option.some.inj hs
    exact h.same hph rfl rfl rfl (fun hb => hb.elim) id h.periodicJoins (fun k he => (by cases he))
      (by simp [ho]) Iff.rfl
  next ho =>
    obtain rfl := Option.some.inj hs
    have hnot : ¬ Replaces s.periodic := fun hr => by simpa [ho, Built] using h.built hr
    have hc : s.created = 0 := hi.starts (by rw [ho]; trivial)
    refine h.create hph rfl rfl (fun k hk => by omega) (fun hb => hb.elim)
      (fun k hk => hnot (by rw [show s.periodic = .joinServer k from hk]; trivial))
      (fun k he => (by cases he)) fun hor => ?_
    rcases hor with hf | he
    · exact hnot (hfreed hf)
    · cases he
  next k ho =>
    obtain rfl := Option.some.inj hs
    have hnot : ¬ Replaces s.periodic := fun hr => by simpa [ho, Built] using h.built hr
    exact h.store hph (h.ownerKeeps k ho) rfl rfl rfl
      (fun k hk => hnot (by rw [show s.periodic = .joinServer k from hk]; trivial))
      (fun k he => (by cases he)) (by simp [ho])
  next ho =>
    obtain rfl := Option.some.inj hs
    exact h.same hph rfl rfl rfl (fun _ => by rw [ho]; trivial) id h.periodicJoins
      (fun k he => (by cases he)) (by simp [ho]) Iff.rfl
  next ho =>
    split at hs
    all_goals
      obtain rfl := Option.some.inj hs
      exact h.same hph rfl rfl rfl (fun _ => by rw [ho]; trivial) id h.periodicJoins
        (fun k he => (by cases he)) (by simp [ho]) Iff.rfl
  next ho =>
    split at hs
    · obtain rfl := Option.some.inj hs
      exact h.same hph rfl rfl rfl (fun _ => by rw [ho]; trivial) id h.periodicJoins
        (fun k he => (by cases he)) (by simp [ho]) Iff.rfl
    · cases hs
  next ho =>
    have hend := h.ended (by rw [ho]; trivial)
    obtain ⟨hpos, hthread⟩ := h.newest (by rw [ho]; trivial) (by simp [ho]) (by simp [hend])
    split at hs
    next hnone =>
      rw [hthread] at hnone
      cases hnone
    next k hk =>
      rw [hthread] at hk
      obtain rfl := Option.some.inj hk
      obtain rfl := Option.some.inj hs
      refine h.same hph rfl rfl rfl (fun _ => by rw [ho]; trivial) id h.periodicJoins
        (fun k he => ?_) (by simp [ho]) Iff.rfl
      cases he
      omega
  next k ho =>
    have hend := h.ended (by rw [ho]; trivial)
    obtain ⟨_, hjoin, rfl⟩ := Option.map_eq_some_iff.mp hs
    obtain ⟨_, rfl⟩ := joinServer_eq_some.mp hjoin
    exact h.join hph (h.ownerJoins k ho) rfl rfl (fun he => absurd rfl he) (by simp [hend])
      (fun k he => (by cases he)) (Or.inr rfl)
  next ho => cases hs

theorem Kept.stepPeriodic (hi : s.Inv) (h : s.Kept) (ho : Ordered s .periodic)
    (hs : s.stepPeriodic = some s') : s'.Kept := by
  have hph := h.toPhases.stepPeriodic hi ho hs
  have hup : s.periodic ≠ .ended → ¬ Downs s.owner := fun hne hd => hne (h.ended hd)
  have hnewest : s.periodic ≠ .ended → Replaces s.periodic → (∀ k, s.periodic ≠ .keepServer k) →
      0 < s.created ∧ s.serverThread = some (s.created - 1) := fun hne hr hk =>
    h.newest (h.built hr) (fun hd => hup hne (by rw [hd]; trivial)) hk
  unfold Life.stepPeriodic at hs
  split at hs
  next hp => cases hs
  next hp =>
    obtain rfl := Option.some.inj hs
    refine h.same hph rfl rfl rfl id (fun _ k => by simp [hp]) (fun k he => ?_) h.ownerJoins Iff.rfl
      (iff_of_false (fun hf => ?_) (by simp [hp, Freed]))
    all_goals dsimp only at *
    · split at he <;> cases he
    · split at hf <;> exact hf.elim
  next hp =>
    obtain rfl := Option.some.inj hs
    exact h.same hph rfl rfl rfl id (fun _ k => by simp [hp]) (fun k he => (by cases he)) h.ownerJoins
      Iff.rfl (by simp [hp, Freed])
  next hp =>
    obtain rfl := Option.some.inj hs
    refine h.same hph rfl rfl rfl id (fun _ k => by simp [hp]) (fun k he => ?_) h.ownerJoins Iff.rfl
      (iff_of_false (fun hf => ?_) (by simp [hp, Freed]))
    all_goals dsimp only at *
    · split at he <;> cases he
    · split at hf <;> exact hf.elim
  next hp =>
    obtain ⟨hpos, hthread⟩ := hnewest (by simp [hp]) (by rw [hp]; trivial) (by simp [hp])
    split at hs
    next hnone =>
      rw [hthread] at hnone
      cases hnone
    next k hk =>
      rw [hthread] at hk
      obtain rfl := Option.some.inj hk
      obtain rfl := Option.some.inj hs
      refine h.same hph rfl rfl rfl id (fun _ k => by simp [hp]) (fun k he => ?_) h.ownerJoins Iff.rfl
        (by simp [hp, Freed])
      cases he
      omega
  next k hp =>
    obtain ⟨_, hthread⟩ := hnewest (by simp [hp]) (by rw [hp]; trivial) (by simp [hp])
    have hlast := h.periodicJoins k hp
    have hk : s.created - 1 = k := by omega
    obtain ⟨_, hjoin, rfl⟩ := Option.map_eq_some_iff.mp hs
    obtain ⟨_, rfl⟩ := joinServer_eq_some.mp hjoin
    exact h.join hph hlast rfl rfl (fun _ => hk ▸ hthread) (fun k he => (by cases he))
      (fun k he => hup (by simp [hp]) (by rw [show s.owner = .joinServer k from he]; trivial))
      (Or.inl trivial)
  next hp =>
    obtain rfl := Option.some.inj hs
    exact h.same hph rfl rfl rfl id (fun _ k => by simp [hp]) (fun k he => (by cases he)) h.ownerJoins
      Iff.rfl (by simp [hp, Freed])
  next hp =>
    obtain rfl := Option.some.inj hs
    refine h.create hph rfl rfl (fun k hk => ?_) (fun _ => ⟨_, rfl⟩) (fun k he => (by cases he))
      (fun k he => hup (by simp [hp]) (by rw [show s.owner = .joinServer k from he]; trivial))
      fun hor => ?_
    · by_cases hlast : k + 1 = s.created
      · exact (h.last k hlast).mpr (Or.inl (by rw [hp]; trivial))
      · exact h.older k (by omega)
    · rcases hor with hf | he
      · exact hf
      · exact hup (by simp [hp]) (by rw [show s.owner = .destroyed from he]; trivial)
  next k hp =>
    obtain rfl := Option.some.inj hs
    exact h.store hph (h.periodicKeeps k hp) rfl rfl rfl (fun k he => (by cases he))
      (fun k he => hup (by simp [hp]) (by rw [show s.owner = .joinServer k from he]; trivial))
      (by simp [hp, Freed])
  next hp =>
    obtain rfl := Option.some.inj hs
    exact h.same hph rfl rfl rfl id (fun _ k => by simp [hp]) (fun k he => (by cases he)) h.ownerJoins
      Iff.rfl (by simp [hp, Freed])
  next hp => cases hs

theorem start_kept : start.Kept where
  built h := h.elim
  periodicKeeps _ h := Periodic.noConfusion h
  ownerKeeps _ h := Owner.noConfusion h
  periodicThread h := h.elim
  ended h := h.elim
  newest h := h.elim
  periodicJoins _ h := Periodic.noConfusion h
  ownerJoins _ h := Owner.noConfusion h
  older _ hk := absurd hk (Nat.not_lt_zero _)
  last _ hk := absurd hk (Nat.succ_ne_zero _)
  later _ _ := rfl

theorem Run.kept (hrun : Run Ordered start s) : s.Inv ∧ s.Kept := by
  induction hrun with
  | refl => exact ⟨start_inv, start_kept⟩
  | tail _ hs ih =>
    obtain ⟨hi, h⟩ := ih
    obtain ⟨m, ho, hs⟩ := hs
    refine ⟨hi.step hs, ?_⟩
    cases m with
    | owner => exact h.stepOwner hi hs
    | periodic => exact h.stepPeriodic hi ho hs
    | server k ok => exact h.stepServer hs

/-- What a move does to the servers and their objects. -/
theorem step_servers {m : Move} (hs : s.step m = some s') :
    s'.server = s.server ∧ s'.deleted = s.deleted ∨
    s'.server = Function.update s.server s.created .start ∧ s'.deleted = s.deleted ∨
    (∃ k, s.server k = .ended ∧ s'.server = s.server ∧
      s'.deleted = Function.update s.deleted k true) ∨
    ∃ k ok t, m = .server k ok ∧ s.server k ≠ .ended ∧ s'.server = Function.update s.server k t ∧
      s'.deleted = s.deleted := by
  cases m with
  | owner =>
    unfold step stepOwner at hs
    grind [newServer, joinServer]
  | periodic =>
    unfold step stepPeriodic at hs
    grind [newServer, joinServer]
  | server j ok =>
    unfold step stepServer at hs
    grind [setServer]

/-- Only ended servers are joined, and they stay ended. -/
theorem Run.deleted (hrun : Run allowed start s) :
    ∀ k, s.deleted k = true → s.server k = .ended := by
  induction hrun with
  | refl => exact fun k hk => Bool.noConfusion hk
  | @tail b c hr hs ih =>
    obtain ⟨m, _, hs⟩ := hs
    intro k hk
    rcases step_servers hs with ⟨hv, hd⟩ | ⟨hv, hd⟩ | ⟨j, hj, hv, hd⟩ | ⟨j, ok, t, _, hj, hv, hd⟩
    · rw [hd] at hk
      rw [hv, ih k hk]
    · rw [hd] at hk
      have hend := ih k hk
      have hne : k ≠ b.created := fun he => by
        rw [(Run.inv hr).later k (Nat.le_of_eq he.symm)] at hend
        cases hend
      rw [hv, Function.update_of_ne hne, hend]
    · rw [hv]
      by_cases hkj : k = j
      · rw [hkj, hj]
      · rw [hd, Function.update_of_ne hkj] at hk
        exact ih k hk
    · rw [hd] at hk
      have hend := ih k hk
      have hne : k ≠ j := fun hkj => hj (hkj ▸ hend)
      rw [hv, Function.update_of_ne hne, hend]

instance : DecidablePred Built := fun
  | .init | .startPeriodic | .keepPeriodic | .startServer | .keepServer _ => isFalse id
  | .alive | .destroy | .joinPeriodic | .destroyServer | .joinServer _ | .destroyed => isTrue trivial

instance (s : Life) : DecidablePred s.Ordered := fun
  | .periodic => inferInstanceAs (Decidable (s.periodic = .testServer → Built s.owner))
  | .owner | .server _ _ => isTrue trivial

def exec (allowed : Life → Move → Prop) [∀ s, DecidablePred (allowed s)] :
    List Move → Life → Option Life
  | [], s => some s
  | m :: moves, s => if allowed s m then (s.step m).bind (exec allowed moves) else none

theorem exec_run [∀ s, DecidablePred (allowed s)] {moves : List Move}
    (h : exec allowed moves s = some s') : Run allowed s s' := by
  induction moves generalizing s with
  | nil =>
    cases h
    exact .refl
  | cons m moves ih =>
    rw [exec] at h
    split at h
    next hm =>
      obtain ⟨t, ht, hrest⟩ := Option.bind_eq_some_iff.mp h
      exact .head ⟨m, hm, ht⟩ (ih hrest)
    next => cases h

/-- The first server fails before the constructor has stored it, and the periodic thread starts
the next one. -/
def raceMoves : List Move :=
  List.replicate 4 .owner ++ List.replicate 2 (.server 0 false) ++ [.server 0 true] ++
    List.replicate 7 .periodic ++ [.owner] ++ List.replicate 3 (.server 1 true) ++
    List.replicate 2 .owner ++ List.replicate 2 .periodic ++ List.replicate 3 .owner

def raced : Life := (exec (fun _ _ => True) raceMoves start).get (by decide)

theorem raced_run : Run (fun _ _ => True) start raced := exec_run (Option.some_get _).symm

theorem one_server_raced : (∀ j k, raced.Serving j → raced.Serving k → j = k) ∧
    (raced.serverRunning = false → ∀ k, ¬ raced.Serving k) :=
  one_server raced_run

/-- Otherwise a server may outlive its node. -/
theorem server_outlives : ∃ s, Run (fun _ _ => True) start s ∧ s.owner = .destroyed ∧ s.Serving 1 :=
  ⟨raced, raced_run, by decide, by decide, by decide⟩

end Life

end ChordChat
