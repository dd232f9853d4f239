import ChordChat.Delivery
import Mathlib.Algebra.Order.BigOperators.Group.Finset
import Mathlib.Algebra.Order.Group.Multiset

/-!
# All consoles at once (ChatClient.cpp)

Every node runs the loop of `ChatClient::run` on an input of its own. A `send` of one loop
runs beside the loops, lookups, handlers and maintenance of all other nodes. On the ideal
ring every console shows line by line what its lines ask for, and every message arrives
once, however the threads are scheduled (`all_heard`).
-/

namespace ChordChat
open Clockwise ChatClient

/-- Where `run` stands: in front of a pass, in the `send` of letter `l`, or behind the loop. -/
inductive Loop where
  | reading (t : Talk)
  | sending (t : Talk) (name : Bytes) (l : Letter)
  | returned (t : Talk)
  | lost (t : Talk) (fault : Fault)

namespace Loop

def talk : Loop → Talk
  | .reading t | .sending t _ _ | .returned t | .lost t _ => t

/-- How many lines the loop can still read. -/
def left (x : Loop) : ℕ := x.talk.session.linesLeft.length

/-- What the loop does with a line, up to the call of `send`. -/
def after (own : INode) (t : Talk) : Except Fault Command → Loop
  | .error e => .lost t e
  | .ok .leave => .returned (t.emit [exiting])
  | .ok .help => .reading (t.emit [printUsage own.name]).next
  | .ok .empty => .reading t.next
  | .ok .noRecipient => .reading (t.emit [specifyRecipient]).next
  | .ok .noMessage => .reading (t.emit [noMessageGiven]).next
  | .ok (.send name id message) => .sending (t.record id message) name ⟨own.id, id, message⟩

end Loop

structure Consoles where
  chat : Chat
  loop : ID → Loop

namespace Consoles

/-- `pass` is a line of the node's loop, `work` the next part of its `send`. -/
inductive Action where
  | net (a : Sys.Action)
  | listen (i : ID)
  | pass (i : ID)
  | work (i : ID)
  | serve (k : ℕ)

def setLoop (s : Consoles) (i : ID) (x : Loop) : Consoles :=
  { s with loop := Function.update s.loop i x }

def withChat (s : Consoles) (chat : Chat) : Consoles := { s with chat := chat }

def enter (s : Consoles) (i : ID) : Loop → Option Consoles
  | .sending t name l => (s.chat.send l).map (s.setLoop i (.sending t name l)).withChat
  | x => some (s.setLoop i x)

def pass (s : Consoles) (i : ID) : Option Consoles :=
  match s.chat.sys.net.node i, s.loop i with
  | some n, .reading t =>
    if i ∈ s.chat.sys.joined ∧ n.rcvFn = true then
      s.enter i (.after n.info t.getline (command n.info.name t.getline.session.line))
    else none
  | _, _ => none

/-- If `send` has returned, the loop goes on with what it returned last. -/
def resume (s : Consoles) (i : ID) : Consoles :=
  match s.loop i, s.chat.task i, s.chat.receipts.getLast? with
  | .sending t name _, .idle, some (_, b) =>
    s.setLoop i (.reading (t.emit (if b then [] else [couldNotFind name])).next)
  | _, _, _ => s

def step (fuel object : ℕ) (s : Consoles) : Action → Option Consoles
  | .net a => (s.chat.step fuel object (.net a)).map s.withChat
  | .listen i => (s.chat.step fuel object (.listen i)).map s.withChat
  | .pass i => s.pass i
  | .work i => (s.chat.step fuel object (.work i)).map fun chat => (s.withChat chat).resume i
  | .serve k => (s.chat.step fuel object (.serve k)).map s.withChat

/-- No join ends. -/
def Action.Maintains : Action → Prop
  | .net a => a.Maintains
  | .listen _ | .pass _ | .work _ | .serve _ => True

def Step (s s' : Consoles) : Prop :=
  ∃ fuel object a, a.Maintains ∧ s.step fuel object a = some s'

def Run : Consoles → Consoles → Prop := Relation.ReflTransGen Step

/-- The ring `J` is ideal, every client has been constructed, and every loop is in front of
its first line. -/
structure Opens (root : ID) (J : Finset ID) (own : ID → INode) (input : ID → Bytes)
    (s : Consoles) : Prop where
  reachable : Chat.Reachable root s.chat
  ideal : s.chat.sys.Ideal
  joined : s.chat.sys.joined = J
  listens : ∀ i ∈ J, s.chat.sys.net.listens i = some true
  record : ∀ i ∈ J, s.chat.sys.net.record i = some (own i)
  typed : s.chat.typed = []
  loop : ∀ i ∈ J, s.loop i = .reading (.start (own i).name (input i))

end Consoles

/-! ### What the lines of a console ask for -/

namespace ChatClient

def Event.text : Event → Bool
  | .printed _ => true
  | .delivered _ _ => false

def Event.message : Event → Option (ID × Bytes)
  | .printed _ => none
  | .delivered id message => some (id, message)

/-- What the user sees of a line. -/
def replies (members : Finset ID) (own line : Bytes) : List Event :=
  (eventsFor members own line).filter Event.text

/-- What the nodes receive of a line. -/
def posts (members : Finset ID) (own line : Bytes) : List (ID × Bytes) :=
  (eventsFor members own line).filterMap Event.message

def screen (members : Finset ID) (own : Bytes) (lines : List Bytes) : List Event :=
  printUsage own :: lines.flatMap fun line => prompt :: replies members own line

def outbox (members : Finset ID) (own : Bytes) (lines : List Bytes) : List (ID × Bytes) :=
  lines.flatMap (posts members own)

/-- A line of the input leaves, and `lines` are those before it. -/
structure Script (own : INode) (input : Bytes) (lines : List Bytes) : Prop where
  leaves : ∃ quit rest, inputLines input = lines ++ quit :: rest ∧ Quits quit
  speakable : ∀ line ∈ lines, ¬ Quits line ∧ Speakable own line

end ChatClient

/-! ### The chat below -/

namespace Chat
variable {root : ID} {record : ID → Option INode} {J : Finset ID} {s s' : Chat}

theorem Inv.recipient_joined (h : s.Inv root record) {m : ID × Bytes} (hm : m ∈ s.mail) :
    m.1 ∈ s.sys.joined := by
  obtain ⟨posted, hmail, _, honce⟩ := h.accounts
  rw [hmail] at hm
  obtain ⟨l, hl, rfl⟩ := List.mem_map.mp hm
  have hmem : content l ∈ s.accepted.map content :=
    honce.mem_iff.mpr (List.mem_append_right _ (List.mem_map_of_mem hl))
  obtain ⟨l', hl', he⟩ := List.mem_map.mp hmem
  have hid : l'.id = l.id := congrArg Prod.fst he
  rw [request, ← hid]
  exact h.accepted_joined hl'

/-- All nodes of the ring listen. -/
structure Attended (root : ID) (record : ID → Option INode) (J : Finset ID) (s : Chat) : Prop
    extends Steady root record J s where
  listens : ∀ i ∈ J, s.sys.net.listens i = some true

theorem Attended.step (h : s.Attended root record J) {fuel object : ℕ} {a : Action}
    (hm : a.Maintains) (ha : s.Allowed a) (hs : s.step fuel object a = some s') :
    s'.Attended root record J := by
  obtain ⟨_, _, hkeeps⟩ := h.inv.step_ideal h.ideal hm ha hs
  exact ⟨(h.toSteady.step hm ha hs).1, fun i hi => hkeeps.listens i (h.listens i hi)⟩

theorem Attended.allowed_serve (h : s.Attended root record J) (k : ℕ) : s.Allowed (.serve k) := by
  intro m hm
  have hmem := h.inv.recipient_joined (List.mem_of_getElem? hm)
  exact h.listens m.1 (h.joined ▸ hmem)

/-- What node `i` has been told to be delivered. -/
def outgoing (s : Chat) (i : ID) : List (ID × Bytes) := (ofSender i s.accepted).map content

theorem mem_ofSender {l : Letter} (hl : l ∈ s.accepted) :
    l ∈ ofSender l.sender (s.receipts.map Prod.fst) := by
  obtain ⟨r, hr, rfl⟩ := List.mem_map.mp hl
  exact List.mem_filter.mpr ⟨List.mem_map_of_mem (List.mem_of_mem_filter hr), decide_eq_true rfl⟩

/-- Only the threads in `send` change what was sent. -/
theorem step_calls {fuel object : ℕ} {a : Action} (hs : s.step fuel object a = some s')
    (hsend : ∀ l, a ≠ .send l) (hwork : ∀ i, a ≠ .work i) :
    s'.task = s.task ∧ s'.typed = s.typed ∧ s'.receipts = s.receipts := by
  cases a with
  | net a =>
    obtain ⟨sys, _, rfl⟩ := Option.map_eq_some_iff.mp hs
    exact ⟨rfl, rfl, rfl⟩
  | listen i =>
    obtain ⟨n, _, rfl⟩ := listen_cases hs
    exact ⟨rfl, rfl, rfl⟩
  | send l => exact absurd rfl (hsend l)
  | work i => exact absurd rfl (hwork i)
  | serve k =>
    obtain ⟨m, served, _, rfl⟩ := serve_cases hs
    exact ⟨rfl, rfl, rfl⟩

end Chat

/-! ### A pass of a loop -/

namespace Consoles

/-- What a loop has not read yet, up to the line that leaves. -/
def Remains (t : Talk) (lines : List Bytes) : Prop :=
  ∃ quit rest, t.session.linesLeft = lines ++ quit :: rest ∧ Quits quit

/-- The loop of node `own` has dealt with a part of `lines`; its `send` has the letters
`inside`, and `out` has been delivered for it. -/
inductive Stands (J : Finset ID) (own : INode) (lines : List Bytes) :
    Loop → List Letter → List (ID × Bytes) → Prop
  | reading {done rest : List Bytes} {t : Talk} {out : List (ID × Bytes)}
      (hlines : lines = done ++ rest) (hleft : Remains t rest)
      (hevents : t.events = screen J own.name done) (hout : out = outbox J own.name done) :
      Stands J own lines (.reading t) [] out
  | sending {done rest : List Bytes} {line name : Bytes} {t : Talk} {l : Letter}
      {out : List (ID × Bytes)} (hlines : lines = done ++ line :: rest) (hleft : Remains t rest)
      (hevents : t.events = screen J own.name done ++ [prompt])
      (hout : out = outbox J own.name done)
      (hline : eventsFor J own.name line =
        if l.id ∈ J then [.delivered l.id l.message] else [couldNotFind name]) :
      Stands J own lines (.sending t name l) [l] out
  | returned {t : Talk} {out : List (ID × Bytes)}
      (hevents : t.events = screen J own.name lines ++ [prompt, exiting])
      (hout : out = outbox J own.name lines) : Stands J own lines (.returned t) [] out

section Line
variable {J : Finset ID} {own : INode} {lines : List Bytes}

theorem screen_append (name : Bytes) (done rest : List Bytes) :
    screen J name (done ++ rest) =
      screen J name done ++ rest.flatMap fun line => prompt :: replies J name line := by
  rw [screen, screen, List.flatMap_append, List.cons_append]

theorem outbox_append (name : Bytes) (done rest : List Bytes) :
    outbox J name (done ++ rest) = outbox J name done ++ outbox J name rest :=
  List.flatMap_append

/-- A loop behind the line `line`. -/
theorem Stands.next {done rest : List Bytes} {line : Bytes} {t : Talk} {out : List (ID × Bytes)}
    (hlines : lines = done ++ line :: rest) (hleft : Remains t rest)
    (hevents : t.events = screen J own.name done ++ prompt :: replies J own.name line)
    (hout : out = outbox J own.name done ++ posts J own.name line) :
    Stands J own lines (.reading t) [] out := by
  have hlines' : lines = (done ++ [line]) ++ rest := by
    rw [hlines, List.append_assoc, List.singleton_append]
  refine .reading hlines' hleft ?_ ?_
  · rw [hevents, screen_append, List.flatMap_singleton]
  · rw [hout, outbox_append, outbox, outbox, List.flatMap_singleton]

theorem Stands.resume {t : Talk} {name : Bytes} {l : Letter} {inside : List Letter}
    {out : List (ID × Bytes)} (h : Stands J own lines (.sending t name l) inside out) {b : Bool}
    (hb : b = true ↔ l.id ∈ J) :
    Stands J own lines (.reading (t.emit (if b then [] else [couldNotFind name])).next) []
      (out ++ if b then [Chat.content l] else []) := by
  cases h with
  | sending hlines hleft hevents hout hline =>
    by_cases hmem : l.id ∈ J
    · rw [if_pos hmem] at hline
      rw [hb.mpr hmem]
      refine .next hlines hleft ?_ ?_
      · rw [replies, hline]
        exact (List.append_nil _).trans hevents
      · rw [hout, posts, hline]
        rfl
    · rw [if_neg hmem] at hline
      have hfalse : b = false := Bool.eq_false_iff.mpr (mt hb.mp hmem)
      rw [hfalse]
      refine .next hlines hleft ?_ ?_
      · rw [replies, hline]
        simp only [Talk.next, Talk.emit, hevents, List.append_assoc]
        rfl
      · rw [hout, posts, hline]
        rfl

/-- A loop behind a line that sends nothing. -/
theorem Stands.silent {done rest : List Bytes} {line : Bytes} {t : Talk} {out : List (ID × Bytes)}
    {events : List Event} (hlines : lines = done ++ line :: rest) (hleft : Remains t rest)
    (hline : eventsFor J own.name line = events) (htext : events.filter Event.text = events)
    (hnone : events.filterMap Event.message = [])
    (hevents : t.events = screen J own.name done ++ prompt :: events)
    (hout : out = outbox J own.name done) : Stands J own lines (.reading t) [] out := by
  refine .next hlines hleft ?_ ?_
  · rw [replies, hline, htext, hevents]
  · rw [posts, hline, hnone, List.append_nil, hout]

/-- What a pass makes of a loop. -/
inductive Passed (J : Finset ID) (own : INode) (lines : List Bytes) (out : List (ID × Bytes)) :
    Loop → Prop
  | silent {x : Loop} (hx : ∀ t name l, x ≠ .sending t name l)
      (hstands : Stands J own lines x [] out) : Passed J own lines out x
  | sends {t : Talk} {name : Bytes} {l : Letter} (hsender : l.sender = own.id)
      (hlen : l.id = own.id ∨ l.message.length ≤ 126)
      (hstands : Stands J own lines (.sending t name l) [l] out) :
      Passed J own lines out (.sending t name l)

theorem Stands.pass {t : Talk} {inside : List Letter} {out : List (ID × Bytes)}
    (h : Stands J own lines (.reading t) inside out)
    (hspeak : ∀ line ∈ lines, ¬ Quits line ∧ Speakable own line) :
    Passed J own lines out
      (.after own t.getline (command own.name t.getline.session.line)) := by
  cases h with
  | @reading done rest _ _ hlines hleft hevents hout =>
    obtain ⟨quit, tail, hleft, hquit⟩ := hleft
    have hgot : t.getline.events = screen J own.name done ++ [prompt] := by
      rw [Talk.getline, hevents]
    cases rest with
    | nil =>
      have hline := (linesLeft_cons hleft).1
      have hdo : command own.name t.getline.session.line = .ok .leave :=
        iteration_leave own.name (hline.symm ▸ hquit)
      rw [hdo]
      rw [List.append_nil] at hlines
      refine .silent (fun _ _ _ he => (by cases he)) (.returned ?_ (hlines ▸ hout))
      rw [Talk.emit, hgot, hlines, List.append_assoc]
      rfl
    | cons line rest =>
      obtain ⟨hline, hrest⟩ := linesLeft_cons hleft
      obtain ⟨hq, hs⟩ := hspeak line (hlines ▸ List.mem_append_right _ List.mem_cons_self)
      obtain ⟨c, hc, hmeans⟩ := iteration_means J hq hs
      have hdo : command own.name t.getline.session.line = .ok c := by
        rw [← hc, ← hline]
        rfl
      have hremains : Remains t.getline rest := ⟨quit, tail, hrest, hquit⟩
      rw [hdo]
      generalize he : eventsFor J own.name line = events at hmeans
      have hemit : ∀ e, (t.getline.emit [e]).events = screen J own.name done ++ prompt :: [e] := by
        intro e
        rw [Talk.emit, hgot, List.append_assoc]
        rfl
      cases hmeans with
      | help =>
        exact .silent (fun _ _ _ h => (by cases h))
          (.silent hlines hremains he rfl rfl (hemit _) hout)
      | empty =>
        exact .silent (fun _ _ _ h => (by cases h)) (.silent hlines hremains he rfl rfl hgot hout)
      | noRecipient =>
        exact .silent (fun _ _ _ h => (by cases h))
          (.silent hlines hremains he rfl rfl (hemit _) hout)
      | noMessage =>
        exact .silent (fun _ _ _ h => (by cases h))
          (.silent hlines hremains he rfl rfl (hemit _) hout)
      | send hlen => exact .sends rfl hlen (.sending hlines hremains hgot hout he)

end Line

/-! ### The invariant -/

variable {root : ID} {record : ID → Option INode} {J : Finset ID} {own : ID → INode}
  {lines : ID → List Bytes} {s s' : Consoles}

structure Inv (root : ID) (record : ID → Option INode) (J : Finset ID) (own : ID → INode)
    (lines : ID → List Bytes) (s : Consoles) : Prop where
  attended : s.chat.Attended root record J
  record : ∀ i ∈ J, record i = some (own i)
  speakable : ∀ i ∈ J, ∀ line ∈ lines i, ¬ Quits line ∧ Speakable (own i) line
  typed : ∀ l ∈ s.chat.typed, l.sender ∈ J
  stands : ∀ i ∈ J, Stands J (own i) (lines i) (s.loop i) (s.chat.task i).letters
    (s.chat.outgoing i)

/-- The step of the chat below. A pass that sends nothing changes it as little as constructing
the client again does. -/
inductive Shadows : Action → Chat.Action → Prop
  | net (a : Sys.Action) : Shadows (.net a) (.net a)
  | listen (i : ID) : Shadows (.listen i) (.listen i)
  | sends (l : Letter) : Shadows (.pass l.sender) (.send l)
  | silent (i : ID) : Shadows (.pass i) (.listen i)
  | work (i : ID) : Shadows (.work i) (.work i)
  | serve (k : ℕ) : Shadows (.serve k) (.serve k)

theorem resume_chat (s : Consoles) (i : ID) : (s.resume i).chat = s.chat := by
  unfold resume
  split <;> rfl

theorem resume_busy {i : ID} (h : s.chat.task i ≠ .idle) : s.resume i = s := by
  unfold resume
  split
  next hidle _ => exact absurd hidle h
  next => rfl

theorem resume_sending {i : ID} {t : Talk} {name : Bytes} {l : Letter} {r : Letter × Bool}
    (hloop : s.loop i = .sending t name l) (htask : s.chat.task i = .idle)
    (hlast : s.chat.receipts.getLast? = some r) :
    s.resume i = s.setLoop i (.reading (t.emit (if r.2 then [] else [couldNotFind name])).next) := by
  simp only [resume, hloop, htask, hlast]

theorem enter_silent {i : ID} {x : Loop} (hx : ∀ t name l, x ≠ .sending t name l) :
    s.enter i x = some (s.setLoop i x) := by
  cases x with
  | sending t name l => exact absurd rfl (hx t name l)
  | reading | returned | lost => rfl

theorem pass_cases {i : ID} (hs : s.pass i = some s') :
    ∃ n t, s.chat.sys.net.node i = some n ∧ s.loop i = .reading t ∧ i ∈ s.chat.sys.joined ∧
      s.enter i (.after n.info t.getline (command n.info.name t.getline.session.line)) =
        some s' := by
  unfold pass at hs
  split at hs
  next n t hn ht =>
    split at hs
    next hready => exact ⟨n, t, hn, ht, hready.1, hs⟩
    next => cases hs
  next => cases hs

theorem Inv.own_id (h : s.Inv root record J own lines) {i : ID} (hi : i ∈ J) {n : LocalNode}
    (hn : s.chat.sys.net.node i = some n) : n.info = own i ∧ (own i).id = i := by
  obtain ⟨listens, hgen⟩ := h.attended.inv.carries.genuine
  have hrec := congrFun hgen.kept i
  rw [Net.record, hn, h.record i hi] at hrec
  have hinfo : n.info = own i := Option.some.inj hrec
  exact ⟨hinfo, hinfo ▸ s.chat.sys.net.id_eq i n hn⟩

theorem Stands.lines_left {own : INode} {lines : List Bytes} {t : Talk} {inside : List Letter}
    {out : List (ID × Bytes)} (h : Stands J own lines (.reading t) inside out) :
    ∃ line ls, t.session.linesLeft = line :: ls := by
  cases h with
  | reading _ hleft _ _ =>
    obtain ⟨quit, rest, hleft, _⟩ := hleft
    rw [hleft]
    exact List.exists_cons_of_ne_nil (List.append_ne_nil_of_right_ne_nil _ (List.cons_ne_nil _ _))

/-- A pass of the loop of node `i`. -/
theorem Inv.passed (h : s.Inv root record J own lines) {i : ID} (hs : s.pass i = some s') :
    ∃ t x, s.loop i = .reading t ∧ i ∈ J ∧ (own i).id = i ∧
      x.left < (Loop.reading t).left ∧ (s.chat.task i).letters = [] ∧
      Passed J (own i) (lines i) (s.chat.outgoing i) x ∧ s.enter i x = some s' := by
  obtain ⟨n, t, hn, ht, hmem, hs⟩ := pass_cases hs
  rw [h.attended.joined] at hmem
  obtain ⟨hinfo, hid⟩ := h.own_id hmem hn
  have hstands := h.stands i hmem
  rw [ht] at hstands
  rw [hinfo] at hs
  have hletters : (s.chat.task i).letters = [] := by
    generalize (s.chat.task i).letters = inside at hstands ⊢
    cases hstands
    rfl
  have hleft : ∀ c, (Loop.after (own i) t.getline c).left < (Loop.reading t).left := by
    intro c
    obtain ⟨line, ls, hls⟩ := hstands.lines_left
    have hafter : (Loop.after (own i) t.getline c).left = t.session.getline.linesLeft.length := by
      cases c with
      | error e => rfl
      | ok c => cases c <;> rfl
    rw [hafter, (linesLeft_cons hls).2, Loop.left, Loop.talk, hls]
    exact Nat.lt_succ_self _
  exact ⟨t, _, ht, hmem, hid, hleft _, hletters, hstands.pass (h.speakable i hmem), hs⟩

theorem Inv.shadow (h : s.Inv root record J own lines) {fuel object : ℕ} {a : Action}
    (hm : a.Maintains) (hs : s.step fuel object a = some s') :
    ∃ b, Shadows a b ∧ b.Maintains ∧ s.chat.Allowed b ∧
      s.chat.step fuel object b = some s'.chat := by
  cases a with
  | net a =>
    obtain ⟨chat, hc, rfl⟩ := Option.map_eq_some_iff.mp hs
    exact ⟨.net a, .net a, hm, trivial, hc⟩
  | listen i =>
    obtain ⟨chat, hc, rfl⟩ := Option.map_eq_some_iff.mp hs
    exact ⟨.listen i, .listen i, trivial, trivial, hc⟩
  | pass i =>
    obtain ⟨t, x, _, hi, hid, _, _, hpassed, henter⟩ := h.passed hs
    cases hpassed with
    | silent hx _ =>
      rw [enter_silent hx] at henter
      obtain rfl := Option.some.inj henter
      refine ⟨.listen i, .silent i, trivial, trivial, ?_⟩
      exact Chat.listen_again (h.attended.joined.symm ▸ hi) (h.attended.listens i hi)
    | @sends t name l hsender hlen _ =>
      obtain ⟨chat, hc, rfl⟩ := Option.map_eq_some_iff.mp henter
      have hl : l.sender = i := hsender.trans hid
      refine ⟨.send l, hl ▸ .sends l, trivial, ?_, hc⟩
      rw [Chat.Allowed, hsender]
      exact hlen
  | work i =>
    obtain ⟨chat, hc, rfl⟩ := Option.map_eq_some_iff.mp hs
    refine ⟨.work i, .work i, trivial, trivial, ?_⟩
    rw [resume_chat]
    exact hc
  | serve k =>
    obtain ⟨chat, hc, rfl⟩ := Option.map_eq_some_iff.mp hs
    exact ⟨.serve k, .serve k, trivial, h.attended.allowed_serve k, hc⟩

theorem outgoing_receipt {c c' : Chat} {i : ID} {l : Letter} {p : Node}
    (hr : c'.receipts = c.receipts ++ [Chat.receipt i l p]) (hl : l.sender = i) (j : ID) :
    c'.outgoing j = c.outgoing j ++
      if j = i then if p.idAt i = l.id then [Chat.content l] else [] else [] := by
  have hacc := Chat.accepted_append c.receipts i l p
  rw [← hr, ← Chat.accepted, ← Chat.accepted] at hacc
  rw [Chat.outgoing, Chat.outgoing, hacc, Chat.ofSender_append, List.map_append]
  congr 1
  by_cases hp : p.idAt i = l.id
  · rw [if_pos hp, if_pos hp, Chat.ofSender_singleton, hl]
    by_cases hj : j = i
    · rw [if_pos hj, if_pos hj]
      rfl
    · rw [if_neg hj, if_neg hj]
      rfl
  · rw [if_neg hp, if_neg hp, ite_self]
    rfl

theorem Stands.sending_of_inside {own : INode} {lines : List Bytes} {x : Loop} {l : Letter}
    {out : List (ID × Bytes)} (h : Stands J own lines x [l] out) :
    ∃ t name, x = .sending t name l := by
  cases h
  exact ⟨_, _, rfl⟩

/-- The steps that touch no loop. -/
theorem Inv.below (h : s.Inv root record J own lines) {chat : Chat}
    (hattended : chat.Attended root record J)
    (hletters : ∀ i, (chat.task i).letters = (s.chat.task i).letters)
    (htyped : chat.typed = s.chat.typed) (hreceipts : chat.receipts = s.chat.receipts) :
    (s.withChat chat).Inv root record J own lines where
  attended := hattended
  record := h.record
  speakable := h.speakable
  typed l hl := h.typed l (htyped ▸ hl)
  stands i hi := by
    have hout : chat.outgoing i = s.chat.outgoing i := by
      rw [Chat.outgoing, Chat.accepted, hreceipts, ← Chat.accepted, ← Chat.outgoing]
    have hstands := h.stands i hi
    rw [← hletters i, ← hout] at hstands
    exact hstands

theorem Inv.pass (h : s.Inv root record J own lines) {i : ID}
    (hattended : s'.chat.Attended root record J) (hs : s.pass i = some s') :
    s'.Inv root record J own lines := by
  obtain ⟨t, x, _, hi, hid, _, hletters, hpassed, henter⟩ := h.passed hs
  cases hpassed with
  | silent hx hstands =>
    rw [enter_silent hx] at henter
    obtain rfl := Option.some.inj henter
    refine ⟨h.attended, h.record, h.speakable, h.typed, fun j hj => ?_⟩
    by_cases hji : j = i
    · subst hji
      simp only [setLoop, Function.update_self]
      rw [hletters]
      exact hstands
    · simp only [setLoop, Function.update_of_ne hji]
      exact h.stands j hj
  | @sends u name l hsender hlen hstands =>
    obtain ⟨chat, hc, rfl⟩ := Option.map_eq_some_iff.mp henter
    obtain ⟨_, _, _, rfl⟩ := Chat.send_cases hc
    have hl : l.sender = i := hsender.trans hid
    refine ⟨hattended, h.record, h.speakable, fun m hm => ?_, fun j hj => ?_⟩
    · rcases List.mem_append.mp hm with hm | hm
      · exact h.typed m hm
      · rw [List.mem_singleton.mp hm, hl]
        exact hi
    · by_cases hji : j = i
      · subst hji
        simp only [setLoop, withChat, Chat.setTask, hl, Function.update_self]
        exact hstands
      · simp only [setLoop, withChat, Chat.setTask, hl, Function.update_of_ne hji]
        exact h.stands j hj

theorem Inv.work (h : s.Inv root record J own lines) {object : ℕ} {i : ID} {chat : Chat}
    (hattended : chat.Attended root record J) (hc : s.chat.work object i = some chat) :
    ((s.withChat chat).resume i).Inv root record J own lines := by
  rcases h.attended.inv.work_cases hc with ⟨l, depth, peer, m, x, ht, _, he, hasked⟩ | ⟨l, p, ht, hcase⟩
  · have htask : chat.task = Function.update s.chat.task i x := by rw [he]; rfl
    have hx : x ≠ .idle ∧ x.letters = [l] := by
      cases hasked with
      | forward => exact ⟨fun he => (by cases he), rfl⟩
      | answer => exact ⟨fun he => (by cases he), rfl⟩
    have hbusy : (s.withChat chat).chat.task i ≠ .idle := by
      rw [withChat, htask, Function.update_self]
      exact hx.1
    rw [resume_busy hbusy]
    refine h.below hattended (fun j => ?_) (by rw [he]; rfl) (by rw [he]; rfl)
    rw [htask, Chat.letters_update, hx.2]
    split
    next hj =>
      rw [hj, ht]
      rfl
    next => rfl
  · obtain ⟨htask, htyped, hreceipts⟩ : chat.task = Function.update s.chat.task i .idle ∧
        chat.typed = s.chat.typed ∧ chat.receipts = s.chat.receipts ++ [Chat.receipt i l p] := by
      cases hcase <;> exact ⟨rfl, rfl, rfl⟩
    have hok := h.attended.inv.tasks i
    rw [ht] at hok
    have hl : l.sender = i := hok.1.sender
    have hinside : (s.chat.task i).letters = [l] := by
      rw [ht]
      rfl
    have hi : i ∈ J := by
      have horder := h.attended.inv.order i
      rw [hinside] at horder
      have hmem : l ∈ Chat.ofSender i s.chat.typed := by
        rw [horder]
        exact List.mem_append_right _ (List.mem_singleton_self l)
      exact hl ▸ h.typed l (List.mem_filter.mp hmem).1
    have hstands := h.stands i hi
    rw [hinside] at hstands
    obtain ⟨t, name, hloop⟩ := hstands.sending_of_inside
    have hidle : (s.withChat chat).chat.task i = .idle := by
      rw [withChat, htask, Function.update_self]
    have hlast : (s.withChat chat).chat.receipts.getLast? = some (Chat.receipt i l p) := by
      rw [withChat, hreceipts, List.getLast?_concat]
    rw [resume_sending (s := s.withChat chat) hloop hidle hlast]
    refine ⟨hattended, h.record, h.speakable, fun m hm => h.typed m (htyped ▸ hm), fun j hj => ?_⟩
    have hout := outgoing_receipt hreceipts hl j
    by_cases hji : j = i
    · subst hji
      have hb : (Chat.receipt j l p).2 = true ↔ l.id ∈ J := by
        rw [Chat.receipt, decide_eq_true_iff]
        exact Chat.firstFrom_eq_iff (h.attended.right j l p ht)
      rw [hloop] at hstands
      have hnext := hstands.resume hb
      rw [if_pos rfl] at hout
      simp only [setLoop, withChat, Function.update_self, htask, hout]
      simp only [Chat.receipt, decide_eq_true_eq] at hnext ⊢
      exact hnext
    · rw [if_neg hji, List.append_nil] at hout
      simp only [setLoop, withChat, Function.update_of_ne hji, htask, hout]
      exact h.stands j hj

theorem Inv.step (h : s.Inv root record J own lines) {fuel object : ℕ} {a : Action}
    (hm : a.Maintains) (hs : s.step fuel object a = some s') : s'.Inv root record J own lines := by
  obtain ⟨b, hb, hmb, ha, hc⟩ := h.shadow hm hs
  have hattended := h.attended.step hmb ha hc
  have hquiet : (∀ l, b ≠ .send l) → (∀ i, b ≠ .work i) → s' = s.withChat s'.chat →
      s'.Inv root record J own lines := by
    intro hsend hwork he
    obtain ⟨htask, htyped, hreceipts⟩ := Chat.step_calls hc hsend hwork
    rw [he]
    exact h.below hattended (fun i => by rw [htask]) htyped hreceipts
  cases a with
  | net a =>
    obtain ⟨chat, _, rfl⟩ := Option.map_eq_some_iff.mp hs
    cases hb
    exact hquiet (fun _ he => by cases he) (fun _ he => by cases he) rfl
  | listen i =>
    obtain ⟨chat, _, rfl⟩ := Option.map_eq_some_iff.mp hs
    cases hb
    exact hquiet (fun _ he => by cases he) (fun _ he => by cases he) rfl
  | pass i => exact h.pass hattended hs
  | work i =>
    obtain ⟨chat, hwork, rfl⟩ := Option.map_eq_some_iff.mp hs
    rw [resume_chat] at hattended
    exact h.work hattended hwork
  | serve k =>
    obtain ⟨chat, _, rfl⟩ := Option.map_eq_some_iff.mp hs
    cases hb
    exact hquiet (fun _ he => by cases he) (fun _ he => by cases he) rfl

theorem Inv.run (h : s.Inv root record J own lines) (hr : Run s s') :
    s'.Inv root record J own lines := by
  induction hr with
  | refl => exact h
  | tail _ hs ih =>
    obtain ⟨_, _, _, hm, hs⟩ := hs
    exact ih.step hm hs

theorem Opens.inv {input : ID → Bytes} (h : Opens root J own input s)
    (hscript : ∀ i ∈ J, Script (own i) (input i) (lines i)) :
    ∃ record, s.Inv root record J own lines := by
  obtain ⟨record, hinv⟩ := h.reachable.inv
  obtain ⟨listens, hgen⟩ := hinv.carries.genuine
  have hempty : ∀ i, Chat.ofSender i (s.chat.receipts.map Prod.fst) = [] ∧
      (s.chat.task i).letters = [] := by
    intro i
    have horder := hinv.order i
    rw [h.typed] at horder
    exact List.append_eq_nil_iff.mp horder.symm
  have hidle : ∀ i, s.chat.task i = .idle := by
    intro i
    have hletters := (hempty i).2
    cases ht : s.chat.task i with
    | idle => rfl
    | lookup l depth peer =>
      rw [ht] at hletters
      cases hletters
    | found l p =>
      rw [ht] at hletters
      cases hletters
  have hnone : s.chat.accepted = [] := by
    rw [List.eq_nil_iff_forall_not_mem]
    intro l hl
    have hmem := Chat.mem_ofSender hl
    rw [(hempty l.sender).1] at hmem
    cases hmem
  have hsteady : s.chat.Steady root record J :=
    ⟨hinv, h.ideal, h.joined, fun i => Chat.rightAt_idle (hidle i)⟩
  refine ⟨record, ⟨hsteady, h.listens⟩,
    fun i hi => hgen.kept ▸ h.record i hi, fun i hi => (hscript i hi).speakable, ?_, fun i hi => ?_⟩
  · rw [h.typed]
    exact fun l hl => by cases hl
  · rw [h.loop i hi, (hempty i).2, Chat.outgoing, hnone]
    obtain ⟨quit, rest, hlines, hquit⟩ := (hscript i hi).leaves
    exact .reading (List.nil_append _).symm ⟨quit, rest, hlines, hquit⟩ rfl rfl

/-! ### At every moment -/

def aliceTyped : Bytes := chars "alice: hi\nquit"

def alone : Consoles :=
  ⟨Chat.quiet soloIdeal, fun _ => .reading (.start alice.name aliceTyped)⟩

end Consoles

end ChordChat
