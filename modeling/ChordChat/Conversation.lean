import ChordChat.Availability
import ChordChat.Session

/-!
# A chat session over the network

The loop of `ChatClient::run` with `send` on the network as it is at each pass, and
with what the user sees. On an ideal ring every line before the one that leaves is
answered as its text says: each message arrives once, in the order of the lines, and the
user is told about every recipient that is not there (`conversation_complete`).
-/

namespace ChordChat
namespace ChatClient

inductive Event where
  | printed (text : Bytes)
  | delivered (id : ID) (message : Bytes)

/-- A text and `std::endl`. -/
def endl (text : Bytes) : Bytes := text ++ [newline]

def prompt : Event := .printed (chars "> ")

def printUsage (own : Bytes) : Event :=
  .printed (endl (chars "Welcome to Chord Chat!") ++
    endl (chars "Usage\t- to send a message, type the recipients name followed by a double") ++
    endl (chars "\t  colon, then your chat message (e.g. \"bob: hi bob!\")") ++
    endl (chars "\t- for help, type \"help\"") ++
    endl (chars "\t- to quit, type \"quit\" or \"exit\"") ++
    endl (chars "Your name is '" ++ own ++ chars "'."))

def exiting : Event := .printed (endl (chars "Exiting... Thanks for playing!"))

def specifyRecipient : Event := .printed (endl (chars "Error - please specify recipient."))

def noMessageGiven : Event := .printed (endl (chars "Error - no message given."))

def couldNotFind (name : Bytes) : Event :=
  .printed (endl (chars "Error - could not find user with name \"" ++ name ++ chars "\"."))

structure Talk where
  session : Session
  events : List Event

namespace Talk

inductive Outcome where
  | running (t : Talk)
  | returned (t : Talk)
  | lost (t : Talk) (fault : Option Fault)

def start (own input : Bytes) : Talk := ⟨.start input, [printUsage own]⟩

def emit (t : Talk) (events : List Event) : Talk := { t with events := t.events ++ events }

def next (t : Talk) : Talk := { t with session := t.session.next }

def record (t : Talk) (id : ID) (message : Bytes) : Talk :=
  { t with session := t.session.record id message }

def getline (t : Talk) : Talk := ⟨t.session.getline.trimLine, t.events ++ [prompt]⟩

end Talk

def deliveries (log : List (ID × Bytes)) : List Event := log.map fun m => .delivered m.1 m.2

section
variable (own : INode) (fuel object : ℕ)

def talkAct (net : Net) (t : Talk) : Except Fault Command → Talk.Outcome
  | .error e => .lost t e
  | .ok .leave => .returned (t.emit [exiting])
  | .ok .help => .running (t.emit [printUsage own.name]).next
  | .ok .empty => .running t.next
  | .ok .noRecipient => .running (t.emit [specifyRecipient]).next
  | .ok .noMessage => .running (t.emit [noMessageGiven]).next
  | .ok (.send name id message) =>
    match send fuel object net own.id id message with
    | none => .lost (t.record id message) none
    | some (.error e, _, log) => .lost ((t.record id message).emit (deliveries log)) e
    | some (.ok found, _, log) =>
      .running (((t.record id message).emit (deliveries log)).emit
        (if found then [] else [couldNotFind name])).next

def talkPass (net : Net) (t : Talk) : Talk.Outcome :=
  talkAct own fuel object net t.getline (command own.name t.getline.session.line)

/-- `run`, with the network at each pass. -/
def talk (nets : ℕ → Net) : ℕ → Talk → Talk.Outcome
  | 0, t => .running t
  | n + 1, t =>
    match talkPass own fuel object (nets t.session.passes) t with
    | .running t => talk nets n t
    | .returned t => .returned t
    | .lost t fault => .lost t fault

end

/-! ### The loop without the network -/

def Talk.Outcome.forget : Talk.Outcome → ChatClient.Outcome
  | .running t => .running t.session
  | .returned t => .returned t.session
  | .lost t fault => .lost t.session fault

section
variable (own : INode) (fuel object : ℕ)

/-- What `send` does in a pass, if the pass sends. -/
def answer (net : Net) : Except Fault Command → Option (Except Fault Bool)
  | .ok (.send _ id message) => (send fuel object net own.id id message).map Prod.fst
  | _ => none

theorem talkAct_forget (net : Net) (t : Talk) (c : Except Fault Command) :
    (talkAct own fuel object net t c).forget = act (answer own fuel object net c) t.session c := by
  cases c with
  | error e => rfl
  | ok c =>
    cases c with
    | leave => rfl
    | help => rfl
    | empty => rfl
    | noRecipient => rfl
    | noMessage => rfl
    | send name id message =>
      simp only [talkAct, answer, act]
      rcases send fuel object net own.id id message with _ | ⟨_ | _, _, _⟩ <;> rfl

def answerAt (net : Net) (t : Talk) : Option (Except Fault Bool) :=
  answer own fuel object net (command own.name t.getline.session.line)

theorem talkPass_forget {net : Net} {t : Talk} {answers : Answers}
    (h : answers t.session.passes = answerAt own fuel object net t) :
    (talkPass own fuel object net t).forget = pass own.name answers t.session := by
  rw [pass, h]
  exact talkAct_forget own fuel object net t.getline _

theorem act_passes {a : Option (Except Fault Bool)} {s u : Session} {c : Except Fault Command}
    (h : act a s c = .running u) : u.passes = s.passes + 1 := by
  unfold act at h
  split at h
  · cases h
  · cases h
  · split at h
    · cases h
    · cases h
    · cases h
      rfl
  all_goals
    cases h
    rfl

theorem talkPass_passes {net : Net} {t u : Talk}
    (h : talkPass own fuel object net t = .running u) :
    u.session.passes = t.session.passes + 1 := by
  have hforget : (talkPass own fuel object net t).forget =
      pass own.name (fun _ => answerAt own fuel object net t) t.session :=
    talkPass_forget own fuel object rfl
  rw [h] at hforget
  have hpasses := act_passes hforget.symm
  rw [hpasses, Session.trimLine, getline_passes]

theorem talk_succ (nets : ℕ → Net) (n : ℕ) (t : Talk) :
    talk own fuel object nets (n + 1) t =
      match talk own fuel object nets n t with
      | .running u => talkPass own fuel object (nets u.session.passes) u
      | .returned u => .returned u
      | .lost u fault => .lost u fault := by
  induction n generalizing t with
  | zero =>
    simp only [talk]
    cases talkPass own fuel object (nets t.session.passes) t <;> rfl
  | succ n ih =>
    rw [talk]
    cases ht : talkPass own fuel object (nets t.session.passes) t with
    | running u =>
      simp only [ih u]
      rw [talk, ht]
    | returned u =>
      rw [talk, ht]
    | lost u fault =>
      rw [talk, ht]

theorem run_succ (name : Bytes) (answers : Answers) (n : ℕ) (s : Session) :
    run name answers (n + 1) s =
      match run name answers n s with
      | .running u => pass name answers u
      | .returned u => .returned u
      | .lost u fault => .lost u fault := by
  induction n generalizing s with
  | zero =>
    simp only [run]
    cases pass name answers s <;> rfl
  | succ n ih =>
    rw [run]
    cases hs : pass name answers s with
    | running u =>
      simp only [ih u]
      rw [run, hs]
    | returned u =>
      rw [run, hs]
    | lost u fault =>
      rw [run, hs]

theorem talk_passes {nets : ℕ → Net} {n : ℕ} {t u : Talk}
    (h : talk own fuel object nets n t = .running u) :
    u.session.passes = t.session.passes + n := by
  induction n generalizing u with
  | zero =>
    cases h
    rfl
  | succ n ih =>
    rw [talk_succ] at h
    split at h
    next v hv =>
      rw [talkPass_passes own fuel object h, ih hv, Nat.add_assoc]
    next => cases h
    next => cases h

def talkAnswers (nets : ℕ → Net) (t : Talk) : Answers := fun k =>
  match talk own fuel object nets (k - t.session.passes) t with
  | .running u => answerAt own fuel object (nets k) u
  | _ => none

/-- Without its events the session is the loop with the answers of the network. -/
theorem talk_forget (nets : ℕ → Net) (t : Talk) (n : ℕ) :
    (talk own fuel object nets n t).forget =
      run own.name (talkAnswers own fuel object nets t) n t.session := by
  induction n with
  | zero => rfl
  | succ n ih =>
    rw [talk_succ, run_succ, ← ih]
    cases ht : talk own fuel object nets n t with
    | running u =>
      have hpasses := talk_passes own fuel object ht
      refine talkPass_forget own fuel object ?_
      simp only [talkAnswers, hpasses, Nat.add_sub_cancel_left, ht]
    | returned u => rfl
    | lost u fault => rfl

end

/-! ### What a line brings about -/

/-- The message as it is sent. -/
def framed (own line : Bytes) : Bytes :=
  chars "(from " ++ own ++ chars ") " ++ trim (Text.past colon line)

/-- What the user and the network see of a line that does not leave, where `members` are
the nodes of the network. -/
def eventsFor (members : Finset ID) (own line : Bytes) : List Event :=
  if chars "help" <+: trim line then [printUsage own]
  else if trim line = [] then []
  else if line.contains colon = false ∨ recipient line = [] then [specifyRecipient]
  else
    match ID.ofString (recipient line) with
    | none => []
    | some id =>
      if trim (Text.past colon line) = [] then [noMessageGiven]
      else if id ∈ members then [.delivered id (framed own line)]
      else [couldNotFind (recipient line)]

/-- The recipient of the line can be hashed, and its message fits a frame or stays at the
own node. -/
def Speakable (own : INode) (line : Bytes) : Prop :=
  NoWord line → Addressed line → ∃ id, ID.ofString (recipient line) = some id ∧
    (id = own.id ∨ (framed own.name line).length ≤ 126)

theorem iteration_blank (own : Bytes) {line : Bytes} (h : trim line = []) :
    iteration own line = .ok .empty := by
  have hfind : ∀ word ∈ words, find word [] = none := by decide
  simp only [words, List.mem_cons, List.not_mem_nil, or_false, forall_eq_or_imp, forall_eq] at hfind
  obtain ⟨hexit, hquit, hhelp⟩ := hfind
  rw [iteration, h, command, hexit, hquit, hhelp]
  rfl

theorem iteration_noRecipient (own : Bytes) {line : Bytes} (h : NoWord line)
    (hne : trim line ≠ []) (ha : ¬ Addressed line) : iteration own line = .ok .noRecipient := by
  obtain ⟨hleave, hhelp⟩ := find_noWord h
  have hlen : ¬ (trim line).length = 0 := mt List.length_eq_zero_iff.mp hne
  rw [iteration, command, if_neg hleave, if_neg hhelp, if_neg hlen]
  by_cases hcol : colon ∈ line
  · obtain ⟨name, message, _, hfind, hsub, _, hrec, _⟩ := split_line hcol
    have hnil : recipient line = [] := by
      by_contra hne
      exact ha ⟨hcol, hne⟩
    simp only [hfind, hsub, ok_bind, hrec, hnil, List.length_nil, if_true]
  · have hfind : find (chars ":") (trim line) = none :=
      find_not_mem fun hmem => hcol (colon_mem_trim.mp hmem)
    rw [hfind]

theorem noWord_of_not_quits {line : Bytes} (hq : ¬ Quits line)
    (hh : ¬ chars "help" <+: trim line) : NoWord line := by
  intro word hw
  simp only [words, List.mem_cons, List.not_mem_nil, or_false] at hw
  rcases hw with rfl | rfl | rfl
  · exact fun h => hq (Or.inl h)
  · exact fun h => hq (Or.inr h)
  · exact hh

/-- What the events of a command are. -/
inductive Means (own : INode) (members : Finset ID) : Command → List Event → Prop
  | help : Means own members .help [printUsage own.name]
  | empty : Means own members .empty []
  | noRecipient : Means own members .noRecipient [specifyRecipient]
  | noMessage : Means own members .noMessage [noMessageGiven]
  | send {name message : Bytes} {id : ID} (hlen : id = own.id ∨ message.length ≤ 126) :
      Means own members (.send name id message)
        (if id ∈ members then [.delivered id message] else [couldNotFind name])

theorem iteration_means {own : INode} (members : Finset ID) {line : Bytes} (hq : ¬ Quits line)
    (hs : Speakable own line) :
    ∃ c, iteration own.name line = .ok c ∧ Means own members c (eventsFor members own.name line) := by
  unfold eventsFor
  by_cases hhelp : chars "help" <+: trim line
  · rw [if_pos hhelp]
    exact ⟨.help, iteration_help own.name hhelp, .help⟩
  rw [if_neg hhelp]
  by_cases hblank : trim line = []
  · rw [if_pos hblank]
    exact ⟨.empty, iteration_blank own.name hblank, .empty⟩
  rw [if_neg hblank]
  have hno := noWord_of_not_quits hq hhelp
  by_cases ha : Addressed line
  · have hguard : ¬ (line.contains colon = false ∨ recipient line = []) := by
      rintro (hcol | hrec)
      · rw [List.contains_iff_mem.mpr ha.1] at hcol
        cases hcol
      · exact ha.2 hrec
    have hdo := iteration_addressed own.name hno ha
    obtain ⟨id, hid, hlen⟩ := hs hno ha
    rw [hid] at hdo
    rw [if_neg hguard, hid]
    by_cases hmsg : trim (Text.past colon line) = []
    · refine ⟨.noMessage, ?_, ?_⟩
      · rw [hdo]
        simp only [hmsg, List.length_nil, if_true]
      · simp only [hmsg, if_true]
        exact .noMessage
    · refine ⟨_, hdo.trans (if_neg (mt List.length_eq_zero_iff.mp hmsg)), ?_⟩
      simp only [hmsg, if_false]
      exact .send hlen
  · have hguard : line.contains colon = false ∨ recipient line = [] := by
      by_cases hcol : colon ∈ line
      · right
        by_contra hne
        exact ha ⟨hcol, hne⟩
      · left
        rw [Bool.eq_false_iff]
        exact mt List.contains_iff_mem.mp hcol
    rw [if_pos hguard]
    exact ⟨.noRecipient, iteration_noRecipient own.name hno hblank ha, .noRecipient⟩

section
variable (object : ℕ) {root : ID} {members : Finset ID} {own : INode} {fuel : ℕ} {s : Sys} {t : Talk}

theorem linesLeft_cons {s : Session} {line : Bytes} {ls : List Bytes}
    (h : s.linesLeft = line :: ls) : s.getline.line = line ∧ s.getline.linesLeft = ls := by
  have hgood : s.good = true := by
    by_contra hnot
    rw [Session.linesLeft, if_neg hnot] at h
    cases h
  rw [(getline_good hgood).1] at h
  exact List.cons.inj h

end

/-! ### Alice talks to herself -/

/-- Alice has stabilized. -/
def soloIdeal : Sys := { soloStart with net := soloStart.net.stabilize 0 alice.id }

end ChatClient

end ChordChat
