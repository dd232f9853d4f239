import ChordChat.Commands

/-!
# The chat loop (ChatClient.cpp)

`ChatClient::run` reads standard input until a line makes it leave. `getline` on a
stream that is at its end or has failed leaves the string as it is. What `send`
does in a pass is an input of the loop: `none` if it never comes back.
-/

namespace ChordChat
namespace ChatClient

def newline : Byte := 10#8

/-- What `send` does, for each pass of the loop. -/
abbrev Answers := ℕ → Option (Except Fault Bool)

/-- `input` is what `cin` has not delivered, `good` the state of the stream.
`lines` and `sent` are records only: the lines read, and the calls of `send`,
each with the number of its line. -/
structure Session where
  input : Bytes
  good : Bool
  line : Bytes
  passes : ℕ
  lines : ℕ
  sent : List (ℕ × ID × Bytes)

namespace Session

def start (input : Bytes) : Session := ⟨input, true, [], 0, 0, []⟩

def getline (s : Session) : Session :=
  if s.good then
    if s.input.contains newline then
      { s with
        input := Text.past newline s.input
        line := Text.upTo newline s.input
        lines := s.lines + 1 }
    else { s with input := [], good := false, line := s.input, lines := s.lines + 1 }
  else s

/-- `line = trim(line)`. -/
def trimLine (s : Session) : Session := { s with line := trim s.line }

def next (s : Session) : Session := { s with passes := s.passes + 1 }

def record (s : Session) (id : ID) (message : Bytes) : Session :=
  { s with sent := s.sent ++ [(s.lines, id, message)] }

end Session

inductive Outcome where
  | running (s : Session)
  | returned (s : Session)
  | lost (s : Session) (fault : Option Fault)

def Outcome.session : Outcome → Session
  | running s | returned s | lost s _ => s

def act (answer : Option (Except Fault Bool)) (s : Session) : Except Fault Command → Outcome
  | .error e => .lost s e
  | .ok .leave => .returned s
  | .ok (.send _ id message) =>
    match answer with
    | none => .lost (s.record id message) none
    | some (.error e) => .lost (s.record id message) e
    | some (.ok _) => .running (s.record id message).next
  | .ok .help | .ok .empty | .ok .noRecipient | .ok .noMessage => .running s.next

def pass (own : Bytes) (answers : Answers) (s : Session) : Outcome :=
  let read := s.getline.trimLine
  act (answers s.passes) read (command own read.line)

def run (own : Bytes) (answers : Answers) : ℕ → Session → Outcome
  | 0, s => .running s
  | n + 1, s =>
    match pass own answers s with
    | .running s => run own answers n s
    | .returned s => .returned s
    | .lost s fault => .lost s fault

/-! ### The lines of an input -/

def inputLines (input : Bytes) : List Bytes := input.splitOn newline

def Quits (line : Bytes) : Prop := chars "exit" <+: trim line ∨ chars "quit" <+: trim line

/-- The loop goes on behind the line: the recipient can be hashed, and a message
to it is answered. -/
def Passes (answer : Option (Except Fault Bool)) (line : Bytes) : Prop :=
  NoWord line → Addressed line →
    ID.Hashable (recipient line) ∧ (trim (Text.past colon line) ≠ [] → ∃ b, answer = some (.ok b))

/-- A message to somebody who can be hashed. -/
structure Sendable (line : Bytes) : Prop where
  noWord : NoWord line
  addressed : Addressed line
  hashable : ID.Hashable (recipient line)
  message_ne : trim (Text.past colon line) ≠ []

theorem iteration_sendable (own : Bytes) {line : Bytes} (h : Sendable line) :
    ∃ id message, iteration own line = .ok (.send (recipient line) id message) := by
  have hdo := iteration_addressed own h.noWord h.addressed
  have hmsg : ¬ (trim (Text.past colon line)).length = 0 :=
    mt List.length_eq_zero_iff.mp h.message_ne
  cases hid : ID.ofString (recipient line) with
  | none => exact absurd h.hashable (ID.ofString_eq_none.mp hid)
  | some id =>
    rw [hid] at hdo
    exact ⟨id, _, hdo.trans (if_neg hmsg)⟩

theorem Sendable.trim {line : Bytes} (h : Sendable line) : Sendable (trim line) := by
  have hcol := h.addressed.1
  have hidem : ChordChat.trim (ChordChat.trim line) = ChordChat.trim line :=
    Text.trim_idem isSpace line
  have hrec : recipient (ChordChat.trim line) = recipient line :=
    Text.trim_upTo_trim isSpace_colon hcol
  have hpast : ChordChat.trim (Text.past colon (ChordChat.trim line)) =
      ChordChat.trim (Text.past colon line) := Text.trim_past_trim isSpace_colon hcol
  refine ⟨?_, ⟨colon_mem_trim.mpr hcol, ?_⟩, ?_, ?_⟩
  · rw [NoWord, hidem]
    exact h.noWord
  · rw [hrec]
    exact h.addressed.2
  · rw [hrec]
    exact h.hashable
  · rw [hpast]
    exact h.message_ne

/-- The lines that neither leave nor send. -/
theorem iteration_silent (own : Bytes) {line : Bytes} (hq : ¬ Quits line)
    (hhash : NoWord line → Addressed line → ID.Hashable (recipient line)) (h : ¬ Sendable line) :
    iteration own line = .ok .help ∨ iteration own line = .ok .empty ∨
      iteration own line = .ok .noRecipient ∨ iteration own line = .ok .noMessage := by
  by_cases hno : NoWord line
  · by_cases ha : Addressed line
    · have hdo := iteration_addressed own hno ha
      have hmsg : (trim (Text.past colon line)).length = 0 := by
        by_contra hne
        exact h ⟨hno, ha, hhash hno ha, mt List.length_eq_zero_iff.mpr hne⟩
      cases hid : ID.ofString (recipient line) with
      | none => exact absurd (hhash hno ha) (ID.ofString_eq_none.mp hid)
      | some id =>
        rw [hid] at hdo
        exact Or.inr (Or.inr (Or.inr (hdo.trans (if_pos hmsg))))
    · rcases iteration_unaddressed own hno ha with hdo | hdo
      · exact Or.inr (Or.inl hdo)
      · exact Or.inr (Or.inr (Or.inl hdo))
  · left
    refine iteration_help own ?_
    by_contra hnot
    refine hno fun word hw => ?_
    simp only [words, List.mem_cons, List.not_mem_nil, or_false] at hw
    rcases hw with rfl | rfl | rfl
    · exact fun h => hq (Or.inl h)
    · exact fun h => hq (Or.inr h)
    · exact hnot

theorem act_cases (own : Bytes) (answer : Option (Except Fault Bool)) (s : Session) (line : Bytes) :
    (Quits line ∧ act answer s (iteration own line) = .returned s) ∨
      (¬ Quits line ∧ Passes answer line ∧
        (act answer s (iteration own line) = .running s.next ∨
          ∃ id message, act answer s (iteration own line) = .running (s.record id message).next)) ∨
      (¬ Quits line ∧ ¬ Passes answer line ∧
        ∃ t fault, act answer s (iteration own line) = .lost t fault) := by
  by_cases hq : Quits line
  · exact Or.inl ⟨hq, by rw [iteration_leave own hq]; rfl⟩
  right
  by_cases hhash : NoWord line → Addressed line → ID.Hashable (recipient line)
  · by_cases hsend : Sendable line
    · obtain ⟨id, message, hdo⟩ := iteration_sendable own hsend
      have hpasses : Passes answer line ↔ ∃ b, answer = some (.ok b) :=
        ⟨fun hp => (hp hsend.noWord hsend.addressed).2 hsend.message_ne,
          fun hb hno ha => ⟨hhash hno ha, fun _ => hb⟩⟩
      rw [hpasses, hdo]
      rcases answer with _ | e | b
      · exact Or.inr ⟨hq, fun ⟨b, hb⟩ => (by cases hb), _, _, rfl⟩
      · exact Or.inr ⟨hq, fun ⟨b, hb⟩ => (by cases hb), _, _, rfl⟩
      · exact Or.inl ⟨hq, ⟨b, rfl⟩, Or.inr ⟨id, message, rfl⟩⟩
    · refine Or.inl ⟨hq, ?_, Or.inl ?_⟩
      · intro hno ha
        exact ⟨hhash hno ha, fun hmsg => absurd ⟨hno, ha, hhash hno ha, hmsg⟩ hsend⟩
      · rcases iteration_silent own hq hhash hsend with hdo | hdo | hdo | hdo <;> rw [hdo] <;> rfl
  · refine Or.inr ⟨hq, fun hp => hhash fun hno ha => (hp hno ha).1, s, some .abort, ?_⟩
    obtain ⟨hno, ha, hnot⟩ : ∃ _ : NoWord line, ∃ _ : Addressed line, ¬ ID.Hashable (recipient line) := by
      simpa only [not_forall] using hhash
    rw [iteration_addressed own hno ha, ID.ofString_eq_none.mpr hnot]
    rfl

/-! ### One pass -/

/-- `t` is the session after a pass from `s` that goes on. -/
structure Follows (s t : Session) : Prop where
  input : t.input = s.getline.input
  good : t.good = s.getline.good
  line : t.line = trim s.getline.line
  passes : t.passes = s.passes + 1
  lines : t.lines = s.getline.lines
  sent : t.sent = s.sent ∨ ∃ id message, t.sent = s.sent ++ [(s.getline.lines, id, message)]

theorem getline_passes (s : Session) : s.getline.passes = s.passes := by
  unfold Session.getline
  split
  · split <;> rfl
  · rfl

theorem getline_sent (s : Session) : s.getline.sent = s.sent := by
  unfold Session.getline
  split
  · split <;> rfl
  · rfl

theorem pass_cases (own : Bytes) (answers : Answers) (s : Session) :
    (Quits s.getline.line ∧ ∃ t, pass own answers s = .returned t ∧ t.sent = s.sent) ∨
      (¬ Quits s.getline.line ∧ Passes (answers s.passes) s.getline.line ∧
        ∃ t, pass own answers s = .running t ∧ Follows s t) ∨
      (¬ Quits s.getline.line ∧ ¬ Passes (answers s.passes) s.getline.line ∧
        ∃ t fault, pass own answers s = .lost t fault) := by
  have hpass : pass own answers s =
      act (answers s.passes) s.getline.trimLine (iteration own s.getline.line) := rfl
  have hpasses := congrArg (· + 1) (getline_passes s)
  have hsent := getline_sent s
  rw [hpass]
  rcases act_cases own (answers s.passes) s.getline.trimLine s.getline.line with
    ⟨hq, hact⟩ | ⟨hq, hp, hact | ⟨id, message, hact⟩⟩ | ⟨hq, hp, t, fault, hact⟩
  · exact Or.inl ⟨hq, _, hact, hsent⟩
  · exact Or.inr (Or.inl ⟨hq, hp, _, hact, rfl, rfl, rfl, hpasses, rfl, Or.inl hsent⟩)
  · refine Or.inr (Or.inl ⟨hq, hp, _, hact, rfl, rfl, rfl, hpasses, rfl, Or.inr ⟨id, message, ?_⟩⟩)
    rw [← hsent]
    rfl
  · exact Or.inr (Or.inr ⟨hq, hp, t, fault, hact⟩)

theorem run_running {own : Bytes} {answers : Answers} {s t : Session}
    (h : pass own answers s = .running t) (n : ℕ) : run own answers (n + 1) s = run own answers n t := by
  rw [run, h]

theorem run_returned {own : Bytes} {answers : Answers} {s t : Session}
    (h : pass own answers s = .returned t) (n : ℕ) : run own answers (n + 1) s = .returned t := by
  rw [run, h]

theorem run_lost {own : Bytes} {answers : Answers} {s t : Session} {fault : Option Fault}
    (h : pass own answers s = .lost t fault) (n : ℕ) : run own answers (n + 1) s = .lost t fault := by
  rw [run, h]

/-! ### The end of the loop -/

def Returns (own : Bytes) (answers : Answers) (s : Session) : Prop :=
  ∃ k t, ∀ n, k ≤ n → run own answers n s = .returned t

def OncePerLine (own : Bytes) (answers : Answers) (s : Session) : Prop :=
  ∀ n, ((run own answers n s).session.sent.map Prod.fst).Nodup

/-- Some line makes the loop leave, and it goes on behind every line before it. -/
def Ends (answers : Answers) (ls : List Bytes) : Prop :=
  ∃ i line, ls[i]? = some line ∧ Quits line ∧
    ∀ j < i, ∀ line', ls[j]? = some line' → Passes (answers j) line'

theorem not_ends_nil (answers : Answers) : ¬ Ends answers [] := by
  rintro ⟨i, line, h, _⟩
  cases h

theorem ends_cons {answers : Answers} {line : Bytes} {ls : List Bytes} :
    Ends answers (line :: ls) ↔
      Quits line ∨ (Passes (answers 0) line ∧ Ends (fun j => answers (j + 1)) ls) := by
  constructor
  · rintro ⟨i, line', hget, hq, hbefore⟩
    cases i with
    | zero =>
      cases hget
      exact Or.inl hq
    | succ i =>
      refine Or.inr ⟨hbefore 0 (Nat.succ_pos i) line rfl, i, line', hget, hq, ?_⟩
      intro j hj line'' hget'
      exact hbefore (j + 1) (Nat.succ_lt_succ hj) line'' hget'
  · rintro (hq | ⟨hp, i, line', hget, hq, hbefore⟩)
    · exact ⟨0, line, rfl, hq, fun j hj => absurd hj (Nat.not_lt_zero j)⟩
    · refine ⟨i + 1, line', hget, hq, ?_⟩
      intro j hj line'' hget'
      cases j with
      | zero =>
        cases hget'
        exact hp
      | succ j => exact hbefore j (Nat.lt_of_succ_lt_succ hj) line'' hget'

/-- The answers from pass `k` on. -/
def later (answers : Answers) (k : ℕ) : Answers := fun j => answers (k + j)

theorem later_tail (answers : Answers) (k : ℕ) :
    (fun j => later answers k (j + 1)) = later answers (k + 1) := by
  funext j
  rw [later, later, Nat.add_right_comm]
  rfl

theorem inputLines_mem {input : Bytes} (h : newline ∈ input) :
    inputLines input = Text.upTo newline input :: inputLines (Text.past newline input) := by
  conv_lhs => rw [← Text.upTo_append_past h]
  exact List.splitOn_append_cons_self_of_not_mem (Text.not_mem_upTo newline input) _

/-- The lines that `getline` will still deliver. -/
def Session.linesLeft (s : Session) : List Bytes := if s.good then inputLines s.input else []

theorem getline_good {s : Session} (h : s.good = true) :
    s.linesLeft = s.getline.line :: s.getline.linesLeft ∧ s.getline.lines = s.lines + 1 := by
  rw [Session.getline, if_pos h, Session.linesLeft, if_pos h]
  split
  next hmem =>
    rw [Session.linesLeft, if_pos h]
    exact ⟨inputLines_mem (List.contains_iff_mem.mp hmem), rfl⟩
  next hmem => exact ⟨List.splitOn_eq_singleton (mt List.contains_iff_mem.mpr hmem), rfl⟩

theorem Follows.linesLeft {s t : Session} (h : Follows s t) : t.linesLeft = s.getline.linesLeft := by
  rw [Session.linesLeft, Session.linesLeft, h.good, h.input]

theorem getline_ended {s : Session} (h : s.good = false) : s.getline = s := by
  rw [Session.getline, h]
  rfl

theorem quits_trim {line : Bytes} : Quits (trim line) ↔ Quits line := by
  rw [Quits, Quits, trim_eq, trim_eq, Text.trim_idem]

/-- Once the input has ended the loop acts on its last line for ever. -/
theorem not_returned_of_ended (own : Bytes) (answers : Answers) {s : Session}
    (h : s.good = false) (hq : ¬ Quits s.line) (n : ℕ) (t : Session) :
    run own answers n s ≠ .returned t := by
  induction n generalizing s with
  | zero => exact fun he => (by cases he)
  | succ n ih =>
    have hline : s.getline.line = s.line := congrArg Session.line (getline_ended h)
    have hgood : s.getline.good = false := (congrArg Session.good (getline_ended h)).trans h
    rcases pass_cases own answers s with ⟨hquit, _⟩ | ⟨_, _, u, hu, hf⟩ | ⟨_, _, u, fault, hu⟩
    · rw [hline] at hquit
      exact absurd hquit hq
    · rw [run_running hu]
      refine ih (hf.good.trans hgood) ?_
      rw [hf.line, hline, quits_trim]
      exact hq
    · rw [run_lost hu]
      exact fun he => (by cases he)

theorem returns_running {own : Bytes} {answers : Answers} {s t : Session}
    (h : pass own answers s = .running t) : Returns own answers s ↔ Returns own answers t := by
  constructor
  · rintro ⟨k, u, hrun⟩
    refine ⟨k, u, fun n hn => ?_⟩
    rw [← run_running h]
    exact hrun (n + 1) (Nat.le_succ_of_le hn)
  · rintro ⟨k, u, hrun⟩
    refine ⟨k + 1, u, fun n hn => ?_⟩
    obtain ⟨m, rfl⟩ := Nat.exists_eq_add_of_le' hn
    rw [← Nat.add_assoc, run_running h]
    exact hrun (m + k) (Nat.le_add_left k m)

theorem returns_iff (own : Bytes) (answers : Answers) {s : Session} (h : s.good = true) :
    Returns own answers s ↔ Ends (later answers s.passes) s.linesLeft := by
  generalize hls : s.linesLeft = ls
  induction ls generalizing s with
  | nil =>
    rw [(getline_good h).1] at hls
    cases hls
  | cons line ls ih =>
    rw [(getline_good h).1] at hls
    obtain ⟨rfl, rfl⟩ := List.cons.inj hls
    rw [ends_cons, later_tail]
    rcases pass_cases own answers s with ⟨hq, t, ht, _⟩ | ⟨hq, hp, t, ht, hf⟩ | ⟨hq, hp, t, fault, ht⟩
    · refine iff_of_true ⟨1, t, fun n hn => ?_⟩ (Or.inl hq)
      obtain ⟨m, rfl⟩ := Nat.exists_eq_add_of_le' hn
      exact run_returned ht m
    · have hp' : Passes (later answers s.passes 0) s.getline.line := hp
      rw [returns_running ht, or_iff_right hq, and_iff_right hp', ← hf.passes]
      by_cases hgood : t.good = true
      · exact ih hgood hf.linesLeft
      · -- no line is left, and the loop has its last line in the buffer
        have hnil : t.linesLeft = [] := if_neg hgood
        rw [← hf.linesLeft, hnil]
        refine iff_of_false ?_ (not_ends_nil _)
        rintro ⟨k, u, hrun⟩
        refine not_returned_of_ended own answers (Bool.not_eq_true _ ▸ hgood) ?_ k u (hrun k le_rfl)
        rw [hf.line, quits_trim]
        exact hq
    · refine iff_of_false ?_ ?_
      · rintro ⟨k, u, hrun⟩
        have hlost := hrun (k + 1) (Nat.le_succ k)
        rw [run_lost ht] at hlost
        cases hlost
      · rintro (hquit | ⟨hpasses, _⟩)
        · exact hq hquit
        · exact hp hpasses

/-- The lines of the calls so far stand in their order, none after the last line read. -/
structure Ordered (s : Session) : Prop where
  increasing : (s.sent.map Prod.fst).Pairwise (· < ·)
  read : ∀ k ∈ s.sent.map Prod.fst, k ≤ s.lines

theorem Ordered.nodup {s : Session} (h : Ordered s) : (s.sent.map Prod.fst).Nodup :=
  h.increasing.imp Nat.ne_of_lt

theorem Ordered.follows {s t : Session} (h : Ordered s) (hgood : s.good = true) (hf : Follows s t) :
    Ordered t := by
  have hlines := (getline_good hgood).2
  have hnext := hf.lines.trans hlines
  rcases hf.sent with hsent | ⟨id, message, hsent⟩
  · refine ⟨?_, fun k hk => ?_⟩
    · rw [hsent]
      exact h.increasing
    · rw [hsent] at hk
      have hle := h.read k hk
      omega
  · rw [hlines] at hsent
    have hmap : t.sent.map Prod.fst = s.sent.map Prod.fst ++ [s.lines + 1] := by
      rw [hsent, List.map_append]
      rfl
    refine ⟨?_, fun k hk => ?_⟩
    · rw [hmap, List.pairwise_append]
      refine ⟨h.increasing, List.pairwise_singleton _ _, fun k hk k' hk' => ?_⟩
      have hle := h.read k hk
      rw [List.mem_singleton] at hk'
      omega
    · rw [hmap] at hk
      rcases List.mem_append.mp hk with hk | hk
      · have hle := h.read k hk
        omega
      · rw [List.mem_singleton] at hk
        omega

theorem oncePerLine_of_ends (own : Bytes) (answers : Answers) {s : Session} (h : s.good = true)
    (ho : Ordered s) (he : Ends (later answers s.passes) s.linesLeft) :
    OncePerLine own answers s := by
  intro n
  induction n generalizing s with
  | zero => exact ho.nodup
  | succ n ih =>
    rw [(getline_good h).1, ends_cons, later_tail] at he
    rcases pass_cases own answers s with ⟨_, t, ht, hsent⟩ | ⟨hq, hp, t, ht, hf⟩ | ⟨hq, hp, _⟩
    · rw [run_returned ht, Outcome.session, hsent]
      exact ho.nodup
    · have he := (he.resolve_left hq).2
      rw [← hf.passes, ← hf.linesLeft] at he
      rw [run_running ht]
      refine ih ?_ (ho.follows h hf) he
      by_contra hgood
      have hnil : t.linesLeft = [] := if_neg hgood
      rw [hnil] at he
      exact not_ends_nil _ he
    · exact absurd (he.resolve_left hq).1 hp

theorem start_ordered (input : Bytes) : Ordered (Session.start input) :=
  ⟨List.Pairwise.nil, fun k hk => (by cases hk)⟩

theorem later_zero (answers : Answers) : later answers 0 = answers := by
  funext j
  rw [later, Nat.zero_add]

/-- The loop ends with its input, each line sent at most once. -/
theorem loop_iff (own : Bytes) (answers : Answers) (input : Bytes) :
    (Returns own answers (Session.start input) ∧ OncePerLine own answers (Session.start input)) ↔
      Ends answers (inputLines input) := by
  have hreturns := returns_iff own answers (s := Session.start input) rfl
  have honce := oncePerLine_of_ends own answers (s := Session.start input) rfl (start_ordered input)
  have hlater : later answers (Session.start input).passes = answers := later_zero answers
  rw [hlater] at hreturns honce
  exact ⟨fun h => hreturns.mp h.1, fun h => ⟨hreturns.mpr h, honce h⟩⟩

/-- A message whose line no newline ends is sent again in every later pass. -/
theorem resends (own : Bytes) {answers : Answers} (hans : ∀ n, ∃ b, answers n = some (.ok b))
    {s : Session} (h : s.getline.good = false) (hsend : Sendable s.getline.line) (n : ℕ) :
    ∃ t, run own answers n s = .running t ∧
      t.sent.map Prod.fst = s.sent.map Prod.fst ++ List.replicate n s.getline.lines := by
  induction n generalizing s with
  | zero => exact ⟨s, rfl, by rw [List.replicate_zero, List.append_nil]⟩
  | succ n ih =>
    obtain ⟨id, message, hdo⟩ := iteration_sendable own hsend
    obtain ⟨b, hb⟩ := hans s.passes
    have hpass : pass own answers s = .running (s.getline.trimLine.record id message).next := by
      have hact : pass own answers s =
          act (answers s.passes) s.getline.trimLine (iteration own s.getline.line) := rfl
      rw [hact, hdo, hb]
      rfl
    have hended : (s.getline.trimLine.record id message).next.getline =
        (s.getline.trimLine.record id message).next := getline_ended h
    have ih := ih (s := (s.getline.trimLine.record id message).next)
    rw [hended] at ih
    obtain ⟨t, ht, hlog⟩ := ih h hsend.trim
    have hmap : (s.getline.trimLine.record id message).next.sent.map Prod.fst =
        s.sent.map Prod.fst ++ [s.getline.lines] := by
      rw [← getline_sent s]
      exact List.map_append
    refine ⟨t, (run_running hpass n).trans ht, ?_⟩
    rw [hlog, hmap, List.append_assoc, List.replicate_succ]
    rfl

theorem bob_sendable : Sendable (chars "bob: hi") := by
  refine ⟨?_, ⟨by decide, by decide⟩, ID.hashable_of_length (by decide) (by decide), by decide⟩
  rw [NoWord]
  decide

/-- "bob: hi" without a newline. -/
theorem unterminated_line :
    ¬ Returns (chars "alice") (fun _ => some (.ok true)) (Session.start (chars "bob: hi")) ∧
      ¬ OncePerLine (chars "alice") (fun _ => some (.ok true)) (Session.start (chars "bob: hi")) := by
  have hresends := resends (chars "alice") (fun _ => ⟨true, rfl⟩)
    (s := Session.start (chars "bob: hi")) (by decide) bob_sendable
  constructor
  · rintro ⟨k, u, hrun⟩
    obtain ⟨t, ht, _⟩ := hresends k
    rw [hrun k le_rfl] at ht
    cases ht
  · intro honce
    obtain ⟨t, ht, hlog⟩ := hresends 2
    have hnodup := honce 2
    rw [ht, Outcome.session, hlog] at hnodup
    revert hnodup
    decide

end ChatClient

end ChordChat
