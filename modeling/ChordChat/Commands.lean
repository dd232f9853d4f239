import ChordChat.StringTrim

/-!
# What a typed line does (ChatClient.cpp)

`command` is the body of the loop of `ChatClient::run` behind `getline` and
`trim`, up to what it does with the line. `own` is the name of the client's node.
-/

namespace ChordChat
namespace ChatClient

inductive Command where
  | leave
  | help
  | empty
  | noRecipient
  | noMessage
  | send (name : Bytes) (id : ID) (message : Bytes)

def command (own line : Bytes) : Except Fault Command :=
  if find (chars "exit") line = some 0 ∨ find (chars "quit") line = some 0 then .ok .leave
  else if find (chars "help") line = some 0 then .ok .help
  else if line.length = 0 then .ok .empty
  else
    match find (chars ":") line with
    | none => .ok .noRecipient
    | some colon => do
      let name ← substr line 0 colon
      let name := trim name
      if name.length = 0 then .ok .noRecipient
      else
        match ID.ofString name with
        | none => .error .abort
        | some id => do
          let message ← substrFrom line (colon + 1)
          let message := trim message
          if message.length = 0 then .ok .noMessage
          else .ok (.send name id (chars "(from " ++ own ++ chars ") " ++ message))

/-- `line = trim(line)` and what follows. -/
def iteration (own line : Bytes) : Except Fault Command := command own (trim line)

def words : List Bytes := [chars "exit", chars "quit", chars "help"]

def NoWord (line : Bytes) : Prop := ∀ word ∈ words, ¬ word <+: trim line

def recipient (line : Bytes) : Bytes := trim (Text.upTo colon line)

def Addressed (line : Bytes) : Prop := colon ∈ line ∧ recipient line ≠ []

theorem iteration_leave (own : Bytes) {line : Bytes}
    (h : chars "exit" <+: trim line ∨ chars "quit" <+: trim line) :
    iteration own line = .ok .leave := by
  rw [← find_eq_zero, ← find_eq_zero] at h
  rw [iteration, command, if_pos h]

theorem not_exit_quit_of_help {s : Bytes} (h : chars "help" <+: s) :
    ¬ (chars "exit" <+: s ∨ chars "quit" <+: s) := by
  intro hw
  obtain ⟨t, rfl⟩ := h
  rcases hw with ⟨u, hu⟩ | ⟨u, hu⟩ <;> cases hu

theorem iteration_help (own : Bytes) {line : Bytes} (h : chars "help" <+: trim line) :
    iteration own line = .ok .help := by
  have hnot := not_exit_quit_of_help h
  rw [← find_eq_zero, ← find_eq_zero] at hnot
  rw [iteration, command, if_neg hnot, if_pos (find_eq_zero.mpr h)]

theorem find_noWord {line : Bytes} (h : NoWord line) :
    ¬ (find (chars "exit") (trim line) = some 0 ∨ find (chars "quit") (trim line) = some 0) ∧
      ¬ find (chars "help") (trim line) = some 0 := by
  rw [find_eq_zero, find_eq_zero, find_eq_zero, not_or]
  exact ⟨⟨h _ (by simp [words]), h _ (by simp [words])⟩, h _ (by simp [words])⟩

theorem split_line {line : Bytes} (h : colon ∈ line) :
    ∃ name message, ¬ (trim line).length = 0 ∧
      find (chars ":") (trim line) = some name.length ∧
      substr (trim line) 0 name.length = .ok name ∧
      substrFrom (trim line) (name.length + 1) = .ok message ∧
      trim name = recipient line ∧ trim message = trim (Text.past colon line) := by
  have hmem : colon ∈ trim line := colon_mem_trim.mpr h
  refine ⟨_, _, ?_, find_mem hmem, substr_upTo colon _, substrFrom_past hmem, ?_, ?_⟩
  · rw [List.length_eq_zero_iff]
    exact List.ne_nil_of_mem hmem
  · exact Text.trim_upTo_trim isSpace_colon h
  · exact Text.trim_past_trim isSpace_colon h

theorem iteration_addressed (own : Bytes) {line : Bytes} (h : NoWord line) (ha : Addressed line) :
    iteration own line =
      match ID.ofString (recipient line) with
      | none => .error .abort
      | some id =>
        if (trim (Text.past colon line)).length = 0 then .ok .noMessage
        else .ok (.send (recipient line) id
          (chars "(from " ++ own ++ chars ") " ++ trim (Text.past colon line))) := by
  obtain ⟨hcol, hname⟩ := ha
  obtain ⟨hleave, hhelp⟩ := find_noWord h
  obtain ⟨name, message, hlen, hfind, hsub, hfrom, hrec, hmsg⟩ := split_line hcol
  have hne : ¬ (recipient line).length = 0 := mt List.length_eq_zero_iff.mp hname
  rw [iteration, command, if_neg hleave, if_neg hhelp, if_neg hlen]
  simp only [hfind, hsub, hfrom, ok_bind, hrec, hmsg, hne, if_false]

theorem iteration_unaddressed (own : Bytes) {line : Bytes} (h : NoWord line)
    (ha : ¬ Addressed line) :
    iteration own line = .ok .empty ∨ iteration own line = .ok .noRecipient := by
  obtain ⟨hleave, hhelp⟩ := find_noWord h
  rw [iteration, command, if_neg hleave, if_neg hhelp]
  by_cases hcol : colon ∈ line
  · obtain ⟨name, message, hlen, hfind, hsub, _, hrec, _⟩ := split_line hcol
    have hnil : recipient line = [] := by
      by_contra hne
      exact ha ⟨hcol, hne⟩
    rw [if_neg hlen]
    simp only [hfind, hsub, ok_bind, hrec, hnil, List.length_nil, if_true, or_true]
  · have hfind : find (chars ":") (trim line) = none := by
      refine find_not_mem fun hmem => hcol ?_
      exact colon_mem_trim.mp hmem
    rw [hfind]
    split
    · exact Or.inl rfl
    · exact Or.inr rfl

/-! ### What a line should do -/

/-- A recipient and a message as they are typed, with any white space. -/
structure Typed where
  name : Bytes
  message : Bytes
  name_ne : trim name ≠ []
  name_colon : colon ∉ name
  message_ne : trim message ≠ []

namespace Typed

def line (t : Typed) : Bytes := t.name ++ colon :: t.message

theorem recipient_line (t : Typed) : recipient t.line = trim t.name := by
  rw [recipient, line, Text.upTo_append t.name_colon]

theorem past_line (t : Typed) : Text.past colon t.line = t.message :=
  Text.past_append t.name_colon

theorem addressed (t : Typed) : Addressed t.line := by
  refine ⟨List.mem_append_right t.name (List.mem_cons_self ..), ?_⟩
  rw [recipient_line]
  exact t.name_ne

end Typed

def Sends (own : Bytes) (t : Typed) (done : Except Fault Command) : Prop :=
  ∃ id, ID.ofString (trim t.name) = some id ∧
    done = .ok (.send (trim t.name) id (chars "(from " ++ own ++ chars ") " ++ trim t.message))

def Leaves (done : Except Fault Command) : Prop := done = .ok .leave ∨ ∃ e, done = .error e

/-- The line is sent if it is a recipient and a message, and it is taken for a
command only if it is that command. -/
def Reaches (own line : Bytes) : Prop :=
  (∀ t : Typed, t.line = line → Sends own t (iteration own line)) ∧
    (Leaves (iteration own line) → trim line = chars "exit" ∨ trim line = chars "quit") ∧
    (iteration own line = .ok .help → trim line = chars "help")

theorem word_unique : ∀ word ∈ words, ∀ word' ∈ words, word' <+: word → word' = word := by
  decide

theorem not_addressed_of_word {word line : Bytes} (hw : word ∈ words) (h : trim line = word) :
    ¬ Addressed line := by
  have hcol : ∀ word ∈ words, colon ∉ word := by decide
  intro ha
  refine hcol word hw ?_
  rw [← h]
  exact colon_mem_trim.mpr ha.1

theorem iteration_word (own : Bytes) {word line : Bytes} (hw : word ∈ words)
    (h : word <+: trim line) :
    iteration own line = .ok (if word = chars "help" then .help else .leave) := by
  simp only [words, List.mem_cons, List.not_mem_nil, or_false] at hw
  rcases hw with rfl | rfl | rfl
  · rw [if_neg (by decide)]
    exact iteration_leave own (Or.inl h)
  · rw [if_neg (by decide)]
    exact iteration_leave own (Or.inr h)
  · rw [if_pos rfl]
    exact iteration_help own h

theorem reaches_word (own : Bytes) {word line : Bytes} (hw : word ∈ words)
    (hpre : word <+: trim line) : Reaches own line ↔ trim line = word := by
  have hdo := iteration_word own hw hpre
  have hword : ∀ word' ∈ words, trim line = word' → trim line = word := by
    intro word' hw' he
    rw [he] at hpre ⊢
    exact (word_unique word' hw' word hw hpre).symm
  constructor
  · rintro ⟨_, hleave, hhelp⟩
    by_cases hh : word = chars "help"
    · rw [if_pos hh] at hdo
      rw [hhelp hdo, hh]
    · rw [if_neg hh] at hdo
      rcases hleave (Or.inl hdo) with h | h
      · exact hword _ (by simp [words]) h
      · exact hword _ (by simp [words]) h
  · intro he
    refine ⟨?_, ?_, ?_⟩
    · rintro t rfl
      exact absurd t.addressed (not_addressed_of_word hw he)
    · intro hl
      rw [he]
      rw [hdo] at hl
      simp only [words, List.mem_cons, List.not_mem_nil, or_false] at hw
      rcases hw with rfl | rfl | rfl
      · exact Or.inl rfl
      · exact Or.inr rfl
      · rw [if_pos rfl] at hl
        rcases hl with hl | ⟨e, hl⟩ <;> cases hl
    · intro hh
      rw [hdo] at hh
      split at hh
      next hword => rw [he, hword]
      next => cases hh

theorem reaches_noWord (own : Bytes) {line : Bytes} (h : NoWord line) :
    Reaches own line ↔ (Addressed line → ID.Hashable (recipient line)) := by
  by_cases ha : Addressed line
  · have hdo := iteration_addressed own h ha
    cases hid : ID.ofString (recipient line) with
    | none =>
      rw [hid] at hdo
      have hhash := ID.ofString_eq_none.mp hid
      refine iff_of_false ?_ (fun himp => hhash (himp ha))
      rintro ⟨_, hleave, _⟩
      rcases hleave (Or.inr ⟨_, hdo⟩) with he | he
      · exact not_addressed_of_word (by simp [words]) he ha
      · exact not_addressed_of_word (by simp [words]) he ha
    | some id =>
      rw [hid] at hdo
      refine iff_of_true ⟨?_, ?_, ?_⟩ fun _ => ?_
      · rintro t rfl
        have hne : ¬ (trim t.message).length = 0 := mt List.length_eq_zero_iff.mp t.message_ne
        rw [t.recipient_line, t.past_line] at hdo
        rw [t.recipient_line] at hid
        refine ⟨id, hid, ?_⟩
        rw [hdo]
        exact if_neg hne
      · intro hl
        rw [hdo] at hl
        dsimp only at hl
        split at hl <;> rcases hl with hl | ⟨e, hl⟩ <;> cases hl
      · intro hh
        rw [hdo] at hh
        dsimp only at hh
        split at hh <;> cases hh
      · exact ID.hashable_of_eq_some hid
  · refine iff_of_true ⟨?_, ?_, ?_⟩ (absurd · ha)
    · rintro t rfl
      exact absurd t.addressed ha
    · intro hl
      rcases iteration_unaddressed own h ha with hdo | hdo <;> rw [hdo] at hl <;>
        rcases hl with hl | ⟨e, hl⟩ <;> cases hl
    · intro hh
      rcases iteration_unaddressed own h ha with hdo | hdo <;> rw [hdo] at hh <;> cases hh

/-- A line does what it should unless it only begins with a command word. -/
theorem reaches_iff (own line : Bytes) :
    Reaches own line ↔ (∀ word ∈ words, word <+: trim line → trim line = word) ∧
      (Addressed line → ID.Hashable (recipient line)) := by
  by_cases h : NoWord line
  · rw [reaches_noWord own h]
    constructor
    · intro hhash
      exact ⟨fun word hw hpre => absurd hpre (h word hw), hhash⟩
    · exact And.right
  · obtain ⟨word, hw, hpre⟩ : ∃ word ∈ words, word <+: trim line := by
      simpa only [NoWord, not_forall, not_not, exists_prop] using h
    rw [reaches_word own hw hpre]
    constructor
    · intro he
      refine ⟨?_, fun ha => absurd ha (not_addressed_of_word hw he)⟩
      intro word' hw' hpre'
      rw [he] at hpre' ⊢
      exact (word_unique word hw word' hw' hpre').symm
    · intro hall
      exact hall.1 word hw hpre

/-- A message to "quitter" ends the session. -/
theorem message_to_quitter :
    iteration (chars "alice") (chars "quitter: hi") = .ok .leave ∧
      ¬ Reaches (chars "alice") (chars "quitter: hi") := by
  have hpre : chars "quit" <+: trim (chars "quitter: hi") := by decide
  refine ⟨iteration_leave _ (Or.inr hpre), ?_⟩
  rw [reaches_word _ (by decide) hpre]
  decide

end ChatClient

end ChordChat
