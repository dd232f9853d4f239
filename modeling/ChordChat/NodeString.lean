import ChordChat.StringTrim

/-!
# Node strings (ChordChat.cpp)

`createNodeFromString` reads the command line's `name@host:port`. It returns the
record of the node; both node classes hand the three values to `INode` as they
are, and the threads a `LocalNode` starts are not part of it.
-/

namespace ChordChat

/-- `invalid` is the `std::runtime_error` with its text. -/
inductive NodeError where
  | invalid (what : Bytes)
  | fault (e : Fault)

namespace NodeError

def lift {α : Type} (r : Except Fault α) : Except NodeError α := r.mapError fault

theorem lift_ok {α : Type} (a : α) : lift (.ok a) = .ok a := rfl

theorem lift_eq_ok {α : Type} {r : Except Fault α} {a : α} : lift r = .ok a ↔ r = .ok a := by
  cases r with
  | error e => exact ⟨fun h => (by cases h), fun h => (by cases h)⟩
  | ok b => exact ⟨fun h => (by cases h; rfl), fun h => (by cases h; rfl)⟩

def IsThrown : NodeError → Prop
  | invalid _ => True
  | fault e => e = .exception

end NodeError

open NodeError (lift)

def createNodeFromString (str : Bytes) : Except NodeError INode :=
  match find (chars "@") str with
  | none => .error (.invalid (chars "Invalid node string, no '@' symbol: " ++ str))
  | some nameSep => do
    let name ← lift (substr str 0 nameSep)
    let name := trim name
    if name.length = 0 then
      .error (.invalid (chars "Invalid node string, no name given: " ++ str))
    else
      match find (chars ":") str with
      | none => .error (.invalid (chars "Invalid node string, no ':' symbol: " ++ str))
      | some hostSep => do
        let host ← lift (substr str (nameSep + 1) (sizeSub hostSep (nameSep + 1)))
        let host := trim host
        if host.length = 0 then
          .error (.invalid (chars "Invalid node string, no host given: " ++ str))
        else do
          let portStr ← lift (substr str (hostSep + 1) (sizeSub str.length (hostSep + 1)))
          let portStr := trim portStr
          if portStr.length = 0 then
            .error (.invalid (chars "Invalid node string, no port given: " ++ str))
          else lift (INode.new name host (atoi portStr))

/-- A command line argument; no `std::string` is longer. -/
structure Argument where
  text : Bytes
  length_lt : text.length < 2 ^ 63

/-! ### The parts the code takes -/

def nameText (str : Bytes) : Bytes := Text.upTo atSign str

/-- The end of the host is the first colon of the whole string. Where it stands
before the at sign the count wraps round, and the host is all the rest. -/
def hostText (str : Bytes) : Bytes :=
  if colon ∈ nameText str then Text.past atSign str
  else Text.upTo colon (Text.past atSign str)

def portText (str : Bytes) : Bytes := Text.past colon str

theorem sizeSub_of_le {a b : ℕ} (h : b ≤ a) (ha : a < 2 ^ 64) : sizeSub a b = a - b := by
  rw [sizeSub]
  omega

theorem sizeSub_of_lt {a b : ℕ} (h : a < b) : sizeSub a b = a + 2 ^ 64 - b := by
  rw [sizeSub]
  omega

theorem substr_host {str : Argument} (hat : atSign ∈ str.text) (hcol : colon ∈ str.text) :
    substr str.text ((nameText str.text).length + 1)
        (sizeSub (Text.upTo colon str.text).length ((nameText str.text).length + 1)) =
      .ok (hostText str.text) := by
  have hlt := str.length_lt
  have hlen := Text.length_upTo_past hat
  rw [nameText, substr_past hat, hostText, nameText]
  by_cases hname : colon ∈ Text.upTo atSign str.text
  · -- the colon found stands before the at sign
    have hlen' := Text.length_upTo_past hname
    rw [if_pos hname, Text.upTo_of_mem_upTo hname, sizeSub_of_lt (by omega),
      List.take_of_length_le (by omega)]
  · have hne : colon ≠ atSign := by decide
    have hcount : (Text.upTo colon str.text).length - ((Text.upTo atSign str.text).length + 1) =
        (Text.upTo colon (Text.past atSign str.text)).length := by
      rw [Text.upTo_of_not_mem_upTo hat hcol hne hname, List.length_append, List.length_cons]
      omega
    have hlen' := Text.length_upTo_past hcol
    have hle : (Text.upTo atSign str.text).length + 1 ≤ (Text.upTo colon str.text).length := by
      rw [Text.upTo_of_not_mem_upTo hat hcol hne hname, List.length_append, List.length_cons]
      omega
    rw [if_neg hname, sizeSub_of_le hle (by omega), hcount, Text.take_upTo]

theorem substr_port {str : Argument} (hcol : colon ∈ str.text) :
    substr str.text ((Text.upTo colon str.text).length + 1)
        (sizeSub str.text.length ((Text.upTo colon str.text).length + 1)) =
      .ok (portText str.text) := by
  have hlt := str.length_lt
  have hlen := Text.length_upTo_past hcol
  rw [substr_past hcol, portText, sizeSub_of_le (by omega) (by omega), List.take_of_length_le (by omega)]

structure Accepts (str : Bytes) : Prop where
  atSign_mem : atSign ∈ str
  colon_mem : colon ∈ str
  name : ¬ Text.Blank isSpace (nameText str)
  host : ¬ Text.Blank isSpace (hostText str)
  port : ¬ Text.Blank isSpace (portText str)

theorem createNodeFromString_eq {str : Argument} (h : Accepts str.text) :
    createNodeFromString str.text =
      lift (INode.new (trim (nameText str.text)) (trim (hostText str.text))
        (atoi (trim (portText str.text)))) := by
  have hat : find (chars "@") str.text = some (nameText str.text).length := find_mem h.atSign_mem
  have hcol : find (chars ":") str.text = some (Text.upTo colon str.text).length :=
    find_mem h.colon_mem
  have hsub : substr str.text 0 (nameText str.text).length = .ok (nameText str.text) :=
    substr_upTo atSign str.text
  have hname := mt trim_length_eq_zero.mp h.name
  have hhost := mt trim_length_eq_zero.mp h.host
  have hport := mt trim_length_eq_zero.mp h.port
  simp only [createNodeFromString, hat, hcol, hsub,
    substr_host h.atSign_mem h.colon_mem, substr_port h.colon_mem, NodeError.lift_ok, ok_bind, hname, hhost,
    hport, if_false]

theorem createNodeFromString_refuses {str : Argument} (h : ¬ Accepts str.text) :
    ∃ what, createNodeFromString str.text = .error (.invalid (what ++ str.text)) := by
  by_cases hat : atSign ∈ str.text
  · have hfind : find (chars "@") str.text = some (nameText str.text).length := find_mem hat
    have hsub : substr str.text 0 (nameText str.text).length = .ok (nameText str.text) :=
      substr_upTo atSign str.text
    simp only [createNodeFromString, hfind, hsub, NodeError.lift_ok, ok_bind]
    split
    · exact ⟨_, rfl⟩
    next hname =>
      by_cases hcol : colon ∈ str.text
      · have hfind : find (chars ":") str.text = some (Text.upTo colon str.text).length :=
          find_mem hcol
        simp only [hfind, substr_host hat hcol, substr_port hcol, NodeError.lift_ok, ok_bind]
        split
        · exact ⟨_, rfl⟩
        next hhost =>
          split
          · exact ⟨_, rfl⟩
          next hport =>
            exact absurd ⟨hat, hcol, mt trim_length_eq_zero.mpr hname,
              mt trim_length_eq_zero.mpr hhost, mt trim_length_eq_zero.mpr hport⟩ h
      · have hfind : find (chars ":") str.text = none := find_not_mem hcol
        simp only [hfind]
        exact ⟨_, rfl⟩
  · have hfind : find (chars "@") str.text = none := find_not_mem hat
    simp only [createNodeFromString, hfind]
    exact ⟨_, rfl⟩

/-! ### The grammar -/

def Numeral (s : Bytes) (n : ℕ) : Prop := s ≠ [] ∧ (∀ c ∈ s, isDigit c = true) ∧ numeral s = n

def IsPort (s : Bytes) : Prop := ∃ n ≤ 65535, Numeral s n

theorem atoi_of_numeral {s : Bytes} {n : ℕ} (hn : n ≤ 65535) (h : Numeral s n) :
    (atoi s).toNat = n := by
  obtain ⟨h0, hdigits, hval⟩ := h
  rw [atoi, strtol_of_digits h0 hdigits (by omega), hval, BitVec.ofInt_natCast, BitVec.toNat_ofNat]
  omega

/-- `str` is `name@host:port` for the three values of `r`, up to white space. -/
structure Spells (str : Bytes) (r : INode) : Prop where
  name_ne : r.name ≠ []
  name_at : atSign ∉ r.name
  host_ne : r.host ≠ []
  host_colon : colon ∉ r.host
  port_le : r.port.toNat ≤ 65535
  split : ∃ name host port, str = name ++ atSign :: (host ++ colon :: port) ∧ trim name = r.name ∧
    trim host = r.host ∧ Numeral (trim port) r.port.toNat

def Conforms (str : Bytes) : Prop :=
  (∃ e, createNodeFromString str = .error e ∧ e.IsThrown) ∨
    ∃ r, createNodeFromString str = .ok r ∧ Spells str r

theorem hashable_name (r : INode) : ID.Hashable r.name := ID.hashable_of_eq_some r.id_eq

theorem exists_node {name : Bytes} (h : ID.Hashable name) (host : Bytes) (port : BitVec 32) :
    ∃ r : INode, r.name = name ∧ r.host = host ∧ r.port = port := by
  cases hid : ID.ofString name with
  | none => exact absurd h (ID.ofString_eq_none.mp hid)
  | some id => exact ⟨⟨name, host, port, id, hid⟩, rfl, rfl, rfl⟩

theorem createNodeFromString_eq_ok {str : Argument} {r : INode} :
    createNodeFromString str.text = .ok r ↔ Accepts str.text ∧ r.name = trim (nameText str.text) ∧
      r.host = trim (hostText str.text) ∧ r.port = atoi (trim (portText str.text)) := by
  by_cases hacc : Accepts str.text
  · rw [createNodeFromString_eq hacc, NodeError.lift_eq_ok, INode.new_eq_ok, and_iff_right hacc]
  · obtain ⟨what, h⟩ := createNodeFromString_refuses hacc
    rw [h]
    exact ⟨fun he => (by cases he), fun he => absurd he.1 hacc⟩

theorem thrown_iff (str : Argument) :
    (∃ e, createNodeFromString str.text = .error e ∧ e.IsThrown) ↔ ¬ Accepts str.text := by
  constructor
  · rintro ⟨e, he, hthrown⟩ hacc
    rw [createNodeFromString_eq hacc] at he
    unfold INode.new at he
    split at he <;> cases he
    cases hthrown
  · intro hacc
    obtain ⟨what, h⟩ := createNodeFromString_refuses hacc
    exact ⟨_, h, trivial⟩

/-- The separators of a spelling are the ones the code should take. -/
theorem Spells.parts {str : Bytes} {r : INode} (h : Spells str r) :
    trim (Text.past atSign str) ≠ r.host ∧ IsPort (trim (Text.past colon (Text.past atSign str))) := by
  obtain ⟨name, host, port, rfl, hname, hhost, hport⟩ := h.split
  have hat : atSign ∉ name := by
    rw [← atSign_mem_trim, hname]
    exact h.name_at
  have hcol : colon ∉ host := by
    rw [← colon_mem_trim, hhost]
    exact h.host_colon
  rw [Text.past_append hat, Text.past_append hcol]
  refine ⟨?_, _, h.port_le, hport⟩
  intro he
  have hmem : colon ∈ trim (host ++ colon :: port) := by
    rw [colon_mem_trim]
    exact List.mem_append_right host (List.mem_cons_self ..)
  rw [he] at hmem
  exact h.host_colon hmem

theorem spells_iff {str : Argument} (hacc : Accepts str.text) {r : INode}
    (hname : r.name = trim (nameText str.text)) (hhost : r.host = trim (hostText str.text))
    (hport : r.port = atoi (trim (portText str.text))) :
    Spells str.text r ↔ colon ∉ nameText str.text ∧ IsPort (trim (portText str.text)) := by
  have hne : colon ≠ atSign := by decide
  constructor
  · intro h
    obtain ⟨hrest, hnum⟩ := h.parts
    have hcol : colon ∉ nameText str.text := by
      intro hmem
      rw [hhost, hostText, if_pos hmem] at hrest
      exact hrest rfl
    rw [portText, Text.past_of_not_mem_upTo hacc.atSign_mem hacc.colon_mem hne hcol]
    exact ⟨hcol, hnum⟩
  · rintro ⟨hcol, n, hn, hnum⟩
    have hval := atoi_of_numeral hn hnum
    rw [← hport] at hval
    have hhost' : hostText str.text = Text.upTo colon (Text.past atSign str.text) := if_neg hcol
    have hpast := Text.past_of_not_mem_upTo hacc.atSign_mem hacc.colon_mem hne hcol
    have hmem := Text.mem_past hacc.atSign_mem hacc.colon_mem hne hcol
    refine ⟨r.name_ne_nil, ?_, ?_, ?_, ?_, nameText str.text, hostText str.text,
      portText str.text, ?_, hname.symm, hhost.symm, ?_⟩
    · rw [hname, atSign_mem_trim]
      exact Text.not_mem_upTo atSign str.text
    · rw [hhost]
      exact mt Text.trim_eq_nil.mp hacc.host
    · rw [hhost, hhost', colon_mem_trim]
      exact Text.not_mem_upTo colon _
    · rw [hval]
      exact hn
    · rw [hhost', portText, hpast, Text.upTo_append_past hmem]
      exact (Text.upTo_append_past hacc.atSign_mem).symm
    · rw [hval]
      exact hnum

theorem conforms_iff (str : Argument) :
    Conforms str.text ↔ ¬ Accepts str.text ∨
      (colon ∉ nameText str.text ∧ IsPort (trim (portText str.text)) ∧
        ID.Hashable (trim (nameText str.text))) := by
  rw [Conforms, thrown_iff]
  constructor
  · rintro (hacc | ⟨r, hr, hspell⟩)
    · exact Or.inl hacc
    · obtain ⟨hacc, hname, hhost, hport⟩ := createNodeFromString_eq_ok.mp hr
      obtain ⟨hcol, hnum⟩ := (spells_iff hacc hname hhost hport).mp hspell
      refine Or.inr ⟨hcol, hnum, ?_⟩
      rw [← hname]
      exact hashable_name r
  · rintro (hacc | ⟨hcol, hnum, hhash⟩)
    · exact Or.inl hacc
    · by_cases hacc : Accepts str.text
      · obtain ⟨r, hname, hhost, hport⟩ := exists_node hhash (trim (hostText str.text))
          (atoi (trim (portText str.text)))
        exact Or.inr ⟨r, createNodeFromString_eq_ok.mpr ⟨hacc, hname, hhost, hport⟩,
          (spells_iff hacc hname hhost hport).mpr ⟨hcol, hnum⟩⟩
      · exact Or.inl hacc

/-- A name, a host and a port as the usage text has them, with any white space. -/
structure NodeText where
  name : Bytes
  host : Bytes
  port : Bytes
  name_ne : trim name ≠ []
  name_at : atSign ∉ name
  host_ne : trim host ≠ []
  host_colon : colon ∉ host
  port_is : IsPort (trim port)
  length_lt : (name ++ atSign :: (host ++ colon :: port)).length < 2 ^ 63

namespace NodeText

def argument (t : NodeText) : Argument := ⟨t.name ++ atSign :: (t.host ++ colon :: t.port), t.length_lt⟩

def Yields (t : NodeText) : Prop :=
  ∃ r, createNodeFromString t.argument.text = .ok r ∧ r.name = trim t.name ∧
    r.host = trim t.host ∧ Numeral (trim t.port) r.port.toNat

theorem nameText_argument (t : NodeText) : nameText t.argument.text = t.name :=
  Text.upTo_append t.name_at

theorem past_argument (t : NodeText) :
    Text.past atSign t.argument.text = t.host ++ colon :: t.port :=
  Text.past_append t.name_at

theorem atSign_mem (t : NodeText) : atSign ∈ t.argument.text :=
  List.mem_append_right t.name (List.mem_cons_self ..)

theorem colon_mem (t : NodeText) : colon ∈ t.argument.text := by
  refine List.mem_append_right t.name (List.mem_cons_of_mem _ ?_)
  exact List.mem_append_right t.host (List.mem_cons_self ..)

theorem hostText_argument {t : NodeText} (h : colon ∉ t.name) : hostText t.argument.text = t.host := by
  rw [hostText, nameText_argument, if_neg h, past_argument, Text.upTo_append t.host_colon]

theorem portText_argument {t : NodeText} (h : colon ∉ t.name) : portText t.argument.text = t.port := by
  rw [← nameText_argument] at h
  rw [portText, Text.past_of_not_mem_upTo t.atSign_mem t.colon_mem (by decide) h, past_argument,
    Text.past_append t.host_colon]

theorem accepts {t : NodeText} (h : colon ∉ t.name) : Accepts t.argument.text := by
  obtain ⟨n, _, hne, _⟩ := t.port_is
  refine ⟨t.atSign_mem, t.colon_mem, ?_, ?_, ?_⟩
  · rw [nameText_argument]
    exact mt Text.trim_of_blank t.name_ne
  · rw [hostText_argument h]
    exact mt Text.trim_of_blank t.host_ne
  · rw [portText_argument h]
    exact mt Text.trim_of_blank hne

theorem yields_iff (t : NodeText) : t.Yields ↔ colon ∉ t.name ∧ ID.Hashable (trim t.name) := by
  constructor
  · rintro ⟨r, hr, hname, hhost, _⟩
    obtain ⟨_, _, hhost', _⟩ := createNodeFromString_eq_ok.mp hr
    refine ⟨fun hmem => ?_, ?_⟩
    · -- the host would run to the end of the string, over the second colon
      rw [hhost, hostText, nameText_argument, if_pos hmem, past_argument] at hhost'
      have hin : colon ∈ trim (t.host ++ colon :: t.port) := by
        rw [colon_mem_trim]
        exact List.mem_append_right t.host (List.mem_cons_self ..)
      rw [← hhost', colon_mem_trim] at hin
      exact t.host_colon hin
    · rw [← hname]
      exact hashable_name r
  · rintro ⟨hcol, hhash⟩
    obtain ⟨n, hn, hnum⟩ := t.port_is
    obtain ⟨r, hname, hhost, hport⟩ := exists_node hhash (trim t.host) (atoi (trim t.port))
    refine ⟨r, createNodeFromString_eq_ok.mpr ⟨accepts hcol, ?_, ?_, ?_⟩, hname, hhost, ?_⟩
    · rw [nameText_argument, hname]
    · rw [hostText_argument hcol, hhost]
    · rw [portText_argument hcol, hport]
    · rw [hport, atoi_of_numeral hn hnum]
      exact hnum

end NodeText

/-- When the strings and the nodes agree, in both directions. -/
theorem createNodeFromString_iff (str : Argument) (t : NodeText) :
    (Conforms str.text ↔ ¬ Accepts str.text ∨
      (colon ∉ nameText str.text ∧ IsPort (trim (portText str.text)) ∧
        ID.Hashable (trim (nameText str.text)))) ∧
    (t.Yields ↔ colon ∉ t.name ∧ ID.Hashable (trim t.name)) :=
  ⟨conforms_iff str, t.yields_iff⟩

/-- The port of "a@b:80x" is taken to be 80. -/
theorem port_with_a_tail :
    (∃ r, createNodeFromString (chars "a@b:80x") = .ok r ∧ r.port = 80) ∧
      ¬ Conforms (chars "a@b:80x") := by
  have hacc : Accepts (chars "a@b:80x") := by
    refine ⟨by decide, by decide, ?_, ?_, ?_⟩ <;> rw [Text.Blank] <;> decide
  constructor
  · obtain ⟨r, hname, hhost, hport⟩ := exists_node
      (@ID.hashable_of_length (chars "a") (by decide) (by decide)) (chars "b") 80
    exact ⟨r, (@createNodeFromString_eq_ok ⟨chars "a@b:80x", by decide⟩ r).mpr
      ⟨hacc, hname, hhost, hport⟩, hport⟩
  · rw [conforms_iff ⟨chars "a@b:80x", by decide⟩]
    rintro (h | ⟨_, ⟨n, _, _, hdigits, _⟩, _⟩)
    · exact h hacc
    · exact absurd (hdigits 120#8 (by decide)) (by decide)

end ChordChat
