/-
SyncServiceUi/SerializerBuffers.lean

`serializer::dump` of nlohmann json 3.11.3 as it runs
(`src/dependencies/json/json.hpp`): with the output it appends to and the
three buffers that live as long as the serializer does, those of the strings,
of the numbers and of the indentation.

The indentation is cut from a string of blanks, 512 at first, that a nested
value makes twice as long when it is too short, once and without a second
look.  Twice is enough at every depth if it is enough at the first
(`Output.Room`), so the text is the one of `Serializer.dump` as long as the
step is not above 1024; with a larger step the first nested value reads
behind the end of the blanks (`basic_json_dump_eq`).  Up to there whatever is
well formed is read back from what is written, floating-point numbers
included (`parse_dump_iff`).
-/
import SyncServiceUi.FloatBuffer

namespace SyncServiceUi

namespace Serializer

open Binary64 Completion Lexer

/-! ### The output and the buffers -/

/-- What a serializer writes to, and its buffers. -/
structure Output where
  o : Bytes
  string_buffer : Vector UInt8 512
  number_buffer : Vector UInt8 64
  indent_string : Bytes
  /-- Nothing but `indent_char`. -/
  blank : ∀ c ∈ indent_string, c = 0x20

namespace Output

/-- The constructor of the serializer. -/
def start : Output where
  o := []
  string_buffer := .replicate 512 0
  number_buffer := .replicate 64 0
  indent_string := List.replicate 512 0x20
  blank := fun _ h => List.eq_of_mem_replicate h

def write_characters (s : Output) (text : String) : Output :=
  { s with o := s.o ++ utf8 text }

def write_escaped (s : Output) (text : String) : Except Error Output := do
  let (o, string_buffer) ← dump_escaped s.o s.string_buffer (utf8 text)
  return { s with o, string_buffer }

/-- A `number_integer_t` as far as that type goes, a `number_unsigned_t`
above. -/
def write_integer (s : Output) (n : ℤ) : Except Error Output := do
  let (o, number_buffer) ←
    if n < 2 ^ 63 then dump_signed s.o s.number_buffer (Int64.ofInt n)
    else dump_unsigned s.o s.number_buffer (UInt64.ofNat n.toNat)
  return { s with o, number_buffer }

def write_float (s : Output) (d : Double) : Except Error Output := do
  let (o, number_buffer) ← dump_float s.o s.number_buffer d
  return { s with o, number_buffer }

/-- The first characters of `indent_string`.  What lies behind them counts as
beyond the end, also the NUL that `std::string` keeps there. -/
def write_indent (s : Output) (pretty_print : Bool) (indent : ℕ) : Except Error Output :=
  if pretty_print then
    if indent ≤ s.indent_string.length then
      .ok { s with o := s.o ++ s.indent_string.take indent }
    else .error .overflow
  else .ok s

/-- Make `indent_string` twice as long if it is too short. -/
def resize (s : Output) (pretty_print : Bool) (new_indent : ℕ) : Output :=
  if pretty_print = true ∧ s.indent_string.length < new_indent then
    { s with
      indent_string := s.indent_string ++ List.replicate s.indent_string.length 0x20
      blank := fun c h => (List.mem_append.mp h).elim (s.blank c) List.eq_of_mem_replicate }
  else s

end Output

/-! ### The recursion -/

/-- `new_indent`.  It is an `unsigned int` in the source and cannot get
anywhere near the end of that type before the recursion runs out of stack. -/
def newIndent (pretty_print : Bool) (indent_step current_indent : ℕ) : ℕ :=
  if pretty_print then current_indent + indent_step else current_indent

mutual

def write (pretty_print : Bool) (indent_step : ℕ) :
    Json → ℕ → Output → Except Error Output
  | .null, _, s => .ok (s.write_characters "null")
  | .boolean true, _, s => .ok (s.write_characters "true")
  | .boolean false, _, s => .ok (s.write_characters "false")
  | .number_integer n, _, s => s.write_integer n
  | .number_float d, _, s => s.write_float d
  | .string text, _, s => do
      let s ← (s.write_characters "\"").write_escaped text
      return s.write_characters "\""
  | .array items, current_indent, s =>
      if items.isEmpty then .ok (s.write_characters "[]")
      else do
        let s := s.write_characters ("[" ++ lineBreak pretty_print)
        let new_indent := newIndent pretty_print indent_step current_indent
        let s ← writeItems pretty_print indent_step items new_indent
          (s.resize pretty_print new_indent)
        let s ← (s.write_characters (lineBreak pretty_print)).write_indent pretty_print current_indent
        return s.write_characters "]"
  | .object members, current_indent, s =>
      if members.isEmpty then .ok (s.write_characters "\x7b\x7d")
      else do
        let s := s.write_characters ("\x7b" ++ lineBreak pretty_print)
        let new_indent := newIndent pretty_print indent_step current_indent
        let s ← writeMembers pretty_print indent_step members new_indent
          (s.resize pretty_print new_indent)
        let s ← (s.write_characters (lineBreak pretty_print)).write_indent pretty_print current_indent
        return s.write_characters "\x7d"

def writeItems (pretty_print : Bool) (indent_step : ℕ) :
    List Json → ℕ → Output → Except Error Output
  | [], _, s => .ok s
  -- last element
  | [j], new_indent, s => do
      let s ← s.write_indent pretty_print new_indent
      write pretty_print indent_step j new_indent s
  | j :: js, new_indent, s => do
      let s ← s.write_indent pretty_print new_indent
      let s ← write pretty_print indent_step j new_indent s
      writeItems pretty_print indent_step js new_indent
        (s.write_characters ("," ++ lineBreak pretty_print))

def writeMembers (pretty_print : Bool) (indent_step : ℕ) :
    List (String × Json) → ℕ → Output → Except Error Output
  | [], _, s => .ok s
  -- last element
  | [(k, j)], new_indent, s => do
      let s ← s.write_indent pretty_print new_indent
      let s ← (s.write_characters "\"").write_escaped k
      write pretty_print indent_step j new_indent
        (s.write_characters ("\"" ++ colon pretty_print))
  | (k, j) :: ms, new_indent, s => do
      let s ← s.write_indent pretty_print new_indent
      let s ← (s.write_characters "\"").write_escaped k
      let s ← write pretty_print indent_step j new_indent
        (s.write_characters ("\"" ++ colon pretty_print))
      writeMembers pretty_print indent_step ms new_indent
        (s.write_characters ("," ++ lineBreak pretty_print))

end

/-- `basic_json::dump`: a negative `indent` asks for the compact layout. -/
def basic_json_dump (j : Json) (indent : ℤ) : Except Error Bytes := do
  let s ←
    if 0 ≤ indent then write true indent.toNat j 0 .start
    else write false 0 j 0 .start
  return s.o

/-- An array or an object with something in it. -/
def nested : Json → Bool
  | .array items => !items.isEmpty
  | .object members => !members.isEmpty
  | _ => false

/-! ### What is written -/

/-- `s'` is `s` with a text behind the output, and no fewer blanks. -/
structure Output.Writes (s s' : Output) (text : String) : Prop where
  o : s'.o = s.o ++ utf8 text
  length : s.indent_string.length ≤ s'.indent_string.length

namespace Output

theorem Writes.trans {s s' s'' : Output} {text text' : String} (h : s.Writes s' text)
    (h' : s'.Writes s'' text') : s.Writes s'' (text ++ text') where
  o := by rw [h'.o, h.o, utf8_append, List.append_assoc]
  length := h.length.trans h'.length

theorem writes_characters (s : Output) (text : String) :
    s.Writes (s.write_characters text) text :=
  ⟨rfl, le_refl _⟩

theorem write_escaped_spec (s : Output) (text : String) :
    ∃ s', s.write_escaped text = .ok s' ∧
      s.Writes s' (String.ofList (text.toList.flatMap Json.escapeChar)) := by
  obtain ⟨string_buffer, hdump⟩ := dump_escaped_encode s.o s.string_buffer text.toList
  have hutf8 : utf8 text = Utf8.encode text.toList := rfl
  refine ⟨{ s with
    o := s.o ++ Utf8.encode (text.toList.flatMap Json.escapeChar), string_buffer }, ?_, ?_, le_refl _⟩
  · rw [write_escaped, hutf8, hdump]
    rfl
  · show _ = _ ++ Utf8.encode _
    rw [String.toList_ofList]

/-- A string with its quotes. -/
theorem write_string_spec (s : Output) (text after : String) :
    ∃ s', (s.write_characters "\"").write_escaped text = .ok s' ∧
      s.Writes (s'.write_characters ("\"" ++ after)) (Json.dump_string text ++ after) := by
  obtain ⟨s', hescaped, hwrites⟩ := (s.write_characters "\"").write_escaped_spec text
  refine ⟨s', hescaped, ?_⟩
  have hall := ((s.writes_characters "\"").trans hwrites).trans
    (s'.writes_characters ("\"" ++ after))
  rw [← String.append_assoc] at hall
  exact hall

theorem write_integer_spec (s : Output) {n : ℤ} (h : -2 ^ 63 ≤ n ∧ n < 2 ^ 64) :
    ∃ s', s.write_integer n = .ok s' ∧ s.Writes s' (Json.dump_integer n) := by
  unfold write_integer
  by_cases hlt : n < 2 ^ 63
  · have hint : (Int64.ofInt n).toInt = n := Int64.toInt_ofInt_of_le h.1 hlt
    obtain ⟨number_buffer, hdump⟩ := dump_signed_spec s.o s.number_buffer (Int64.ofInt n)
    rw [hint] at hdump
    rw [if_pos hlt, hdump]
    exact ⟨_, rfl, rfl, le_refl _⟩
  · have hnat : ((UInt64.ofNat n.toNat).toNat : ℤ) = n := by
      rw [UInt64.toNat_ofNat_of_lt' (by unfold UInt64.size; omega)]
      omega
    obtain ⟨number_buffer, hdump⟩ :=
      dump_unsigned_spec s.o s.number_buffer (UInt64.ofNat n.toNat)
    rw [hnat] at hdump
    rw [if_neg hlt, hdump]
    exact ⟨_, rfl, rfl, le_refl _⟩

theorem write_float_spec (s : Output) (d : Double) :
    ∃ s', s.write_float d = .ok s' ∧ s.Writes s' (float_text d) := by
  obtain ⟨-, -, -, hdump⟩ := float_text_spec d
  obtain ⟨number_buffer, hbuffer⟩ := hdump s.o s.number_buffer
  rw [write_float, hbuffer]
  exact ⟨_, rfl, rfl, le_refl _⟩

theorem take_indent_string (s : Output) {indent : ℕ} (h : indent ≤ s.indent_string.length) :
    s.indent_string.take indent = utf8 (indentation true indent) := by
  have hblanks : s.indent_string.take indent = List.replicate indent 0x20 := by
    rw [List.eq_replicate_iff, List.length_take, min_eq_left h]
    exact ⟨rfl, fun c hc => s.blank c (List.mem_of_mem_take hc)⟩
  show _ = Utf8.encode (String.ofList (List.replicate indent ' ')).toList
  rw [hblanks, String.toList_ofList]
  clear h hblanks
  induction indent with
  | zero => rfl
  | succ n ih =>
      rw [List.replicate_succ, List.replicate_succ, Utf8.encode_cons, ← ih]
      rfl

/-! ### The room for the indentation -/

/-- A value at this depth can be indented, and what is nested in it, if
`indent_string` is made twice as long. -/
def Room (s : Output) (pretty_print : Bool) (indent_step current_indent : ℕ) : Prop :=
  pretty_print = true → current_indent ≤ s.indent_string.length ∧
    current_indent + indent_step ≤ 2 * s.indent_string.length

theorem Room.mono {s s' : Output} {pretty_print : Bool} {indent_step current_indent : ℕ}
    (h : s.Room pretty_print indent_step current_indent)
    (hle : s.indent_string.length ≤ s'.indent_string.length) :
    s'.Room pretty_print indent_step current_indent := by
  intro hpretty
  have hroom := h hpretty
  omega

theorem write_indent_spec (s : Output) {pretty_print : Bool} {indent_step current_indent : ℕ}
    (h : s.Room pretty_print indent_step current_indent) :
    ∃ s', s.write_indent pretty_print current_indent = .ok s' ∧
      s.Writes s' (indentation pretty_print current_indent) := by
  cases pretty_print with
  | false =>
      refine ⟨s, rfl, ?_, le_refl _⟩
      exact (List.append_nil _).symm
  | true =>
      refine ⟨{ s with o := s.o ++ s.indent_string.take current_indent }, ?_, ?_, le_refl _⟩
      · rw [write_indent, if_pos rfl, if_pos (h rfl).1]
      · rw [s.take_indent_string (h rfl).1]

/-- Once is enough: the step is not longer than what it was added to make. -/
theorem Room.resize {s : Output} {pretty_print : Bool} {indent_step current_indent : ℕ}
    (h : s.Room pretty_print indent_step current_indent) :
    (s.resize pretty_print (newIndent pretty_print indent_step current_indent)).Room pretty_print
      indent_step (newIndent pretty_print indent_step current_indent) := by
  intro hpretty
  subst hpretty
  have hroom := h rfl
  have hindent : newIndent true indent_step current_indent = current_indent + indent_step := rfl
  rw [hindent]
  unfold Output.resize
  split
  · rw [List.length_append, List.length_replicate]
    omega
  next hlong =>
    have hlong' : ¬ s.indent_string.length < current_indent + indent_step := fun hlt =>
      hlong ⟨rfl, hlt⟩
    omega

theorem writes_resize (s : Output) (pretty_print : Bool) (new_indent : ℕ) :
    s.Writes (s.resize pretty_print new_indent) "" := by
  unfold Output.resize
  split
  · refine ⟨(List.append_nil _).symm, ?_⟩
    rw [List.length_append]
    exact Nat.le_add_right ..
  · exact ⟨(List.append_nil _).symm, le_refl _⟩

end Output

/-! ### The text -/

theorem dumpItems_newIndent (pretty_print : Bool) (indent_step current_indent : ℕ)
    (js : List Json) :
    dumpItems library pretty_print indent_step js (newIndent pretty_print indent_step current_indent) =
      dumpItems library pretty_print indent_step js (current_indent + indent_step) := by
  cases pretty_print with
  | true => rfl
  | false => rw [dumpItems_compact, dumpItems_compact]

theorem dumpMembers_newIndent (pretty_print : Bool)
    (indent_step current_indent : ℕ) (ms : List (String × Json)) :
    dumpMembers library pretty_print indent_step ms (newIndent pretty_print indent_step current_indent) =
      dumpMembers library pretty_print indent_step ms (current_indent + indent_step) := by
  cases pretty_print with
  | true => rfl
  | false => rw [dumpMembers_compact, dumpMembers_compact]

/-- The brackets around what `f` writes. -/
theorem enclose_spec {pretty_print : Bool} {indent_step current_indent : ℕ} {s : Output}
    {f : Output → Except Error Output} {text : String} (before after : String)
    (hroom : s.Room pretty_print indent_step current_indent)
    (hf : ∀ s : Output,
      s.Room pretty_print indent_step (newIndent pretty_print indent_step current_indent) →
      ∃ s', f s = .ok s' ∧ s.Writes s' text) :
    ∃ s', (do
        let s ← f ((s.write_characters (before ++ lineBreak pretty_print)).resize pretty_print
          (newIndent pretty_print indent_step current_indent))
        let s ← (s.write_characters (lineBreak pretty_print)).write_indent pretty_print current_indent
        return s.write_characters after) = .ok s' ∧
      s.Writes s' (before ++ lineBreak pretty_print ++ text ++ lineBreak pretty_print ++
        indentation pretty_print current_indent ++ after) := by
  obtain ⟨s₁, hs₁⟩ : ∃ s₁, s.write_characters (before ++ lineBreak pretty_print) = s₁ := ⟨_, rfl⟩
  have hopened : s.Writes s₁ (before ++ lineBreak pretty_print) := hs₁ ▸ s.writes_characters _
  obtain ⟨s₂, hs₂⟩ : ∃ s₂,
    s₁.resize pretty_print (newIndent pretty_print indent_step current_indent) = s₂ := ⟨_, rfl⟩
  have hresized : s₁.Writes s₂ "" := hs₂ ▸ s₁.writes_resize ..
  obtain ⟨s₃, hwrite, hwrites⟩ := hf s₂ (hs₂ ▸ (hroom.mono hopened.length).resize)
  have hclosed := s₃.writes_characters (lineBreak pretty_print)
  have hwritten := ((hopened.trans hresized).trans hwrites).trans hclosed
  obtain ⟨s₄, hindent, hindents⟩ := (s₃.write_characters (lineBreak pretty_print)).write_indent_spec
    (hroom.mono hwritten.length)
  refine ⟨s₄.write_characters after, ?_, ?_⟩
  · rw [hs₁, hs₂, hwrite, ok_bind, hindent]
    rfl
  · have hall := (hwritten.trans hindents).trans (s₄.writes_characters after)
    rwa [String.append_empty] at hall

mutual

/-- The text goes behind the output. -/
theorem write_spec (pretty_print : Bool) (indent_step : ℕ) :
    ∀ (j : Json) (current_indent : ℕ) (s : Output), j.WellFormed →
      (nested j = true → s.Room pretty_print indent_step current_indent) →
      ∃ s', write pretty_print indent_step j current_indent s = .ok s' ∧
        s.Writes s' (dump library pretty_print indent_step j current_indent)
  | .null, _, s, _, _ => ⟨_, rfl, s.writes_characters _⟩
  | .boolean true, _, s, _, _ => ⟨_, rfl, s.writes_characters _⟩
  | .boolean false, _, s, _, _ => ⟨_, rfl, s.writes_characters _⟩
  | .number_integer n, _, s, hj, _ => s.write_integer_spec hj
  | .number_float d, _, s, _, _ => s.write_float_spec d
  | .string text, _, s, _, _ => by
      obtain ⟨s', hwrite, hwrites⟩ := s.write_string_spec text ""
      rw [String.append_empty, String.append_empty] at hwrites
      refine ⟨_, ?_, hwrites⟩
      rw [write, hwrite]
      rfl
  | .array [], _, s, _, _ => by
      refine ⟨s.write_characters "[]", ?_, s.writes_characters _⟩
      rw [write]
      rfl
  | .array (j :: js), current_indent, s, hj, hroom => by
      rw [write, dump, if_neg (by simp), if_neg (by simp), ← dumpItems_newIndent]
      exact enclose_spec "[" "]" (hroom rfl) fun s hroom =>
        writeItems_spec pretty_print indent_step (j :: js) _ s hj hroom
  | .object [], _, s, _, _ => by
      refine ⟨s.write_characters "\x7b\x7d", ?_, s.writes_characters _⟩
      rw [write]
      rfl
  | .object (m :: ms), current_indent, s, hj, hroom => by
      rw [write, dump, if_neg (by simp), if_neg (by simp), ← dumpMembers_newIndent]
      exact enclose_spec "\x7b" "\x7d" (hroom rfl) fun s hroom =>
        writeMembers_spec pretty_print indent_step (m :: ms) _ s hj.2 hroom

theorem writeItems_spec (pretty_print : Bool) (indent_step : ℕ) :
    ∀ (js : List Json) (new_indent : ℕ) (s : Output), Json.WellFormedItems js →
      s.Room pretty_print indent_step new_indent →
      ∃ s', writeItems pretty_print indent_step js new_indent s = .ok s' ∧
        s.Writes s' (dumpItems library pretty_print indent_step js new_indent)
  | [], _, s, _, _ => ⟨s, rfl, (List.append_nil _).symm, le_refl _⟩
  | [j], new_indent, s, hjs, hroom => by
      obtain ⟨s₁, hindent, hindents⟩ := s.write_indent_spec hroom
      obtain ⟨s₂, hwrite, hwrites⟩ := write_spec pretty_print indent_step j new_indent s₁ hjs.1
        fun _ => hroom.mono hindents.length
      refine ⟨s₂, ?_, ?_⟩
      · rw [writeItems, hindent]
        exact hwrite
      · rw [dumpItems]
        exact hindents.trans hwrites
  | j :: j' :: js, new_indent, s, hjs, hroom => by
      obtain ⟨s₁, hindent, hindents⟩ := s.write_indent_spec hroom
      obtain ⟨s₂, hwrite, hwrites⟩ := write_spec pretty_print indent_step j new_indent s₁ hjs.1
        fun _ => hroom.mono hindents.length
      have hfirst := (hindents.trans hwrites).trans
        (s₂.writes_characters ("," ++ lineBreak pretty_print))
      obtain ⟨s₃, hrest, hrests⟩ := writeItems_spec pretty_print indent_step (j' :: js) new_indent
        (s₂.write_characters ("," ++ lineBreak pretty_print)) hjs.2 (hroom.mono hfirst.length)
      refine ⟨s₃, ?_, ?_⟩
      · rw [writeItems, hindent, ok_bind, hwrite]
        · exact hrest
        · simp
      · have hall := hfirst.trans hrests
        rw [dumpItems]
        · rwa [← String.append_assoc] at hall
        · simp

theorem writeMembers_spec (pretty_print : Bool) (indent_step : ℕ) :
    ∀ (ms : List (String × Json)) (new_indent : ℕ) (s : Output), Json.WellFormedMembers ms →
      s.Room pretty_print indent_step new_indent →
      ∃ s', writeMembers pretty_print indent_step ms new_indent s = .ok s' ∧
        s.Writes s' (dumpMembers library pretty_print indent_step ms new_indent)
  | [], _, s, _, _ => ⟨s, rfl, (List.append_nil _).symm, le_refl _⟩
  | [(k, j)], new_indent, s, hms, hroom => by
      obtain ⟨s₁, hindent, hindents⟩ := s.write_indent_spec hroom
      obtain ⟨s₂, hkey, hkeys⟩ := s₁.write_string_spec k (colon pretty_print)
      have hfirst := hindents.trans hkeys
      obtain ⟨s₃, hwrite, hwrites⟩ := write_spec pretty_print indent_step j new_indent _ hms.1
        fun _ => hroom.mono hfirst.length
      refine ⟨s₃, ?_, ?_⟩
      · rw [writeMembers, hindent, ok_bind, hkey]
        exact hwrite
      · have hall := hfirst.trans hwrites
        rw [dumpMembers]
        rwa [← String.append_assoc] at hall
  | (k, j) :: m :: ms, new_indent, s, hms, hroom => by
      obtain ⟨s₁, hindent, hindents⟩ := s.write_indent_spec hroom
      obtain ⟨s₂, hkey, hkeys⟩ := s₁.write_string_spec k (colon pretty_print)
      have hkeyed := hindents.trans hkeys
      obtain ⟨s₃, hwrite, hwrites⟩ := write_spec pretty_print indent_step j new_indent _ hms.1
        fun _ => hroom.mono hkeyed.length
      have hfirst := (hkeyed.trans hwrites).trans
        (s₃.writes_characters ("," ++ lineBreak pretty_print))
      obtain ⟨s₄, hrest, hrests⟩ := writeMembers_spec pretty_print indent_step (m :: ms) new_indent
        _ hms.2 (hroom.mono hfirst.length)
      refine ⟨s₄, ?_, ?_⟩
      · rw [writeMembers, hindent, ok_bind, hkey, ok_bind, hwrite]
        · exact hrest
        · simp
      · have hall := hfirst.trans hrests
        rw [dumpMembers]
        · rwa [← String.append_assoc, ← String.append_assoc] at hall
        · simp

end

/-! ### The outcome -/

/-- The step is longer than the blanks are even then. -/
theorem write_indent_overflow {indent_step : ℕ} (h : 1024 < indent_step) (text : String) :
    ((Output.start.write_characters text).resize true (newIndent true indent_step 0)).write_indent
      true (newIndent true indent_step 0) = .error .overflow := by
  have hindent : newIndent true indent_step 0 = indent_step := Nat.zero_add _
  have hlength : (Output.start.write_characters text).indent_string.length = 512 :=
    List.length_replicate
  have hresized : ((Output.start.write_characters text).resize true indent_step).indent_string.length =
      1024 := by
    unfold Output.resize
    rw [if_pos ⟨rfl, by omega⟩, List.length_append, List.length_replicate, hlength]
  rw [hindent, Output.write_indent, if_pos rfl, if_neg (by omega)]

theorem write_overflow {indent_step : ℕ} (h : 1024 < indent_step) {j : Json}
    (hj : nested j = true) : write true indent_step j 0 .start = .error .overflow := by
  match j with
  | .array (j :: js) =>
      have hitems : writeItems true indent_step (j :: js) (newIndent true indent_step 0)
          ((Output.start.write_characters ("[" ++ lineBreak true)).resize true
            (newIndent true indent_step 0)) = .error .overflow := by
        cases js with
        | nil =>
            rw [writeItems, write_indent_overflow h]
            rfl
        | cons j' js =>
            rw [writeItems, write_indent_overflow h]
            · rfl
            · simp
      rw [write, if_neg (by simp)]
      dsimp only
      rw [hitems]
      rfl
  | .object ((k, j) :: ms) =>
      have hmembers : writeMembers true indent_step ((k, j) :: ms) (newIndent true indent_step 0)
          ((Output.start.write_characters ("\x7b" ++ lineBreak true)).resize true
            (newIndent true indent_step 0)) = .error .overflow := by
        cases ms with
        | nil =>
            rw [writeMembers, write_indent_overflow h]
            rfl
        | cons m ms =>
            rw [writeMembers, write_indent_overflow h]
            · rfl
            · simp
      rw [write, if_neg (by simp)]
      dsimp only
      rw [hmembers]
      rfl

theorem basic_json_dump_overflow {j : Json} {indent : ℤ}
    (h : 1024 < indent ∧ nested j = true) : basic_json_dump j indent = .error .overflow := by
  rw [basic_json_dump, if_pos (by omega), write_overflow (by omega) h.2]
  rfl

theorem basic_json_dump_of_wellFormed {j : Json} (hj : j.WellFormed) {indent : ℤ}
    (h : ¬ (1024 < indent ∧ nested j = true)) :
    basic_json_dump j indent =
      .ok (utf8 (if 0 ≤ indent then dump library true indent.toNat j 0 else j.dump library)) := by
  have hlength : Output.start.indent_string.length = 512 := List.length_replicate
  unfold basic_json_dump
  by_cases hpretty : 0 ≤ indent
  · rw [if_pos hpretty, if_pos hpretty]
    obtain ⟨s, hwrite, hwrites⟩ := write_spec true indent.toNat j 0 .start hj (by
      intro hnested _
      rw [hlength]
      have hle : ¬ 1024 < indent := fun hlt => h ⟨hlt, hnested⟩
      omega)
    rw [hwrite, ok_bind]
    exact congrArg Except.ok hwrites.o
  · obtain ⟨s, hwrite, hwrites⟩ := write_spec false 0 j 0 .start hj (by
      intro _ hfalse
      cases hfalse)
    rw [dump_compact] at hwrites
    rw [if_neg hpretty, if_neg hpretty, hwrite, ok_bind]
    exact congrArg Except.ok hwrites.o

/-- A well-formed value is written as its text, in the layout asked for,
unless an array or an object is to be indented by a step of more than 1024
blanks: then the serializer reads behind the end of its blanks. -/
theorem basic_json_dump_eq {j : Json} (hj : j.WellFormed) (indent : ℤ) :
    basic_json_dump j indent =
      if 1024 < indent ∧ nested j = true then .error .overflow
      else .ok (utf8 (if 0 ≤ indent then dump library true indent.toNat j 0
        else j.dump library)) := by
  split
  next hover => exact basic_json_dump_overflow hover
  next hover => exact basic_json_dump_of_wellFormed hj hover

/-- A line break, a character of four bytes and the least integer, indented. -/
theorem basic_json_dump_indented :
    basic_json_dump
      (.object [("name", .string "a\n😀"), ("sizes", .array [.number_integer (-2 ^ 63)])]) 1 =
      .ok (utf8 "\x7b\n \"name\": \"a\\n😀\",\n \"sizes\": [\n  -9223372036854775808\n ]\n\x7d") := by
  rw [basic_json_dump_eq]
  · decide +kernel
  · exact ⟨by decide +kernel, trivial, ⟨⟨by decide, by decide⟩, trivial⟩, trivial⟩

/-- A value is written and read back, floating-point numbers included, iff it
is well formed and its blanks are enough. -/
theorem parse_dump_iff (j : Json) (indent : ℤ) :
    (∃ b, basic_json_dump j indent = .ok b ∧ Parser.parse b = .ok j) ↔
      j.WellFormed ∧ ¬ (1024 < indent ∧ nested j = true) := by
  constructor
  · intro h
    obtain ⟨b, hdump, hparse⟩ := h
    refine ⟨Parser.wellFormed_of_parse hparse, ?_⟩
    intro hover
    rw [basic_json_dump_overflow hover] at hdump
    cases hdump
  · intro h
    refine ⟨_, basic_json_dump_of_wellFormed h.1 h.2, ?_⟩
    have hfloats : ∀ d ∈ j.floats, Json.SpellsFloat library d := fun d _ => spells_float_text d
    split
    · exact Json.parse_dump_of_wellFormed library true _ hfloats h.1
    · rw [← dump_compact library 0 j 0]
      exact Json.parse_dump_of_wellFormed library false 0 hfloats h.1

example : basic_json_dump (.array [.number_float (.ofRat true 0), .number_float (.ofRat false
    (1 / 2))]) (-1) = .ok (utf8 "[-0.0,0.5]") := by
  decide +kernel

end Serializer

end SyncServiceUi
