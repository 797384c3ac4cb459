/-
SyncServiceUi/JsonSpelling.lean

From bytes to tokens (`scan` in `src/dependencies/json/json.hpp`).

`Spells t w` says that the bytes `w` are a way to write the token `t`, and
`Reads b ts` that the bytes `b` are the tokens `ts`, one after the other with
white space in between, up to the end of the input or a NUL.  The lexer reads
exactly that (`reads_of_tokens`, `tokens_of_reads`); the one thing to add is
that a number runs on as far as it can, so that something else has to follow
it.  And whatever the bytes are, no assertion of the lexer fails
(`holds_scan`).
-/
import SyncServiceUi.JsonNumber

namespace SyncServiceUi

namespace Lexer

open Completion

/-! ### One token -/

def Whitespace (ws : Bytes) : Prop :=
  ∀ b ∈ ws, isWhitespace (chr b) = true

/-- The bytes `w` are a way to write the token. -/
inductive Spells : Token → Bytes → Prop where
  | begin_array : Spells .begin_array (utf8 "[")
  | end_array : Spells .end_array (utf8 "]")
  | begin_object : Spells .begin_object (utf8 "\x7b")
  | end_object : Spells .end_object (utf8 "\x7d")
  | name_separator : Spells .name_separator (utf8 ":")
  | value_separator : Spells .value_separator (utf8 ",")
  | literal_true : Spells .literal_true (utf8 "true")
  | literal_false : Spells .literal_false (utf8 "false")
  | literal_null : Spells .literal_null (utf8 "null")
  | string {cs : List Char} {w : Bytes} :
      StringBody cs w → Spells (.value_string (Utf8.encode cs)) (0x22 :: (w ++ [0x22]))
  | number (n : Numeral) : Spells n.token (Utf8.encode n.text)

def Token.isNumber : Token → Bool
  | .value_unsigned _ => true
  | .value_integer _ => true
  | .value_float _ => true
  | _ => false

def Token.isStructural : Token → Bool
  | .begin_array => true
  | .begin_object => true
  | .end_array => true
  | .end_object => true
  | .name_separator => true
  | .value_separator => true
  | _ => false

theorem Numeral.isNumber_token (n : Numeral) : n.token.isNumber = true := by
  unfold Numeral.token
  dsimp only
  split_ifs <;> rfl

theorem skip_whitespace_append {ws : Bytes} (hws : Whitespace ws) (input : Bytes) :
    skip_whitespace (ws ++ input) = skip_whitespace input :=
  List.dropWhile_append_of_pos hws

theorem scan_whitespace {ws : Bytes} (hws : Whitespace ws) (input : Bytes) :
    scan (ws ++ input) = scan input := by
  rw [scan, skip_whitespace_append hws, ← scan]

/-- The input is white space and what is left behind it. -/
theorem exists_whitespace (input : Bytes) :
    ∃ ws, Whitespace ws ∧ input = ws ++ skip_whitespace input := by
  refine ⟨input.takeWhile fun b => isWhitespace (chr b), ?_, ?_⟩
  · intro b hb
    exact @List.mem_takeWhile_imp _ (fun b => isWhitespace (chr b)) _ _ hb
  · exact (List.takeWhile_append_dropWhile).symm

theorem scan_literal_eq_ok_iff {literal_text : List Char} {return_type token : Token}
    {input rest : Bytes} (hascii : ∀ c ∈ literal_text, c.toNat < 0x80) :
    scan_literal literal_text return_type input = .ok (token, rest) ↔
      input = Utf8.encode literal_text ++ rest ∧ token = return_type := by
  induction literal_text generalizing input with
  | nil =>
      refine ⟨?_, ?_⟩
      · intro h
        obtain ⟨rfl, rfl⟩ := Prod.mk.inj (Except.ok.inj h)
        exact ⟨rfl, rfl⟩
      · rintro ⟨rfl, rfl⟩
        rfl
  | cons c literal_text ih =>
      obtain ⟨hc, hascii'⟩ := List.forall_mem_cons.mp hascii
      rw [Utf8.encode_cons, Utf8.encodeChar_ascii hc]
      cases input with
      | nil => simp [scan_literal]
      | cons b input =>
          rw [scan_literal]
          by_cases hb : chr b = c
          · obtain rfl : b = UInt8.ofNat c.toNat := by
              rw [← hb, toNat_chr, UInt8.ofNat_toNat]
            rw [if_pos hb, ih hascii']
            simp
          · rw [if_neg hb]
            refine ⟨?_, ?_⟩
            · intro h
              cases h
            · rintro ⟨h, -⟩
              obtain ⟨rfl, -⟩ := List.cons.inj h
              exact absurd (chr_ofNat hc) hb

theorem Numeral.exists_text_cons (n : Numeral) :
    ∃ c w, n.text = c :: w ∧ (c = '-' ∨ c.isDigit = true) := by
  obtain ⟨d, cs, hcs, hd⟩ := n.exists_digit_cons
  rw [Numeral.text]
  rcases n.negative with - | -
  · exact ⟨d, cs, hcs, .inr hd⟩
  · exact ⟨'-', n.unsignedText, rfl, .inl rfl⟩

/-- A token is read however it is written, a number if nothing that belongs
to one follows. -/
theorem scan_of_spells {t : Token} {w : Bytes} (h : Spells t w) {rest : Bytes}
    (hrest : t.isNumber = true → Ends rest) : scan (w ++ rest) = .ok (t, rest) := by
  cases h with
  | begin_array => rfl
  | end_array => rfl
  | begin_object => rfl
  | end_object => rfl
  | name_separator => rfl
  | value_separator => rfl
  | literal_true => rfl
  | literal_false => rfl
  | literal_null => rfl
  | @string cs w hcs =>
      have hstring : scan_string [] (w ++ 0x22 :: rest) = .ok (Utf8.encode cs, rest) :=
        scan_string_eq_ok_iff.mpr ⟨cs, w, hcs, rfl, rfl⟩
      have hskip : skip_whitespace (0x22 :: (w ++ 0x22 :: rest)) = 0x22 :: (w ++ 0x22 :: rest) := rfl
      rw [List.cons_append, List.append_assoc, List.singleton_append, scan, hskip]
      show (scan_string [] (w ++ 0x22 :: rest) >>= _) = _
      rw [hstring]
      rfl
  | number n =>
      obtain ⟨c, w, hn, hc⟩ := n.exists_text_cons
      have hnumber : isNumberChar c = true := by
        rcases hc with rfl | hc
        · rfl
        · simp [isNumberChar, hc]
      have hascii := toNat_lt_of_isNumberChar hnumber
      have hspace : isWhitespace c = false := by
        simp only [isWhitespace, Bool.or_eq_false_iff, decide_eq_false_iff_not]
        rcases hc with rfl | hc
        · decide
        · exact ⟨⟨⟨ne_of_isDigit hc (by decide), ne_of_isDigit hc (by decide)⟩,
            ne_of_isDigit hc (by decide)⟩, ne_of_isDigit hc (by decide)⟩
      have hskip : skip_whitespace (UInt8.ofNat c.toNat :: (Utf8.encode w ++ rest)) =
          UInt8.ofNat c.toNat :: (Utf8.encode w ++ rest) :=
        List.dropWhile_cons_of_neg (by rw [chr_ofNat hascii, hspace]; decide)
      have hscan := scan_number_text hn (hrest n.isNumber_token)
      rw [hn, Utf8.encode_cons, Utf8.encodeChar_ascii hascii, List.append_assoc,
        List.singleton_append, scan, hskip]
      dsimp only
      rw [chr_ofNat hascii]
      -- none of the other characters of the switch starts a number
      split
      any_goals
        exfalso
        rcases hc with hc | hc <;> cases hc
      rw [if_pos hc, hscan]

theorem eq_of_chr {b : UInt8} {c : Char} (h : chr b = c) : b = UInt8.ofNat c.toNat := by
  rw [← h, toNat_chr, UInt8.ofNat_toNat]

/-- What `scan` reads is white space and a way to write the token. -/
theorem spells_of_scan {input rest : Bytes} {token : Token} (h : scan input = .ok (token, rest))
    (htoken : token ≠ .end_of_input) :
    ∃ ws w, Whitespace ws ∧ Spells token w ∧ input = ws ++ (w ++ rest) := by
  obtain ⟨ws, hws, hinput⟩ := exists_whitespace input
  suffices ∃ w, Spells token w ∧ skip_whitespace input = w ++ rest by
    obtain ⟨w, hw, hskip⟩ := this
    exact ⟨ws, w, hws, hw, by rw [← hskip]; exact hinput⟩
  clear hinput
  unfold scan at h
  split at h
  · obtain ⟨rfl, -⟩ := Prod.mk.inj (Except.ok.inj h)
    exact absurd rfl htoken
  next b tail heq =>
    rw [heq]
    -- a token of one character
    have hone : ∀ {c : Char} {t : Token}, chr b = c → Spells t [UInt8.ofNat c.toNat] →
        Except.ok (t, tail) = (Except.ok (token, rest) : Except Stop _) →
        ∃ w, Spells token w ∧ b :: tail = w ++ rest := by
      intro c t hc ht hok
      obtain ⟨rfl, rfl⟩ := Prod.mk.inj (Except.ok.inj hok)
      exact ⟨_, ht, by rw [eq_of_chr hc]; rfl⟩
    have hliteral : ∀ {c : Char} {literal_text : List Char} {t : Token}, chr b = c →
        Spells t (UInt8.ofNat c.toNat :: Utf8.encode literal_text) →
        (∀ c ∈ literal_text, c.toNat < 0x80) →
        scan_literal literal_text t tail = .ok (token, rest) →
        ∃ w, Spells token w ∧ b :: tail = w ++ rest := by
      intro c literal_text t hc ht hascii hok
      obtain ⟨rfl, rfl⟩ := (scan_literal_eq_ok_iff hascii).mp hok
      exact ⟨_, ht, by rw [eq_of_chr hc]; rfl⟩
    split at h
    next hc => exact hone hc .begin_array h
    next hc => exact hone hc .end_array h
    next hc => exact hone hc .begin_object h
    next hc => exact hone hc .end_object h
    next hc => exact hone hc .name_separator h
    next hc => exact hone hc .value_separator h
    next hc => exact @hliteral 't' ['r', 'u', 'e'] _ hc .literal_true (by simp) h
    next hc => exact @hliteral 'f' ['a', 'l', 's', 'e'] _ hc .literal_false (by simp) h
    next hc => exact @hliteral 'n' ['u', 'l', 'l'] _ hc .literal_null (by simp) h
    next hc =>
      simp only [bind_eq_ok_iff, Prod.exists] at h
      obtain ⟨token_buffer, rest', hstring, hreturn⟩ := h
      obtain ⟨rfl, rfl⟩ := Prod.mk.inj (Except.ok.inj hreturn)
      obtain ⟨cs, w, hcs, rfl, rfl⟩ := scan_string_eq_ok_iff.mp hstring
      refine ⟨_, .string hcs, ?_⟩
      rw [eq_of_chr hc]
      simp
    next =>
      obtain ⟨rfl, -⟩ := Prod.mk.inj (Except.ok.inj h)
      exact absurd rfl htoken
    next =>
      split_ifs at h with hc
      obtain ⟨n, w, hn, rfl, rfl⟩ := exists_numeral_of_scan_number h
      refine ⟨_, .number n, ?_⟩
      have hascii : (chr b).toNat < 0x80 := by
        refine toNat_lt_of_isNumberChar ?_
        rcases hc with hc | hc <;> simp [isNumberChar, hc]
      rw [hn, Utf8.encode_cons, encodeChar_chr (by rwa [toNat_chr] at hascii)]
      simp

/-- Nothing more is read: only white space, or a NUL behind it. -/
def AtEnd (b : Bytes) : Prop :=
  ∃ ws tail, Whitespace ws ∧ b = ws ++ tail ∧ (tail = [] ∨ ∃ more, tail = 0 :: more)

theorem scan_of_atEnd {b : Bytes} (h : AtEnd b) : ∃ rest, scan b = .ok (.end_of_input, rest) := by
  obtain ⟨ws, tail, hws, rfl, rfl | ⟨more, rfl⟩⟩ := h
  · exact ⟨[], by rw [scan_whitespace hws]; rfl⟩
  · exact ⟨more, by rw [scan_whitespace hws]; rfl⟩

theorem atEnd_of_scan {b rest : Bytes} (h : scan b = .ok (.end_of_input, rest)) : AtEnd b := by
  obtain ⟨ws, hws, hinput⟩ := exists_whitespace b
  refine ⟨ws, skip_whitespace b, hws, hinput, ?_⟩
  clear hinput
  unfold scan at h
  split at h
  next heq => exact .inl heq
  next c tail heq =>
    split at h
    any_goals cases h
    · obtain ⟨-, ht⟩ := (scan_literal_eq_ok_iff (by simp)).mp h
      cases ht
    · obtain ⟨-, ht⟩ := (scan_literal_eq_ok_iff (by simp)).mp h
      cases ht
    · obtain ⟨-, ht⟩ := (scan_literal_eq_ok_iff (by simp)).mp h
      cases ht
    · simp only [bind_eq_ok_iff, Prod.exists] at h
      obtain ⟨token_buffer, rest', -, hreturn⟩ := h
      cases hreturn
    next hc =>
      obtain rfl : c = 0 := eq_of_chr hc
      exact .inr ⟨_, heq⟩
    · split_ifs at h
      obtain ⟨n, w, -, -, ht⟩ := exists_numeral_of_scan_number h
      have hnumber := n.isNumber_token
      rw [← ht] at hnumber
      cases hnumber

/-! ### Assertions -/

theorem holds_scan_literal {literal_text : List Char} {return_type : Token} {input : Bytes} :
    Holds (scan_literal literal_text return_type input) := by
  induction literal_text generalizing input with
  | nil => exact holds_ok _
  | cons c literal_text ih =>
      cases input with
      | nil => exact holds_parse_error
      | cons b input =>
          rw [scan_literal]
          split
          · exact ih
          · exact holds_parse_error

/-- No assertion of the lexer fails, whatever the input. -/
theorem holds_scan (input : Bytes) : Holds (scan input) := by
  unfold scan
  split
  · exact holds_ok _
  · split
    any_goals exact holds_ok _
    any_goals exact holds_scan_literal
    · exact holds_bind holds_scan_string fun _ _ => holds_ok _
    · split
      next hc => exact holds_scan_number hc
      next => exact holds_parse_error

/-! ### All tokens -/

/-- The bytes are the tokens `ts` and nothing else that counts. -/
inductive Reads : Bytes → List Token → Prop where
  | nil {b : Bytes} : AtEnd b → Reads b []
  | cons {ws w rest : Bytes} {t : Token} {ts : List Token} :
      Whitespace ws → Spells t w → Reads rest ts → Reads (ws ++ (w ++ rest)) (t :: ts)

/-- Behind a number comes a structural character, if anything. -/
def Separated (ts : List Token) : Prop :=
  ts.IsChain fun t t' => t.isNumber = true → t'.isStructural = true

theorem Spells.ne_end_of_input {t : Token} {w : Bytes} (h : Spells t w) : t ≠ .end_of_input := by
  cases h with
  | number n =>
      intro ht
      have hnumber := n.isNumber_token
      rw [ht] at hnumber
      cases hnumber
  | _ => simp

theorem tokensFrom_cons {input rest : Bytes} {t : Token} (h : scan input = .ok (t, rest))
    (ht : t ≠ .end_of_input) : tokensFrom input = t :: tokensFrom rest := by
  rw [tokensFrom]
  split
  next heq => cases heq.symm.trans h
  next heq => cases heq.symm.trans h
  next heq =>
    obtain ⟨rfl, rfl⟩ := Prod.mk.inj (Except.ok.inj (heq.symm.trans h))
    exact dif_neg ht

theorem tokensFrom_end {input rest : Bytes} (h : scan input = .ok (.end_of_input, rest)) :
    tokensFrom input = [.end_of_input] := by
  rw [tokensFrom]
  split
  next heq => cases heq.symm.trans h
  next heq => cases heq.symm.trans h
  next heq =>
    obtain ⟨rfl, rfl⟩ := Prod.mk.inj (Except.ok.inj (heq.symm.trans h))
    exact dif_pos rfl

theorem tokensFrom_parse_error {input : Bytes} (h : scan input = .error .parse_error) :
    tokensFrom input = [.parse_error] := by
  rw [tokensFrom]
  split
  next => rfl
  next heq => cases heq.symm.trans h
  next heq => cases heq.symm.trans h

/-- `ts` is what `get_token` gives: tokens that are written somehow, and one
of the two the parser never reads past. -/
def Ended (ts : List Token) : Prop :=
  ∃ read last, ts = read ++ [last] ∧ (last = .end_of_input ∨ last = .parse_error) ∧
    ∀ t ∈ read, ∃ w, Spells t w

theorem ended_single {last : Token} (h : last = .end_of_input ∨ last = .parse_error) :
    Ended [last] :=
  ⟨[], last, rfl, h, by simp⟩

theorem Ended.ne_nil {ts : List Token} (h : Ended ts) : ts ≠ [] := by
  obtain ⟨read, last, rfl, -, -⟩ := h
  simp

theorem Ended.tail {t : Token} {ts : List Token} (h : Ended (t :: ts)) (hend : t ≠ .end_of_input)
    (herror : t ≠ .parse_error) : Ended ts := by
  obtain ⟨read, last, heq, hlast, hall⟩ := h
  cases read with
  | nil =>
      obtain ⟨rfl, -⟩ := List.cons.inj heq
      rcases hlast with rfl | rfl
      · exact absurd rfl hend
      · exact absurd rfl herror
  | cons t' read =>
      obtain ⟨-, rfl⟩ := List.cons.inj heq
      exact ⟨read, last, rfl, hlast, (List.forall_mem_cons.mp hall).2⟩

/-- The lexer always comes to a last token. -/
theorem ended_tokensFrom (input : Bytes) : Ended (tokensFrom input) := by
  induction input using tokensFrom.induct with
  | case1 input hscan =>
      rw [tokensFrom_parse_error hscan]
      exact ended_single (.inr rfl)
  | case2 input hscan => exact absurd hscan (holds_scan input)
  | case3 input rest hscan =>
      rw [tokensFrom_end hscan]
      exact ended_single (.inl rfl)
  | case4 input t rest hscan ht ih =>
      obtain ⟨ts, last, hts, hlast, hall⟩ := ih
      obtain ⟨ws, w, -, hw, -⟩ := spells_of_scan hscan ht
      refine ⟨t :: ts, last, ?_, hlast, List.forall_mem_cons.mpr ⟨⟨w, hw⟩, hall⟩⟩
      rw [tokensFrom_cons hscan ht, hts]
      rfl

theorem ended_tokens (input : Bytes) : Ended (tokens input) := by
  unfold tokens
  split
  · exact ended_single (.inr rfl)
  · exact ended_tokensFrom _

/-- The tokens the lexer gives are written in the input. -/
theorem reads_of_tokensFrom {input : Bytes} {ts : List Token}
    (h : tokensFrom input = ts ++ [.end_of_input]) : Reads input ts := by
  induction input using tokensFrom.induct generalizing ts with
  | case1 input hscan =>
      rw [tokensFrom_parse_error hscan] at h
      rcases List.singleton_eq_append_iff.mp h with ⟨rfl, h⟩ | ⟨rfl, h⟩
      · cases h
      · cases h
  | case2 input hscan => exact absurd hscan (holds_scan input)
  | case3 input rest hscan =>
      rw [tokensFrom_end hscan] at h
      cases ts with
      | nil => exact .nil (atEnd_of_scan hscan)
      | cons t ts => cases ts <;> cases h
  | case4 input t rest hscan ht ih =>
      rw [tokensFrom_cons hscan ht] at h
      cases ts with
      | nil =>
          obtain ⟨rfl, -⟩ := List.cons.inj h
          exact absurd rfl ht
      | cons t' ts =>
          obtain ⟨rfl, htail⟩ := List.cons.inj h
          obtain ⟨ws, w, hws, hw, rfl⟩ := spells_of_scan hscan ht
          exact .cons hws hw (ih htail)

theorem ends_nil : Ends [] := by
  intro b rest h
  cases h

theorem ends_cons {b : UInt8} {rest : Bytes} (h : isNumberChar (chr b) = false) :
    Ends (b :: rest) := by
  intro b' rest' heq
  obtain ⟨rfl, -⟩ := List.cons.inj heq
  exact h

theorem isNumberChar_of_isWhitespace {c : Char} (h : isWhitespace c = true) :
    isNumberChar c = false := by
  simp only [isWhitespace, Bool.or_eq_true, decide_eq_true_eq] at h
  rcases h with ((rfl | rfl) | rfl) | rfl <;> decide

theorem ends_whitespace_append {ws rest : Bytes} (hws : Whitespace ws) (hrest : Ends rest) :
    Ends (ws ++ rest) := by
  cases ws with
  | nil => exact hrest
  | cons b ws => exact ends_cons (isNumberChar_of_isWhitespace (hws b List.mem_cons_self))

theorem Spells.ends {t : Token} {w rest : Bytes} (h : Spells t w) (ht : t.isStructural = true) :
    Ends (w ++ rest) := by
  cases h with
  | number n =>
      have hnumber := n.isNumber_token
      cases hn : n.token <;> simp_all [Token.isNumber, Token.isStructural]
  | begin_array => exact ends_cons (by decide)
  | end_array => exact ends_cons (by decide)
  | begin_object => exact ends_cons (by decide)
  | end_object => exact ends_cons (by decide)
  | name_separator => exact ends_cons (by decide)
  | value_separator => exact ends_cons (by decide)
  | _ => cases ht

theorem AtEnd.ends {b : Bytes} (h : AtEnd b) : Ends b := by
  obtain ⟨ws, tail, hws, rfl, rfl | ⟨more, rfl⟩⟩ := h
  · exact ends_whitespace_append hws ends_nil
  · exact ends_whitespace_append hws (ends_cons (by decide))

theorem Reads.ends {b : Bytes} {ts : List Token} (h : Reads b ts)
    (hts : ∀ t ∈ ts.head?, t.isStructural = true) : Ends b := by
  cases h with
  | nil hb => exact hb.ends
  | cons hws hw _ => exact ends_whitespace_append hws (hw.ends (hts _ rfl))

/-- Tokens written one after the other are read as such. -/
theorem tokensFrom_of_reads {b : Bytes} {ts : List Token} (h : Reads b ts) (hts : Separated ts) :
    tokensFrom b = ts ++ [.end_of_input] := by
  induction h with
  | nil hb =>
      obtain ⟨rest, hscan⟩ := scan_of_atEnd hb
      exact tokensFrom_end hscan
  | @cons ws w rest t ts hws hw hrest ih =>
      have hends : t.isNumber = true → Ends rest := by
        intro ht
        refine hrest.ends ?_
        intro t' ht'
        cases ts with
        | nil => cases ht'
        | cons t'' ts =>
            obtain rfl := Option.some.inj ht'
            exact (List.isChain_cons_cons.mp hts).1 ht
      have hscan : scan (ws ++ (w ++ rest)) = .ok (t, rest) := by
        rw [scan_whitespace hws, scan_of_spells hw hends]
      rw [tokensFrom_cons hscan hw.ne_end_of_input, ih hts.of_cons]
      rfl

/-! ### The byte order mark -/

/-- The text of the input, behind a byte order mark if there is one. -/
def ReadsText (b : Bytes) (ts : List Token) : Prop :=
  ∃ b', (b = b' ∨ b = bom ++ b') ∧ Reads b' ts

theorem skip_bom_eq_ok {b rest : Bytes} (h : skip_bom b = .ok rest) :
    b = rest ∨ b = bom ++ rest := by
  unfold skip_bom at h
  split at h
  · exact .inl (Except.ok.inj h)
  · split_ifs at h with hfirst
    · split at h
      · split_ifs at h with hmark
        obtain rfl := Except.ok.inj h
        obtain ⟨rfl, rfl⟩ := hmark
        subst hfirst
        exact .inr rfl
      · cases h
    · exact .inl (Except.ok.inj h)

/-- The tokens of a text are those written in it. -/
theorem readsText_of_tokens {b : Bytes} {ts : List Token} (h : tokens b = ts ++ [.end_of_input]) :
    ReadsText b ts := by
  unfold tokens at h
  split at h
  · rcases List.singleton_eq_append_iff.mp h with ⟨rfl, h⟩ | ⟨rfl, h⟩
    · cases h
    · cases h
  next rest hbom => exact ⟨rest, skip_bom_eq_ok hbom, reads_of_tokensFrom h⟩

/-- No text starts with the first byte of the mark alone. -/
theorem tokensFrom_mark (b : Bytes) : tokensFrom (0xEF :: b) = [.parse_error] :=
  tokensFrom_parse_error rfl

theorem tokens_of_readsText {b : Bytes} {ts : List Token} (h : ReadsText b ts)
    (hts : Separated ts) : tokens b = ts ++ [.end_of_input] := by
  obtain ⟨b', hb, hreads⟩ := h
  have hfrom := tokensFrom_of_reads hreads hts
  have hbom : skip_bom b = .ok b' := by
    rcases hb with rfl | rfl
    · cases b with
      | nil => rfl
      | cons c b =>
          refine if_neg ?_
          rintro rfl
          rw [tokensFrom_mark] at hfrom
          rcases List.singleton_eq_append_iff.mp hfrom with ⟨-, h⟩ | ⟨-, h⟩ <;> cases h
    · rfl
  rw [tokens, hbom]
  exact hfrom

end Lexer

end SyncServiceUi
