/-
SyncServiceUi/JsonPrefix.lean

Texts with more behind them (`parser::parse` in
`src/dependencies/json/json.hpp`), and frames with a delimiter inside
(`TcpClient::start_reading` in `src/tcp_client.cpp`).

A text that parses ends where its value ends: with more bytes behind it, it
parses iff these are white space up to the end or a NUL (`parse_append_iff`).
So no message can be cut short without the parser noticing, and a message
that the service breaks into lines with CRLF is never read: the reader cuts
it at the first line break and the part before it does not parse
(`not_parse_line`).
-/
import SyncServiceUi.JsonSafety
import SyncServiceUi.Reader

namespace SyncServiceUi

open Binary64 Completion Lexer Framing

/-! ### The lexer -/

namespace Lexer

theorem tokensFrom_whitespace {ws : Bytes} (hws : Whitespace ws) (b : Bytes) :
    tokensFrom (ws ++ b) = tokensFrom b := by
  have hsame : scan (ws ++ b) = scan b := scan_whitespace hws b
  rcases hb : scan b with (- | -) | ⟨t, rest⟩
  · rw [tokensFrom_parse_error hb, tokensFrom_parse_error (hsame.trans hb)]
  · exact absurd hb (holds_scan b)
  · by_cases ht : t = .end_of_input
    · subst ht
      rw [tokensFrom_end hb, tokensFrom_end (hsame.trans hb)]
    · rw [tokensFrom_cons hb ht, tokensFrom_cons (hsame.trans hb) ht]

/-- Without a NUL a text ends in white space. -/
theorem AtEnd.whitespace {b : Bytes} (h : AtEnd b) (hb : (0 : UInt8) ∉ b) : Whitespace b := by
  obtain ⟨ws, tail, hws, rfl, rfl | ⟨more, rfl⟩⟩ := h
  · rwa [List.append_nil]
  · exact absurd (by simp) hb

theorem AtEnd.of_whitespace_append {ws b : Bytes} (hws : Whitespace ws) (h : AtEnd (ws ++ b)) :
    AtEnd b := by
  obtain ⟨rest, hrest⟩ := scan_of_atEnd h
  rw [scan_whitespace hws] at hrest
  exact atEnd_of_scan hrest

/-- With more behind them, the same tokens are read first. -/
theorem tokensFrom_append {b c : Bytes} {ts : List Token} (h : Reads b ts) (hts : Separated ts)
    (hb : (0 : UInt8) ∉ b) (hc : ∀ t ∈ ts.getLast?, t.isNumber = true → Ends c) :
    tokensFrom (b ++ c) = ts ++ tokensFrom c := by
  induction h with
  | nil hend => exact tokensFrom_whitespace (hend.whitespace hb) c
  | @cons ws w rest t ts hws hw hrest ih =>
      rw [List.mem_append, List.mem_append, not_or, not_or] at hb
      have hends : t.isNumber = true → Ends (rest ++ c) := by
        intro ht
        cases hrest with
        | nil hend => exact ends_whitespace_append (hend.whitespace hb.2.2) (hc t rfl ht)
        | @cons ws' w' rest' t' ts' hws' hw' hrest' =>
            rw [List.append_assoc, List.append_assoc]
            exact ends_whitespace_append hws' (hw'.ends ((List.isChain_cons_cons.mp hts).1 ht))
      have hscan : scan (ws ++ (w ++ rest) ++ c) = .ok (t, rest ++ c) := by
        rw [List.append_assoc, List.append_assoc, scan_whitespace hws, scan_of_spells hw hends]
      rw [tokensFrom_cons hscan hw.ne_end_of_input, ih hts.of_cons hb.2.2]
      · rfl
      · intro t' ht'
        cases ts with
        | nil => cases ht'
        | cons t'' ts => exact hc t' ht'

/-- Where something is read, there is something, and not half a mark. -/
theorem skip_bom_append {b : Bytes} {ts : List Token} (h : Reads b ts) (hts : Separated ts)
    (hne : ts ≠ []) (c : Bytes) : skip_bom (b ++ c) = .ok (b ++ c) := by
  have hfrom := tokensFrom_of_reads h hts
  cases b with
  | nil =>
      rw [tokensFrom_end rfl] at hfrom
      exact absurd (List.self_eq_append_left.mp hfrom) hne
  | cons x b =>
      refine if_neg ?_
      rintro rfl
      rw [tokensFrom_mark] at hfrom
      rcases List.singleton_eq_append_iff.mp hfrom with ⟨-, h⟩ | ⟨-, h⟩ <;> cases h

theorem tokens_append {b c : Bytes} {ts : List Token} (h : ReadsText b ts) (hts : Separated ts)
    (hne : ts ≠ []) (hb : (0 : UInt8) ∉ b)
    (hc : ∀ t ∈ ts.getLast?, t.isNumber = true → Ends c) :
    tokens (b ++ c) = ts ++ tokensFrom c := by
  obtain ⟨b', hmark, hreads⟩ := h
  have hbom : skip_bom (b ++ c) = .ok (b' ++ c) := by
    rcases hmark with rfl | rfl
    · exact skip_bom_append hreads hts hne c
    · rfl
  have hb' : (0 : UInt8) ∉ b' := by
    rcases hmark with rfl | rfl
    · exact hb
    · exact fun hmem => hb (List.mem_append_right _ hmem)
  rw [tokens, hbom]
  exact tokensFrom_append hreads hts hb' hc

/-- At the end the lexer gives its last token at once, and only there. -/
theorem tokensFrom_eq_end_iff {c : Bytes} {ts : List Token} :
    tokensFrom c = .end_of_input :: ts ↔ AtEnd c ∧ ts = [] := by
  constructor
  · intro h
    rcases hc : scan c with (- | -) | ⟨t, rest⟩
    · rw [tokensFrom_parse_error hc] at h
      cases h
    · exact absurd hc (holds_scan c)
    · by_cases ht : t = .end_of_input
      · subst ht
        rw [tokensFrom_end hc] at h
        exact ⟨atEnd_of_scan hc, (List.cons.inj h).2.symm⟩
      · rw [tokensFrom_cons hc ht] at h
        exact absurd (List.cons.inj h).1 ht
  · rintro ⟨hc, rfl⟩
    obtain ⟨rest, hrest⟩ := scan_of_atEnd hc
    exact tokensFrom_end hrest

end Lexer

/-! ### The parser -/

namespace Parser

/-- A number, which goes on as long as it can. -/
def Tree.isNumber : Tree → Bool
  | .scalar s => s.token.isNumber
  | _ => false

theorem Tree.isNumber_of_getLast? {t : Tree} {token : Token} (h : token ∈ t.tokens.getLast?)
    (hnumber : token.isNumber = true) : t.isNumber = true := by
  cases t with
  | scalar s =>
      rw [tokens] at h
      obtain rfl := Option.some.inj h
      exact hnumber
  | array items =>
      have hlast : (Tree.array items).tokens.getLast? = some .end_array := by
        cases items with
        | nil => rw [tokens, List.getLast?_cons_cons, List.getLast?_singleton]
        | cons t ts =>
            rw [tokens, ← List.append_assoc, ← List.cons_append]
            exact List.getLast?_concat
      rw [hlast] at h
      obtain rfl := Option.some.inj h
      cases hnumber
  | object members =>
      have hlast : (Tree.object members).tokens.getLast? = some .end_object := by
        rcases members with - | ⟨⟨name, t⟩, ms⟩
        · rw [tokens, List.getLast?_cons_cons, List.getLast?_singleton]
        · rw [tokens, ← List.append_assoc, ← List.append_assoc, ← List.cons_append]
          exact List.getLast?_concat
      rw [hlast] at h
      obtain rfl := Option.some.inj h
      cases hnumber

/-- Behind a text that parses there may be white space, and a NUL with
anything behind it, and nothing else. -/
theorem parse_append_iff {b c : Bytes} {t : Tree} {j : Json} (h : Writes b t)
    (hb : (0 : UInt8) ∉ b) (hc : t.isNumber = true → Ends c) :
    parse (b ++ c) = .ok j ↔ AtEnd c ∧ t.value = j := by
  have hne : t.tokens ≠ [] := by
    obtain ⟨token, rest, htokens, -⟩ := t.exists_tokens_cons
    rw [htokens]
    exact List.cons_ne_nil _ _
  have htokens : tokens (b ++ c) = t.tokens ++ tokensFrom c :=
    tokens_append h (separated_tokens t) hne hb fun token hlast hnumber =>
      hc (t.isNumber_of_getLast? hlast hnumber)
  rw [parse, htokens, sax_parse_internal_top, ok_bind]
  constructor
  · intro hj
    dsimp only at hj
    split at hj
    next more heq => exact ⟨(tokensFrom_eq_end_iff.mp heq).1, Except.ok.inj hj⟩
    next => cases hj
    next => cases hj
  · rintro ⟨hend, rfl⟩
    rw [tokensFrom_eq_end_iff.mpr ⟨hend, rfl⟩]
    rfl

/-- A text with a CRLF in it does not parse up to there. -/
theorem not_parse_line {f g : Bytes} {j : Json} (h : parse (f ++ delimitter ++ g) = .ok j)
    (hf : (0 : UInt8) ∉ f) (hg : ¬ AtEnd g) (j' : Json) : parse f ≠ .ok j' := by
  intro hj'
  obtain ⟨t, hwrites, -⟩ := parse_eq_ok_iff.mp hj'
  rw [List.append_assoc] at h
  obtain ⟨hend, -⟩ := (parse_append_iff hwrites hf fun _ => ends_cons (by decide)).mp h
  have hdelimitter : Whitespace delimitter := by simp [Whitespace, delimitter, isWhitespace, chr]
  exact hg (hend.of_whitespace_append hdelimitter)

end Parser

/-! ### The reader -/

theorem dispatchedCount_pos {chunks : List Chunk} (h : 0 < frameCount chunks) :
    0 < dispatchedCount chunks := by
  induction chunks using List.reverseRecOn with
  | nil => cases h
  | append_singleton chunks c _ =>
      rw [dispatchedCount_append]
      exact lt_min (Nat.succ_pos _) h

/-- The first frame of all does not parse: the loop ends there by the
exception of the parser and has emitted nothing. -/
theorem start_reading_first {lib : Nlohmann} {f : Bytes} (hf : lib.parse f = none)
    {chunks : List Chunk} {r : Reader} (h : ReaderInv lib chunks r) (hnone : r.handled = [])
    (rest : List Chunk) (hfirst : (dispatched (chunks ++ rest)).head? = some f) :
    ∃ r', start_reading lib r (rest.map .data) = .escaped r' .parse_error ∧
      r'.handled = [f] ∧ r'.emitted = [] := by
  induction rest generalizing chunks r with
  | nil =>
      rw [List.append_nil, ← h.handled, hnone] at hfirst
      cases hfirst
  | cons c rest ih =>
      have hcut := cut_of_readerInv h c
      have hdispatched := dispatched_append chunks c
      rw [← h.handled, hnone, List.nil_append] at hdispatched
      rw [List.append_cons] at hfirst
      rw [List.map_cons, start_reading]
      rcases hframe : (frames delimitter (stream (chunks ++ [c])))[dispatchedCount chunks]? with
        - | f'
      · have hiteration : iteration lib r (.data c) = .reading { r with msg := r.msg ++ c.1 } := by
          rw [iteration, hcut, hframe]
          rfl
        rw [hiteration]
        exact ih (readerInv_append_waiting h c hframe) hnone hfirst
      · obtain rfl : f' = f := by
          obtain ⟨more, hmore⟩ := dispatched_isPrefix_append (chunks ++ [c]) rest
          rw [← hmore, hdispatched, hframe] at hfirst
          exact Option.some.inj hfirst
        have hiteration : iteration lib r (.data c) = handle_frame lib
            { r with
              msg := afterDelims delimitter (dispatchedCount chunks + 1) (stream (chunks ++ [c])) }
            f' := by
          rw [iteration, hcut, hframe]
          rfl
        have hquiet : r.emitted = [] := by
          rw [h.emitted, hnone]
          rfl
        rw [hiteration, handle_frame, hf]
        exact ⟨_, rfl, by rw [hnone, List.nil_append], hquiet⟩

/-- A first message that is JSON, but with a line break before its end, is
cut there.  The part before the break is no JSON, so it ends the loop by the
exception of the parser, however the message is cut into reads and whatever
comes behind it; of what it says nothing reaches the window. -/
theorem start_reading_line (dump_float : Double → String) {message f g : Bytes} {j : Json}
    (hmessage : Parser.parse message = .ok j) (hnul : (0 : UInt8) ∉ message)
    (hbreak : cut delimitter message = some (f, g)) (hg : ¬ Whitespace g) {chunks : List Chunk}
    (hstream : message <+: stream chunks) :
    (∀ j', Parser.parse f ≠ .ok j') ∧
      ∃ r, start_reading (nlohmann dump_float) .start (chunks.map .data) =
          .escaped r .parse_error ∧
        r.handled = [f] ∧ r.emitted = [] := by
  have hsplit := cut_spec delimitter_ne_nil hbreak
  have hline : ∀ j', Parser.parse f ≠ .ok j' := by
    intro j'
    rw [hsplit] at hmessage hnul
    rw [List.mem_append, List.mem_append, not_or, not_or] at hnul
    refine Parser.not_parse_line hmessage hnul.1.1 ?_ j'
    exact fun hend => hg (hend.whitespace hnul.2)
  have hnone : (nlohmann dump_float).parse f = none := by
    rw [Option.eq_none_iff_forall_ne_some]
    intro j' hj'
    exact hline j' (nlohmann_parse_eq_some_iff.mp hj')
  have hframes : frames delimitter (stream chunks) =
      f :: frames delimitter (g ++ (stream chunks).drop message.length) := by
    obtain ⟨more, hmore⟩ := hstream
    rw [← hmore, List.drop_left]
    exact frames_of_cut_some delimitter_ne_nil (cut_append delimitter_ne_nil more hbreak)
  have hpos : 0 < dispatchedCount chunks := by
    refine dispatchedCount_pos ?_
    rw [frameCount, hframes]
    exact Nat.succ_pos _
  have hfirst : (dispatched ([] ++ chunks)).head? = some f := by
    obtain ⟨n, hn⟩ := Nat.exists_eq_succ_of_ne_zero hpos.ne'
    rw [List.nil_append, dispatched, hframes, hn]
    rfl
  exact ⟨hline, start_reading_first hnone (readerInv_start _) rfl chunks hfirst⟩

/-- An object on two lines, read up to the middle of the break and on, and a
message behind it. -/
def twoLines : List Chunk :=
  [⟨utf8 "\x7b\"command\":\r", by decide +kernel⟩,
    ⟨utf8 "\n\"x\"\x7d\r\n\x7b", by decide +kernel⟩, ⟨utf8 "\x7d\r\n", by decide +kernel⟩]

theorem start_reading_line_twoLines :
    ∃ r, start_reading (nlohmann fun _ => "") .start (twoLines.map .data) =
        .escaped r .parse_error ∧
      r.handled = [utf8 "\x7b\"command\":"] ∧ r.emitted = [] := by
  obtain ⟨message, hmessage⟩ :
    ∃ message, utf8 "\x7b\"command\":\r\n\"x\"\x7d" = message := ⟨_, rfl⟩
  have hok : (Parser.parse message).isOk = true := by
    rw [← hmessage]
    decide +kernel
  rcases hparse : Parser.parse message with e | j
  · rw [hparse] at hok
    cases hok
  · subst hmessage
    refine (@start_reading_line (fun _ => "") _ (utf8 "\x7b\"command\":")
      (utf8 "\"x\"\x7d") j hparse (by decide +kernel) (by decide +kernel) ?_ twoLines ?_).2
    · intro hws
      have hquote := hws 0x22 (by decide +kernel)
      revert hquote
      decide
    · decide +kernel

end SyncServiceUi
