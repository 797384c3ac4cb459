/-
SyncServiceUi/JsonGrammar.lean

What the parser accepts, and as what (`sax_parse_internal`,
`json_sax_dom_parser` in `src/dependencies/json/json.hpp`).

A `Tree` is a JSON text as a syntax tree: its tokens are what has to be
written, its value is what it means, where a later member of an object
replaces an earlier one of the same name.  The loop of the parser, with its
stacks, takes the tokens of a tree off the front of the input and puts the
value where one is due (`sax_parse_internal_tree`); and it completes on
nothing else (`exists_tree`).  So a text parses as `j` iff it is written as a
tree of value `j` (`parse_eq_ok_iff`).
-/
import SyncServiceUi.JsonParser
import SyncServiceUi.JsonSpelling

namespace SyncServiceUi

namespace Parser

open Binary64 Completion Lexer

/-! ### Trees -/

/-- A value that is one token. -/
inductive Scalar where
  | literal_null
  | literal_boolean (b : Bool)
  | string (cs : List Char)
  | unsigned (n : ℕ)
  | integer (n : ℤ)
  | float (x : Double)

def Scalar.token : Scalar → Token
  | literal_null => .literal_null
  | literal_boolean true => .literal_true
  | literal_boolean false => .literal_false
  | string cs => .value_string (Utf8.encode cs)
  | unsigned n => .value_unsigned n
  | integer n => .value_integer n
  | float x => .value_float (some x)

def Scalar.value : Scalar → Json
  | literal_null => .null
  | literal_boolean b => .boolean b
  | string cs => .string (String.ofList cs)
  | unsigned n => .number_integer n
  | integer n => .number_integer n
  | float x => .number_float x

/-- The syntax of a JSON text. -/
inductive Tree where
  | scalar (s : Scalar)
  | array (items : List Tree)
  | object (members : List (List Char × Tree))

/-- The tokens of a name and the separator behind it. -/
def keyTokens (name : List Char) : List Token :=
  [.value_string (Utf8.encode name), .name_separator]

namespace Tree

mutual

def tokens : Tree → List Token
  | scalar s => [s.token]
  | array [] => [.begin_array, .end_array]
  | array (t :: ts) => .begin_array :: (t.tokens ++ (moreItems ts ++ [.end_array]))
  | object [] => [.begin_object, .end_object]
  | object ((name, t) :: ms) =>
      .begin_object :: (keyTokens name ++ (t.tokens ++ (moreMembers ms ++ [.end_object])))

/-- The items behind the first one. -/
def moreItems : List Tree → List Token
  | [] => []
  | t :: ts => .value_separator :: (t.tokens ++ moreItems ts)

/-- The members behind the first one. -/
def moreMembers : List (List Char × Tree) → List Token
  | [] => []
  | (name, t) :: ms => .value_separator :: (keyTokens name ++ (t.tokens ++ moreMembers ms))

end

mutual

def value : Tree → Json
  | scalar s => s.value
  | array items => .array (valueItems items)
  | object members => .object (valueMembers [] members)

def valueItems : List Tree → List Json
  | [] => []
  | t :: ts => t.value :: valueItems ts

/-- The members put into an object one after the other. -/
def valueMembers (ms : List (String × Json)) : List (List Char × Tree) → List (String × Json)
  | [] => ms
  | (name, t) :: members => valueMembers (Json.put (String.ofList name) t.value ms) members

end

end Tree

/-! ### The stacks -/

/-- A value may be put at the top of the stack. -/
def Dom.Ready (sax : Dom) : Prop :=
  ∀ members stack, sax.ref_stack ≠ .object members none :: stack

theorem Dom.push_of_ready {sax : Dom} (h : sax.Ready) (o : Open) :
    sax.push o = .ok { sax with ref_stack := o :: sax.ref_stack } := by
  unfold push
  split
  next heq => exact absurd heq (h _ _)
  next => rfl

theorem text_encode (cs : List Char) : text (Utf8.encode cs) = String.ofList cs := by
  rw [text, Utf8.decode_of_encode]

theorem scalar_token (s : Scalar) : Parser.scalar s.token = some s.value := by
  cases s with
  | literal_boolean b => cases b <;> rfl
  | string cs =>
      show some (Json.string (text (Utf8.encode cs))) = _
      rw [text_encode]
      rfl
  | _ => rfl

/-! ### The loop on a tree -/

/-- A token that is a value by itself. -/
theorem sax_parse_internal_of_scalar {token : Token} {v : Json}
    (h : Parser.scalar token = some v) (states : List Bool) (sax : Dom) (rest : List Token) :
    sax_parse_internal false states sax (token :: rest) =
      sax.handle_value v >>= fun sax => sax_parse_internal true states sax rest := by
  cases token with
  | value_float x =>
      cases x with
      | none => cases h
      | some x =>
          obtain rfl := Option.some.inj h
          rfl
  | literal_true | literal_false | literal_null | value_string | value_unsigned | value_integer =>
      obtain rfl := Option.some.inj h
      rfl
  | _ => cases h

theorem sax_parse_internal_scalar (s : Scalar) (states : List Bool) (sax : Dom)
    (rest : List Token) :
    sax_parse_internal false states sax (s.token :: rest) =
      sax.handle_value s.value >>= fun sax => sax_parse_internal true states sax rest :=
  sax_parse_internal_of_scalar (scalar_token s) states sax rest

/-- A tree starts with no closing bracket. -/
theorem Tree.exists_tokens_cons (t : Tree) :
    ∃ token rest, t.tokens = token :: rest ∧ token ≠ .end_array := by
  cases t with
  | scalar s =>
      refine ⟨s.token, [], by rw [tokens], ?_⟩
      cases s with
      | literal_boolean b => cases b <;> simp [Scalar.token]
      | _ => simp [Scalar.token]
  | array items =>
      cases items with
      | nil => exact ⟨_, _, by rw [tokens], by simp⟩
      | cons t ts => exact ⟨_, _, by rw [tokens], by simp⟩
  | object members =>
      cases members with
      | nil => exact ⟨_, _, by rw [tokens], by simp⟩
      | cons m ms => exact ⟨_, _, by rw [tokens], by simp⟩

/-- An array that is not closed at once. -/
theorem sax_parse_internal_begin_array {token : Token} (hne : token ≠ .end_array)
    (states : List Bool) (sax : Dom) (rest : List Token) :
    sax_parse_internal false states sax (.begin_array :: token :: rest) =
      sax.start_array >>= fun sax =>
        sax_parse_internal false (true :: states) sax (token :: rest) := by
  cases token with
  | end_array => exact absurd rfl hne
  | _ => rfl

/-- An array that is not empty starts with its first item. -/
theorem sax_parse_internal_array (t : Tree) (states : List Bool) {sax : Dom} (h : sax.Ready)
    (rest : List Token) :
    sax_parse_internal false states sax (.begin_array :: (t.tokens ++ rest)) =
      sax_parse_internal false (true :: states)
        { sax with ref_stack := .array [] :: sax.ref_stack } (t.tokens ++ rest) := by
  obtain ⟨token, more, htokens, hne⟩ := t.exists_tokens_cons
  rw [htokens, List.cons_append, sax_parse_internal_begin_array hne, Dom.start_array,
    Dom.push_of_ready h]
  rfl

theorem ready_array (root : Json) (items : List Json) (stack : List Open) :
    Dom.Ready ⟨root, .array items :: stack⟩ := by
  intro members stack' h
  cases h

theorem ready_object (root : Json) (members : List (String × Json)) (key : String)
    (stack : List Open) : Dom.Ready ⟨root, .object members (some key) :: stack⟩ := by
  intro members stack' h
  cases h

/-- A member takes its value at its place among the others. -/
theorem handle_value_object (root : Json) (members : List (String × Json)) (key : String)
    (stack : List Open) (v : Json) :
    Dom.handle_value ⟨root, .object (Json.emplace key members) (some key) :: stack⟩ v =
      .ok ⟨root, .object (Json.put key v members) none :: stack⟩ := rfl

mutual

/-- The loop takes a tree off the input and puts its value where one is due. -/
theorem sax_parse_internal_tree : ∀ (t : Tree) (states : List Bool) (sax : Dom) (rest : List Token),
    sax.Ready →
    sax_parse_internal false states sax (t.tokens ++ rest) =
      sax.handle_value t.value >>= fun sax => sax_parse_internal true states sax rest
  | .scalar s, states, sax, rest, _ => by
      rw [Tree.tokens, Tree.value]
      exact sax_parse_internal_scalar s states sax rest
  | .array [], states, sax, rest, h => by
      rw [Tree.tokens, Tree.value, Tree.valueItems]
      show (sax.push (.array []) >>= fun sax =>
        sax.end_array >>= fun sax => sax_parse_internal true states sax rest) = _
      rw [Dom.push_of_ready h]
      rfl
  | .array (t :: ts), states, sax, rest, h => by
      have htokens : Tree.tokens (.array (t :: ts)) ++ rest =
          .begin_array :: (t.tokens ++ (Tree.moreItems ts ++ .end_array :: rest)) := by
        simp [Tree.tokens]
      rw [htokens, sax_parse_internal_array t states h,
        sax_parse_internal_tree t _ _ _ (ready_array _ _ _)]
      show sax_parse_internal true (true :: states)
        ⟨sax.root, .array ([] ++ [t.value]) :: sax.ref_stack⟩ _ = _
      rw [sax_parse_internal_moreItems ts, Tree.value, Tree.valueItems]
      rfl
  | .object [], states, sax, rest, h => by
      rw [Tree.tokens, Tree.value, Tree.valueMembers]
      show (sax.push (.object [] none) >>= fun sax =>
        sax.end_object >>= fun sax => sax_parse_internal true states sax rest) = _
      rw [Dom.push_of_ready h]
      rfl
  | .object ((name, t) :: ms), states, sax, rest, h => by
      have htokens : Tree.tokens (.object ((name, t) :: ms)) ++ rest =
          .begin_object :: .value_string (Utf8.encode name) :: .name_separator ::
            (t.tokens ++ (Tree.moreMembers ms ++ .end_object :: rest)) := by
        simp [Tree.tokens, keyTokens]
      rw [htokens, Tree.value, Tree.valueMembers]
      show (sax.push (.object [] none) >>= fun sax =>
        sax.key (text (Utf8.encode name)) >>= fun sax =>
          sax_parse_internal false (false :: states) sax _) = _
      rw [Dom.push_of_ready h, text_encode]
      show sax_parse_internal false (false :: states) ⟨sax.root, .object
        (Json.emplace (String.ofList name) []) (some (String.ofList name)) :: sax.ref_stack⟩ _ = _
      rw [sax_parse_internal_tree t _ _ _ (ready_object _ _ _ _), handle_value_object]
      exact sax_parse_internal_moreMembers ms _ _ _ _ _

/-- Behind an item, in the array `items` with `stack` around it. -/
theorem sax_parse_internal_moreItems : ∀ (ts : List Tree) (items : List Json) (states : List Bool)
    (root : Json) (stack : List Open) (rest : List Token),
    sax_parse_internal true (true :: states) ⟨root, .array items :: stack⟩
        (Tree.moreItems ts ++ .end_array :: rest) =
      Dom.handle_value ⟨root, stack⟩ (.array (items ++ Tree.valueItems ts)) >>= fun sax =>
        sax_parse_internal true states sax rest
  | [], items, states, root, stack, rest => by
      rw [Tree.moreItems, Tree.valueItems, List.append_nil]
      rfl
  | t :: ts, items, states, root, stack, rest => by
      have htokens : Tree.moreItems (t :: ts) ++ .end_array :: rest =
          .value_separator :: (t.tokens ++ (Tree.moreItems ts ++ .end_array :: rest)) := by
        simp [Tree.moreItems]
      rw [htokens, sax_parse_internal, sax_parse_internal_tree t _ _ _ (ready_array _ _ _)]
      show sax_parse_internal true (true :: states) ⟨root, .array (items ++ [t.value]) :: stack⟩ _ = _
      rw [sax_parse_internal_moreItems ts, Tree.valueItems, List.append_assoc,
        List.singleton_append]

/-- Behind a member, in the object `members` with `stack` around it. -/
theorem sax_parse_internal_moreMembers : ∀ (ms : List (List Char × Tree))
    (members : List (String × Json)) (states : List Bool) (root : Json) (stack : List Open)
    (rest : List Token),
    sax_parse_internal true (false :: states) ⟨root, .object members none :: stack⟩
        (Tree.moreMembers ms ++ .end_object :: rest) =
      Dom.handle_value ⟨root, stack⟩ (.object (Tree.valueMembers members ms)) >>= fun sax =>
        sax_parse_internal true states sax rest
  | [], members, states, root, stack, rest => by
      rw [Tree.moreMembers, Tree.valueMembers]
      rfl
  | (name, t) :: ms, members, states, root, stack, rest => by
      have htokens : Tree.moreMembers ((name, t) :: ms) ++ .end_object :: rest =
          .value_separator :: .value_string (Utf8.encode name) :: .name_separator ::
            (t.tokens ++ (Tree.moreMembers ms ++ .end_object :: rest)) := by
        simp [Tree.moreMembers, keyTokens]
      rw [htokens, Tree.valueMembers]
      show sax_parse_internal false (false :: states) ⟨root, .object
        (Json.emplace (text (Utf8.encode name)) members) (some (text (Utf8.encode name))) ::
          stack⟩ _ = _
      rw [text_encode, sax_parse_internal_tree t _ _ _ (ready_object _ _ _ _), handle_value_object]
      exact sax_parse_internal_moreMembers ms _ _ _ _ _

end

/-! ### Nothing but trees -/

/-- Every token buffer holds the UTF-8 of a text. -/
def Decodes (ts : List Token) : Prop :=
  ∀ w, .value_string w ∈ ts → ∃ cs, w = Utf8.encode cs

theorem Decodes.tail {t : Token} {ts : List Token} (h : Decodes (t :: ts)) : Decodes ts := by
  intro w hw
  exact h w (List.mem_cons_of_mem _ hw)

theorem Decodes.right {ts ts' : List Token} (h : Decodes (ts ++ ts')) : Decodes ts' := by
  intro w hw
  exact h w (List.mem_append_right _ hw)

/-- Where the loop is at a value and completes, a tree is ahead; the three
properties are for inputs of at most `n` tokens. -/
def TreeAhead (n : ℕ) : Prop :=
  ∀ {ts : List Token} {states : List Bool} {sax : Dom} {r : Dom × List Token}, ts.length ≤ n →
    Decodes ts → sax.Ready → sax_parse_internal false states sax ts = .ok r →
    ∃ t rest, ts = Tree.tokens t ++ rest

/-- Where it is behind an item, more items and the bracket are. -/
def ItemsAhead (n : ℕ) : Prop :=
  ∀ {ts : List Token} {states : List Bool} {root : Json} {items : List Json} {stack : List Open}
    {r : Dom × List Token}, ts.length ≤ n → Decodes ts →
    sax_parse_internal true (true :: states) ⟨root, .array items :: stack⟩ ts = .ok r →
    ∃ trees rest, ts = Tree.moreItems trees ++ .end_array :: rest

/-- Where it is behind a member, more members and the brace are. -/
def MembersAhead (n : ℕ) : Prop :=
  ∀ {ts : List Token} {states : List Bool} {root : Json} {members : List (String × Json)}
    {stack : List Open} {r : Dom × List Token}, ts.length ≤ n → Decodes ts →
    sax_parse_internal true (false :: states) ⟨root, .object members none :: stack⟩ ts = .ok r →
    ∃ trees rest, ts = Tree.moreMembers trees ++ .end_object :: rest

theorem itemsAhead_succ {n : ℕ} (htree : TreeAhead n) (hitems : ItemsAhead n) :
    ItemsAhead (n + 1) := by
  intro ts states root items stack r hlength hdecodes h
  cases ts with
  | nil => cases h
  | cons token rest =>
      simp only [List.length_cons, Nat.add_le_add_iff_right] at hlength
      cases token with
      | end_array => exact ⟨[], rest, rfl⟩
      | value_separator =>
          obtain ⟨t, rest₁, rfl⟩ := htree hlength hdecodes.tail (ready_array _ _ _) h
          rw [sax_parse_internal, sax_parse_internal_tree t _ _ _ (ready_array _ _ _)] at h
          have hlength₁ : rest₁.length ≤ n := by
            rw [List.length_append] at hlength
            omega
          obtain ⟨trees, rest₂, rfl⟩ := hitems hlength₁ hdecodes.tail.right h
          exact ⟨t :: trees, rest₂, by simp [Tree.moreItems]⟩
      | _ => cases h

/-- Where a key is due, a name, the separator and a tree are ahead. -/
theorem TreeAhead.member {n : ℕ} (htree : TreeAhead n) {ts : List Token} {states : List Bool}
    {root : Json} {members : List (String × Json)} {stack : List Open} {r : Dom × List Token}
    (hlength : ts.length ≤ n) (hdecodes : Decodes ts)
    (h : sax_parse_internal true (false :: states) ⟨root, .object members none :: stack⟩
      (.value_separator :: ts) = .ok r) :
    ∃ name t rest, ts = keyTokens name ++ (Tree.tokens t ++ rest) ∧
      sax_parse_internal true (false :: states) ⟨root, .object
        (Json.put (String.ofList name) t.value members) none :: stack⟩ rest = .ok r := by
  rcases ts with - | ⟨token, ts⟩
  · cases h
  · cases token with
    | value_string w =>
        obtain ⟨name, rfl⟩ := hdecodes w List.mem_cons_self
        rcases ts with - | ⟨token, ts⟩
        · cases h
        · cases token with
          | name_separator =>
              have hready := ready_object root
                (Json.emplace (text (Utf8.encode name)) members) (text (Utf8.encode name)) stack
              simp only [List.length_cons] at hlength
              obtain ⟨t, rest, rfl⟩ := htree (by omega) hdecodes.tail.tail hready h
              refine ⟨name, t, rest, rfl, ?_⟩
              have hloop := (sax_parse_internal_tree t _ _ rest hready).symm.trans h
              rw [handle_value_object, text_encode] at hloop
              exact hloop
          | _ => cases h
    | _ => cases h

theorem membersAhead_succ {n : ℕ} (htree : TreeAhead n) (hmembers : MembersAhead n) :
    MembersAhead (n + 1) := by
  intro ts states root members stack r hlength hdecodes h
  cases ts with
  | nil => cases h
  | cons token rest =>
      simp only [List.length_cons, Nat.add_le_add_iff_right] at hlength
      cases token with
      | end_object => exact ⟨[], rest, rfl⟩
      | value_separator =>
          obtain ⟨name, t, rest₁, rfl, h₁⟩ := htree.member hlength hdecodes.tail h
          have hlength₁ : rest₁.length ≤ n := by
            rw [List.length_append, List.length_append] at hlength
            omega
          obtain ⟨trees, rest₂, rfl⟩ := hmembers hlength₁ hdecodes.tail.right.right h₁
          exact ⟨(name, t) :: trees, rest₂, by simp [Tree.moreMembers]⟩
      | _ => cases h

theorem treeAhead_succ {n : ℕ} (htree : TreeAhead n) (hitems : ItemsAhead n)
    (hmembers : MembersAhead n) : TreeAhead (n + 1) := by
  intro ts states sax r hlength hdecodes hready h
  cases ts with
  | nil => cases h
  | cons token rest =>
      simp only [List.length_cons, Nat.add_le_add_iff_right] at hlength
      cases token with
      | literal_true => exact ⟨.scalar (.literal_boolean true), rest, rfl⟩
      | literal_false => exact ⟨.scalar (.literal_boolean false), rest, rfl⟩
      | literal_null => exact ⟨.scalar .literal_null, rest, rfl⟩
      | value_string w =>
          obtain ⟨cs, rfl⟩ := hdecodes w List.mem_cons_self
          exact ⟨.scalar (.string cs), rest, rfl⟩
      | value_unsigned m => exact ⟨.scalar (.unsigned m), rest, rfl⟩
      | value_integer m => exact ⟨.scalar (.integer m), rest, rfl⟩
      | value_float x =>
          rcases x with - | x
          · cases h
          · exact ⟨.scalar (.float x), rest, rfl⟩
      | begin_array =>
          rw [sax_parse_internal, Dom.start_array, Dom.push_of_ready hready, ok_bind] at h
          split at h
          next rest₁ => exact ⟨.array [], rest₁, rfl⟩
          next =>
            obtain ⟨t, rest₁, rfl⟩ := htree hlength hdecodes.tail (ready_array _ _ _) h
            rw [sax_parse_internal_tree t _ _ _ (ready_array _ _ _)] at h
            have hlength₁ : rest₁.length ≤ n := by
              rw [List.length_append] at hlength
              omega
            obtain ⟨trees, rest₂, rfl⟩ := hitems hlength₁ hdecodes.tail.right h
            exact ⟨.array (t :: trees), rest₂, by simp [Tree.tokens]⟩
      | begin_object =>
          rw [sax_parse_internal, Dom.start_object, Dom.push_of_ready hready, ok_bind] at h
          split at h
          next rest₁ => exact ⟨.object [], rest₁, rfl⟩
          next w rest₁ =>
            -- the first member comes as the others do
            rcases rest₁ with - | ⟨token, rest₁⟩
            · cases h
            · cases token with
              | name_separator =>
                  obtain ⟨name, t, rest₂, hrest, h₂⟩ :=
                    @TreeAhead.member n htree _ states sax.root [] sax.ref_stack r hlength
                      hdecodes.tail h
                  rw [hrest] at hlength hdecodes ⊢
                  have hlength₂ : rest₂.length ≤ n := by
                    rw [List.length_append, List.length_append] at hlength
                    omega
                  obtain ⟨trees, rest₃, rfl⟩ := hmembers hlength₂ hdecodes.tail.right.right h₂
                  exact ⟨.object ((name, t) :: trees), rest₃, by simp [Tree.tokens]⟩
              | _ => cases h
          next => cases h
          next => cases h
      | _ => cases h

theorem aheads (n : ℕ) : TreeAhead n ∧ ItemsAhead n ∧ MembersAhead n := by
  induction n with
  | zero =>
      refine ⟨?_, ?_, ?_⟩
      · intro ts states sax r hlength _ _ h
        obtain rfl := List.length_eq_zero_iff.mp (Nat.le_zero.mp hlength)
        cases h
      · intro ts states root items stack r hlength _ h
        obtain rfl := List.length_eq_zero_iff.mp (Nat.le_zero.mp hlength)
        cases h
      · intro ts states root members stack r hlength _ h
        obtain rfl := List.length_eq_zero_iff.mp (Nat.le_zero.mp hlength)
        cases h
  | succ n ih =>
      obtain ⟨htree, hitems, hmembers⟩ := ih
      exact ⟨treeAhead_succ htree hitems hmembers, itemsAhead_succ htree hitems,
        membersAhead_succ htree hmembers⟩

/-- At the top: the value of the tree, and what is behind it. -/
theorem sax_parse_internal_top (t : Tree) (rest : List Token) :
    sax_parse_internal false [] Dom.start (t.tokens ++ rest) = .ok (⟨t.value, []⟩, rest) := by
  have hready : Dom.start.Ready := by
    intro members stack h
    cases h
  have hvalue : Dom.start.handle_value t.value = .ok ⟨t.value, []⟩ := rfl
  rw [sax_parse_internal_tree t _ _ _ hready, hvalue, ok_bind, sax_parse_internal]

/-- The loop completes on the tokens of a tree only. -/
theorem exists_tree {ts : List Token} (hdecodes : Decodes ts) {r : Dom × List Token}
    (h : sax_parse_internal false [] Dom.start ts = .ok r) :
    ∃ t, ts = Tree.tokens t ++ r.2 ∧ r.1.root = t.value := by
  have hready : Dom.start.Ready := by
    intro members stack h
    cases h
  obtain ⟨t, rest, rfl⟩ := (aheads ts.length).1 (le_refl _) hdecodes hready h
  rw [sax_parse_internal_top] at h
  obtain rfl := Except.ok.inj h
  exact ⟨t, rfl, rfl⟩

/-! ### Texts -/

/-- The text is written as the tree `t`: its tokens, with white space around
them, up to the end or a NUL, behind a byte order mark or not. -/
def Writes (b : Bytes) (t : Tree) : Prop :=
  ReadsText b t.tokens

/-- Behind `end_of_input` there is no token. -/
theorem eq_nil_of_ended {ts more : List Token} (h : Ended (ts ++ .end_of_input :: more)) :
    more = [] := by
  obtain ⟨read, last, heq, -, hall⟩ := h
  rcases List.eq_nil_or_concat more with rfl | ⟨more, last', rfl⟩
  · rfl
  · have hsplit : (ts ++ .end_of_input :: more) ++ [last'] = read ++ [last] := by
      rw [← heq]
      simp
    obtain ⟨hread, -⟩ := List.append_inj' hsplit rfl
    obtain ⟨w, hw⟩ := hall .end_of_input (hread ▸ by simp)
    exact absurd rfl hw.ne_end_of_input

/-- The token buffer of a string always holds the UTF-8 of a text. -/
theorem decodes_of_ended {ts : List Token} (h : Ended ts) : Decodes ts := by
  obtain ⟨read, last, rfl, hlast, hall⟩ := h
  intro w hmem
  rcases List.mem_append.mp hmem with hmem | hmem
  · obtain ⟨w', hw'⟩ := hall _ hmem
    generalize ht : Token.value_string w = t at hw'
    cases hw' with
    | string hcs => exact ⟨_, Token.value_string.inj ht⟩
    | number n =>
        have hnumber := n.isNumber_token
        rw [← ht] at hnumber
        cases hnumber
    | _ => cases ht
  · rcases hlast with rfl | rfl
    · cases List.mem_singleton.mp hmem
    · cases List.mem_singleton.mp hmem

/-- Tokens in front of which a number may stand. -/
def Follows (ts : List Token) : Prop :=
  Separated ts ∧ ∀ t ∈ ts.head?, t.isStructural = true

theorem separated_cons {t : Token} {ts : List Token} (hts : Separated ts)
    (h : t.isNumber = true → ∀ t' ∈ ts.head?, t'.isStructural = true) : Separated (t :: ts) := by
  cases ts with
  | nil => exact .singleton t
  | cons t' ts => exact .cons_cons (fun ht => h ht t' rfl) hts

theorem follows_cons {t : Token} {ts : List Token} (ht : t.isStructural = true)
    (hts : Separated ts) : Follows (t :: ts) := by
  refine ⟨separated_cons hts ?_, ?_⟩
  · intro hnumber
    cases t <;> cases ht <;> cases hnumber
  · intro t' ht'
    obtain rfl := Option.some.inj ht'
    exact ht

theorem separated_keyTokens (name : List Char) {ts : List Token} (hts : Separated ts) :
    Separated (keyTokens name ++ ts) := by
  refine separated_cons (follows_cons rfl hts).1 ?_
  intro hnumber
  cases hnumber

mutual

/-- In the tokens of a tree a structural character follows each number. -/
theorem separated_tree : ∀ (t : Tree) {ts : List Token}, Follows ts → Separated (t.tokens ++ ts)
  | .scalar s, ts, hts => by
      rw [Tree.tokens]
      exact separated_cons hts.1 fun _ => hts.2
  | .array [], ts, hts => by
      rw [Tree.tokens]
      exact (follows_cons rfl (follows_cons rfl hts.1).1).1
  | .array (t :: more), ts, hts => by
      rw [Tree.tokens]
      refine (follows_cons rfl ?_).1
      have htail := follows_moreItems more (@follows_cons .end_array _ rfl hts.1)
      simpa using separated_tree t htail
  | .object [], ts, hts => by
      rw [Tree.tokens]
      exact (follows_cons rfl (follows_cons rfl hts.1).1).1
  | .object ((name, t) :: more), ts, hts => by
      rw [Tree.tokens]
      refine (follows_cons rfl ?_).1
      have htail := follows_moreMembers more (@follows_cons .end_object _ rfl hts.1)
      simpa using separated_keyTokens name (separated_tree t htail)

theorem follows_moreItems : ∀ (more : List Tree) {ts : List Token}, Follows ts →
    Follows (Tree.moreItems more ++ ts)
  | [], ts, hts => hts
  | t :: more, ts, hts => by
      rw [Tree.moreItems]
      refine follows_cons rfl ?_
      simpa using separated_tree t (follows_moreItems more hts)

theorem follows_moreMembers : ∀ (more : List (List Char × Tree)) {ts : List Token}, Follows ts →
    Follows (Tree.moreMembers more ++ ts)
  | [], ts, hts => hts
  | (name, t) :: more, ts, hts => by
      rw [Tree.moreMembers]
      refine follows_cons rfl ?_
      simpa using separated_keyTokens name (separated_tree t (follows_moreMembers more hts))

end

theorem separated_tokens (t : Tree) : Separated t.tokens := by
  have hnil : Follows [] := ⟨.nil, by simp⟩
  simpa using separated_tree t hnil

/-- A text parses as `j` iff it is written as a tree of value `j`. -/
theorem parse_eq_ok_iff {b : Bytes} {j : Json} :
    parse b = .ok j ↔ ∃ t, Writes b t ∧ t.value = j := by
  refine ⟨?_, ?_⟩
  · intro h
    obtain ⟨⟨sax, rest⟩, hloop, h⟩ := bind_eq_ok_iff.mp h
    obtain ⟨t, htokens, hvalue⟩ := exists_tree (decodes_of_ended (ended_tokens b)) hloop
    dsimp only at h htokens hvalue
    split at h
    next more =>
      have hended := ended_tokens b
      rw [htokens] at hended
      obtain rfl := eq_nil_of_ended hended
      exact ⟨t, readsText_of_tokens htokens, hvalue.symm.trans (Except.ok.inj h)⟩
    next => cases h
    next => cases h
  · rintro ⟨t, hwrites, rfl⟩
    have htokens := tokens_of_readsText hwrites (separated_tokens t)
    rw [parse, htokens, sax_parse_internal_top]
    rfl

end Parser

end SyncServiceUi
