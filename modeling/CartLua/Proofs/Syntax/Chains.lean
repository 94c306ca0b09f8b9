import CartLua.Proofs.Derivation.Remnants

/-!
# Chains

A chain is a name or a name in brackets with any number of tails after it.  A variable tail is a
field or an index, a call tail is a call or a call of a method.  A statement that begins with a
chain walks it by continuation rules, each of which knows only the element seen last.  What such a
walk leaves of a text is computed here from the tails alone: all that matters is which tails are
calls, and whether an assignment follows.
-/

namespace CartLua

open Dialect Pattern

/-- A tail of a chain. -/
inductive ChainTail
  | field (n : Identifier)
  | index (n : Identifier)
  | call (n : Identifier)
  | method (m n : Identifier)

namespace ChainTail

def isCall : ChainTail → Bool
  | field _ => false
  | index _ => false
  | call _ => true
  | method .. => true

def text : ChainTail → List Char
  | field n => '.' :: n.chars
  | index n => '[' :: (n.chars ++ [']'])
  | call n => '(' :: (n.chars ++ [')'])
  | method m n => ':' :: (m.chars ++ '(' :: (n.chars ++ [')']))

/-- The text of tails in a row. -/
def textOfAll (tails : List ChainTail) : List Char := tails.flatMap text

def tokens : ChainTail → List Token
  | field n => [.char '.', .name n]
  | index n => [.char '[', .name n, .char ']']
  | call n => [.char '(', .name n, .char ')']
  | method m n => [.char ':', .name m, .char '(', .name n, .char ')']

@[simp]
theorem textOfAll_nil : textOfAll [] = [] := rfl

@[simp]
theorem textOfAll_cons (t : ChainTail) (ts : List ChainTail) :
    textOfAll (t :: ts) = t.text ++ textOfAll ts := List.flatMap_cons

variable (t : ChainTail) {rest : List Char}

theorem text_tokens (rest : List Char) : Token.text t.tokens rest = t.text ++ rest := by
  cases t <;> simp [tokens, Token.text, text]

theorem endsWord_cons {c : Char} (hc : c ∉ nameCharacters.toList) (s : List Char) :
    EndsWord (c :: s) := fun _ hd => Option.some.inj hd ▸ hc

/-- The names in a tail end before what follows them, and so does the tail. -/
theorem fit_tokens (hrest : EndsWord rest) : Token.Fit t.tokens rest := by
  cases t with
  | field n => exact ⟨hrest, trivial⟩
  | index n => exact ⟨endsWord_cons (by decide) _, trivial⟩
  | call n => exact ⟨endsWord_cons (by decide) _, trivial⟩
  | method m n => exact ⟨endsWord_cons (by decide) _, endsWord_cons (by decide) _, trivial⟩

/-- No tail continues a word. -/
theorem endsWord_text (rest : List Char) : EndsWord (t.text ++ rest) := by
  cases t <;> exact endsWord_cons (by decide) _

theorem endsWord_textOfAll (ts : List ChainTail) {e : List Char} (he : EndsWord e) :
    EndsWord (textOfAll ts ++ e) := by
  cases ts with
  | nil => exact he
  | cons t ts =>
      rw [textOfAll_cons, List.append_assoc]
      exact t.endsWord_text _

end ChainTail

/-- A name, or a name in brackets, with tails. -/
structure Chain where
  bracketed : Bool
  head : Identifier
  tails : List ChainTail

namespace Chain

def headTokens (c : Chain) : List Token :=
  if c.bracketed then [.char '(', .name c.head, .char ')'] else [.name c.head]

def headText (c : Chain) : List Char :=
  if c.bracketed then '(' :: (c.head.chars ++ [')']) else c.head.chars

def text (c : Chain) : List Char := c.headText ++ ChainTail.textOfAll c.tails

theorem text_headTokens (c : Chain) (rest : List Char) :
    Token.text c.headTokens rest = c.headText ++ rest := by
  unfold headTokens headText
  split <;> simp [Token.text]

theorem fit_headTokens (c : Chain) {rest : List Char} (hrest : EndsWord rest) :
    Token.Fit c.headTokens rest := by
  unfold headTokens
  split
  · exact ⟨ChainTail.endsWord_cons (by decide) _, trivial⟩
  · exact ⟨hrest, trivial⟩

/-- Whether the last element is a call tail. -/
def EndsOnCall (c : Chain) : Prop := ∃ t ∈ c.tails.getLast?, t.isCall = true

/-- Whether the last element is a variable tail. -/
def EndsOnVariable (c : Chain) : Prop := ∃ t ∈ c.tails.getLast?, t.isCall = false

/-- Whether the chain is only a name. -/
def IsName (c : Chain) : Prop := c.bracketed = false ∧ c.tails = []

end Chain

/-! ## The elements of chains in outline -/

namespace Dialect

variable {dialect : Dialect} {e rest : List Char} {x : Remnant}

/-- What may follow a variable at the end of a chain. -/
def assigning (dialect : Dialect) : List Pattern :=
  call "assignments" :: dialect.extension [call "reassignment"]

/-- The number of levels that are enough to see how the parts of chains are matched. -/
def levels : Nat := 100

/-- The outlines of tails, and whether they are calls. -/
def tailOutlines : List (Outline × Bool) :=
  [([.char '.', .name], false), ([.char '[', .name, .char ']'], false),
    ([.char '(', .name, .char ')'], true),
    ([.char ':', .name, .char '(', .name, .char ')'], true)]

theorem mem_tailOutlines (t : ChainTail) :
    (Token.outline t.tokens, t.isCall) ∈ tailOutlines := by
  cases t <;> simp [tailOutlines, ChainTail.tokens, ChainTail.isCall, Token.outline, Token.mark]

/-- How tails are seen: no padding stands before them, call tails and variable tails are told
apart, and no assignment begins with one. -/
theorem look_tailOutlines (dialect : Dialect) : ∀ entry ∈ tailOutlines,
    look dialect levels gap entry.1 = .takes entry.1 ∧
      look dialect levels (Pattern.call "function_call_tail") entry.1 =
        (if entry.2 then .takes [] else .fails) ∧
      look dialect levels (Pattern.call "variable_tail") entry.1 =
        (if entry.2 then .fails else .takes []) ∧
      look dialect levels (choice dialect.assigning) entry.1 = .fails := by
  cases dialect <;> decide

/-- What is taken in outline to its end is taken. -/
theorem takes_of_look_nil {p : Pattern} {ts : List Token} (h : Token.Fit ts rest)
    (hlook : look dialect levels p (Token.outline ts) = .takes []) :
    Takes dialect.grammar p (Token.text ts rest) rest := by
  have htakes := takes_of_look ts [] (ts.append_nil.symm ▸ h)
    (ts.append_nil.symm ▸ hlook)
  rwa [List.append_nil] at htakes

/-- What is taken nothing of in outline is left as it is. -/
theorem takes_of_look_self {p : Pattern} {ts : List Token} (h : Token.Fit ts rest)
    (hlook : look dialect levels p (Token.outline ts) = .takes (Token.outline ts)) :
    Takes dialect.grammar p (Token.text ts rest) (Token.text ts rest) :=
  takes_of_look [] ts h hlook

variable (dialect) (t : ChainTail)

theorem takes_gap_tail (hrest : EndsWord rest) :
    Takes dialect.grammar gap (t.text ++ rest) (t.text ++ rest) := by
  rw [← t.text_tokens]
  exact takes_of_look_self (t.fit_tokens hrest) (look_tailOutlines dialect _ (mem_tailOutlines t)).1

/-- A call tail is taken, and a variable tail is none. -/
theorem leaves_callTail (hrest : EndsWord rest) :
    Leaves dialect.grammar (.call "function_call_tail") (t.text ++ rest)
      (if t.isCall then .rest rest else .failed) := by
  rw [← t.text_tokens]
  have hlook := (look_tailOutlines dialect _ (mem_tailOutlines t)).2.1
  cases hcall : t.isCall with
  | true => exact takes_of_look_nil (t.fit_tokens hrest) (by simpa [hcall] using hlook)
  | false => exact failed_of_look (t.fit_tokens hrest) (by simpa [hcall] using hlook)

/-- A variable tail is taken, and a call tail is none. -/
theorem leaves_variableTail (hrest : EndsWord rest) :
    Leaves dialect.grammar (.call "variable_tail") (t.text ++ rest)
      (if t.isCall then .failed else .rest rest) := by
  rw [← t.text_tokens]
  have hlook := (look_tailOutlines dialect _ (mem_tailOutlines t)).2.2.1
  cases hcall : t.isCall with
  | true => exact failed_of_look (t.fit_tokens hrest) (by simpa [hcall] using hlook)
  | false => exact takes_of_look_nil (t.fit_tokens hrest) (by simpa [hcall] using hlook)

theorem failed_assigning_tail (hrest : EndsWord rest) :
    Leaves dialect.grammar (.choice dialect.assigning) (t.text ++ rest) .failed := by
  rw [← t.text_tokens]
  exact failed_of_look (t.fit_tokens hrest)
    (look_tailOutlines dialect _ (mem_tailOutlines t)).2.2.2

/-! ## Walking a chain -/

variable {dialect}

/-- What follows a chain: no tail, and an assignment of which the remnant is known. -/
structure Ending (dialect : Dialect) (e : List Char) (x : Remnant) : Prop where
  endsWord : EndsWord e
  exists_gap : ∃ t, Takes dialect.grammar gap e t ∧
    Derives dialect.grammar (.call "function_call_tail") t .failed ∧
    Derives dialect.grammar (.call "variable_tail") t .failed ∧
    Leaves dialect.grammar (.choice dialect.assigning) t x

/-- What a walk leaves of tails before an ending `e`, after a variable or else after a call, if
`x` is left of what may be assigned at the ending. -/
def leftOfTails (e : List Char) (x : Remnant) : (afterVariable : Bool) → List ChainTail → Remnant
  | true, [] => x
  | false, [] => .rest e
  | afterVariable, t :: ts =>
      (leftOfTails e x (!t.isCall) ts).orElse
        (if afterVariable then .failed else .rest (ChainTail.textOfAll (t :: ts) ++ e))

/-- The rule that walks on after a variable or else after a call. -/
def continuation (afterVariable : Bool) : Pattern :=
  .call (if afterVariable then "variable_continuation" else "call_continuation")

/-- The links of a chain take a tail and what the walk takes after it.  If they do not, then
nothing else does. -/
theorem leaves_links (h : dialect.Ending e x) {others : List Pattern} {ts : List ChainTail}
    (hothers : Leaves dialect.grammar (.choice others)
      (ChainTail.textOfAll (t :: ts) ++ e) .failed)
    (hnext : ∀ afterVariable, Leaves dialect.grammar (continuation afterVariable)
      (ChainTail.textOfAll ts ++ e) (leftOfTails e x afterVariable ts)) :
    Leaves dialect.grammar (.choice (callLink :: variableLink :: others))
      (ChainTail.textOfAll (t :: ts) ++ e) (leftOfTails e x (!t.isCall) ts) := by
  have hrest := ChainTail.endsWord_textOfAll ts h.endsWord
  rw [ChainTail.textOfAll_cons, List.append_assoc] at hothers ⊢
  have hcallTail := leaves_callTail dialect t hrest
  have hvariableTail := leaves_variableTail dialect t hrest
  cases hcall : t.isCall with
  | true =>
      rw [hcall] at hcallTail hvariableTail
      have hlink : Leaves dialect.grammar callLink _ _ :=
        .seq_cons hcallTail (.seq_last (hnext false))
      have hother : Leaves dialect.grammar variableLink _ .failed := .seq_failed hvariableTail
      simpa using hlink.choice_cons fun _ => .choice_next hother hothers
  | false =>
      rw [hcall] at hcallTail hvariableTail
      have hother : Leaves dialect.grammar callLink _ .failed := .seq_failed hcallTail
      have hlink : Leaves dialect.grammar variableLink _ _ :=
        .seq_cons hvariableTail (.seq_last (hnext true))
      simpa using Leaves.choice_next hother (hlink.choice_cons fun _ => hothers)

/-- At an ending no link of a chain takes anything. -/
theorem leaves_links_ending {s : List Char} {others : List Pattern}
    (hcallTail : Derives dialect.grammar (.call "function_call_tail") s .failed)
    (hvariableTail : Derives dialect.grammar (.call "variable_tail") s .failed)
    (hothers : Leaves dialect.grammar (.choice others) s x) :
    Leaves dialect.grammar (.choice (callLink :: variableLink :: others)) s x :=
  have hcallLink : Leaves dialect.grammar callLink s .failed := .seq_failed hcallTail
  have hvariableLink : Leaves dialect.grammar variableLink s .failed := .seq_failed hvariableTail
  .choice_next hcallLink (.choice_next hvariableLink hothers)

variable {s u : List Char}

/-- After a variable there must be a link or an assignment. -/
theorem leaves_continuation_variable (hgap : Takes dialect.grammar gap s u)
    (hlinks : Leaves dialect.grammar
      (.choice (callLink :: variableLink :: dialect.assigning)) u x) :
    Leaves dialect.grammar (continuation true) s x := by
  have hrule : variableContinuation dialect ∈ dialect.rules := by
    simp [rules, chainStatementRules]
  exact .call hrule (.seq_cons hgap (.seq_last hlinks))

/-- After a call there may be a link. -/
theorem leaves_continuation_call (hgap : Takes dialect.grammar gap s u)
    (hlinks : Leaves dialect.grammar (.choice [callLink, variableLink]) u x) :
    Leaves dialect.grammar (continuation false) s (x.orElse (.rest s)) := by
  have hrule : callContinuation ∈ dialect.rules := by simp [rules, chainStatementRules]
  exact .call hrule (Leaves.opt (.seq_cons hgap (.seq_last hlinks)))

/-- A walk leaves of tails what is computed from them. -/
theorem leaves_continuation (h : dialect.Ending e x) (ts : List ChainTail) (afterVariable : Bool) :
    Leaves dialect.grammar (continuation afterVariable) (ChainTail.textOfAll ts ++ e)
      (leftOfTails e x afterVariable ts) := by
  induction ts generalizing afterVariable with
  | nil =>
      obtain ⟨u, hgap, hcallTail, hvariableTail, hassigning⟩ := h.exists_gap
      cases afterVariable with
      | true =>
          exact leaves_continuation_variable hgap
            (leaves_links_ending hcallTail hvariableTail hassigning)
      | false =>
          exact leaves_continuation_call hgap
            (leaves_links_ending hcallTail hvariableTail (.choice_nil u))
  | cons t ts ih =>
      have hrest := ChainTail.endsWord_textOfAll ts h.endsWord
      have hgap := takes_gap_tail dialect t hrest
      have hassigning := failed_assigning_tail dialect t hrest
      rw [← List.append_assoc, ← ChainTail.textOfAll_cons] at hgap hassigning
      cases afterVariable with
      | true =>
          rw [leftOfTails, if_pos rfl, Remnant.orElse_failed]
          exact leaves_continuation_variable hgap (leaves_links t h hassigning ih)
      | false => exact leaves_continuation_call hgap (leaves_links t h (.choice_nil _) ih)

/-! ## Statements that begin with a chain -/

/-- How heads are seen: a name is no bracket, and a bracket no name. -/
theorem look_heads (dialect : Dialect) :
    look dialect levels (Pattern.call "name") [.name] = .takes [] ∧
      look dialect levels (Pattern.call "bracket_expr") [.name] = .fails ∧
      look dialect levels (Pattern.call "name") [.char '(', .name, .char ')'] = .fails ∧
      look dialect levels (Pattern.call "bracket_expr") [.char '(', .name, .char ')'] =
        .takes [] := by
  cases dialect <;> decide

theorem leaves_name_head (dialect : Dialect) (c : Chain) (hrest : EndsWord rest) :
    Leaves dialect.grammar (.call "name") (c.headText ++ rest)
      (if c.bracketed then .failed else .rest rest) := by
  obtain ⟨hname, -, hbracket, -⟩ := look_heads dialect
  have hfit := c.fit_headTokens hrest
  rw [← c.text_headTokens]
  rcases c with ⟨_ | _, head, tails⟩
  · exact takes_of_look_nil hfit hname
  · exact failed_of_look hfit hbracket

theorem leaves_bracket_head (dialect : Dialect) (c : Chain) (hrest : EndsWord rest) :
    Leaves dialect.grammar (.call "bracket_expr") (c.headText ++ rest)
      (if c.bracketed then .rest rest else .failed) := by
  obtain ⟨-, hname, -, hbracket⟩ := look_heads dialect
  have hfit := c.fit_headTokens hrest
  rw [← c.text_headTokens]
  rcases c with ⟨_ | _, head, tails⟩
  · exact failed_of_look hfit hname
  · exact takes_of_look_nil hfit hbracket

/-- What is left of a chain before an ending. -/
def leftOfChain (e : List Char) (x : Remnant) (c : Chain) : Remnant :=
  match c.bracketed, c.tails with
  | false, tails => leftOfTails e x true tails
  | true, [] => .failed
  | true, t :: ts => leftOfTails e x (!t.isCall) ts

/-- After a bracket there must be a link. -/
theorem leaves_bracketContinuation (h : dialect.Ending e x) (c : Chain)
    (hbracketed : c.bracketed = true) :
    Leaves dialect.grammar (.call "bracket_continuation") (ChainTail.textOfAll c.tails ++ e)
      (leftOfChain e x c) := by
  have hrule : bracketContinuation ∈ dialect.rules := by simp [rules, chainStatementRules]
  rw [leftOfChain, hbracketed]
  cases c.tails with
  | nil =>
      obtain ⟨u, hgap, hcallTail, hvariableTail, -⟩ := h.exists_gap
      have hlinks := leaves_links_ending hcallTail hvariableTail (.choice_nil u)
      exact .call hrule (.seq_cons hgap (.seq_last hlinks))
  | cons t ts =>
      have hgap := takes_gap_tail dialect t
        (ChainTail.endsWord_textOfAll ts h.endsWord)
      rw [← List.append_assoc, ← ChainTail.textOfAll_cons] at hgap
      have hlinks := leaves_links t h (.choice_nil _) (leaves_continuation h ts)
      exact .call hrule (.seq_cons hgap (.seq_last hlinks))

/-- A statement leaves of a chain what is computed from its tails. -/
theorem leaves_chainStatement (h : dialect.Ending e x) (c : Chain) :
    Leaves dialect.grammar (.call "chain_statement") (c.text ++ e) (leftOfChain e x c) := by
  have hrule : chainStatement ∈ dialect.rules := by simp [rules, chainStatementRules]
  have hrest := ChainTail.endsWord_textOfAll c.tails h.endsWord
  have hname := leaves_name_head dialect c hrest
  have hbracket := leaves_bracket_head dialect c hrest
  have hnext := leaves_bracketContinuation h c
  rw [Chain.text, List.append_assoc]
  refine .call hrule ?_
  cases hbracketed : c.bracketed with
  | true =>
      rw [hbracketed] at hname hbracket
      exact .choice_next (.seq_failed hname)
        (.choice_last (.seq_cons hbracket (.seq_last (hnext hbracketed))))
  | false =>
      rw [hbracketed] at hname hbracket
      have hwalk : Leaves dialect.grammar (.seq [.call "name", continuation true])
          (c.headText ++ (ChainTail.textOfAll c.tails ++ e)) (leftOfChain e x c) := by
        rw [leftOfChain, hbracketed]
        exact .seq_cons hname (.seq_last (leaves_continuation h c.tails true))
      rw [← (leftOfChain e x c).orElse_failed]
      exact hwalk.choice_cons fun _ => .choice_next (.seq_failed hbracket) (.choice_nil _)

/-! ## The last element -/

/-- Whether the last element is a variable, when tails follow a variable or else a call. -/
def endsOnVariable (afterVariable : Bool) : List ChainTail → Bool
  | [] => afterVariable
  | t :: ts => endsOnVariable (!t.isCall) ts

theorem endsOnVariable_eq (afterVariable : Bool) (tails : List ChainTail) :
    endsOnVariable afterVariable tails =
      (tails.getLast?.map fun t => !t.isCall).getD afterVariable := by
  induction tails generalizing afterVariable with
  | nil => rfl
  | cons t ts ih =>
      rw [endsOnVariable, ih, List.getLast?_cons]
      cases ts.getLast? <;> rfl

theorem endsOnVariable_append (afterVariable : Bool) (as bs : List ChainTail) :
    endsOnVariable afterVariable (as ++ bs) =
      endsOnVariable (endsOnVariable afterVariable as) bs := by
  induction as generalizing afterVariable with
  | nil => rfl
  | cons t ts ih => exact ih _

/-- A walk takes all of the text just if its last element suits the ending. -/
theorem leftOfTails_eq_rest_nil_iff {assigns : Bool} (he : e = [] ↔ assigns = false)
    (hx : x = if assigns then .rest [] else .failed) (tails : List ChainTail)
    (afterVariable : Bool) :
    leftOfTails e x afterVariable tails = .rest [] ↔
      endsOnVariable afterVariable tails = assigns := by
  induction tails generalizing afterVariable with
  | nil =>
      cases afterVariable with
      | true => cases assigns <;> simp [leftOfTails, endsOnVariable, hx]
      | false => simpa [leftOfTails, endsOnVariable, eq_comm] using he
  | cons t ts ih =>
      rw [leftOfTails, endsOnVariable, ← ih]
      have hstays : ChainTail.textOfAll (t :: ts) ++ e ≠ [] := by
        cases t <;> simp [ChainTail.text]
      cases leftOfTails e x (!t.isCall) ts with
      | rest s => rfl
      | broken => rfl
      | failed =>
          cases afterVariable with
          | true => simp
          | false => simpa using hstays

/-- A statement takes all of a chain and its ending just if there is more than a bracket and the
last element suits the ending. -/
theorem leftOfChain_eq_rest_nil_iff (assigns : Bool) (he : e = [] ↔ assigns = false)
    (hx : x = if assigns then .rest [] else .failed) (c : Chain) :
    leftOfChain e x c = .rest [] ↔
      (c.bracketed = true → c.tails ≠ []) ∧ endsOnVariable true c.tails = assigns := by
  rcases c with ⟨_ | _, head, _ | ⟨t, ts⟩⟩
  case false.nil => simpa [leftOfChain] using leftOfTails_eq_rest_nil_iff he hx [] true
  case false.cons => simpa [leftOfChain] using leftOfTails_eq_rest_nil_iff he hx (t :: ts) true
  case true.nil => simp [leftOfChain]
  case true.cons =>
    simpa [leftOfChain, endsOnVariable] using leftOfTails_eq_rest_nil_iff he hx ts (!t.isCall)

/-- The last element of a chain of which more than a bracket is assigned to. -/
theorem endsOnVariable_tails (c : Chain) :
    (c.bracketed = true → c.tails ≠ []) ∧ endsOnVariable true c.tails = true ↔
      c.EndsOnVariable ∨ c.IsName := by
  rw [endsOnVariable_eq, Chain.EndsOnVariable, Chain.IsName]
  rcases c.tails.eq_nil_or_concat with hnil | ⟨ts, t, hconcat⟩
  · simp [hnil]
  · simp [hconcat]

theorem leftOfChain_assignment (he : e ≠ []) (c : Chain) :
    leftOfChain e (.rest []) c = .rest [] ↔ c.EndsOnVariable ∨ c.IsName :=
  (leftOfChain_eq_rest_nil_iff true (by simpa using he) rfl c).trans
    (endsOnVariable_tails c)

theorem leftOfChain_call (c : Chain) : leftOfChain [] .failed c = .rest [] ↔ c.EndsOnCall := by
  rw [leftOfChain_eq_rest_nil_iff (x := .failed) false (by simp) rfl,
    endsOnVariable_eq, Chain.EndsOnCall]
  rcases c.tails.eq_nil_or_concat with hnil | ⟨ts, t, hconcat⟩
  · simp [hnil]
  · simp [hconcat]

/-! ## Endings -/

/-- The endings of statements: blanks, what follows them, and whether that is an assignment. -/
def endings (dialect : Dialect) : List (List Char × List Char × Bool) :=
  [([], [], false), ([' '], "= 1".toList, true), ([' '], "= 1, 2".toList, true)] ++
    dialect.extension
      (reassignmentOperators.map fun op => ([' '], op.toList ++ " 1".toList, true))

/-- How endings are seen: their blanks are padding, no tail follows, and an assignment goes on to
the end of the text. -/
theorem look_endings (dialect : Dialect) : ∀ entry ∈ dialect.endings,
    look dialect levels gap (Token.outline (Token.ofChars (entry.1 ++ entry.2.1))) =
        .takes (Token.outline (Token.ofChars entry.2.1)) ∧
      look dialect levels (Pattern.call "function_call_tail")
        (Token.outline (Token.ofChars entry.2.1)) = .fails ∧
      look dialect levels (Pattern.call "variable_tail")
        (Token.outline (Token.ofChars entry.2.1)) = .fails ∧
      look dialect levels (choice dialect.assigning) (Token.outline (Token.ofChars entry.2.1)) =
        if entry.2.2 then .takes [.finish] else .fails := by
  cases dialect <;> decide

theorem endsWord_endings (dialect : Dialect) : ∀ entry ∈ dialect.endings,
    (entry.1 ++ entry.2.1).head?.all (!nameCharacters.toList.contains ·) = true := by
  cases dialect <;> decide

theorem ending_of_mem {blanks cs : List Char} {assigns : Bool}
    (h : (blanks, cs, assigns) ∈ dialect.endings) :
    dialect.Ending (blanks ++ cs) (if assigns then .rest [] else .failed) := by
  obtain ⟨hgap, hcallTail, hvariableTail, hassigning⟩ := look_endings dialect _ h
  have hfit := Token.fit_ofChars cs
  have hsplit : Token.ofChars (blanks ++ cs) = blanks.map Token.char ++ Token.ofChars cs := by
    simp [Token.ofChars]
  have htakes := takes_of_look _ _ (hsplit ▸ Token.fit_ofChars (blanks ++ cs)) (hsplit ▸ hgap)
  rw [← hsplit, Token.text_ofChars, Token.text_ofChars] at htakes
  have hcall := failed_of_look hfit hcallTail
  have hvariable := failed_of_look hfit hvariableTail
  rw [Token.text_ofChars] at hcall hvariable
  refine ⟨fun c hc => ?_, cs, htakes, hcall, hvariable, ?_⟩
  · simpa [Option.mem_def.mp hc] using endsWord_endings dialect _ h
  · cases assigns with
    | true =>
        have htaken := takes_of_look (cs.map Token.char) [.finish] hfit hassigning
        rwa [← Token.ofChars, Token.text_ofChars] at htaken
    | false =>
        have hfailed := failed_of_look hfit hassigning
        rwa [Token.text_ofChars] at hfailed

theorem ending_nil (dialect : Dialect) : dialect.Ending [] .failed :=
  ending_of_mem (show ([], [], false) ∈ dialect.endings by simp [endings])

theorem ending_assignment (dialect : Dialect) : dialect.Ending " = 1".toList (.rest []) :=
  ending_of_mem (show ([' '], "= 1".toList, true) ∈ dialect.endings by simp [endings])

theorem ending_assignments (dialect : Dialect) : dialect.Ending " = 1, 2".toList (.rest []) :=
  ending_of_mem (show ([' '], "= 1, 2".toList, true) ∈ dialect.endings by simp [endings])

theorem ending_reassignment {op : String} (hop : op ∈ reassignmentOperators) :
    pico8.Ending (' ' :: (op.toList ++ " 1".toList)) (.rest []) :=
  have hmem : ([' '], op.toList ++ " 1".toList, true) ∈ pico8.endings :=
    List.mem_append_right _ (List.mem_map.mpr ⟨op, hop, rfl⟩)
  ending_of_mem hmem

end Dialect

/-! ## What a statement makes of a chain -/

namespace Chain

variable (c : Chain) {dialect : Dialect} {e : List Char} {x : Remnant}

theorem matchesJust (h : dialect.Ending e x) :
    dialect.MatchesJust "chain_statement" (c.text ++ e) (leftOfChain e x c = .rest []) := by
  have hrule : chainStatement ∈ dialect.rules := by simp [rules, chainStatementRules]
  exact matchesJust_of_leaves (List.mem_map_of_mem hrule) (.of_call (leaves_chainStatement h c))

end Chain

/-- The last element of a chain decides what a statement makes of it: a call is a statement of its
own, and a variable can be assigned to.  In the dialect a compound assignment is possible just
where an assignment is. -/
theorem last_element_decides (dialect : Dialect) (c : Chain) :
    dialect.MatchesJust "chain_statement" c.text c.EndsOnCall ∧
      dialect.MatchesJust "chain_statement" (c.text ++ " = 1".toList)
        (c.EndsOnVariable ∨ c.IsName) ∧
      ∀ op ∈ reassignmentOperators,
        pico8.MatchesJust "chain_statement" (c.text ++ (" " ++ op ++ " 1").toList)
          (c.EndsOnVariable ∨ c.IsName) := by
  refine ⟨?_, ?_, fun op hop => ?_⟩
  · have hmatches := c.matchesJust (ending_nil dialect)
    rwa [List.append_nil, leftOfChain_call] at hmatches
  · have hmatches := c.matchesJust (ending_assignment dialect)
    rwa [leftOfChain_assignment (by decide)] at hmatches
  · have hmatches := c.matchesJust (ending_reassignment hop)
    rw [leftOfChain_assignment (by simp)] at hmatches
    simpa using hmatches

theorem last_element_decides_field :
    "+=" ∈ reassignmentOperators ∧ ∃ least : Int, ∀ limit, least ≤ limit →
      ((pico8.parser limit).isMatch "chain_statement" (.ofString "(a)(b).c += 1" "cart")).1 =
        .ok true := by
  have hop : "+=" ∈ reassignmentOperators := by decide
  have hfield : Chain.EndsOnVariable ⟨true, .letter 'a' (by decide),
      [.call (.letter 'b' (by decide)), .field (.letter 'c' (by decide))]⟩ := ⟨_, rfl, rfl⟩
  exact ⟨hop, ((last_element_decides pico8 _).2.2 "+=" hop "cart").1 (.inl hfield)⟩

end CartLua
