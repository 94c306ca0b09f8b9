import CartLua.Proofs.Dialect.CarriedChains

/-!
# Carried statements

An `if` commits at its keyword in plain Lua and after its `then` in the dialect, which makes
no difference for an `if` that matches.  Which statement stands is seen at its keyword, so a
statement of the dialect before or after it does not get in the way.
-/

namespace CartLua

open Dialect

namespace DerivesIn

variable {g : Grammar} {n : Nat} {items more : List Pattern} {s rest : List Char}
  {parts : List Tree}

/-- What is committed in a sequence matches in a sequence of its own. -/
theorem of_committed
    (h : DerivesIn g (n + 2) (.seq ((items ++ more).map .must)) s (.matched parts rest)) :
    ∃ first middle others, DerivesIn g (n + 1) (.seq items) s (.matched first middle) ∧
      DerivesIn g (n + 2) (.seq (more.map .must)) middle (.matched others rest) ∧
      parts = first ++ others := by
  induction items generalizing s parts with
  | nil => exact ⟨[], s, parts, .seqNil s, h, rfl⟩
  | cons item items ih =>
      obtain ⟨first, middle, others, hfirst, hothers, rfl⟩ := h.of_seq_cons
      obtain ⟨last, middle', left, hlast, hleft, rfl⟩ := ih hothers
      exact ⟨first ++ last, middle', left, .seqCons hfirst.of_must hlast, hleft,
        (List.append_assoc first last left).symm⟩

/-- What matches in a sequence matches committed in a sequence with others. -/
theorem committed {first others : List Tree} {middle : List Char}
    (h : DerivesIn g (n + 1) (.seq items) s (.matched first middle))
    (hothers : DerivesIn g (n + 2) (.seq (more.map .must)) middle (.matched others rest)) :
    DerivesIn g (n + 2) (.seq ((items ++ more).map .must)) s (.matched (first ++ others) rest) := by
  induction items generalizing s first with
  | nil =>
      cases h
      exact hothers
  | cons item items ih =>
      obtain ⟨head, _, tail, hhead, htail, rfl⟩ := h.of_seq_cons
      rw [List.append_assoc]
      exact .seqCons (.must hhead) (ih htail)

end DerivesIn

namespace Dialect

open Pattern CartLua.Tree

variable {a b dialect : Dialect} {depth n k : Nat} {s rest : List Char} {parts : List Tree}

/-! ## Conditions -/

/-- The condition of an `if`, up to its `then`. -/
def ifCondition : List Pattern := [gap, call "expression", gap, key "then"]

/-- What a keyword is answered does not depend on the depth. -/
theorem key_of_derives {word : String} {x : Answer} (hword : word ∈ keywords)
    (h : Derives dialect.grammar (key word) s x) (hn : 5 ≤ n) :
    DerivesIn dialect.grammar n (key word) s x := by
  exact DerivesIn.of_settlesIn (settlesIn_key hword) h hn

/-- A condition is not derived within a few levels. -/
theorem lt_of_ifCondition (h : DerivesIn dialect.grammar (n + 1) (.seq ifCondition) s
    (.matched parts rest)) : 5 < n := by
  obtain ⟨_, _, _, -, hothers, -⟩ := h.of_seq_cons
  obtain ⟨_, _, _, hexpression, -, -⟩ := hothers.of_seq_cons
  exact hexpression.lt_of_outgrows 5 (outgrows_of_mem (by decide))

/-- An `if` that matches does so whether it commits at its keyword or after its `then`. -/
theorem if_iff : DerivesIn dialect.grammar n (ifStatement canonical).body s (.matched parts rest) ↔
    DerivesIn dialect.grammar n (ifStatement pico8).body s (.matched parts rest) := by
  constructor
  · intro h
    obtain ⟨n, rfl⟩ : ∃ m, n = m + 2 := by
      have hdeep := h.lt_of_outgrows 1 rfl
      exact ⟨n - 2, by omega⟩
    obtain ⟨first, middle, last, hkey, hothers, rfl⟩ := DerivesIn.of_seq_cons h
    have hcommitted : DerivesIn dialect.grammar (n + 2)
        (.seq ((ifCondition ++ branches).map must)) middle (.matched last rest) := hothers
    obtain ⟨condition, middle', others, hcondition, hbranches, rfl⟩ := hcommitted.of_committed
    have hdeep := lt_of_ifCondition hcondition
    have hkey' := key_of_derives (by decide) hkey.erase (show 5 ≤ n by omega)
    rw [← List.append_assoc]
    exact .seqCons (.seqCons hkey' hcondition) hbranches
  · intro h
    obtain ⟨n, rfl⟩ : ∃ m, n = m + 2 := by
      have hdeep := h.lt_of_outgrows 1 rfl
      exact ⟨n - 2, by omega⟩
    obtain ⟨_, middle', others, hhead, hbranches, rfl⟩ := DerivesIn.of_seq_cons h
    obtain ⟨first, middle, condition, hkey, hcondition, rfl⟩ := hhead.of_seq_cons
    have hdeep := lt_of_ifCondition hcondition
    have hkey' := key_of_derives (by decide) hkey.erase (show 5 ≤ n + 1 by omega)
    rw [List.append_assoc]
    exact .seqCons hkey' (hcondition.committed hbranches)

theorem mem_ifStatement (dialect : Dialect) : ifStatement dialect ∈ dialect.rules := by
  simp [rules, blockRules]

/-- An `if` is carried. -/
theorem carries_ifStatement (hholds : passage.Holds a b depth) (hn : n ≤ depth) :
    CarriesTo a b ending false n (ifStatement a).body (ifStatement b).body := by
  have hbody : Carries a b ending false n (ifStatement a).body :=
    hholds.carriesPart hn (by cases a <;> decide)
  intro s parts rest h hplain hknown
  obtain ⟨more, hmore, hplainMore⟩ := hbody s parts rest h hplain hknown
  refine ⟨more, ?_, hplainMore⟩
  cases a <;> cases b <;> first | exact hmore | exact if_iff.mp hmore | exact if_iff.mpr hmore

/-! ## Loops -/

/-- After the first name of a loop over an iterator no `=` stands. -/
theorem next_of_forStatementTwo
    (h : Derives dialect.grammar forStatementTwo.body s (.matched parts rest)) :
    ∃ first middle, Derives dialect.grammar (call "name") s (.matched first middle) ∧
      beforeIn.Next dialect.grammar middle := by
  obtain ⟨_, last, _, hnames, hothers, -⟩ := h.of_seq_cons
  obtain ⟨_, -, hlist⟩ :=
    derives_of_call (by simp [rules, listRules] : nameListMust ∈ dialect.rules) hnames
  obtain ⟨first, middle, _, hname, hmore, -⟩ := hlist.of_seq_cons
  refine ⟨first, middle, hname, ?_⟩
  have hlast : beforeIn.Next dialect.grammar last :=
    next_at_once (fits_beforeIn dialect) (by decide) hothers
  exact next_through (fits_beforeIn dialect) (by decide) hmore hlast

/-- Where a loop over an iterator stands, one over numbers fails in either dialect. -/
theorem refuses_forStatementOne (hnext : beforeIn.Next a.grammar rest)
    (hname : Derives a.grammar (call "name") s (.matched parts rest))
    (h : DerivesIn a.grammar n (call "for_statement_one") s .failed) :
    DerivesIn b.grammar n (call "for_statement_one") s .failed := by
  have hrule : ∀ dialect, forStatementOne ∈ rules dialect := fun dialect => by
    simp [rules, blockRules]
  obtain ⟨n, rfl⟩ : ∃ m, n = m + 4 := by
    have hdeep := h.lt_of_outgrows 3 (outgrows_of_mem (by decide))
    exact ⟨n - 4, by omega⟩
  obtain ⟨hlinked, hcalled⟩ := h.of_ref
  obtain ⟨rule, found, hbody⟩ := hcalled.of_failed_rule
  cases (rule?_grammar (hrule a)).symm.trans found
  have hbody' : DerivesIn b.grammar (n + 2) forStatementOne.body s .failed := by
    rcases DerivesIn.of_failed_seq hbody with hfailed | ⟨_, _, hmatch, hothers⟩
    · cases hfailed.erase.deterministic hname
    · cases hmatch.erase.deterministic hname
      have hname' := (suits a b).shares (p := call "name") (by decide) _ _ _ hmatch
      rcases hothers.of_failed_seq with hfailed | ⟨_, middle, hgap, hequals⟩
      · exact absurd hfailed.erase ((suits a b).not_failed (p := gap) rfl)
      · have hgap' := (suits a b).shares (p := gap) (by decide) _ _ _ hgap
        have hs : ∀ c ∈ middle.head?, c ∉ ['='] := not_mem_of_gap hnext hgap.erase (by decide)
        have hequals' : DerivesIn b.grammar (n + 1) (one "=") middle .failed :=
          failed_of_head (m := 1) (k := 0) rfl rfl hs (by omega)
        exact .seqCons hname' (.seqCons hgap' (.seqStop hequals' id))
  have hcalled' : DerivesIn b.grammar (n + 3) (.rule "for_statement_one") s .failed :=
    .rule (rule?_grammar (hrule b)) hbody'
  exact .ref (isLinked_of_rule hlinked hcalled') hcalled'

/-- Either kind of loop is carried. -/
theorem carries_loops (hholds : passage.Holds a b depth) (hn : n + 1 ≤ depth) :
    Carries a b ending false (n + 1)
      (choice [call "for_statement_one", call "for_statement_two"]) := by
  intro s parts rest h hplain hknown
  rcases h.of_choice_cons with hmatch | ⟨hfailed, hothers⟩
  · have hone : Carries a b ending false n (call "for_statement_one") :=
      hholds.carriesPart (by omega) (by decide)
    obtain ⟨more, hmore, hplainMore⟩ := hone s parts rest hmatch hplain hknown
    exact ⟨more, .choiceHere hmore (by simp), hplainMore⟩
  · have htwo : Carries a b ending false (n + 1) (choice [call "for_statement_two"]) :=
      hholds.carriesPart (by omega) (by decide)
    obtain ⟨more, hmore, hplainMore⟩ := htwo s parts rest hothers hplain hknown
    obtain ⟨item, hitem, hmatch⟩ := hothers.erase.of_choice
    obtain rfl := List.mem_singleton.mp hitem
    obtain ⟨_, -, hbody⟩ :=
      derives_of_call (by simp [rules, blockRules] : forStatementTwo ∈ a.rules) hmatch
    obtain ⟨_, _, hname, hnext⟩ := next_of_forStatementTwo hbody
    exact ⟨more, .choiceNext (refuses_forStatementOne hnext hname hfailed) hmore,
      hplainMore⟩

/-- Any loop over numbers or an iterator is carried. -/
theorem carries_forStatement (hholds : passage.Holds a b depth) (hn : n ≤ depth) :
    Carries a b ending false n forStatement.body := by
  apply carries_of_outgrows 2 rfl
  intro hdeep
  obtain ⟨n, rfl⟩ : ∃ m, n = m + 3 := ⟨n - 3, by omega⟩
  have hkey : Carries a b ending false (n + 2) (key "for") :=
    hholds.carriesPart (by omega) (by decide)
  have hgap : Carries a b ending false (n + 2) (must gap) :=
    hholds.carriesPart (by omega) (by decide)
  have hloops : Carries a b ending false (n + 2)
      (must (choice [call "for_statement_one", call "for_statement_two"])) :=
    .must (carries_loops hholds (by omega))
  exact .seq_cons (fits_ending a) hkey (by simp)
    (.seq_cons (fits_ending a) hgap (by simp)
      (.seq_cons (fits_ending a) hloops (by simp) .seq_nil))

/-! ## Statements -/

/-- Whether a pattern is a keyword or the mark of a label. -/
def isMark (p : Pattern) : Bool := p.isKey keywords || p.isCharacter [':']

/-- Where a keyword or a label stands, neither a name nor a bracket does. -/
theorem not_chain_of_mark {p : Pattern} (hp : p.opensWith dialect isMark k = true)
    (h : Derives dialect.grammar p s (.matched parts rest)) :
    (∀ parts rest, ¬Derives dialect.grammar (call "name") s (.matched parts rest)) ∧
      ∀ c ∈ s.head?, c ∉ ['('] := by
  obtain ⟨q, _, _, hq, hmatch⟩ := h.of_opensWith hp
  rcases Bool.or_eq_true_iff.mp hq with hkey | hlabel
  · obtain ⟨word, hword, hmatch'⟩ := key_of_isKey hkey hmatch
    obtain ⟨c, hc, t, rfl⟩ := head_of_key hword hmatch'
    refine ⟨fun _ _ => not_name_of_key hword hmatch', ?_⟩
    intro d hd hmem
    cases hd
    obtain rfl := List.mem_singleton.mp hmem
    exact absurd hc (by decide)
  · obtain ⟨c, hc, t, rfl⟩ := hmatch.toMatch.head_of_isCharacter hlabel
    obtain rfl := List.mem_singleton.mp hc
    refine ⟨fun _ _ => not_name_of_head ?_, ?_⟩ <;> intro c hc <;> cases hc <;> decide

/-- A statement does not begin with a chain where neither a name nor a bracket stands. -/
theorem failed_chainStatement
    (hname : DerivesIn dialect.grammar (n + 4) (call "name") s .failed)
    (hbracket : ∀ c ∈ s.head?, c ∉ ['(']) :
    DerivesIn dialect.grammar (n + 8) (call "chain_statement") s .failed := by
  have hbracket' : DerivesIn dialect.grammar (n + 4) (call "bracket_expr") s .failed := by
    have hmem : bracketExpr ∈ dialect.rules := by simp [rules, valueRules]
    have hopen : DerivesIn dialect.grammar (n + 1) (one "(") s .failed :=
      failed_of_head (m := 1) (k := 0) rfl rfl hbracket (by omega)
    exact DerivesIn.failed_call hmem (.seqStop hopen id)
  have hmem : chainStatement ∈ dialect.rules := by simp [rules, chainStatementRules]
  apply DerivesIn.failed_call hmem
  exact .choiceNext (.seqStop hname id) (.choiceNext (.seqStop hbracket' id) (.choiceNil s))

/-- A keyword stands where it stands in the other dialect. -/
theorem key_of_key {word : String} {x : Answer} (hword : word ∈ keywords)
    (h : Derives a.grammar (key word) s x) : Derives b.grammar (key word) s x := by
  have hshared : (key word).usesOnly passage.shared = true := by
    have hmem : keyName word ∈ lexicalRules.map Rule.name :=
      List.mem_map.mpr ⟨keyRule word, by simp [lexicalRules, List.mem_map_of_mem hword], rfl⟩
    exact List.contains_iff_mem.mpr (List.mem_append_left _ hmem)
  have hkey := key_of_derives hword h (Nat.le_refl 5)
  exact ((suits a b).shares hshared 5 s x hkey).erase

/-- An `if` of either kind fails where another keyword stands. -/
theorem failed_ifs {word : String} (hword : word ∈ keywords) (hother : word ≠ "if")
    (h : Derives dialect.grammar (key word) s (.matched parts rest)) (hn : 5 ≤ n) :
    DerivesIn dialect.grammar (n + 5)
      (.choice ([call "if_statement"] ++ extension [call "short_if_statement"] dialect)) s
      .failed := by
  have hkey : ∀ m, 5 ≤ m → DerivesIn dialect.grammar m (key "if") s .failed := by
    intro m hm
    apply DerivesIn.failed_of_settlesIn (settlesIn_key (by decide)) hm
    exact fun _ _ hif => hother (eq_of_keys hword (by decide) h hif)
  cases dialect with
  | canonical =>
      have hif := DerivesIn.failed_call (n := n + 2) (mem_ifStatement canonical)
        (.seqStop (hkey (n + 1) (by omega)) id)
      exact .choiceNext hif (.choiceNil s)
  | pico8 =>
      have hif := DerivesIn.failed_call (n := n + 2) (mem_ifStatement pico8)
        (.seqStop (.seqStop (hkey n hn) id) id)
      have hmem : shortIfStatement ∈ pico8.rules := by simp [rules, blockRules, extension]
      have hshort := DerivesIn.failed_call (n := n + 2) hmem (.seqStop (hkey (n + 1) (by omega)) id)
      exact .choiceNext hif (.choiceNext hshort (.choiceNil s))

theorem mem_statement (dialect : Dialect) : statement dialect ∈ dialect.rules := by
  simp [rules, definitionRules]

/-- The statements that are tried first. -/
def chainStatements : List Pattern := [call "semicolon", call "chain_statement"]

/-- The statements that are tried before an `if`. -/
def blockStatements : List Pattern :=
  [call "label_statement", key "break", call "goto_statement", call "do_statement",
    call "while_statement", call "repeat_statement"]

/-- The statements that are tried after an `if`. -/
def definitionStatements : List Pattern :=
  [call "for_statement", call "function_definition", call "local_statement"]

theorem statement_body (dialect : Dialect) :
    (statement dialect).body =
      .choice (chainStatements ++ (blockStatements ++
        (([call "if_statement"] ++ extension [call "short_if_statement"] dialect) ++
          definitionStatements))) := rfl

/-- A statement tried after a chain begins with a keyword or is a label. -/
theorem opensWith_statements (dialect : Dialect) :
    (choice blockStatements).opensWith dialect isMark 8 = true ∧
      (choice [call "if_statement"]).opensWith dialect isMark 8 = true ∧
      (choice definitionStatements).opensWith dialect isMark 8 = true ∧
      (choice definitionStatements).opensWith dialect (isKey ["for", "function", "local"]) 4 =
        true := by
  cases dialect <;> decide +kernel

/-- Where a later statement stands, the ones that are tried first fail in either dialect. -/
theorem refuses_chainStatements {items : List Pattern}
    (hitems : (choice items).opensWith a isMark 8 = true)
    (hmatch : Derives a.grammar (choice items) s (.matched parts rest))
    (h : DerivesIn a.grammar (n + 1) (.choice chainStatements) s .failed) (hn : 13 ≤ n) :
    DerivesIn b.grammar (n + 1) (.choice chainStatements) s .failed := by
  obtain ⟨hsemicolon, -⟩ := h.of_failed_choice
  have hsemicolon' := (suits a b).shares (p := call "semicolon") (by decide) _ _ _ hsemicolon
  obtain ⟨n, rfl⟩ : ∃ m, n = m + 8 := ⟨n - 8, by omega⟩
  obtain ⟨hnoName, hbracket⟩ := not_chain_of_mark hitems hmatch
  have hname : DerivesIn a.grammar (n + 4) (call "name") s .failed :=
    DerivesIn.failed_of_settlesIn (settlesIn_of_mem (.head _)) (by omega) hnoName
  have hname' := (suits a b).shares (p := call "name") (by decide) _ _ _ hname
  exact .choiceNext hsemicolon'
    (.choiceNext (failed_chainStatement hname' hbracket) (.choiceNil s))

/-- Any statement is carried. -/
theorem carries_statement (hholds : passage.Holds a b depth) (hn : n ≤ depth) :
    CarriesTo a b ending true n (statement a).body (statement b).body := by
  intro s parts rest h hplain hknown
  obtain ⟨n, rfl⟩ : ∃ m, n = m + 1 := by
    have hdeep := h.lt_of_outgrows 0 rfl
    exact ⟨n - 1, by omega⟩
  obtain ⟨hopensBlock, hopensIf, hopensLater, hopensKey⟩ := opensWith_statements a
  rw [statement_body] at h ⊢
  rcases h.of_choice_append with hmatch | ⟨hchain, hlater⟩
  · have hcarries : Carries a b ending true (n + 1) (choice chainStatements) :=
      hholds.carriesPart hn (by decide)
    obtain ⟨more, hmore, hplainMore⟩ := hcarries s parts rest hmatch hplain hknown
    exact ⟨more, hmore.choice_left _, hplainMore⟩
  · have hdeep : 12 < n := by
      obtain ⟨-, hothers⟩ := hchain.of_failed_choice
      exact hothers.of_failed_choice.1.lt_of_outgrows 12 (outgrows_of_mem (by decide))
    rcases hlater.of_choice_append with hmatch | ⟨hblock, hlater⟩
    · have hcarries : Carries a b ending true (n + 1) (choice blockStatements) :=
        hholds.carriesPart hn (by decide)
      obtain ⟨more, hmore, hplainMore⟩ := hcarries s parts rest hmatch hplain hknown
      have hchain' := refuses_chainStatements (b := b) hopensBlock hmatch.erase hchain hdeep
      exact ⟨more, hchain'.choice_right (hmore.choice_left _), hplainMore⟩
    · have hrefuses : Refuses a b ending false (n + 1) (choice blockStatements) :=
        hholds.refusesPart hn (by decide)
      have hblock' := hrefuses s nofun hblock
      rcases hlater.of_choice_append with hifs | ⟨-, hmatch⟩
      · rcases hifs.of_choice_append with hmatch | ⟨-, hextra⟩
        · have hcarries : Carries a b ending true (n + 1) (choice [call "if_statement"]) :=
            hholds.carriesPart hn (by decide)
          obtain ⟨more, hmore, hplainMore⟩ := hcarries s parts rest hmatch hplain hknown
          have hchain' := refuses_chainStatements (b := b) hopensIf hmatch.erase hchain hdeep
          exact ⟨more, hchain'.choice_right (hblock'.choice_right
            ((hmore.choice_left _).choice_left _)), hplainMore⟩
        · have hmem : shortIfStatement ∈ pico8.rules := by simp [rules, blockRules, extension]
          exact absurd hplain (not_plain_of_extension hmem (by decide) hextra)
      · have hcarries : Carries a b ending true (n + 1) (choice definitionStatements) :=
          hholds.carriesPart hn (by decide)
        obtain ⟨more, hmore, hplainMore⟩ := hcarries s parts rest hmatch hplain hknown
        have hchain' := refuses_chainStatements (b := b) hopensLater hmatch.erase hchain hdeep
        obtain ⟨word, hword, _, _, hkey⟩ :
            ∃ word ∈ ["for", "function", "local"], ∃ more left,
              Derives a.grammar (key word) s (.matched more left) :=
          key_of_opensWith hopensKey hmatch.erase
        have hkeyword : word ∈ keywords ∧ word ≠ "if" := by
          have hall : ∀ word ∈ ["for", "function", "local"], word ∈ keywords ∧ word ≠ "if" := by
            decide
          exact hall word hword
        obtain ⟨n, rfl⟩ : ∃ m, n = m + 4 := ⟨n - 4, by omega⟩
        have hifs := failed_ifs hkeyword.1 hkeyword.2 (key_of_key (b := b) hkeyword.1 hkey)
          (show 5 ≤ n by omega)
        exact ⟨more, hchain'.choice_right (hblock'.choice_right (hifs.choice_right hmore)),
          hplainMore⟩

end Dialect

end CartLua
