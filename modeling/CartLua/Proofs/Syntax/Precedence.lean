import Mathlib.Data.List.Nodup
import CartLua.Proofs.Derivation.Remnants
import CartLua.Proofs.Parser.NestingLimit
import CartLua.Proofs.Syntax.OperatorRows
import CartLua.Proofs.Tally.NothingTwice
import CartLua.Proofs.Tally.Readings

/-!
# Precedence

The tiers of expressions group rows of operators as precedence and associativity say.  A tier whose
operators group to the left matches each run of operators that are not looser once; a tier whose
operators group to the right matches each run and what follows each of its operators in the run.

Some operators begin like looser ones, so whether a tier takes an operator is seen from all
operators that may stand where it is tried: those of the tiers before it, the tier itself and the
end of the text.
-/

namespace CartLua

open Dialect

namespace Tier

/-- The rule of a tier. -/
def rule : Tier → Rule
  | expression => Dialect.expression
  | one => exprOne
  | two => exprTwo
  | three => exprThree
  | four => exprFour
  | five => exprFive
  | six => exprSix
  | seven => exprSeven
  | eight => exprEight
  | nine => exprNine
  | eleven => exprEleven

/-- The rule of the operands of a tier. -/
def operand : Tier → String
  | expression => "expr_one"
  | one => "expr_two"
  | two => "expr_three"
  | three => "expr_four"
  | four => "expr_five"
  | five => "expr_six"
  | six => "expr_seven"
  | seven => "expr_eight"
  | eight => "expr_nine"
  | nine => "expr_ten"
  | eleven => "expr_twelve"

/-- The operators of a tier. -/
def operators : Tier → Pattern
  | expression => key "or"
  | one => key "and"
  | two => .call "operators_two"
  | three => .one "|"
  | four => operatorOne "~" "="
  | five => .one "&"
  | six => .call "operators_six"
  | seven => operatorText ".." "."
  | eight => .call "operators_eight"
  | nine => .call "operators_nine"
  | eleven => .one "^"

variable {t w : Tier}

theorem mem_rules (t : Tier) (dialect : Dialect) : t.rule ∈ dialect.rules := by
  cases t <;> simp [rule, rules, tierRules]

theorem quiet_rule (t : Tier) : t.rule.quiet = false := by cases t <;> rfl

theorem anchored_rule (t : Tier) : t.rule.anchored = false := by cases t <;> rfl

theorem padding_rule (t : Tier) : t.rule.padding = false := by cases t <;> rfl

theorem body_rule_of_left (ht : t.isRight = false) :
    t.rule.body = leftAssociative t.operand t.operators := by
  cases t <;> first | rfl | cases ht

theorem name_rule_injective (h : t.rule.name = w.rule.name) : t = w := by
  have hnodup : (all.map fun t => t.rule.name).Nodup := by decide
  exact List.inj_on_of_nodup_map hnodup (mem_all t) (mem_all w) h

/-- A text of the dialect in which the matches of a tier are written down. -/
def survey (w : Tier) (text : Array Char) : Survey := ⟨pico8, text, [w.rule.name]⟩

end Tier

namespace Operator

/-- How a text begins at an operator. -/
def tokens (o : Operator) : List Token := (o.chars ++ [' ']).map .char

def outline (o : Operator) : Outline := Token.outline o.tokens

end Operator

namespace Links

/-- How a text begins after a name and the blank behind it, if there is one. -/
def tokens : Links → List Token
  | [] => [.finish]
  | (o, _) :: _ => o.tokens

/-- What comes after these tokens. -/
def beyond : Links → List Char
  | [] => []
  | (_, n) :: more => n.chars ++ text more

/-- The place after a name and the blank behind it. -/
def spot (xs : Links) : Spot := ⟨xs.text.drop 1, some xs.text, 0⟩

theorem text_tokens (xs : Links) : Token.text xs.tokens xs.beyond = xs.text.drop 1 := by
  cases xs with
  | nil => rfl
  | cons x xs =>
      rw [tokens, Operator.tokens, Token.text_map_char]
      simp [beyond, text]

theorem fit_tokens (xs : Links) : Token.Fit xs.tokens xs.beyond := by
  cases xs with
  | nil => exact ⟨rfl, rfl⟩
  | cons x xs => exact Token.fit_map_char _ _

/-- The outlines of what may come after a name and the blank behind it. -/
def outlines : List Outline := [.finish] :: Operator.all.map Operator.outline

theorem mem_outlines (xs : Links) : Token.outline xs.tokens ∈ outlines := by
  cases xs with
  | nil => exact List.mem_cons_self
  | cons x xs => exact List.mem_cons_of_mem _ (List.mem_map_of_mem (Operator.mem_all x.1))

end Links

/-! ## Names, blanks and operators -/

section

variable {w t : Tier} {text : Array Char} {p : Pattern} {a b : Spot} {n : Identifier}
  {s : List Char} {token : Option (List Char)}

theorem watched_survey {name : String} (h : name ≠ w.rule.name) :
    (w.survey text).watched.contains name = false := by
  simp [Tier.survey, h]

/-- A rule that is not the one of a tier is not watched. -/
theorem unwatched {name : String} (h : Tier.all.all (fun w => name != w.rule.name) = true) :
    (w.survey text).watched.contains name = false :=
  watched_survey (bne_iff_ne.mp (List.all_eq_true.mp h w w.mem_all))

/-- The lexical rules and those of operators are no tiers. -/
theorem barren_survey (w : Tier) (text : Array Char) : (w.survey text).Barren thrift.shared := by
  intro rule hrule hname
  have hthrifty := isThrifty_of_mem hrule
  simp only [isThrifty, hname, Bool.not_true, Bool.false_or, Bool.and_eq_true] at hthrifty
  refine ⟨hthrifty.1.1.2, watched_survey ?_⟩
  rintro heq
  rw [heq] at hname
  have hnone : Tier.all.all (fun w => !thrift.shared.contains w.rule.name) = true := by decide
  have hw := List.all_eq_true.mp hnone w (Tier.mem_all w)
  rw [hname] at hw
  cases hw

theorem sound_survey (h : p.sound pico8.traits = true) : (w.survey text).Sound p := h

/-- The values that begin with no name. -/
def literals : List Pattern :=
  [key "nil", key "true", key "false", .call "three_dots", .call "numeral",
    .call "literal_string", .call "function_literal"]

/-- What is tried in vain where a name begins. -/
def beforeNames : List Pattern :=
  [.call "sep", .call "bracket_expr", .call "unary_apply"] ++ literals

/-- What is tried in vain after a name and the blank behind it. -/
def afterNames : List Pattern :=
  [.call "sep", .choice [.call "function_call_tail", .call "variable_tail"]]

theorem refuses_name (hp : p ∈ beforeNames) (n : Identifier) (xs : Links)
    (token : Option (List Char)) (padding : Nat) :
    (w.survey text).Refuses p ⟨n.chars ++ xs.text, token, padding⟩ := by
  have hall : beforeNames.all (fun p => p.sound pico8.traits &&
      p.balks pico8 thrift.shared 24 [.name]) = true := by decide +kernel
  obtain ⟨hsound, hbalks⟩ := Bool.and_eq_true_iff.mp (List.all_eq_true.mp hall p hp)
  have hfit : Token.Fit [.name n] xs.text := ⟨xs.endsWord_text, trivial⟩
  exact Survey.refuses_of_balks (barren_survey w text) hsound hfit hbalks token padding

theorem refuses_spot (hp : p ∈ afterNames) (xs : Links) (token : Option (List Char))
    (padding : Nat) : (w.survey text).Refuses p ⟨xs.text.drop 1, token, padding⟩ := by
  have hall : afterNames.all (fun p => p.sound pico8.traits &&
      Links.outlines.all fun o => p.balks pico8 thrift.shared 24 o) = true := by decide +kernel
  obtain ⟨hsound, hbalks⟩ := Bool.and_eq_true_iff.mp (List.all_eq_true.mp hall p hp)
  rw [← xs.text_tokens]
  exact Survey.refuses_of_balks (barren_survey w text) hsound xs.fit_tokens
    (List.all_eq_true.mp hbalks _ xs.mem_outlines) token padding

/-- A name is read as a whole, and ends a token. -/
theorem reads_name (n : Identifier) (hs : EndsWord s) (token : Option (List Char)) :
    (w.survey text).Reads (.call "name") ⟨n.chars ++ s, token, 0⟩ ⟨s, some s, 0⟩ [] := by
  have hrule : nameRule ∈ (w.survey text).dialect.rules := by simp [rules, lexicalRules]
  have hfree : (w.survey text).Reads (.notAhead [.call "keyword"]) ⟨n.chars ++ s, token, 0⟩
      ⟨n.chars ++ s, none, 0⟩ [] :=
    (barren_survey w text).reads (by decide) (sound_survey (by decide))
      ⟨[], .lookahead (n.failed_keyword hs)⟩
  have hidentifier : (w.survey text).Reads .identifier ⟨n.chars ++ s, none, 0⟩
      ⟨s, some s, 0⟩ [] := Survey.Reads.terminal trivial (n.answer_identifier hs)
  have hbody := hfree.seq (hidentifier.seq .nil)
  exact .call hrule rfl (unwatched (by decide)) hbody

/-- No padding is read where no blank and no comment begins. -/
theorem reads_no_gap (hsep : (w.survey text).Refuses (.call "sep") { a with padding := 1 })
    (ha : a.padding = 0) : (w.survey text).Reads gap a a [] := by
  have hinside : a.inside seps = { a with padding := 1 } := by simp [Spot.inside, seps, ha]
  refine .call mem_seps rfl (unwatched (by decide)) ?_
  rw [hinside]
  exact hsep.rounds.star

/-- A blank is read as padding, which ends no token. -/
theorem reads_blank (hsep : (w.survey text).Refuses (.call "sep") ⟨s, token, 1⟩) :
    (w.survey text).Reads gap ⟨' ' :: s, token, 0⟩ ⟨s, token, 0⟩ [] := by
  have hblank : (w.survey text).Reads (.one spaces) ⟨' ' :: s, token, 2⟩ ⟨s, token, 2⟩ [] :=
    Survey.Reads.terminal trivial (Terminal.answer_oneOf (by decide))
  have hround : (w.survey text).Reads (.call "sep") ⟨' ' :: s, token, 1⟩ ⟨s, token, 1⟩ [] :=
    .call mem_sep rfl (unwatched (by decide)) (hblank.choice_here _)
  refine .call mem_seps rfl (unwatched (by decide)) ?_
  exact (hround.rounds (Nat.lt_succ_self _) hsep.rounds).star

theorem refuses_sep_spot (xs : Links) (token : Option (List Char)) :
    (w.survey text).Refuses (.call "sep") ⟨xs.text.drop 1, token, 1⟩ :=
  refuses_spot (by simp [afterNames]) xs token 1

theorem reads_gap_spot (xs : Links) : (w.survey text).Reads gap xs.spot xs.spot [] :=
  reads_no_gap (refuses_sep_spot xs _) rfl

/-- After a name the gap before the next operator is read, if there is one. -/
theorem reads_gap_links (xs : Links) (token : Option (List Char)) :
    (w.survey text).Reads gap ⟨xs.text, token, 0⟩ ⟨xs.text.drop 1, token, 0⟩ [] := by
  have hsep : (w.survey text).Refuses (.call "sep") ⟨xs.text.drop 1, token, 1⟩ :=
    refuses_sep_spot xs token
  cases xs with
  | nil => exact reads_no_gap hsep rfl
  | cons x xs => exact reads_blank hsep

theorem reads_gap_name (n : Identifier) (xs : Links) (token : Option (List Char)) :
    (w.survey text).Reads gap ⟨' ' :: (n.chars ++ xs.text), token, 0⟩
      ⟨n.chars ++ xs.text, token, 0⟩ [] :=
  reads_blank (refuses_name (by simp [beforeNames]) n xs token 1)

/-! ## Operators -/

theorem usesOnly_operators (t : Tier) : t.operators.usesOnly thrift.shared = true := by
  cases t <;> decide +kernel

theorem sound_operators (t : Tier) : t.operators.sound pico8.traits = true := by
  cases t <;> decide +kernel

/-- Each tier takes its own operators. -/
theorem look_operators_takes (o : Operator) :
    o.tier.operators.look pico8 24 o.outline = .takes [.char ' '] := by
  have hall : Operator.all.all (fun o =>
      o.tier.operators.look pico8 24 o.outline = .takes [.char ' ']) = true := by
    decide
  exact of_decide_eq_true (List.all_eq_true.mp hall o o.mem_all)

/-- No tier takes the beginning of a looser operator, or anything at the end. -/
theorem look_operators_fails {xs : Links} (hstops : xs.Stops t.level) :
    t.operators.look pico8 24 (Token.outline xs.tokens) = .fails := by
  have hall : Tier.all.all (fun t => t.operators.look pico8 24 [.finish] = .fails ∧
      Operator.all.all (fun o => t.level ≤ o.level ∨
        t.operators.look pico8 24 o.outline = .fails)) = true := by
    decide
  have ht := List.all_eq_true.mp hall t t.mem_all
  rw [decide_eq_true_eq] at ht
  cases xs with
  | nil => exact ht.1
  | cons x xs =>
      have hx := of_decide_eq_true (List.all_eq_true.mp ht.2 x.1 x.1.mem_all)
      exact hx.resolve_left (Nat.not_le.mpr (hstops x rfl))

theorem reads_operator (o : Operator) (n : Identifier) (xs : Links) :
    (w.survey text).Reads o.tier.operators (Links.spot ((o, n) :: xs))
      ⟨' ' :: (n.chars ++ xs.text), none, 0⟩ [] := by
  have hlook := look_operators_takes o
  rw [Operator.outline, Operator.tokens, List.map_append] at hlook
  have hreads := (barren_survey w text).reads_of_look (usesOnly_operators o.tier)
    (sound_operators o.tier) (o.chars.map .char)
    (List.map_append ▸ Token.fit_map_char (o.chars ++ [' ']) (n.chars ++ xs.text)) hlook
    (some (Links.text ((o, n) :: xs))) 0
  rw [← List.map_append, Token.text_map_char, List.append_assoc] at hreads
  exact hreads

/-- An operator of a tier is read with the gap behind it, and then what is read from the next
name on. -/
theorem reads_link {g : Pattern} {items : List Pattern} {o : Operator} {xs ys : Links}
    {heard : List (List Char)} (ho : o.tier = t)
    (hgap : (w.survey text).Reads g ⟨' ' :: (n.chars ++ (xs ++ ys).text), none, 0⟩
      ⟨n.chars ++ (xs ++ ys).text, none, 0⟩ [])
    (hitems : (w.survey text).Reads (.seq items) ⟨Row.text ⟨n, xs⟩ ++ ys.text, none, 0⟩ b heard) :
    (w.survey text).Reads (.seq (t.operators :: g :: items))
      (Links.spot ((o, n) :: (xs ++ ys))) b heard := by
  subst ho
  rw [Row.text_append_links] at hitems
  exact (reads_operator o n (xs ++ ys)).seq (hgap.seq hitems)

theorem refuses_operators {xs : Links} (hstops : xs.Stops t.level) :
    (w.survey text).Refuses t.operators xs.spot := by
  have hrefuses := (barren_survey w text).refuses_of_look (usesOnly_operators t)
    (sound_operators t) xs.fit_tokens (look_operators_fails hstops) (some xs.text) 0
  rwa [xs.text_tokens] at hrefuses

/-! ## Operands -/

/-- A name is a whole operand before an operator and at the end. -/
theorem reads_thirteen (n : Identifier) (xs : Links) (token : Option (List Char)) :
    (w.survey text).Reads (.call "expr_thirteen") ⟨n.chars ++ xs.text, token, 0⟩
      ⟨xs.text, some xs.text, 0⟩ [] := by
  have hrule : exprThirteen ∈ (w.survey text).dialect.rules := by simp [rules, tierRules]
  have hbracket : (w.survey text).Refuses (.call "bracket_expr") ⟨n.chars ++ xs.text, token, 0⟩ :=
    refuses_name (by simp [beforeNames]) n xs token 0
  have hhead := Survey.Reads.choice_next hbracket
    ((reads_name n xs.endsWord_text token).choice_here [])
  have htails : (w.survey text).Refuses
      (.choice [.call "function_call_tail", .call "variable_tail"])
      ⟨xs.text.drop 1, some xs.text, 0⟩ :=
    refuses_spot (by simp [afterNames]) xs _ 0
  have hround := Survey.Refuses.seq_later (reads_gap_links xs _) (htails.seq_first [])
  exact .call hrule rfl (unwatched (by decide))
    (hhead.seq (hround.rounds.star.seq .nil))

theorem reads_twelve (n : Identifier) (xs : Links) (token : Option (List Char)) :
    (w.survey text).Reads (.call "expr_twelve") ⟨n.chars ++ xs.text, token, 0⟩
      ⟨xs.text, some xs.text, 0⟩ [] := by
  have hrule : exprTwelve ∈ (w.survey text).dialect.rules := by simp [rules, tierRules]
  have hliterals : ∀ q ∈ literals, (w.survey text).Refuses q ⟨n.chars ++ xs.text, token, 0⟩ :=
    fun q hq => refuses_name (List.mem_append_right _ hq) n xs token 0
  exact .call hrule rfl (unwatched (by decide))
    (.choice_of hliterals (reads_thirteen n xs token) [.call "table_constructor"])

/-- No operator stands before a name. -/
theorem reads_ten {row : Row} {xs : Links} {heard : List (List Char)}
    (h : (w.survey text).Reads (.call "expr_eleven") ⟨row.text ++ xs.text, token, 0⟩ b heard) :
    (w.survey text).Reads (.call "expr_ten") ⟨row.text ++ xs.text, token, 0⟩ b heard := by
  have hrule : exprTen ∈ (w.survey text).dialect.rules := by simp [rules, tierRules]
  have hunary : (w.survey text).Refuses (.call "unary_apply") ⟨row.text ++ xs.text, token, 0⟩ := by
    rw [Row.text_append_links]
    exact refuses_name (by simp [beforeNames]) row.first (row.more ++ xs) token 0
  exact .call hrule rfl (unwatched (by decide)) (.choice_next hunary (h.choice_here []))

end

/-! ## What is heard of a row -/

namespace Tier

variable {w t : Tier} {level : Nat} {first : Identifier} {row : Row} {ys zs : Links}

/-- What is heard of a tier in a row that is matched by a tier of a level: its groups, or nothing if
it is looser. -/
def hears (w : Tier) (level : Nat) (row : Row) : List (List Char) :=
  if level ≤ w.level then (row.groups w).map Row.text else []

/-- What is heard after an operator, in all the rest. -/
def hearsLinks (w : Tier) (level : Nat) : Links → List (List Char)
  | [] => []
  | (_, n) :: more => w.hears level ⟨n, more⟩

theorem hears_of_lt (h : w.level < level) (row : Row) : w.hears level row = [] :=
  if_neg (Nat.not_le.mpr h)

theorem hears_succ (h : level ≠ w.level) (row : Row) :
    w.hears (level + 1) row = w.hears level row := by
  have hiff : level + 1 ≤ w.level ↔ level ≤ w.level := by omega
  simp only [hears, hiff]

/-- An operator of a level parts what is heard of the tiers above it. -/
theorem hears_append (hzs : zs.Stops (level + 1)) :
    w.hears (level + 1) ⟨first, ys ++ zs⟩ =
      w.hears (level + 1) ⟨first, ys⟩ ++ w.hearsLinks (level + 1) zs := by
  cases zs with
  | nil => simp [hearsLinks]
  | cons z zs =>
      rw [hearsLinks]
      by_cases hlevel : level + 1 ≤ w.level
      · have hz : z.1.level < w.level := Nat.lt_of_lt_of_le (hzs z rfl) hlevel
        simp only [hears, if_pos hlevel, Row.groups_append hz, List.map_append]
      · simp only [hears, if_neg hlevel, List.append_nil]

/-- A tier whose operators group to the left is heard once for each run. -/
theorem hears_of_left (ht : t.isRight = false) (hrow : row.more.Holds t.level) :
    w.hears (t.level + 1) row ++ (if t = w then [row.text] else []) = w.hears t.level row := by
  by_cases hw : t = w
  · subst hw
    rw [hears_of_lt (Nat.lt_succ_self _), if_pos rfl, hears, if_pos (Nat.le_refl _),
      Row.groups_of_left ht hrow]
    rfl
  · rw [if_neg hw, List.append_nil, hears_succ fun h => hw (eq_of_level_eq h)]

/-- The first operator that ends a run of tighter ones is one of the tier. -/
theorem tier_eq {z : Operator × Identifier} (hzs : Links.Holds t.level (z :: zs))
    (hstops : Links.Stops (t.level + 1) (z :: zs)) : z.1.tier = t :=
  eq_of_level_eq (Nat.le_antisymm (Nat.le_of_lt_succ (hstops z rfl)) hzs.of_cons.1)

/-- A tier whose operators group to the right is heard for a row after it is heard for what follows
the first operator. -/
theorem hears_of_right (first : Identifier) (ht : t.isRight = true) (hys : ys.Holds (t.level + 1))
    (hzs : zs.Holds t.level) (hstops : zs.Stops (t.level + 1)) :
    w.hears (t.level + 1) ⟨first, ys⟩ ++ w.hearsLinks t.level zs ++
        (if t = w then [Row.text ⟨first, ys ++ zs⟩] else []) =
      w.hears t.level ⟨first, ys ++ zs⟩ := by
  by_cases hw : t = w
  · subst hw
    rw [hears_of_lt (Nat.lt_succ_self _), if_pos rfl, List.nil_append]
    cases zs with
    | nil =>
        rw [List.append_nil, hears, if_pos (Nat.le_refl _), Row.groups_of_tight ht hys]
        rfl
    | cons z zs =>
        rw [hearsLinks, hears, hears, if_pos (Nat.le_refl _), if_pos (Nat.le_refl _),
          Row.groups_of_link ht hys (tier_eq hzs hstops) hzs.of_cons.2, List.map_append]
        rfl
  · have hlevel : t.level ≠ w.level := fun h => hw (eq_of_level_eq h)
    have hlinks : w.hearsLinks t.level zs = w.hearsLinks (t.level + 1) zs := by
      cases zs with
      | nil => rfl
      | cons z zs => exact (hears_succ hlevel _).symm
    rw [if_neg hw, List.append_nil, hlinks, ← hears_append hstops, hears_succ hlevel]

end Tier

/-! ## Tiers -/

section

variable {w t : Tier} {text : Array Char} {row : Row} {rest : Links}
  {token : Option (List Char)} {heard : List (List Char)}

/-- Whether a rule reads every row of operators of a level and above it, up to a looser operator or
the end, and a tier is heard of it as told. -/
def Tier.ReadBy (w : Tier) (text : Array Char) (name : String) (level : Nat) : Prop :=
  ∀ (row : Row) (rest : Links) (token : Option (List Char)), row.more.Holds level →
    rest.Stops level →
      (w.survey text).Reads (.call name) ⟨row.text ++ rest.text, token, 0⟩ rest.spot
        (w.hears level row)

/-- The rule of a tier reads what its body reads, and is heard itself if it is the watched one. -/
theorem reads_tier (hbody : (w.survey text).Reads t.rule.body ⟨row.text ++ rest.text, token, 0⟩
    rest.spot heard) :
    (w.survey text).Reads (.call t.rule.name) ⟨row.text ++ rest.text, token, 0⟩ rest.spot
      (heard ++ if t = w then [row.text] else []) := by
  have hrule : t.rule ∈ (w.survey text).dialect.rules := t.mem_rules _
  have hinside : ∀ a : Spot, a.inside t.rule = a := by
    intro a
    simp [Spot.inside, t.padding_rule]
  rw [← hinside ⟨_, token, 0⟩, ← hinside rest.spot] at hbody
  by_cases hw : t = w
  · rw [if_pos hw]
    have hwatched : (w.survey text).watched.contains t.rule.name = true := by
      simp [Tier.survey, hw]
    have hle : rest.spot.left.length ≤ rest.text.length := by simp [Links.spot]
    exact .call_watched hrule t.quiet_rule t.anchored_rule hwatched rfl rfl hle hbody
  · rw [if_neg hw, List.append_nil]
    exact .call hrule t.quiet_rule
      (watched_survey fun h => hw (Tier.name_rule_injective h)) hbody

/-- A round of a tier whose operators group to the left: an operator and its operand. -/
def Tier.round (t : Tier) : Pattern := .ifMust t.operators [gap, .call t.operand, gap]

theorem reads_round {o : Operator} {n : Identifier} {ys zs : Links} (ho : o.tier = t)
    (hoperand : w.ReadBy text t.operand (t.level + 1)) (hys : ys.Holds (t.level + 1))
    (hzs : zs.Stops (t.level + 1)) :
    (w.survey text).Reads t.round (Links.spot ((o, n) :: (ys ++ zs))) zs.spot
      (w.hears (t.level + 1) ⟨n, ys⟩) := by
  have hread := hoperand ⟨n, ys⟩ zs none hys hzs
  have hitems := hread.must.seq ((reads_gap_spot zs).must.seq .nil)
  rw [List.append_nil, List.append_nil] at hitems
  exact reads_link ho (reads_gap_name n (ys ++ zs) none).must hitems

/-- The rounds of a tier read all its operators with their operands. -/
theorem reads_rounds (hoperand : w.ReadBy text t.operand (t.level + 1)) (hrest : rest.Stops t.level)
    {zs : Links} (hzs : zs.Holds t.level) (hstops : zs.Stops (t.level + 1)) :
    (w.survey text).ReadsRounds t.round (zs ++ rest).spot rest.spot
      (w.hearsLinks (t.level + 1) zs) := by
  induction hlength : zs.length using Nat.strongRecOn generalizing zs with
  | ind length ih =>
      cases zs with
      | nil =>
          have hstop : (w.survey text).Refuses t.operators rest.spot := refuses_operators hrest
          exact (hstop.seq_first _).rounds
      | cons z zs =>
          obtain ⟨ys, later, rfl, hys, hlater, hnext⟩ := hzs.of_cons.2.exists_split
          have hround := reads_round (n := z.2) (Tier.tier_eq hzs hstops) hoperand hys
            (hnext.append hrest)
          have hshorter : later.length < length := by
            rw [← hlength, List.length_cons, List.length_append]
            omega
          have hothers := ih later.length hshorter hlater hnext rfl
          rw [Tier.hearsLinks, Tier.hears_append hnext]
          rw [← List.append_assoc] at hround
          refine hround.rounds ?_ hothers
          simp only [Links.spot, Links.text_append, Links.text, List.drop_succ_cons, List.drop_zero,
            List.length_drop, List.length_append, List.length_cons]
          omega

/-- A tier whose operators group to the left reads its first operand and then rounds. -/
theorem readBy_left (ht : t.isRight = false) (hoperand : w.ReadBy text t.operand (t.level + 1)) :
    w.ReadBy text t.rule.name t.level := by
  rintro ⟨first, xs⟩ rest token hrow hrest
  obtain ⟨ys, zs, rfl, hys, hzs, hstops⟩ := hrow.exists_split
  have hfirst := hoperand ⟨first, ys⟩ (zs ++ rest) token hys (hstops.append hrest)
  have hloop : (w.survey text).Reads (.star none t.round) (zs ++ rest).spot rest.spot
      (w.hearsLinks (t.level + 1) zs) := (reads_rounds hoperand hrest hzs hstops).star
  have hbody := hfirst.seq ((reads_gap_spot (zs ++ rest)).seq (hloop.seq .nil))
  rw [List.append_nil, List.nil_append, ← Tier.hears_append hstops, Row.text_append] at hbody
  rw [← Tier.hears_of_left ht hrow]
  refine reads_tier ?_
  rw [t.body_rule_of_left ht]
  exact hbody

/-- After its first operand a tier whose operators group to the right may go on with one of them and
all the rest. -/
theorem reads_option {items : List Pattern} {zs : Links} (hrest : rest.Stops t.level)
    (hlink : ∀ o n more, zs = (o, n) :: more →
      (w.survey text).Reads (.seq (t.operators :: items)) (zs ++ rest).spot rest.spot
        (w.hears t.level ⟨n, more⟩)) :
    (w.survey text).Reads (.opt (.seq (t.operators :: items))) (zs ++ rest).spot rest.spot
      (w.hearsLinks t.level zs) := by
  cases zs with
  | nil =>
      have hstop : (w.survey text).Refuses t.operators rest.spot := refuses_operators hrest
      exact (hstop.seq_first items).opt
  | cons z zs => exact (hlink z.1 z.2 zs rfl).opt

/-- Concatenations group to the right. -/
theorem readBy_seven (hoperand : w.ReadBy text "expr_eight" 8) :
    w.ReadBy text "expr_seven" 7 := by
  rintro ⟨first, xs⟩ rest token hrow hrest
  induction hlength : xs.length using Nat.strongRecOn generalizing first xs token with
  | ind length ih =>
      obtain ⟨ys, zs, rfl, hys, hzs, hstops⟩ := hrow.exists_split
      have hfirst := hoperand ⟨first, ys⟩ (zs ++ rest) token hys (hstops.append hrest)
      have hoption : (w.survey text).Reads
          (.opt (.ifMust Tier.seven.operators [gap, .call "expr_seven"])) (zs ++ rest).spot
            rest.spot
          (w.hearsLinks 7 zs) := by
        refine reads_option hrest fun o n more hmore => ?_
        subst hmore
        have hothers := ih more.length (by simp at hlength; omega) n more none hzs.of_cons.2 rfl
        have hitems := hothers.must.seq .nil
        rw [List.append_nil] at hitems
        exact reads_link (Tier.tier_eq (t := .seven) hzs hstops)
          (reads_gap_name n (more ++ rest) none).must hitems
      have hbody := hfirst.seq ((reads_gap_spot (zs ++ rest)).seq (hoption.seq .nil))
      rw [List.append_nil, List.nil_append, Row.text_append] at hbody
      have hheard := Tier.hears_of_right (w := w) (t := .seven) first rfl hys hzs hstops
      exact hheard ▸ reads_tier (t := .seven) hbody

/-- Powers group to the right, and their operands are names. -/
theorem readBy_eleven : w.ReadBy text "expr_eleven" 10 := by
  rintro ⟨first, xs⟩ rest token hrow hrest
  have hstops : xs.Stops 11 := fun x _ => x.1.tier.level_lt
  induction hlength : xs.length using Nat.strongRecOn generalizing first xs token with
  | ind length ih =>
      have hfirst : (w.survey text).Reads (.call "expr_twelve")
          ⟨first.chars ++ (xs ++ rest).text, token, 0⟩
          ⟨(xs ++ rest).text, some (xs ++ rest).text, 0⟩ [] := reads_twelve first (xs ++ rest) token
      have hoption : (w.survey text).Reads
          (.optional [.one "^", gap, .call "expr_ten", gap]) (xs ++ rest).spot rest.spot
          (w.hearsLinks 10 xs) := by
        refine reads_option (t := .eleven) hrest fun o n more hmore => ?_
        subst hmore
        have hothers := ih more.length (by simp at hlength; omega) n more none hrow.of_cons.2
          (fun x _ => x.1.tier.level_lt) rfl
        have hitems := (reads_ten hothers).seq ((reads_gap_spot rest).seq .nil)
        rw [List.append_nil, List.append_nil] at hitems
        exact reads_link (Tier.tier_eq (t := .eleven) hrow hstops)
          (reads_gap_name n (more ++ rest) none) hitems
      have hbody := hfirst.seq ((reads_gap_links (xs ++ rest) _).seq (hoption.seq .nil))
      rw [List.append_nil, List.nil_append, List.nil_append, ← Row.text_append_links] at hbody
      have hnone : w.hears (Tier.eleven.level + 1) ⟨first, []⟩ = [] :=
        Tier.hears_of_lt w.level_lt _
      have hheard : w.hears (Tier.eleven.level + 1) ⟨first, []⟩ ++ w.hearsLinks 10 xs ++
            (if .eleven = w then [Row.text ⟨first, xs⟩] else []) = w.hears 10 ⟨first, xs⟩ :=
        Tier.hears_of_right (t := .eleven) first rfl nofun hrow hstops
      rw [hnone] at hheard
      exact hheard ▸ reads_tier (t := .eleven) hbody

/-- The rule of expressions reads every row as a whole. -/
theorem readBy_expression : w.ReadBy text "expression" 0 := by
  have hten : w.ReadBy text "expr_ten" 10 := fun row rest token hrow hrest =>
    reads_ten (readBy_eleven row rest token hrow hrest)
  have hnine : w.ReadBy text "expr_nine" 9 := readBy_left (t := .nine) rfl hten
  have height : w.ReadBy text "expr_eight" 8 := readBy_left (t := .eight) rfl hnine
  have hseven : w.ReadBy text "expr_seven" 7 := readBy_seven height
  have hsix : w.ReadBy text "expr_six" 6 := readBy_left (t := .six) rfl hseven
  have hfive : w.ReadBy text "expr_five" 5 := readBy_left (t := .five) rfl hsix
  have hfour : w.ReadBy text "expr_four" 4 := readBy_left (t := .four) rfl hfive
  have hthree : w.ReadBy text "expr_three" 3 := readBy_left (t := .three) rfl hfour
  have htwo : w.ReadBy text "expr_two" 2 := readBy_left (t := .two) rfl hthree
  have hone : w.ReadBy text "expr_one" 1 := readBy_left (t := .one) rfl htwo
  exact readBy_left (t := .expression) rfl hone

end

/-! ## Whole rows -/

/-- A match of the rule of expressions on a row takes the row, and the groups of a tier are heard of
it, unless it is stopped for depth. -/
theorem arrives_row (row : Row) (t : Tier) (limit : Int) (filename : String) :
    (t.survey row.text.toArray).Arrives (Links.spot []) ((row.groups t).map Row.text)
      (State.initial [])
      ((pico8.parser limit).run (.tally [t.rule.name]) [] "expression"
        (.ofChars row.text filename)) := by
  have hstart : (t.survey row.text.toArray).At ⟨row.text ++ Links.text [], none, 0⟩
      (State.initial []) := by
    refine ⟨Nat.zero_le _, ?_, by simp, rfl, rfl⟩
    simp [Survey.rest, Text.rest, State.initial, Tier.survey, Links.text]
  have hreads : (t.survey row.text.toArray).Reads (.call "expression")
      ⟨row.text ++ Links.text [], none, 0⟩ (Links.spot []) (t.hears 0 row) :=
    readBy_expression row [] none (fun x _ => Nat.zero_le _) (by rintro _ ⟨⟩)
  have hrun := hreads ((pico8.parser limit).depth + 1) _ hstart
  have hsound : (t.survey row.text.toArray).Sound (.call "expression") := sound_survey (by decide)
  rw [Pattern.call, Survey.run_ref hsound] at hrun
  rwa [Tier.hears, if_pos (Nat.zero_le _)] at hrun

/-- Let names be written with binary operators between them and a blank on each side of each.  Under
every limit that does not stop the match, and so under every one that is high enough, the rule of
expressions takes the whole row, and an action on the rule of a tier sees the groups of that tier in
order: of a tier whose operators group to the left the maximal runs without a looser operator, and
of a tier whose operators group to the right, run by run, the suffixes that begin where the run does
or after an operator of the tier, the shortest first. -/
theorem rows_group_by_precedence (row : Row) (t : Tier) (filename : String) :
    (∀ limit,
      ¬Parser.IsTooDeep ((pico8.parser limit).prefixLength (.tally [t.rule.name]) [] "expression"
        (.ofChars row.text filename)) →
      ∃ st, (pico8.parser limit).prefixLength (.tally [t.rule.name]) [] "expression"
          (.ofChars row.text filename) = (.ok (some row.text.length), st) ∧
        st.observed.reverse.map
            (fun c => (Source.ofChars row.text filename).piece c.start c.tokenEnd) =
          (row.groups t).map Row.text) ∧
      ∃ least : Int, ∀ limit, least ≤ limit →
        ¬Parser.IsTooDeep ((pico8.parser limit).prefixLength (.tally [t.rule.name]) [] "expression"
          (.ofChars row.text filename)) := by
  constructor
  · intro limit hends
    rw [Parser.isTooDeep_iff] at hends
    have harrives := arrives_row row t limit filename
    rw [Parser.prefixLength]
    generalize (pico8.parser limit).run _ _ _ _ = x at hends harrives ⊢
    cases harrives with
    | tooDeep => exact absurd rfl hends
    | @matched last place hears =>
        obtain ⟨told, htold, hheard⟩ := hears
        have hobserved : last.observed = told := htold.trans (List.append_nil told)
        have hleft := place.length_left
        have hinside := place.inside
        have hoffset : last.offset = row.text.length := by
          simp [Links.spot, Links.text, Tier.survey] at hleft hinside
          omega
        refine ⟨last, hoffset ▸ rfl, ?_⟩
        rw [hobserved]
        exact hheard
  · have hname : pico8.grammar.defines "expression" = true :=
      (recordable pico8).defines_of_contains (by decide)
    obtain ⟨least, hsettles⟩ := pico8.settles row.text.toArray row.text.length "expression" hname
    refine ⟨least, fun limit hlimit => ?_⟩
    rw [Parser.isTooDeep_iff]
    intro hdeep
    have hsettled := hsettles (pico8.parser limit).depth (Dialect.le_depth pico8 hlimit) _
      (.tally [t.rule.name]) (State.initial []) (by simp [State.initial])
    change (Matching.run (pico8.grammar.setting row.text.toArray (.tally [t.rule.name]))
      (pico8.parser limit).depth (.rule "expression") (State.initial [])).verdict = _ at hdeep
    rw [hdeep] at hsettled
    cases hsettled

/-- Three names with a concatenation before a comparison. -/
def Row.comparison : Row :=
  ⟨.letter 'a' (by decide), [(.concat, .letter 'b' (by decide)), (.equal, .letter 'c' (by decide))]⟩

/-- In `a .. b == c` the rule of concatenations sees `b` and `a .. b`, and then `c`. -/
theorem rows_group_by_precedence_comparison :
    ¬Parser.IsTooDeep ((pico8.parser 0).prefixLength (.tally ["expr_seven"]) [] "expression"
        (.ofString "a .. b == c" "cart")) ∧
      ∃ st, (pico8.parser 0).prefixLength (.tally ["expr_seven"]) [] "expression"
          (.ofString "a .. b == c" "cart") = (.ok (some 11), st) ∧
        st.observed.reverse.map
            (fun c => (Source.ofString "a .. b == c" "cart").piece c.start c.tokenEnd) =
          [['b'], ['a', ' ', '.', '.', ' ', 'b'], ['c']] := by
  have hends : ¬Parser.IsTooDeep ((pico8.parser 0).prefixLength (.tally ["expr_seven"]) []
      "expression" (.ofString "a .. b == c" "cart")) := by
    rw [Parser.isTooDeep_iff]
    change (Matching.run (pico8.grammar.setting _ _) _ _ _).verdict ≠ _
    rw [setting_eq]
    decide +kernel
  exact ⟨hends, (rows_group_by_precedence .comparison .seven "cart").1 0 hends⟩

end CartLua
