import CartLua.Grammar.Basic

/-!
# Derivations

What a grammar says about a text, without a cursor, a stack or an observer.  A
pattern is tried at the beginning of a text and matches some of it, fails, or
finds the text in error.  A match comes with a tree of the rules that matched, so
parts of alternatives that were given up leave no trace.

The matcher is compared with derivations elsewhere.
-/

namespace CartLua

/-- A piece of a match: characters that were taken, or a rule that matched. -/
inductive Tree
  | chars (taken : List Char)
  | node (rule : Rule) (parts : List Tree)

namespace Tree

mutual

/-- The text of a tree. -/
def text : Tree → List Char
  | chars taken => taken
  | node _ parts => textOfAll parts

/-- The text of several trees in a row. -/
def textOfAll : List Tree → List Char
  | [] => []
  | part :: parts => part.text ++ textOfAll parts

end

mutual

/-- The rules that matched in a tree, each with its parts. -/
def nodes : Tree → List (Rule × List Tree)
  | chars _ => []
  | node rule parts => (rule, parts) :: nodesOfAll parts

/-- The rules that matched in several trees. -/
def nodesOfAll : List Tree → List (Rule × List Tree)
  | [] => []
  | part :: parts => part.nodes ++ nodesOfAll parts

end

@[simp]
theorem textOfAll_append (as bs : List Tree) :
    textOfAll (as ++ bs) = textOfAll as ++ textOfAll bs := by
  induction as with
  | nil => rfl
  | cons a as ih => simp [textOfAll, ih]

@[simp]
theorem nodesOfAll_append (as bs : List Tree) :
    nodesOfAll (as ++ bs) = nodesOfAll as ++ nodesOfAll bs := by
  induction as with
  | nil => rfl
  | cons a as ih => simp [nodesOfAll, ih]

end Tree

/-- What a pattern makes of a text. -/
inductive Answer
  /-- It matches the text before `rest`. -/
  | matched (parts : List Tree) (rest : List Char)
  /-- It does not match. -/
  | failed
  /-- The text is in error. -/
  | broken

namespace Answer

/-- Whether there is a match. -/
def IsMatch : Answer → Prop
  | matched .. => True
  | _ => False

/-- An answer after parts that matched before. -/
def after (parts : List Tree) : Answer → Answer
  | matched more rest => matched (parts ++ more) rest
  | a => a

/-- A match of nothing in the place of a failure. -/
def orNothing (text : List Char) : Answer → Answer
  | failed => matched [] text
  | a => a

/-- An answer that only looks ahead. -/
def looked (negated : Bool) (text : List Char) : Answer → Answer
  | matched .. => if negated then failed else matched [] text
  | failed => if negated then matched [] text else failed
  | broken => broken

/-- An error in the place of a failure. -/
def committed : Answer → Answer
  | failed => broken
  | a => a

/-- The answer of a rule to that of its body. -/
def named (rule : Rule) : Answer → Answer
  | matched parts rest => matched [.node rule parts] rest
  | a => a

@[simp]
theorem after_nil (a : Answer) : a.after [] = a := by
  cases a <;> rfl

theorem matched_ne_failed (parts : List Tree) (rest : List Char) : matched parts rest ≠ failed := by
  simp

end Answer

/-- What a terminal makes of a text. -/
def Terminal.answer (t : Terminal) (text : List Char) : Answer :=
  match t.scan text.toArray 0 with
  | .take count => .matched [.chars (text.take count)] (text.drop count)
  | .stay => .matched [] text
  | .miss => .failed
  | .unclosed _ => .broken

/-- What a pattern of a grammar makes of a text. -/
inductive Derives (g : Grammar) : Pattern → List Char → Answer → Prop
  | terminal (t : Terminal) (s : List Char) : Derives g (.terminal t) s (t.answer s)
  | seqNil (s : List Char) : Derives g (.seq []) s (.matched [] s)
  | seqCons {item : Pattern} {items : List Pattern} {s rest : List Char} {parts : List Tree}
      {a : Answer} (first : Derives g item s (.matched parts rest))
      (others : Derives g (.seq items) rest a) : Derives g (.seq (item :: items)) s (a.after parts)
  | seqStop {item : Pattern} {items : List Pattern} {s : List Char} {a : Answer}
      (first : Derives g item s a) (stops : ¬ a.IsMatch) : Derives g (.seq (item :: items)) s a
  | choiceNil (s : List Char) : Derives g (.choice []) s .failed
  | choiceHere {item : Pattern} {items : List Pattern} {s : List Char} {a : Answer}
      (first : Derives g item s a) (taken : a ≠ .failed) : Derives g (.choice (item :: items)) s a
  | choiceNext {item : Pattern} {items : List Pattern} {s : List Char} {a : Answer}
      (first : Derives g item s .failed) (others : Derives g (.choice items) s a) :
      Derives g (.choice (item :: items)) s a
  | starMore {site : Site} {body : Pattern} {s rest : List Char} {parts : List Tree} {a : Answer}
      (round : Derives g body s (.matched parts rest))
      (others : Derives g (.star site body) rest a) :
      Derives g (.star site body) s (a.after parts)
  | starStop {site : Site} {body : Pattern} {s : List Char} {a : Answer}
      (round : Derives g body s a) (stops : ¬ a.IsMatch) :
      Derives g (.star site body) s (a.orNothing s)
  | plusMore {site : Site} {body : Pattern} {s rest : List Char} {parts : List Tree} {a : Answer}
      (round : Derives g body s (.matched parts rest))
      (others : Derives g (.star site body) rest a) :
      Derives g (.plus site body) s (a.after parts)
  | plusStop {site : Site} {body : Pattern} {s : List Char} {a : Answer}
      (round : Derives g body s a) (stops : ¬ a.IsMatch) : Derives g (.plus site body) s a
  | opt {body : Pattern} {s : List Char} {a : Answer} (inner : Derives g body s a) :
      Derives g (.opt body) s (a.orNothing s)
  | atMostZero {count : Int} {body : Pattern} (s : List Char) (done : count.toNat = 0) :
      Derives g (.atMost count body) s (.matched [] s)
  | atMostMore {count : Int} {body : Pattern} {s rest : List Char} {parts : List Tree} {a : Answer}
      (left : count.toNat ≠ 0) (round : Derives g body s (.matched parts rest))
      (others : Derives g (.atMost (count - 1) body) rest a) :
      Derives g (.atMost count body) s (a.after parts)
  | atMostStop {count : Int} {body : Pattern} {s : List Char} {a : Answer} (left : count.toNat ≠ 0)
      (round : Derives g body s a) (stops : ¬ a.IsMatch) :
      Derives g (.atMost count body) s (a.orNothing s)
  | lookahead {negated : Bool} {body : Pattern} {s : List Char} {a : Answer}
      (inner : Derives g body s a) : Derives g (.lookahead negated body) s (a.looked negated s)
  | skipHere {stop : Pattern} {s : List Char} {a : Answer} (here : Derives g stop s a)
      (taken : a ≠ .failed) : Derives g (.skipTo stop) s a
  | skipPass {stop : Pattern} {c : Char} {s : List Char} {a : Answer}
      (here : Derives g stop (c :: s) .failed) (others : Derives g (.skipTo stop) s a) :
      Derives g (.skipTo stop) (c :: s) (a.after [.chars [c]])
  | skipEnd {stop : Pattern} (here : Derives g stop [] .failed) :
      Derives g (.skipTo stop) [] .failed
  | untilHere {site : Site} {stop body : Pattern} {s : List Char} {a : Answer}
      (here : Derives g stop s a) (taken : a ≠ .failed) :
      Derives g (.repeatUntil site stop body) s a
  | untilMore {site : Site} {stop body : Pattern} {s rest : List Char} {parts : List Tree}
      {a : Answer} (here : Derives g stop s .failed)
      (round : Derives g body s (.matched parts rest))
      (others : Derives g (.repeatUntil site stop body) rest a) :
      Derives g (.repeatUntil site stop body) s (a.after parts)
  | untilStop {site : Site} {stop body : Pattern} {s : List Char} {a : Answer}
      (here : Derives g stop s .failed) (round : Derives g body s a) (stops : ¬ a.IsMatch) :
      Derives g (.repeatUntil site stop body) s a
  | must {body : Pattern} {s : List Char} {a : Answer} (inner : Derives g body s a) :
      Derives g (.must body) s a.committed
  | rule {name : String} {rule : Rule} {s : List Char} {a : Answer}
      (found : g.rule? name = some rule) (inner : Derives g rule.body s a) :
      Derives g (.rule name) s (a.named rule)
  | ref {site : Site} {name : String} {s : List Char} {a : Answer}
      (linked : g.isLinked site name = true) (inner : Derives g (.rule name) s a) :
      Derives g (.ref site name) s a

namespace Derives

variable {g : Grammar}

/-- A pattern makes only one thing of a text. -/
theorem deterministic {p : Pattern} {s : List Char} {a b : Answer} (ha : Derives g p s a)
    (hb : Derives g p s b) : a = b := by
  induction ha generalizing b with
  | terminal t s => cases hb; rfl
  | seqNil s => cases hb; rfl
  | seqCons _ _ ihfirst ihothers =>
      cases hb with
      | seqCons first others =>
          cases ihfirst first
          rw [ihothers others]
      | seqStop first stops =>
          cases ihfirst first
          exact absurd trivial stops
  | seqStop _ stops ihfirst =>
      cases hb with
      | seqCons first others =>
          cases ihfirst first
          exact absurd trivial stops
      | seqStop first _ => exact ihfirst first
  | choiceNil s => cases hb; rfl
  | choiceHere _ taken ihfirst =>
      cases hb with
      | choiceHere first _ => exact ihfirst first
      | choiceNext first _ => exact absurd (ihfirst first) taken
  | choiceNext _ _ ihfirst ihothers =>
      cases hb with
      | choiceHere first taken => exact absurd (ihfirst first).symm taken
      | choiceNext _ others => exact ihothers others
  | starMore _ _ ihround ihothers =>
      cases hb with
      | starMore round others =>
          cases ihround round
          rw [ihothers others]
      | starStop round stops =>
          cases ihround round
          exact absurd trivial stops
  | starStop _ stops ihround =>
      cases hb with
      | starMore round others =>
          cases ihround round
          exact absurd trivial stops
      | starStop round _ => rw [ihround round]
  | plusMore _ _ ihround ihothers =>
      cases hb with
      | plusMore round others =>
          cases ihround round
          rw [ihothers others]
      | plusStop round stops =>
          cases ihround round
          exact absurd trivial stops
  | plusStop _ stops ihround =>
      cases hb with
      | plusMore round others =>
          cases ihround round
          exact absurd trivial stops
      | plusStop round _ => exact ihround round
  | opt _ ihinner =>
      cases hb with
      | opt inner => rw [ihinner inner]
  | atMostZero s done =>
      cases hb with
      | atMostZero _ _ => rfl
      | atMostMore left _ _ => exact absurd done left
      | atMostStop left _ _ => exact absurd done left
  | atMostMore left _ _ ihround ihothers =>
      cases hb with
      | atMostZero _ done => exact absurd done left
      | atMostMore _ round others =>
          cases ihround round
          rw [ihothers others]
      | atMostStop _ round stops =>
          cases ihround round
          exact absurd trivial stops
  | atMostStop left _ stops ihround =>
      cases hb with
      | atMostZero _ done => exact absurd done left
      | atMostMore _ round others =>
          cases ihround round
          exact absurd trivial stops
      | atMostStop _ round _ => rw [ihround round]
  | lookahead _ ihinner =>
      cases hb with
      | lookahead inner => rw [ihinner inner]
  | skipHere _ taken ihhere =>
      cases hb with
      | skipHere here _ => exact ihhere here
      | skipPass here _ => exact absurd (ihhere here) taken
      | skipEnd here => exact absurd (ihhere here) taken
  | skipPass _ _ ihhere ihothers =>
      cases hb with
      | skipHere here taken => exact absurd (ihhere here).symm taken
      | skipPass _ others => rw [ihothers others]
  | skipEnd _ ihhere =>
      cases hb with
      | skipHere here taken => exact absurd (ihhere here).symm taken
      | skipEnd _ => rfl
  | untilHere _ taken ihhere =>
      cases hb with
      | untilHere here _ => exact ihhere here
      | untilMore here _ _ => exact absurd (ihhere here) taken
      | untilStop here _ _ => exact absurd (ihhere here) taken
  | untilMore _ _ _ ihhere ihround ihothers =>
      cases hb with
      | untilHere here taken => exact absurd (ihhere here).symm taken
      | untilMore _ round others =>
          cases ihround round
          rw [ihothers others]
      | untilStop _ round stops =>
          cases ihround round
          exact absurd trivial stops
  | untilStop _ _ stops ihhere ihround =>
      cases hb with
      | untilHere here taken => exact absurd (ihhere here).symm taken
      | untilMore _ round others =>
          cases ihround round
          exact absurd trivial stops
      | untilStop _ round _ => exact ihround round
  | must _ ihinner =>
      cases hb with
      | must inner => rw [ihinner inner]
  | rule found _ ihinner =>
      cases hb with
      | rule found' inner =>
          cases found.symm.trans found'
          rw [ihinner inner]
  | ref _ _ ihinner =>
      cases hb with
      | ref _ inner => exact ihinner inner

/-- Induction on how a match is derived.  Of the ways to an answer only those to a match are left,
with what matches on the way. -/
theorem matched_induction
    {motive : (p : Pattern) → (s : List Char) → (parts : List Tree) → (rest : List Char) →
      Derives g p s (.matched parts rest) → Prop}
    (terminal : ∀ {t s parts rest} (h : Derives g (.terminal t) s (.matched parts rest)),
      motive _ _ _ _ h)
    (seqNil : ∀ s, motive _ _ _ _ (.seqNil s))
    (seqCons : ∀ {item items s middle rest parts more}
      (first : Derives g item s (.matched parts middle))
      (others : Derives g (.seq items) middle (.matched more rest)),
      motive _ _ _ _ first → motive _ _ _ _ others →
        motive _ _ (parts ++ more) rest (.seqCons first others))
    (choiceHere : ∀ {item items s parts rest} (first : Derives g item s (.matched parts rest)),
      motive _ _ _ _ first →
        motive (.choice (item :: items)) _ _ _ (.choiceHere first (Answer.matched_ne_failed _ _)))
    (choiceNext : ∀ {item items s parts rest} (first : Derives g item s .failed)
      (others : Derives g (.choice items) s (.matched parts rest)),
      motive _ _ _ _ others → motive _ _ _ _ (.choiceNext first others))
    (starMore : ∀ {site body s middle rest parts more}
      (round : Derives g body s (.matched parts middle))
      (others : Derives g (.star site body) middle (.matched more rest)),
      motive _ _ _ _ round → motive _ _ _ _ others →
        motive _ _ (parts ++ more) rest (.starMore round others))
    (starStop : ∀ {site body s} (round : Derives g body s .failed),
      motive (.star site body) s [] s (.starStop round id))
    (plusMore : ∀ {site body s middle rest parts more}
      (round : Derives g body s (.matched parts middle))
      (others : Derives g (.star site body) middle (.matched more rest)),
      motive _ _ _ _ round → motive _ _ _ _ others →
        motive _ _ (parts ++ more) rest (.plusMore round others))
    (optHere : ∀ {body s parts rest} (inner : Derives g body s (.matched parts rest)),
      motive _ _ _ _ inner → motive (.opt body) s parts rest (.opt inner))
    (optNot : ∀ {body s} (inner : Derives g body s .failed), motive (.opt body) s [] s (.opt inner))
    (atMostZero : ∀ {count body} s (done : count.toNat = 0),
      motive (.atMost count body) s [] s (.atMostZero s done))
    (atMostMore : ∀ {count body s middle rest parts more} (left : count.toNat ≠ 0)
      (round : Derives g body s (.matched parts middle))
      (others : Derives g (.atMost (count - 1) body) middle (.matched more rest)),
      motive _ _ _ _ round → motive _ _ _ _ others →
        motive _ _ (parts ++ more) rest (.atMostMore left round others))
    (atMostStop : ∀ {count body s} (left : count.toNat ≠ 0) (round : Derives g body s .failed),
      motive (.atMost count body) s [] s (.atMostStop left round id))
    (lookaheadHere : ∀ {body s parts rest} (inner : Derives g body s (.matched parts rest)),
      motive _ _ _ _ inner → motive (.lookahead false body) s [] s (.lookahead inner))
    (lookaheadNot : ∀ {body s} (inner : Derives g body s .failed),
      motive (.lookahead true body) s [] s (.lookahead inner))
    (skipHere : ∀ {stop s parts rest} (here : Derives g stop s (.matched parts rest)),
      motive _ _ _ _ here →
        motive (.skipTo stop) _ _ _ (.skipHere here (Answer.matched_ne_failed _ _)))
    (skipPass : ∀ {stop c s parts rest} (here : Derives g stop (c :: s) .failed)
      (others : Derives g (.skipTo stop) s (.matched parts rest)),
      motive _ _ _ _ others → motive _ _ (.chars [c] :: parts) rest (.skipPass here others))
    (untilHere : ∀ {site stop body s parts rest} (here : Derives g stop s (.matched parts rest)),
      motive _ _ _ _ here →
        motive (.repeatUntil site stop body) _ _ _ (.untilHere here (Answer.matched_ne_failed _ _)))
    (untilMore : ∀ {site stop body s middle rest parts more} (here : Derives g stop s .failed)
      (round : Derives g body s (.matched parts middle))
      (others : Derives g (.repeatUntil site stop body) middle (.matched more rest)),
      motive _ _ _ _ round → motive _ _ _ _ others →
        motive _ _ (parts ++ more) rest (.untilMore here round others))
    (must : ∀ {body s parts rest} (inner : Derives g body s (.matched parts rest)),
      motive _ _ _ _ inner → motive (.must body) s parts rest (.must inner))
    (rule : ∀ {name rule s parts rest} (found : g.rule? name = some rule)
      (inner : Derives g rule.body s (.matched parts rest)),
      motive _ _ _ _ inner → motive (.rule name) s [.node rule parts] rest (.rule found inner))
    (ref : ∀ {site name s parts rest} (linked : g.isLinked site name = true)
      (inner : Derives g (.rule name) s (.matched parts rest)),
      motive _ _ _ _ inner → motive _ _ _ _ (.ref linked inner))
    {p : Pattern} {s : List Char} {parts : List Tree} {rest : List Char}
    (h : Derives g p s (.matched parts rest)) : motive p s parts rest h := by
  have hall : ∀ {p s a} (h : Derives g p s a) parts rest (ha : a = .matched parts rest),
      motive p s parts rest (ha ▸ h) := by
    intro p s a h
    induction h with
    | terminal t s => exact fun _ _ _ => terminal _
    | seqNil s => rintro _ _ ⟨⟩; exact seqNil s
    | @seqCons _ _ _ _ _ a first others ihfirst ihothers =>
        cases a <;> rintro _ _ ⟨⟩
        exact seqCons first others (ihfirst _ _ rfl) (ihothers _ _ rfl)
    | seqStop first stops ih => rintro _ _ rfl; exact absurd trivial stops
    | choiceNil s => rintro _ _ ⟨⟩
    | choiceHere first taken ih => rintro _ _ rfl; exact choiceHere first (ih _ _ rfl)
    | choiceNext first others _ ih => rintro _ _ rfl; exact choiceNext first others (ih _ _ rfl)
    | @starMore _ _ _ _ _ a round others ihround ihothers =>
        cases a <;> rintro _ _ ⟨⟩
        exact starMore round others (ihround _ _ rfl) (ihothers _ _ rfl)
    | @starStop _ _ _ a round stops _ =>
        cases a <;> rintro _ _ ⟨⟩
        · exact absurd trivial stops
        · exact starStop round
    | @plusMore _ _ _ _ _ a round others ihround ihothers =>
        cases a <;> rintro _ _ ⟨⟩
        exact plusMore round others (ihround _ _ rfl) (ihothers _ _ rfl)
    | plusStop round stops ih => rintro _ _ rfl; exact absurd trivial stops
    | @opt _ _ a inner ih =>
        cases a <;> rintro _ _ ⟨⟩
        · exact optHere inner (ih _ _ rfl)
        · exact optNot inner
    | atMostZero s done => rintro _ _ ⟨⟩; exact atMostZero s done
    | @atMostMore _ _ _ _ _ a left round others ihround ihothers =>
        cases a <;> rintro _ _ ⟨⟩
        exact atMostMore left round others (ihround _ _ rfl) (ihothers _ _ rfl)
    | @atMostStop _ _ _ a left round stops _ =>
        cases a <;> rintro _ _ ⟨⟩
        · exact absurd trivial stops
        · exact atMostStop left round
    | @lookahead negated _ _ a inner ih =>
        cases a <;> cases negated <;> rintro _ _ ⟨⟩
        · exact lookaheadHere inner (ih _ _ rfl)
        · exact lookaheadNot inner
    | skipHere here taken ih => rintro _ _ rfl; exact skipHere here (ih _ _ rfl)
    | @skipPass _ _ _ a here others _ ih =>
        cases a <;> rintro _ _ ⟨⟩
        exact skipPass here others (ih _ _ rfl)
    | skipEnd here ih => rintro _ _ ⟨⟩
    | untilHere here taken ih => rintro _ _ rfl; exact untilHere here (ih _ _ rfl)
    | @untilMore _ _ _ _ _ _ a here round others _ ihround ihothers =>
        cases a <;> rintro _ _ ⟨⟩
        exact untilMore here round others (ihround _ _ rfl) (ihothers _ _ rfl)
    | untilStop here round stops _ _ => rintro _ _ rfl; exact absurd trivial stops
    | @must _ _ a inner ih =>
        cases a <;> rintro _ _ ⟨⟩
        exact must inner (ih _ _ rfl)
    | @rule _ _ _ a found inner ih =>
        cases a <;> rintro _ _ ⟨⟩
        exact rule found inner (ih _ _ rfl)
    | ref linked inner ih => rintro _ _ rfl; exact ref linked inner (ih _ _ rfl)
  exact hall h parts rest rfl

end Derives

/-- A match of a pattern, without what failed before its parts.  A text may have
several of them, of which a derivation picks one. -/
inductive Match (g : Grammar) : Pattern → List Char → List Tree → List Char → Prop
  | take {t : Terminal} {s : List Char} {count : Nat} (scanned : t.scan s.toArray 0 = .take count) :
      Match g (.terminal t) s [.chars (s.take count)] (s.drop count)
  | stay {t : Terminal} {s : List Char} (scanned : t.scan s.toArray 0 = .stay) :
      Match g (.terminal t) s [] s
  | seqNil (s : List Char) : Match g (.seq []) s [] s
  | seqCons {item : Pattern} {items : List Pattern} {s rest last : List Char}
      {parts more : List Tree} (first : Match g item s parts rest)
      (others : Match g (.seq items) rest more last) :
      Match g (.seq (item :: items)) s (parts ++ more) last
  | choice {item : Pattern} {items : List Pattern} {s rest : List Char} {parts : List Tree}
      (mem : item ∈ items) (inner : Match g item s parts rest) :
      Match g (.choice items) s parts rest
  | starNil (site : Site) (body : Pattern) (s : List Char) : Match g (.star site body) s [] s
  | starCons {site : Site} {body : Pattern} {s rest last : List Char} {parts more : List Tree}
      (round : Match g body s parts rest) (others : Match g (.star site body) rest more last) :
      Match g (.star site body) s (parts ++ more) last
  | plus {site : Site} {body : Pattern} {s rest last : List Char} {parts more : List Tree}
      (round : Match g body s parts rest) (others : Match g (.star site body) rest more last) :
      Match g (.plus site body) s (parts ++ more) last
  | optNil (body : Pattern) (s : List Char) : Match g (.opt body) s [] s
  | opt {body : Pattern} {s rest : List Char} {parts : List Tree}
      (inner : Match g body s parts rest) : Match g (.opt body) s parts rest
  | atMostNil (count : Int) (body : Pattern) (s : List Char) : Match g (.atMost count body) s [] s
  | atMostCons {count : Int} {body : Pattern} {s rest last : List Char} {parts more : List Tree}
      (round : Match g body s parts rest)
      (others : Match g (.atMost (count - 1) body) rest more last) :
      Match g (.atMost count body) s (parts ++ more) last
  | lookahead (negated : Bool) (body : Pattern) (s : List Char) :
      Match g (.lookahead negated body) s [] s
  | skipHere {stop : Pattern} {s rest : List Char} {parts : List Tree}
      (here : Match g stop s parts rest) : Match g (.skipTo stop) s parts rest
  | skipPass {stop : Pattern} {c : Char} {s rest : List Char} {parts : List Tree}
      (others : Match g (.skipTo stop) s parts rest) :
      Match g (.skipTo stop) (c :: s) (.chars [c] :: parts) rest
  | untilHere {site : Site} {stop body : Pattern} {s rest : List Char} {parts : List Tree}
      (here : Match g stop s parts rest) : Match g (.repeatUntil site stop body) s parts rest
  | untilMore {site : Site} {stop body : Pattern} {s rest last : List Char} {parts more : List Tree}
      (round : Match g body s parts rest)
      (others : Match g (.repeatUntil site stop body) rest more last) :
      Match g (.repeatUntil site stop body) s (parts ++ more) last
  | must {body : Pattern} {s rest : List Char} {parts : List Tree}
      (inner : Match g body s parts rest) : Match g (.must body) s parts rest
  | rule {name : String} {rule : Rule} {s rest : List Char} {parts : List Tree}
      (found : g.rule? name = some rule) (inner : Match g rule.body s parts rest) :
      Match g (.rule name) s [.node rule parts] rest
  | ref {site : Site} {name : String} {s rest : List Char} {parts : List Tree}
      (inner : Match g (.rule name) s parts rest) : Match g (.ref site name) s parts rest

/-- What a derivation finds is a match. -/
theorem Derives.toMatch {g : Grammar} {p : Pattern} {s rest : List Char} {parts : List Tree}
    (h : Derives g p s (.matched parts rest)) : Match g p s parts rest := by
  induction h using matched_induction with
  | @terminal t s parts rest h =>
      generalize ha : Answer.matched parts rest = a at h
      cases h
      rw [Terminal.answer] at ha
      split at ha <;> cases ha
      · rename_i hscan
        exact .take hscan
      · rename_i hscan
        exact .stay hscan
  | seqNil s => exact .seqNil s
  | seqCons _ _ ihfirst ihothers => exact .seqCons ihfirst ihothers
  | choiceHere _ ih => exact .choice List.mem_cons_self ih
  | choiceNext _ _ ih =>
      cases ih with
      | choice mem inner => exact .choice (List.mem_cons_of_mem _ mem) inner
  | starMore _ _ ihround ihothers => exact .starCons ihround ihothers
  | starStop _ => exact .starNil ..
  | plusMore _ _ ihround ihothers => exact .plus ihround ihothers
  | optHere _ ih => exact .opt ih
  | optNot _ => exact .optNil ..
  | atMostZero s _ => exact .atMostNil ..
  | atMostMore _ _ _ ihround ihothers => exact .atMostCons ihround ihothers
  | atMostStop _ _ => exact .atMostNil ..
  | lookaheadHere _ _ => exact .lookahead ..
  | lookaheadNot _ => exact .lookahead ..
  | skipHere _ ih => exact .skipHere ih
  | skipPass _ _ ih => exact .skipPass ih
  | untilHere _ ih => exact .untilHere ih
  | untilMore _ _ _ ihround ihothers => exact .untilMore ihround ihothers
  | must _ ih => exact .must ih
  | rule found _ ih => exact .rule found ih
  | ref _ _ ih => exact .ref ih

namespace Match

variable {g : Grammar}

/-- A match takes the text of its trees and leaves the rest. -/
theorem text_eq {p : Pattern} {s rest : List Char} {parts : List Tree}
    (h : Match g p s parts rest) : s = Tree.textOfAll parts ++ rest := by
  induction h with
  | take => simp [Tree.textOfAll, Tree.text]
  | stay => rfl
  | seqNil => rfl
  | seqCons _ _ ihfirst ihothers =>
      rw [ihfirst, ihothers, Tree.textOfAll_append, List.append_assoc]
  | choice _ _ ih => exact ih
  | starNil => rfl
  | starCons _ _ ihround ihothers =>
      rw [ihround, ihothers, Tree.textOfAll_append, List.append_assoc]
  | plus _ _ ihround ihothers =>
      rw [ihround, ihothers, Tree.textOfAll_append, List.append_assoc]
  | optNil => rfl
  | opt _ ih => exact ih
  | atMostNil => rfl
  | atMostCons _ _ ihround ihothers =>
      rw [ihround, ihothers, Tree.textOfAll_append, List.append_assoc]
  | lookahead => rfl
  | skipHere _ ih => exact ih
  | skipPass _ ih => rw [ih]; rfl
  | untilHere _ ih => exact ih
  | untilMore _ _ ihround ihothers =>
      rw [ihround, ihothers, Tree.textOfAll_append, List.append_assoc]
  | must _ ih => exact ih
  | rule _ _ ih => simpa [Tree.textOfAll, Tree.text] using ih
  | ref _ ih => exact ih

/-- Every rule in a match is a rule of the grammar, and its parts are a match of its
body. -/
theorem of_mem_nodes {p : Pattern} {s rest : List Char} {parts : List Tree}
    (h : Match g p s parts rest) :
    ∀ n ∈ Tree.nodesOfAll parts, (∃ name, g.rule? name = some n.1) ∧
      ∃ s rest, Match g n.1.body s n.2 rest := by
  induction h with
  | take => simp [Tree.nodesOfAll, Tree.nodes]
  | stay => simp [Tree.nodesOfAll]
  | seqNil => simp [Tree.nodesOfAll]
  | seqCons _ _ ihfirst ihothers =>
      rw [Tree.nodesOfAll_append, List.forall_mem_append]
      exact ⟨ihfirst, ihothers⟩
  | choice _ _ ih => exact ih
  | starNil => simp [Tree.nodesOfAll]
  | starCons _ _ ihround ihothers =>
      rw [Tree.nodesOfAll_append, List.forall_mem_append]
      exact ⟨ihround, ihothers⟩
  | plus _ _ ihround ihothers =>
      rw [Tree.nodesOfAll_append, List.forall_mem_append]
      exact ⟨ihround, ihothers⟩
  | optNil => simp [Tree.nodesOfAll]
  | opt _ ih => exact ih
  | atMostNil => simp [Tree.nodesOfAll]
  | atMostCons _ _ ihround ihothers =>
      rw [Tree.nodesOfAll_append, List.forall_mem_append]
      exact ⟨ihround, ihothers⟩
  | lookahead => simp [Tree.nodesOfAll]
  | skipHere _ ih => exact ih
  | skipPass _ ih => exact ih
  | untilHere _ ih => exact ih
  | untilMore _ _ ihround ihothers =>
      rw [Tree.nodesOfAll_append, List.forall_mem_append]
      exact ⟨ihround, ihothers⟩
  | must _ ih => exact ih
  | @rule name _ s rest parts found inner ih =>
      intro n hn
      simp only [Tree.nodesOfAll, Tree.nodes, List.append_nil, List.mem_cons] at hn
      rcases hn with rfl | hn
      · exact ⟨⟨name, found⟩, s, rest, inner⟩
      · exact ih n hn
  | ref _ ih => exact ih

section

variable {p : Pattern} {items : List Pattern} {s rest : List Char} {parts : List Tree}

theorem seq_nil_iff : Match g (.seq []) s parts rest ↔ parts = [] ∧ rest = s := by
  constructor
  · rintro ⟨⟩
    exact ⟨rfl, rfl⟩
  · rintro ⟨rfl, rfl⟩
    exact .seqNil _

theorem seq_cons_iff : Match g (.seq (p :: items)) s parts rest ↔
    ∃ first middle others, Match g p s first middle ∧ Match g (.seq items) middle others rest ∧
      parts = first ++ others := by
  constructor
  · rintro (_ | _ | _ | ⟨hfirst, hothers⟩)
    exact ⟨_, _, _, hfirst, hothers, rfl⟩
  · rintro ⟨first, middle, others, hfirst, hothers, rfl⟩
    exact .seqCons hfirst hothers

theorem choice_iff : Match g (.choice items) s parts rest ↔
    ∃ item ∈ items, Match g item s parts rest := by
  constructor
  · rintro ⟨⟩
    exact ⟨_, ‹_›, ‹_›⟩
  · rintro ⟨item, hmem, hitem⟩
    exact .choice hmem hitem

theorem opt_iff : Match g (.opt p) s parts rest ↔
    (parts = [] ∧ rest = s) ∨ Match g p s parts rest := by
  constructor
  · rintro ⟨⟩
    · exact .inl ⟨rfl, rfl⟩
    · exact .inr ‹_›
  · rintro (⟨rfl, rfl⟩ | h)
    · exact .optNil _ _
    · exact .opt h

theorem must_iff : Match g (.must p) s parts rest ↔ Match g p s parts rest := by
  constructor
  · rintro ⟨⟩
    assumption
  · exact .must

theorem lookahead_iff {negated : Bool} :
    Match g (.lookahead negated p) s parts rest ↔ parts = [] ∧ rest = s := by
  constructor
  · rintro ⟨⟩
    exact ⟨rfl, rfl⟩
  · rintro ⟨rfl, rfl⟩
    exact .lookahead _ _ _

theorem ref_iff {site : Site} {name : String} :
    Match g (.ref site name) s parts rest ↔ Match g (.rule name) s parts rest := by
  constructor
  · rintro ⟨⟩
    assumption
  · exact .ref

theorem rule_iff {name : String} {rule : Rule} (hrule : g.rule? name = some rule) :
    Match g (.rule name) s parts rest ↔
      ∃ inner, parts = [.node rule inner] ∧ Match g rule.body s inner rest := by
  constructor
  · rintro ⟨⟩
    rename_i hfound hinner
    cases hrule.symm.trans hfound
    exact ⟨_, rfl, hinner⟩
  · rintro ⟨inner, rfl, hinner⟩
    exact .rule hrule hinner

/-- Characters in a row are taken as they stand. -/
theorem of_literal {cs : List Char} (h : Match g (.terminal (.literal cs false)) s parts rest) :
    parts = [.chars cs] ∧ s = cs ++ rest := by
  cases h with
  | take hscan =>
      rw [Terminal.scan] at hscan
      split at hscan
      · rename_i hstarts
        cases hscan
        have hprefix := (Text.startsAt_iff.mp hstarts).2
        rw [List.drop_zero] at hprefix
        have htake := List.prefix_iff_eq_take.mp hprefix
        exact ⟨by rw [← htake], by rw [List.prefix_iff_eq_append.mp hprefix]⟩
      · cases hscan
  | stay hscan =>
      rw [Terminal.scan] at hscan
      split at hscan <;> cases hscan

/-- One character of a set is taken, or one outside it. -/
theorem of_oneOf {chars : List Char} {negated : Bool}
    (h : Match g (.terminal (.oneOf chars negated)) s parts rest) :
    ∃ c, (chars.contains c != negated) = true ∧ parts = [.chars [c]] ∧ s = c :: rest := by
  cases h with
  | take hscan =>
      rw [Terminal.scan] at hscan
      split at hscan
      · rename_i c hc
        split at hscan
        · rename_i hmem
          cases hscan
          cases s with
          | nil => cases hc
          | cons d s =>
              cases hc
              exact ⟨d, hmem, rfl, rfl⟩
        · cases hscan
      · cases hscan
  | stay hscan =>
      rw [Terminal.scan] at hscan
      split at hscan
      · split at hscan <;> cases hscan
      · cases hscan

/-- The end of the text is where nothing is left. -/
theorem of_endOfInput (h : Match g (.terminal .endOfInput) s parts rest) :
    parts = [] ∧ s = [] ∧ rest = [] := by
  cases h with
  | take hscan =>
      rw [Terminal.scan] at hscan
      split at hscan <;> cases hscan
  | stay hscan =>
      rw [Terminal.scan] at hscan
      split at hscan
      · rename_i hsize
        have hnil : s = [] := List.length_eq_zero_iff.mp (Nat.le_zero.mp (by simpa using hsize))
        exact ⟨rfl, hnil, hnil⟩
      · cases hscan

end

end Match

end CartLua
