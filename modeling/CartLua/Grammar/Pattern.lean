import CartLua.Grammar.Terminal

/-!
# Patterns

The expressions of a parsing grammar: terminals, sequences, ordered choices,
repetitions, lookaheads, committed parts and the use of other rules.

A pattern may be built once and used in several places of a rule.  References
and loops can therefore carry a site, a number that tells such uses of one
pattern from patterns that merely look the same.  Matching ignores sites.
-/

namespace CartLua

/-- A number given to a reference or a loop when it was built, if it has one. -/
abbrev Site := Option Nat

inductive Pattern
  | terminal (t : Terminal)
  | seq (items : List Pattern)
  | choice (alternatives : List Pattern)
  | star (site : Site) (body : Pattern)
  | plus (site : Site) (body : Pattern)
  | opt (body : Pattern)
  | atMost (count : Int) (body : Pattern)
  /-- Whether the body matches here, or does not, without moving on. -/
  | lookahead (negated : Bool) (body : Pattern)
  /-- Any characters up to and including the first match of `stop`. -/
  | skipTo (stop : Pattern)
  /-- `body` again and again until `stop` matches. -/
  | repeatUntil (site : Site) (stop body : Pattern)
  /-- A part whose failure is an error of the text. -/
  | must (body : Pattern)
  /-- A rule of the grammar placed directly. -/
  | rule (name : String)
  | ref (site : Site) (name : String)
  deriving Repr, Inhabited

namespace Pattern

mutual

def describe : Pattern → String
  | terminal t => t.describe
  | seq items => "(" ++ " ".intercalate (describeAll items) ++ ")"
  | choice alternatives => "(" ++ " | ".intercalate (describeAll alternatives) ++ ")"
  | star _ body => body.describe ++ "*"
  | plus _ body => body.describe ++ "+"
  | opt body => body.describe ++ "?"
  | atMost count body => body.describe ++ "\x7b0," ++ toString count ++ "\x7d"
  | lookahead negated body => (if negated then "!" else "&") ++ body.describe
  | skipTo stop => "until(" ++ stop.describe ++ "; any)"
  | repeatUntil _ stop body => "until(" ++ stop.describe ++ "; " ++ body.describe ++ ")"
  | must body => body.describe
  | rule name => name
  | ref _ name => name

def describeAll : List Pattern → List String
  | [] => []
  | item :: items => item.describe :: describeAll items

end

def kindName : Pattern → String
  | terminal t => t.kindName
  | seq _ => "Seq"
  | choice _ => "Sor"
  | star .. => "Star"
  | plus .. => "Plus"
  | opt _ => "Opt"
  | atMost .. => "RepOpt"
  | lookahead .. => "At"
  | skipTo _ => "Until"
  | repeatUntil .. => "Until"
  | must _ => "Must"
  | rule _ => "Named"
  | ref .. => "Ref"

def inspect (p : Pattern) : String :=
  "<" ++ p.kindName ++ " " ++ p.describe ++ ">"

/-- The parts from left to right.  Rules and references have none of their own. -/
def parts : Pattern → List Pattern
  | seq items => items
  | choice alternatives => alternatives
  | star _ body => [body]
  | plus _ body => [body]
  | opt body => [body]
  | atMost _ body => [body]
  | lookahead _ body => [body]
  | skipTo stop => [stop]
  | repeatUntil _ stop body => [stop, body]
  | must body => [body]
  | terminal _ => []
  | rule _ => []
  | ref .. => []

def site : Pattern → Site
  | star site _ => site
  | plus site _ => site
  | repeatUntil site _ _ => site
  | ref site _ => site
  | _ => none

mutual

/-- All patterns inside a pattern and itself: outer ones before inner ones, and
the parts of each from right to left. -/
def subpatterns : Pattern → List Pattern
  | terminal t => [terminal t]
  | seq items => seq items :: subpatternsOfAll items
  | choice alternatives => choice alternatives :: subpatternsOfAll alternatives
  | star site body => star site body :: body.subpatterns
  | plus site body => plus site body :: body.subpatterns
  | opt body => opt body :: body.subpatterns
  | atMost count body => atMost count body :: body.subpatterns
  | lookahead negated body => lookahead negated body :: body.subpatterns
  | skipTo stop => skipTo stop :: stop.subpatterns
  | repeatUntil site stop body =>
      repeatUntil site stop body :: (body.subpatterns ++ stop.subpatterns)
  | must body => must body :: body.subpatterns
  | rule name => [rule name]
  | ref site name => [ref site name]

def subpatternsOfAll : List Pattern → List Pattern
  | [] => []
  | item :: items => subpatternsOfAll items ++ item.subpatterns

end

/-- The patterns of a list, each site only where it comes first. -/
def firstUses : List Nat → List Pattern → List Pattern
  | _, [] => []
  | seen, p :: ps =>
      match p.site with
      | none => p :: firstUses seen ps
      | some site =>
          if seen.contains site then firstUses seen ps else p :: firstUses (site :: seen) ps

/-- The patterns of a rule body in the order in which it is examined. -/
def examined (body : Pattern) : List Pattern :=
  firstUses [] body.subpatterns

mutual

/-- Give the loops without a site the numbers from `next` on.  The next free
number comes with the result. -/
def number (next : Nat) : Pattern → Pattern × Nat
  | terminal t => (terminal t, next)
  | seq items =>
      let (items, next) := numberAll next items
      (seq items, next)
  | choice alternatives =>
      let (alternatives, next) := numberAll next alternatives
      (choice alternatives, next)
  | star site body =>
      let (body, next) := number next body
      match site with
      | some site => (star (some site) body, next)
      | none => (star (some next) body, next + 1)
  | plus site body =>
      let (body, next) := number next body
      match site with
      | some site => (plus (some site) body, next)
      | none => (plus (some next) body, next + 1)
  | opt body =>
      let (body, next) := number next body
      (opt body, next)
  | atMost count body =>
      let (body, next) := number next body
      (atMost count body, next)
  | lookahead negated body =>
      let (body, next) := number next body
      (lookahead negated body, next)
  | skipTo stop =>
      let (stop, next) := number next stop
      (skipTo stop, next)
  | repeatUntil site stop body =>
      let (stop, next) := number next stop
      let (body, next) := number next body
      match site with
      | some site => (repeatUntil (some site) stop body, next)
      | none => (repeatUntil (some next) stop body, next + 1)
  | must body =>
      let (body, next) := number next body
      (must body, next)
  | rule name => (rule name, next)
  | ref site name => (ref site name, next)

def numberAll (next : Nat) : List Pattern → List Pattern × Nat
  | [] => ([], next)
  | item :: items =>
      let (item, next) := number next item
      let (items, next) := numberAll next items
      (item :: items, next)

end

end Pattern

end CartLua
