import Mathlib.Data.List.Basic
import Mathlib.Data.List.Perm.Subperm
import CartLua.Grammar.Analysis
import CartLua.Proofs.Sorting

/-!
# What a clean self-check says

The self-check computes the rules that can match nothing, walks along the rules
that may be entered first, and looks at the patterns of each rule body.  A report
without flaws is read here: the rounds of the first computation have come to rest,
the walk has put every rule before the rules it may enter first, and every loop
takes something in each round.
-/

namespace CartLua

namespace Pattern

variable {known more : List String}

mutual

/-- With more rules known to match nothing, no fewer patterns do. -/
theorem nullable_mono (hmore : ∀ name, known.contains name = true → more.contains name = true) :
    (p : Pattern) → p.nullable known = true → p.nullable more = true
  | terminal _, h => h
  | seq items, h => allNullable_mono hmore items h
  | choice alternatives, h => anyNullable_mono hmore alternatives h
  | star .., _ => rfl
  | plus _ body, h => nullable_mono hmore body h
  | opt _, _ => rfl
  | atMost .., _ => rfl
  | lookahead .., _ => rfl
  | skipTo stop, h => nullable_mono hmore stop h
  | repeatUntil _ stop _, h => nullable_mono hmore stop h
  | must body, h => nullable_mono hmore body h
  | rule name, h => hmore name h
  | ref _ name, h => hmore name h

theorem allNullable_mono
    (hmore : ∀ name, known.contains name = true → more.contains name = true) :
    (items : List Pattern) → allNullable known items = true → allNullable more items = true
  | [], _ => rfl
  | item :: items, h => by
      rw [allNullable, Bool.and_eq_true] at h ⊢
      exact ⟨nullable_mono hmore item h.1, allNullable_mono hmore items h.2⟩

theorem anyNullable_mono
    (hmore : ∀ name, known.contains name = true → more.contains name = true) :
    (items : List Pattern) → anyNullable known items = true → anyNullable more items = true
  | [], h => h
  | item :: items, h => by
      rw [anyNullable, Bool.or_eq_true] at h ⊢
      rcases h with h | h
      · exact .inl (nullable_mono hmore item h)
      · exact .inr (anyNullable_mono hmore items h)

end

theorem mem_of_mem_firstUses {p : Pattern} {seen : List Nat} {ps : List Pattern}
    (hp : p ∈ firstUses seen ps) : p ∈ ps := by
  induction ps generalizing seen with
  | nil => exact hp
  | cons first others ih =>
      rw [firstUses] at hp
      split at hp
      · rcases List.mem_cons.mp hp with rfl | hp
        · exact List.mem_cons_self
        · exact List.mem_cons_of_mem _ (ih hp)
      · split at hp
        · exact List.mem_cons_of_mem _ (ih hp)
        · rcases List.mem_cons.mp hp with rfl | hp
          · exact List.mem_cons_self
          · exact List.mem_cons_of_mem _ (ih hp)

/-- A pattern of a list is among the first uses, or another one of its site is. -/
theorem mem_firstUses {p : Pattern} (seen : List Nat) {ps : List Pattern} (hp : p ∈ ps) :
    p ∈ firstUses seen ps ∨
      ∃ k, p.site = some k ∧ (k ∈ seen ∨ ∃ q ∈ firstUses seen ps, q.site = some k) := by
  induction ps generalizing seen with
  | nil => cases hp
  | cons first others ih =>
      rw [firstUses]
      cases hsite : first.site with
      | none =>
          dsimp only
          rcases List.mem_cons.mp hp with rfl | hp
          · exact .inl List.mem_cons_self
          · rcases ih seen hp with hmem | ⟨k, hk, hseen | ⟨q, hq, hqk⟩⟩
            · exact .inl (List.mem_cons_of_mem _ hmem)
            · exact .inr ⟨k, hk, .inl hseen⟩
            · exact .inr ⟨k, hk, .inr ⟨q, List.mem_cons_of_mem _ hq, hqk⟩⟩
      | some site =>
          dsimp only
          by_cases hseen : seen.contains site = true
          · rw [if_pos hseen]
            rcases List.mem_cons.mp hp with rfl | hp
            · exact .inr ⟨site, hsite, .inl (List.contains_iff_mem.mp hseen)⟩
            · exact ih seen hp
          · rw [if_neg hseen]
            rcases List.mem_cons.mp hp with rfl | hp
            · exact .inl List.mem_cons_self
            · rcases ih (site :: seen) hp with hmem | ⟨k, hk, hseen | ⟨q, hq, hqk⟩⟩
              · exact .inl (List.mem_cons_of_mem _ hmem)
              · rcases List.mem_cons.mp hseen with rfl | hseen
                · exact .inr ⟨k, hk, .inr ⟨first, List.mem_cons_self, hsite⟩⟩
                · exact .inr ⟨k, hk, .inl hseen⟩
              · exact .inr ⟨k, hk, .inr ⟨q, List.mem_cons_of_mem _ hq, hqk⟩⟩

/-- Where one site stands for one pattern, every pattern of a body is examined. -/
theorem mem_examined {body p : Pattern} (hp : p ∈ body.subpatterns)
    (hshared : ∀ q ∈ body.subpatterns, q.site = p.site → p.site ≠ none → q = p) :
    p ∈ body.examined := by
  rcases mem_firstUses [] hp with hmem | ⟨k, hk, hseen | ⟨q, hq, hqk⟩⟩
  · exact hmem
  · cases hseen
  · have hbody : q ∈ body.subpatterns := mem_of_mem_firstUses hq
    rw [← hshared q hbody (by rw [hqk, hk]) (by simp [hk])]
    exact hq

end Pattern

namespace Grammar

variable (g : Grammar)

/-- Every round finds again what the round before found. -/
theorem nullableAfter_sublist (rounds : Nat) :
    (g.nullableAfter rounds).Sublist (g.nullableAfter (rounds + 1)) := by
  induction rounds with
  | zero => exact List.nil_sublist _
  | succ rounds ih =>
      apply List.Sublist.map
      apply List.monotone_filter_right
      intro rule hrule
      apply Pattern.nullable_mono _ rule.body hrule
      intro name hname
      exact List.contains_iff_mem.mpr (ih.subset (List.contains_iff_mem.mp hname))

/-- A round finds nothing new, or all rounds up to it have found something. -/
theorem nullableAfter_eq_or_lt (rounds : Nat) :
    g.nullableAfter (rounds + 1) = g.nullableAfter rounds ∨
      rounds < (g.nullableAfter (rounds + 1)).length := by
  induction rounds with
  | zero =>
      cases h : g.nullableAfter 1 with
      | nil => exact .inl rfl
      | cons name names => exact .inr (Nat.zero_lt_succ _)
  | succ rounds ih =>
      rcases ih with heq | hlt
      · left
        rw [nullableAfter, heq, ← nullableAfter, heq]
      · have hsub := g.nullableAfter_sublist (rounds + 1)
        by_cases hlength : (g.nullableAfter (rounds + 1 + 1)).length ≤
            (g.nullableAfter (rounds + 1)).length
        · exact .inl (hsub.eq_of_length_le hlength).symm
        · right
          omega

theorem length_nullableAfter_le (rounds : Nat) :
    (g.nullableAfter rounds).length ≤ g.rules.length := by
  cases rounds with
  | zero => exact Nat.zero_le _
  | succ rounds =>
      rw [nullableAfter, nullableRound, List.length_map]
      exact List.length_filter_le _ _

/-- The rounds have come to rest. -/
theorem nullableRound_nullableRules : g.nullableRound g.nullableRules = g.nullableRules := by
  rcases g.nullableAfter_eq_or_lt g.rules.length with heq | hlt
  · exact heq
  · have := g.length_nullableAfter_le (g.rules.length + 1)
    omega

/-- A rule whose body can match nothing is among the rules that can. -/
theorem mem_nullableRules {rule : Rule} (hrule : rule ∈ g.rules)
    (hbody : rule.body.nullable g.nullableRules = true) : rule.name ∈ g.nullableRules := by
  rw [← nullableRound_nullableRules, nullableRound]
  exact List.mem_map_of_mem (List.mem_filter.mpr ⟨hrule, hbody⟩)

/-! ## The walk along left calls -/

/-- Whether every name of a list only leads to names after it. -/
def Layered (next : String → List String) : List String → Prop
  | [] => True
  | name :: names => (∀ callee ∈ next name, callee ∈ names) ∧ Layered next names

theorem CycleSearch.found_add_ne_nil (search : CycleSearch) (first : String)
    (rest : List String) : (search.add first rest).found ≠ [] := by
  rw [CycleSearch.add]
  split
  · rename_i hknown
    intro hnil
    rw [hnil] at hknown
    simp at hknown
  · exact List.cons_ne_nil _ _

variable {next : String → List String}

/-- A step of a walk that never takes a cycle back. -/
theorem found_foldl_eq_nil {step : CycleSearch → String → CycleSearch}
    (hstep : ∀ search name, (step search name).found = [] → search.found = [])
    {names : List String} {search : CycleSearch}
    (hfound : (names.foldl step search).found = []) : search.found = [] := by
  induction names generalizing search with
  | nil => exact hfound
  | cons name names ih => exact hstep search name (ih hfound)

/-- A cycle once found is not forgotten. -/
theorem found_eq_nil_of_visit (steps : Nat) (path : List String) (name : String)
    (search : CycleSearch) (hfound : (visit next steps path name search).found = []) :
    search.found = [] := by
  induction steps generalizing path name search with
  | zero => exact hfound
  | succ steps ih =>
      rw [visit] at hfound
      split at hfound
      · exact hfound
      · split at hfound
        · exact absurd hfound (search.found_add_ne_nil _ _)
        · exact found_foldl_eq_nil (fun search callee => ih (name :: path) callee search) hfound

/-- Visiting names one after the other finishes all of them, when visiting one of them
finishes it. -/
theorem layered_foldl (next : String → List String) (names : List String)
    {step : CycleSearch → String → CycleSearch}
    (hback : ∀ search name, (step search name).found = [] → search.found = [])
    (hstep : ∀ search, ∀ name ∈ names, (step search name).found = [] →
      Layered next search.finished → Layered next (step search name).finished ∧
        name ∈ (step search name).finished ∧ search.finished ⊆ (step search name).finished)
    {search : CycleSearch} (hfound : (names.foldl step search).found = [])
    (hlayered : Layered next search.finished) :
    Layered next (names.foldl step search).finished ∧
      (∀ name ∈ names, name ∈ (names.foldl step search).finished) ∧
      search.finished ⊆ (names.foldl step search).finished := by
  induction names generalizing search with
  | nil => exact ⟨hlayered, fun _ h => absurd h List.not_mem_nil, fun _ h => h⟩
  | cons name names ih =>
      have hfirst : (step search name).found = [] := found_foldl_eq_nil hback hfound
      obtain ⟨hlayered, hname, hsub⟩ := hstep search name List.mem_cons_self hfirst hlayered
      obtain ⟨hlayered, hnames, hsub'⟩ :=
        ih (fun search name hmem => hstep search name (List.mem_cons_of_mem _ hmem)) hfound hlayered
      refine ⟨hlayered, fun other hother => ?_, fun _ h => hsub' (hsub h)⟩
      rcases List.mem_cons.mp hother with rfl | hother
      · exact hsub' hname
      · exact hnames other hother

/-- A walk that finds no cycle finishes the name it visits, after all names that it leads
to.  The steps last, since a path repeats no name. -/
theorem layered_visit {names : List String} (hnext : ∀ name ∈ names, next name ⊆ names)
    {steps : Nat} {path : List String} {name : String} {search : CycleSearch}
    (hsteps : names.length < steps + path.length) (hpath : path.Nodup) (hsub : path ⊆ names)
    (hname : name ∈ names) (hfound : (visit next steps path name search).found = [])
    (hlayered : Layered next search.finished) :
    Layered next (visit next steps path name search).finished ∧
      name ∈ (visit next steps path name search).finished ∧
      search.finished ⊆ (visit next steps path name search).finished := by
  induction steps generalizing path name search with
  | zero =>
      have := (List.subperm_of_subset hpath hsub).length_le
      omega
  | succ steps ih =>
      rw [visit] at hfound ⊢
      by_cases hdone : search.finished.contains name = true
      · rw [if_pos hdone]
        exact ⟨hlayered, List.contains_iff_mem.mp hdone, fun _ h => h⟩
      · rw [if_neg hdone] at hfound ⊢
        by_cases hcycle : path.contains name = true
        · rw [if_pos hcycle] at hfound
          exact absurd hfound (search.found_add_ne_nil _ _)
        · rw [if_neg hcycle] at hfound ⊢
          have hfresh : name ∉ path := fun h => hcycle (List.contains_iff_mem.mpr h)
          have hsteps' : names.length < steps + (name :: path).length := by
            rw [List.length_cons]
            omega
          have hcallees := layered_foldl next (next name)
            (fun search callee => found_eq_nil_of_visit steps (name :: path) callee search)
            (fun search callee hcallee hfound hlayered =>
              ih hsteps' (List.nodup_cons.mpr ⟨hfresh, hpath⟩) (List.cons_subset.mpr ⟨hname, hsub⟩)
                (hnext name hname hcallee) hfound hlayered)
            hfound hlayered
          obtain ⟨hlayered, hcallees, hkept⟩ := hcallees
          exact ⟨⟨hcallees, hlayered⟩, List.mem_cons_self,
            fun _ h => List.mem_cons_of_mem _ (hkept h)⟩

/-- Rules are found in the list of rules. -/
theorem rule?_eq (g : Grammar) :
    g.rule? = fun name => g.rules.find? fun rule => rule.name == name :=
  funext g.rule?_eq_find?

theorem defines_eq (g : Grammar) :
    g.defines = fun name => (g.rules.find? fun rule => rule.name == name).isSome := by
  funext name
  rw [defines, rule?_eq]

theorem defines_iff {name : String} : g.defines name = true ↔ name ∈ g.ruleNames := by
  rw [defines, rule?_eq_find?, List.find?_isSome, ruleNames, List.mem_map]
  simp

/-- Without left recursion the rules can be put in a row in which each one only enters
later ones before it has taken anything. -/
theorem exists_layered {known : List String} (hcycles : g.leftCycles known = []) :
    ∃ order, Layered (g.leftCalls known) order ∧ ∀ name, g.defines name = true → name ∈ order := by
  have hnext : ∀ name ∈ g.ruleNames, g.leftCalls known name ⊆ g.ruleNames := by
    intro name _ callee hcallee
    rw [leftCalls] at hcallee
    split at hcallee
    · rw [mem_sortedNames, List.mem_filter] at hcallee
      exact g.defines_iff.mp hcallee.2
    · cases hcallee
  have hsteps : g.ruleNames.length < g.rules.length + 1 + ([] : List String).length := by
    simp [ruleNames]
  have hwalk := layered_foldl (g.leftCalls known) g.ruleNames
    (fun search name => found_eq_nil_of_visit (g.rules.length + 1) [] name search)
    (fun search name hname hfound hlayered =>
      layered_visit hnext hsteps List.nodup_nil (List.nil_subset _) hname hfound hlayered)
    (List.reverse_eq_nil_iff.mp hcycles) trivial
  exact ⟨_, hwalk.1, fun name hname => hwalk.2.1 name (g.defines_iff.mp hname)⟩

/-! ## Reading a report -/

/-- Whether the rules refer to each other by linked references alone, and a site stands
for one pattern in each of them. -/
structure Assembled : Prop where
  /-- No rule is placed in a body directly. -/
  unplaced : ∀ rule ∈ g.rules, ∀ name, .rule name ∉ rule.body.subpatterns
  /-- A reference to a rule that exists stands for it. -/
  linked : ∀ rule ∈ g.rules, ∀ site name, .ref site name ∈ rule.body.subpatterns →
    g.defines name = true → g.isLinked site name = true
  /-- Two patterns of one site are one pattern. -/
  shared : ∀ rule ∈ g.rules, ∀ p ∈ rule.body.subpatterns, ∀ q ∈ rule.body.subpatterns,
    q.site = p.site → p.site ≠ none → q = p

/-- What a pattern must not do wrong by itself for matches to end: refer to nothing, or
repeat what can match nothing. -/
def Harmless (known : List String) : Pattern → Prop
  | .star _ body => body.nullable known = false
  | .plus _ body => body.nullable known = false
  | .repeatUntil _ _ body => body.nullable known = false
  | .rule name => g.defines name = true
  | .ref site name => g.defines name = true ∧ g.isLinked site name = true
  | _ => True

variable {g}

/-- A report without flaws has found a root, no loop over nothing, no reference to nothing
and no left recursion. -/
theorem flaws_eq_nil_iff : g.analyze.flaws = [] ↔
    g.defines g.root = true ∧ (∀ rule ∈ g.rules, g.undefinedReferences rule = []) ∧
      g.unreachableRules = [] ∧ (∀ rule ∈ g.rules, emptyLoops g.nullableRules rule = []) ∧
      g.leftCycles g.nullableRules = [] := by
  rw [analyze]
  split
  · rename_i hroot
    simp [hroot]
  · rename_i hroot
    simp [hroot]

theorem nullable_analyze (hclean : g.analyze.flaws = []) :
    g.analyze.nullable = sortedNames g.nullableRules := by
  rw [analyze, if_pos (flaws_eq_nil_iff.mp hclean).1]

/-- After a self-check without flaws every pattern of the rules is harmless. -/
theorem harmless_of_mem (hg : g.Assembled) (hclean : g.analyze.flaws = []) {rule : Rule}
    (hrule : rule ∈ g.rules) {p : Pattern} (hp : p ∈ rule.body.subpatterns) :
    g.Harmless g.nullableRules p := by
  obtain ⟨-, hreferences, -, hloops, -⟩ := flaws_eq_nil_iff.mp hclean
  have hexamined : p ∈ rule.body.examined :=
    Pattern.mem_examined hp (hg.shared rule hrule p hp)
  have hreference := List.filterMap_eq_nil_iff.mp (hreferences rule hrule) p hexamined
  have hloop := List.filterMap_eq_nil_iff.mp (hloops rule hrule) p hexamined
  cases p with
  | star site body => simpa [Harmless] using hloop
  | plus site body => simpa [Harmless] using hloop
  | repeatUntil site stop body => simpa [Harmless] using hloop
  | rule name => exact absurd hp (hg.unplaced rule hrule name)
  | ref site name =>
      have hname : g.defines name = true := by simpa using hreference
      exact ⟨hname, hg.linked rule hrule site name hp hname⟩
  | _ => trivial

end Grammar

end CartLua
