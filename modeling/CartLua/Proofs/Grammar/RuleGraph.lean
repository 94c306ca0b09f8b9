import Mathlib.Data.List.Chain
import Mathlib.Data.List.Nodup
import Mathlib.Logic.Relation
import CartLua.Grammar.Combinators
import CartLua.Proofs.Grammar.Assembly

/-!
# What the self-check finds

The self-check follows two graphs over the rules of a grammar: which rule refers to which,
and which rule may enter which before it has taken anything.  It says of a rule that it is
out of reach just when no chain of references leads there, it speaks of left recursion just
when the second graph has a cycle, and every cycle that it prints is one, told once for the
rules around it.  The rules that can match nothing are the least ones that the equations of
the bodies allow, in whatever order they were defined.
-/

namespace CartLua

open Relation

namespace Grammar

/-! ## The two graphs -/

/-- Whether a rule refers to a name. -/
def Refers (g : Grammar) (user used : String) : Prop :=
  ∃ rule ∈ g.rules, rule.name = user ∧ ∃ site, .ref site used ∈ rule.body.subpatterns

/-- Whether a rule may enter another rule before it has taken anything. -/
def Enters (g : Grammar) (caller callee : String) : Prop :=
  ∃ rule ∈ g.rules, rule.name = caller ∧
    callee ∈ rule.body.firstCalls g.nullableRules ∧ callee ∈ g.ruleNames

/-- Whether a grammar is put together as grammars are: no two rules have one name, no rule is
placed in a body directly, and a site stands for one pattern of a body. -/
structure Coherent (g : Grammar) : Prop where
  names : g.ruleNames.Nodup
  unplaced : ∀ rule ∈ g.rules, ∀ name, .rule name ∉ rule.body.subpatterns
  shared : ∀ rule ∈ g.rules, ∀ p ∈ rule.body.subpatterns, ∀ q ∈ rule.body.subpatterns,
    q.site = p.site → p.site ≠ none → q = p

/-- A definition is refused when its name is taken. -/
theorem Builds.nodup_ruleNames {g : Grammar} {made : List Pattern} (h : Builds g made) :
    g.ruleNames.Nodup := by
  induction h with
  | empty => exact List.nodup_nil
  | refer _ name ih => exact ih
  | place _ p new parts ih => exact ih
  | @define g g' made _ rule body free ih =>
      rw [define?] at free
      split at free
      · cases free
      · rename_i hfree
        cases free
        have hnew : rule.name ∉ g.ruleNames := fun hname => hfree (defines_iff g |>.mpr hname)
        rw [ruleNames, List.map_append]
        exact List.nodup_append.mpr ⟨ih, List.nodup_singleton _, by
          rintro name hname _ hrule rfl
          exact hnew (List.mem_singleton.mp hrule ▸ hname)⟩
  | link _ ih => exact ih

/-- A grammar made step by step is coherent. -/
theorem Builds.coherent {g : Grammar} {made : List Pattern} (h : Builds g made) : g.Coherent where
  names := h.nodup_ruleNames
  unplaced rule hrule _ hname := h.tidy.placed rule.body (h.body_mem rule hrule) _ hname
  shared rule hrule p hp q hq hsite hsome :=
    h.tidy.shared rule.body (h.body_mem rule hrule) rule.body (h.body_mem rule hrule) q hq p hp
      hsite hsome

variable {g : Grammar}

/-- A name stands for the one rule that has it. -/
theorem rule?_eq_some_iff (hnames : g.ruleNames.Nodup) {name : String} {rule : Rule} :
    g.rule? name = some rule ↔ rule ∈ g.rules ∧ rule.name = name := by
  rw [rule?_eq_find?]
  constructor
  · intro hfound
    exact ⟨List.mem_of_find?_eq_some hfound, by simpa using List.find?_some hfound⟩
  · rintro ⟨hrule, rfl⟩
    have hfound : (g.rules.find? fun other => other.name == rule.name).isSome = true :=
      List.find?_isSome.mpr ⟨rule, hrule, by simp⟩
    obtain ⟨other, hother⟩ := Option.isSome_iff_exists.mp hfound
    have hname : other.name = rule.name := by simpa using List.find?_some hother
    rw [hother, List.inj_on_of_nodup_map hnames (List.mem_of_find?_eq_some hother) hrule hname]

/-- The names that a rule mentions are those that it refers to. -/
theorem mem_mentionsOf_iff (hg : g.Coherent) {user used : String} :
    used ∈ g.mentionsOf user ↔ g.Refers user used := by
  rw [mentionsOf]
  cases hfound : g.rule? user with
  | none =>
      refine ⟨fun h => absurd h List.not_mem_nil, ?_⟩
      rintro ⟨rule, hrule, hname, -⟩
      rw [(rule?_eq_some_iff hg.names).mpr ⟨hrule, hname⟩] at hfound
      cases hfound
  | some rule =>
      obtain ⟨hrule, hname⟩ := (rule?_eq_some_iff hg.names).mp hfound
      unfold Pattern.mentions
      rw [List.mem_filterMap]
      constructor
      · rintro ⟨p, hp, hmentions⟩
        have hp := Pattern.mem_of_mem_firstUses hp
        split at hmentions
        · exact absurd hp (hg.unplaced rule hrule _)
        · cases hmentions
          exact ⟨rule, hrule, hname, _, hp⟩
        · cases hmentions
      · rintro ⟨other, hother, hsame, site, hp⟩
        obtain rfl : other = rule :=
          List.inj_on_of_nodup_map hg.names hother hrule (hsame.trans hname.symm)
        exact ⟨_, Pattern.mem_examined hp (hg.shared other hother _ hp), rfl⟩

/-- The left calls of a rule are the rules that it may enter first. -/
theorem mem_leftCalls_iff (hnames : g.ruleNames.Nodup) {caller callee : String} :
    callee ∈ g.leftCalls g.nullableRules caller ↔ g.Enters caller callee := by
  rw [leftCalls]
  cases hfound : g.rule? caller with
  | none =>
      refine ⟨fun h => absurd h List.not_mem_nil, ?_⟩
      rintro ⟨rule, hrule, hname, -⟩
      rw [(rule?_eq_some_iff hnames).mpr ⟨hrule, hname⟩] at hfound
      cases hfound
  | some rule =>
      obtain ⟨hrule, hname⟩ := (rule?_eq_some_iff hnames).mp hfound
      rw [mem_sortedNames, List.mem_filter, defines_iff]
      constructor
      · rintro ⟨hcall, hdefined⟩
        exact ⟨rule, hrule, hname, hcall, hdefined⟩
      · rintro ⟨other, hother, hsame, hcall, hdefined⟩
        obtain rfl : other = rule :=
          List.inj_on_of_nodup_map hnames hother hrule (hsame.trans hname.symm)
        exact ⟨hcall, hdefined⟩

/-! ## The rules in reach -/

/-- What holds of the pending names and is handed on along `next` holds of all names that
are gathered. -/
theorem of_mem_gather {next : String → List String} {P : String → Prop}
    (hnext : ∀ name, P name → ∀ callee ∈ next name, P callee) (steps : Nat)
    {remaining pending : List String} (hpending : ∀ name ∈ pending, P name) :
    ∀ name ∈ gather next steps remaining pending, P name := by
  induction steps generalizing remaining pending with
  | zero => exact fun _ h => absurd h List.not_mem_nil
  | succ steps ih =>
      rw [gather]
      have hleft : ∀ name ∈ pending.filter remaining.contains, P name :=
        fun name hname => hpending name (List.mem_filter.mp hname).1
      cases hfilter : pending.filter remaining.contains with
      | nil => exact fun _ h => absurd h List.not_mem_nil
      | cons first rest =>
          rw [hfilter] at hleft
          have hfirst : P first := hleft first List.mem_cons_self
          intro name hname
          rcases List.mem_cons.mp hname with rfl | hname
          · exact hfirst
          · refine ih (fun other hother => ?_) name hname
            rcases List.mem_append.mp hother with hother | hother
            · exact hnext first hfirst other hother
            · exact hleft other (List.mem_cons_of_mem _ hother)

/-- With as many steps as names remain, all the pending ones among them are gathered, and
all those that gathered ones lead to. -/
theorem gather_closed (next : String → List String) {steps : Nat} {remaining pending : List String}
    (hsteps : remaining.length ≤ steps) (hnodup : remaining.Nodup) :
    (∀ name ∈ pending, name ∈ remaining → name ∈ gather next steps remaining pending) ∧
      ∀ name ∈ gather next steps remaining pending, ∀ callee ∈ next name,
        callee ∈ remaining → callee ∈ gather next steps remaining pending := by
  induction steps generalizing remaining pending with
  | zero =>
      obtain rfl := List.length_eq_zero_iff.mp (Nat.le_zero.mp hsteps)
      exact ⟨fun _ _ h => absurd h List.not_mem_nil, fun _ h => absurd h List.not_mem_nil⟩
  | succ steps ih =>
      rw [gather]
      have hmem : ∀ name ∈ pending, name ∈ remaining →
          name ∈ pending.filter remaining.contains :=
        fun name hname hremains => List.mem_filter.mpr ⟨hname, List.contains_iff_mem.mpr hremains⟩
      cases hfilter : pending.filter remaining.contains with
      | nil =>
          rw [hfilter] at hmem
          exact ⟨fun name hname hremains => hmem name hname hremains,
            fun _ h => absurd h List.not_mem_nil⟩
      | cons first rest =>
          rw [hfilter] at hmem
          have hfirst : first ∈ remaining := by
            have hleft : first ∈ pending.filter remaining.contains :=
              hfilter ▸ List.mem_cons_self
            exact List.contains_iff_mem.mp (List.mem_filter.mp hleft).2
          have hlength : (remaining.erase first).length ≤ steps := by
            rw [List.length_erase_of_mem hfirst]
            omega
          have hgathered : (∀ name ∈ next first ++ rest, name ∈ remaining.erase first →
              name ∈ gather next steps (remaining.erase first) (next first ++ rest)) ∧ _ :=
            ih hlength (hnodup.erase first)
          obtain ⟨hpending, hclosed⟩ := hgathered
          -- A name other than the first one still remains for the later steps.
          have hlater : ∀ name ∈ next first ++ rest, name ∈ remaining →
              name ∈ first :: gather next steps (remaining.erase first) (next first ++ rest) := by
            intro name hname hremains
            by_cases hsame : name = first
            · exact hsame ▸ List.mem_cons_self
            · exact List.mem_cons_of_mem _
                (hpending name hname ((List.mem_erase_of_ne hsame).mpr hremains))
          constructor
          · intro name hname hremains
            rcases List.mem_cons.mp (hmem name hname hremains) with rfl | hrest
            · exact List.mem_cons_self
            · exact hlater name (List.mem_append_right _ hrest) hremains
          · intro name hname callee hcallee hremains
            rcases List.mem_cons.mp hname with rfl | hname
            · exact hlater callee (List.mem_append_left _ hcallee) hremains
            · by_cases hsame : callee = first
              · exact hsame ▸ List.mem_cons_self
              · exact List.mem_cons_of_mem _ (hclosed name hname callee hcallee
                  ((List.mem_erase_of_ne hsame).mpr hremains))

/-- The rules in reach are those that chains of references lead to from the root. -/
theorem mem_reachable_iff (hg : g.Coherent) {name : String} (hname : name ∈ g.ruleNames) :
    name ∈ g.reachable ↔ ReflTransGen g.Refers g.root name := by
  have hlength : g.ruleNames.length ≤ g.rules.length := by simp [ruleNames]
  have hgathered : (∀ name ∈ [g.root], name ∈ g.ruleNames → name ∈ g.reachable) ∧ _ :=
    gather_closed g.mentionsOf hlength hg.names
  obtain ⟨hstart, hclosed⟩ := hgathered
  constructor
  · refine of_mem_gather (P := ReflTransGen g.Refers g.root) (fun user huser used hused => ?_)
      g.rules.length (fun other hother => ?_) name
    · exact huser.tail ((mem_mentionsOf_iff hg).mp hused)
    · cases List.mem_singleton.mp hother
      exact .refl
  · intro hreach
    -- Every rule on the way is defined, since it refers to the next one.
    induction hreach with
    | refl => exact hstart g.root List.mem_cons_self hname
    | @tail user used _ hrefers ih =>
        obtain ⟨rule, hrule, rfl, -⟩ := id hrefers
        exact hclosed _ (ih (List.mem_map_of_mem hrule)) used
          ((mem_mentionsOf_iff hg).mpr hrefers) hname

/-! ## The cycles -/

variable {next : String → List String}

/-- Lists without repetition hold the same names just when the check says so. -/
theorem sameNames_iff {a b : List String} (ha : a.Nodup) (hb : b.Nodup) :
    sameNames a b = true ↔ ∀ name, name ∈ a ↔ name ∈ b := by
  rw [sameNames, Bool.and_eq_true, beq_iff_eq, List.all_eq_true]
  constructor
  · rintro ⟨hlength, hall⟩
    have hsubset : a ⊆ b := fun name hname => List.contains_iff_mem.mp (hall name hname)
    have hperm : a.Perm b :=
      (List.subperm_of_subset ha hsubset).perm_of_length_le (Nat.le_of_eq hlength.symm)
    exact fun name => hperm.mem_iff
  · intro hmem
    have hperm : a.Perm b := (List.perm_ext_iff_of_nodup ha hb).mpr hmem
    exact ⟨hperm.length_eq, fun name hname => List.contains_iff_mem.mpr ((hmem name).mp hname)⟩

/-- Whether a name and the names after it are a cycle along `next` that repeats no name. -/
structure IsCycle (next : String → List String) (first : String) (rest : List String) : Prop where
  nodup : (first :: rest).Nodup
  chain : List.IsChain (fun a b => b ∈ next a) (first :: rest ++ [first])

/-- The part of a path from the last visit of a name is a cycle when the path leads to that
name again. -/
theorem isCycle_of_path {path : List String} {name : String} (hnodup : path.Nodup)
    (hchain : List.IsChain (fun a b => a ∈ next b) (name :: path)) (hname : name ∈ path) :
    IsCycle next name (path.takeWhile (· != name)).reverse := by
  obtain ⟨inner, earlier, hsplit, houtside⟩ := List.eq_append_cons_of_mem hname
  have htaken : path.takeWhile (· != name) = inner := by
    have hall : ∀ other ∈ inner, (other != name) = true := by
      intro other hother
      simpa using fun heq : other = name => houtside (heq ▸ hother)
    rw [hsplit, List.takeWhile_append_of_pos hall]
    simp
  have hprefix : inner ++ [name] <+: path := ⟨earlier, by simp [hsplit]⟩
  rw [htaken]
  constructor
  · have hreverse : name :: inner.reverse = (inner ++ [name]).reverse := by simp
    rw [hreverse]
    exact List.nodup_reverse.mpr (hnodup.sublist hprefix.sublist)
  · have hreverse : name :: inner.reverse ++ [name] = (name :: inner ++ [name]).reverse := by simp
    rw [hreverse, List.isChain_reverse]
    exact hchain.prefix (List.cons_prefix_cons.mpr ⟨rfl, hprefix⟩)

/-- What holds of the cycles found by a search: each is one, and no two of them go around the
same names. -/
structure CycleSearch.Genuine (next : String → List String) (search : CycleSearch) : Prop where
  cycle : ∀ c ∈ search.found, IsCycle next c.1 c.2
  distinct : search.found.Pairwise fun a b => ¬∀ name, name ∈ a.1 :: a.2 ↔ name ∈ b.1 :: b.2

namespace CycleSearch.Genuine

variable {search : CycleSearch}

/-- Names that are finished have no part in it. -/
theorem finish (h : search.Genuine next) (names : List String) :
    CycleSearch.Genuine next { search with finished := names } := ⟨h.cycle, h.distinct⟩

/-- A cycle that is added is another one than those before. -/
theorem add (h : search.Genuine next) {first : String} {rest : List String}
    (hcycle : IsCycle next first rest) : (search.add first rest).Genuine next := by
  rw [CycleSearch.add]
  split
  · exact h
  · rename_i hnew
    rw [Bool.not_eq_true, List.any_eq_false] at hnew
    refine ⟨fun c hc => ?_, List.pairwise_cons.mpr ⟨fun c hc hsame => ?_, h.distinct⟩⟩
    · rcases List.mem_cons.mp hc with rfl | hc
      · exact hcycle
      · exact h.cycle c hc
    · exact hnew c hc ((sameNames_iff (h.cycle c hc).nodup hcycle.nodup).mpr
        fun name => (hsame name).symm)

theorem foldl {step : CycleSearch → String → CycleSearch} {names : List String}
    (hstep : ∀ search, ∀ name ∈ names, search.Genuine next → (step search name).Genuine next)
    (h : search.Genuine next) : (names.foldl step search).Genuine next := by
  induction names generalizing search with
  | nil => exact h
  | cons name names ih =>
      exact ih (fun search other hother => hstep search other (List.mem_cons_of_mem _ hother))
        (hstep search name List.mem_cons_self h)

/-- A visit along a path that repeats no name only finds cycles. -/
theorem visit (h : search.Genuine next) (steps : Nat) {path : List String} {name : String}
    (hnodup : path.Nodup) (hchain : List.IsChain (fun a b => a ∈ next b) (name :: path)) :
    (visit next steps path name search).Genuine next := by
  induction steps generalizing path name search with
  | zero => exact h
  | succ steps ih =>
      rw [Grammar.visit]
      split
      · exact h
      · split
        · rename_i hagain
          exact h.add (isCycle_of_path hnodup hchain (List.contains_iff_mem.mp hagain))
        · rename_i hfresh
          have hpath : (name :: path).Nodup :=
            List.nodup_cons.mpr ⟨fun hmem => hfresh (List.contains_iff_mem.mpr hmem), hnodup⟩
          apply finish
          apply foldl (fun search callee hcallee h => ?_) h
          exact ih h hpath (List.isChain_cons_cons.mpr ⟨hcallee, hchain⟩)

end CycleSearch.Genuine

/-- A chain that comes back to where it began leads from there to there. -/
theorem IsCycle.transGen {first : String} {rest : List String} (h : IsCycle next first rest) :
    TransGen (fun a b => b ∈ next a) first first := by
  have hleads : ∀ (names : List String) (start : String),
      List.IsChain (fun a b => b ∈ next a) (start :: names ++ [first]) →
        TransGen (fun a b => b ∈ next a) start first := by
    intro names
    induction names with
    | nil => exact fun start hchain => .single (List.isChain_cons_cons.mp hchain).1
    | cons name names ih =>
        intro start hchain
        obtain ⟨hstep, hchain⟩ := List.isChain_cons_cons.mp hchain
        exact .head hstep (ih name hchain)
  exact hleads rest first h.chain

/-- In a row in which every name only leads to later ones, nothing leads out of the row. -/
theorem Layered.mem_of_leads {order : List String} (h : Layered next order) {a b : String}
    (ha : a ∈ order) (hleads : ReflTransGen (fun a b => b ∈ next a) a b) : b ∈ order := by
  have hclosed : ∀ a ∈ order, ∀ b ∈ next a, b ∈ order := by
    clear ha hleads
    induction order with
    | nil => exact fun _ h => absurd h List.not_mem_nil
    | cons first later ih =>
        intro a ha b hb
        rcases List.mem_cons.mp ha with rfl | ha
        · exact List.mem_cons_of_mem _ (h.1 b hb)
        · exact List.mem_cons_of_mem _ (ih h.2 a ha b hb)
  induction hleads with
  | refl => exact ha
  | tail _ hstep ih => exact hclosed _ ih _ hstep

/-- In such a row no name leads to itself. -/
theorem Layered.not_transGen {order : List String} (h : Layered next order) {name : String}
    (hname : name ∈ order) : ¬TransGen (fun a b => b ∈ next a) name name := by
  induction order with
  | nil => cases hname
  | cons first later ih =>
      intro hcycle
      rcases List.mem_cons.mp hname with rfl | hname
      · obtain ⟨callee, hcallee, hleads⟩ := TransGen.head'_iff.mp hcycle
        exact ih h.2 (h.2.mem_of_leads (h.1 callee hcallee) hleads) hcycle
      · exact ih h.2 hname hcycle

/-- The cycles told are cycles, about different names, and there is one if the graph has
one. -/
theorem leftCycles_exact (known : List String) :
    (∀ c ∈ g.leftCycles known, IsCycle (g.leftCalls known) c.1 c.2) ∧
      ((g.leftCycles known).Pairwise fun a b =>
        ¬∀ name, name ∈ a.1 :: a.2 ↔ name ∈ b.1 :: b.2) ∧
      (g.leftCycles known ≠ [] ↔
        ∃ name, TransGen (fun a b => b ∈ g.leftCalls known a) name name) := by
  have hgenuine : CycleSearch.Genuine (g.leftCalls known)
      (g.ruleNames.foldl
        (fun search name => visit (g.leftCalls known) (g.rules.length + 1) [] name search)
        { finished := [], found := [] }) :=
    .foldl (fun search name _ h => h.visit _ List.nodup_nil (List.isChain_singleton _))
      ⟨fun _ h => absurd h List.not_mem_nil, List.Pairwise.nil⟩
  have hcycles : ∀ c ∈ g.leftCycles known, IsCycle (g.leftCalls known) c.1 c.2 :=
    fun c hc => hgenuine.cycle c (List.mem_reverse.mp hc)
  refine ⟨hcycles, ?_, ?_, ?_⟩
  · rw [leftCycles, List.pairwise_reverse]
    exact hgenuine.distinct.imp fun hdistinct hsame => hdistinct fun name => (hsame name).symm
  · intro hfound
    obtain ⟨c, hc⟩ := List.exists_mem_of_ne_nil _ hfound
    exact ⟨c.1, (hcycles c hc).transGen⟩
  · rintro ⟨name, hcycle⟩ hnone
    obtain ⟨order, hlayered, hdefined⟩ := g.exists_layered hnone
    obtain ⟨callee, hcallee, -⟩ := TransGen.head'_iff.mp hcycle
    have hname : g.defines name = true := by
      rw [leftCalls] at hcallee
      rw [defines]
      cases hfound : g.rule? name with
      | none =>
          rw [hfound] at hcallee
          cases hcallee
      | some rule => rfl
    exact hlayered.not_transGen (hdefined name hname) hcycle

/-! ## The rules that can match nothing -/

/-- Whether some names are closed under the equations of the bodies: a rule whose body can
match nothing, when the rules of these names can, is one of them. -/
def NullableClosed (g : Grammar) (names : List String) : Prop :=
  ∀ rule ∈ g.rules, rule.body.nullable names = true → rule.name ∈ names

/-- Only what names are in a list matters to the equations. -/
theorem NullableClosed.congr {names others : List String} (h : g.NullableClosed names)
    (hmem : ∀ name, name ∈ names ↔ name ∈ others) : g.NullableClosed others := by
  intro rule hrule hbody
  apply (hmem _).mp
  apply h rule hrule
  apply Pattern.nullable_mono _ rule.body hbody
  intro name hname
  exact List.contains_iff_mem.mpr ((hmem name).mpr (List.contains_iff_mem.mp hname))

theorem nullableClosed_nullableRules : g.NullableClosed g.nullableRules :=
  fun _ hrule hbody => g.mem_nullableRules hrule hbody

/-- Every round stays inside what is closed. -/
theorem NullableClosed.nullableAfter_subset {names : List String} (h : g.NullableClosed names)
    (rounds : Nat) : g.nullableAfter rounds ⊆ names := by
  induction rounds with
  | zero => exact List.nil_subset _
  | succ rounds ih =>
      intro name hname
      rw [nullableAfter, nullableRound, List.mem_map] at hname
      obtain ⟨rule, hrule, rfl⟩ := hname
      obtain ⟨hrule, hbody⟩ := List.mem_filter.mp hrule
      apply h rule hrule
      apply Pattern.nullable_mono _ rule.body hbody
      intro name hname
      exact List.contains_iff_mem.mpr (ih (List.contains_iff_mem.mp hname))

/-- Another order of definition makes no other rules nullable. -/
theorem mem_nullableRules_iff_of_perm {g' : Grammar} (hperm : g'.rules.Perm g.rules)
    {name : String} : name ∈ g'.nullableRules ↔ name ∈ g.nullableRules := by
  have hclosed : g'.NullableClosed g.nullableRules :=
    fun rule hrule => nullableClosed_nullableRules rule (hperm.mem_iff.mp hrule)
  have hclosed' : g.NullableClosed g'.nullableRules :=
    fun rule hrule => nullableClosed_nullableRules rule (hperm.mem_iff.mpr hrule)
  exact ⟨fun h => hclosed.nullableAfter_subset _ h, fun h => hclosed'.nullableAfter_subset _ h⟩

end Grammar

/-! ## The report -/

/-- The rules around the cycle that a flaw tells of. -/
def Flaw.cycle? : Flaw → Option (List String)
  | leftRecursion first rest => some (first :: rest)
  | _ => none

theorem Flaw.cycle?_eq_none {flaw : Flaw} (hcode : flaw.defect.code ≠ "G004") :
    flaw.cycle? = none := by
  cases flaw with
  | leftRecursion first rest => exact absurd rfl hcode
  | _ => rfl

/-- What a report says of a grammar with a root when it says nothing wrong about the two
graphs and the rules that can match nothing, and leaves nothing out. -/
structure GrammarReport.Exact (g : Grammar) (report : GrammarReport) : Prop where
  /-- G002 is told of the rules to which no chain of references leads from the root. -/
  unreachable : ∀ name,
    (∃ defect ∈ report.defects, defect.code = "G002" ∧ defect.rule = name) ↔
      name ∈ g.ruleNames ∧ ¬ReflTransGen g.Refers g.root name
  /-- G004 is told just when a rule may come back to itself before it has taken anything. -/
  leftRecursive :
    (∃ defect ∈ report.defects, defect.code = "G004") ↔ ∃ name, TransGen g.Enters name name
  /-- The path printed is a cycle. -/
  cyclic : ∀ defect ∈ report.defects, defect.code = "G004" → ∃ first rest,
    defect.rule = first ∧
      defect.message = "is left recursive: " ++ " -> ".intercalate (first :: rest ++ [first]) ∧
      (first :: rest).Nodup ∧ List.IsChain g.Enters (first :: rest ++ [first])
  /-- No two cycles go around the same rules. -/
  distinct : (report.flaws.filterMap Flaw.cycle?).Pairwise fun a b =>
    ¬∀ name, name ∈ a ↔ name ∈ b
  nullable_closed : g.NullableClosed report.nullable
  nullable_least : ∀ names, g.NullableClosed names → report.nullable ⊆ names

namespace Grammar

variable {g : Grammar} {flaw : Flaw}

theorem flaws_analyze (hroot : g.defines g.root = true) : g.analyze.flaws =
    g.rules.flatMap g.undefinedReferences ++ g.unreachableRules ++
      g.rules.flatMap (emptyLoops g.nullableRules) ++
      (g.leftCycles g.nullableRules).map fun cycle => .leftRecursion cycle.1 cycle.2 := by
  rw [analyze, if_pos hroot]

theorem code_of_mem_undefinedReferences {rule : Rule} (h : flaw ∈ g.undefinedReferences rule) :
    flaw.defect.code = "G001" := by
  unfold undefinedReferences at h
  obtain ⟨p, -, hflaw⟩ := List.mem_filterMap.mp h
  split at hflaw
  · split at hflaw <;> cases hflaw
    rfl
  · cases hflaw

theorem code_of_mem_emptyLoops {known : List String} {rule : Rule}
    (h : flaw ∈ emptyLoops known rule) : flaw.defect.code = "G003" := by
  unfold emptyLoops at h
  obtain ⟨p, -, hflaw⟩ := List.mem_filterMap.mp h
  split at hflaw
  · split at hflaw <;> cases hflaw
    rfl
  · split at hflaw <;> cases hflaw
    rfl
  · split at hflaw <;> cases hflaw
    rfl
  · cases hflaw

/-- The rules out of reach are the defined ones that are not in it. -/
theorem mem_unreachableRules_iff :
    flaw ∈ g.unreachableRules ↔
      ∃ name ∈ g.ruleNames, name ∉ g.reachable ∧ flaw = .unreachable name g.root := by
  simp only [unreachableRules, List.mem_map, List.mem_filter, Bool.not_eq_true',
    ← Bool.not_eq_true, List.contains_iff_mem]
  constructor
  · rintro ⟨name, ⟨hname, hout⟩, rfl⟩
    exact ⟨name, hname, hout, rfl⟩
  · rintro ⟨name, hname, hout, rfl⟩
    exact ⟨name, ⟨hname, hout⟩, rfl⟩

/-- The code of a flaw says which part of the check found it. -/
theorem mem_flaws_cases (hroot : g.defines g.root = true) (hflaw : flaw ∈ g.analyze.flaws) :
    flaw.defect.code = "G001" ∨
      (flaw.defect.code = "G002" ∧ flaw ∈ g.unreachableRules) ∨
      flaw.defect.code = "G003" ∨
      (flaw.defect.code = "G004" ∧
        ∃ c ∈ g.leftCycles g.nullableRules, flaw = .leftRecursion c.1 c.2) := by
  rw [flaws_analyze hroot] at hflaw
  rcases List.mem_append.mp hflaw with hflaw | hcycle
  · rcases List.mem_append.mp hflaw with hflaw | hloop
    · rcases List.mem_append.mp hflaw with hreference | hunreachable
      · obtain ⟨rule, -, hflaw⟩ := List.mem_flatMap.mp hreference
        exact .inl (code_of_mem_undefinedReferences hflaw)
      · obtain ⟨name, -, -, rfl⟩ := mem_unreachableRules_iff.mp hunreachable
        exact .inr (.inl ⟨rfl, hunreachable⟩)
    · obtain ⟨rule, -, hflaw⟩ := List.mem_flatMap.mp hloop
      exact .inr (.inr (.inl (code_of_mem_emptyLoops hflaw)))
  · obtain ⟨c, hc, rfl⟩ := List.mem_map.mp hcycle
    exact .inr (.inr (.inr ⟨rfl, c, hc, rfl⟩))

theorem mem_unreachableRules_of_code (hroot : g.defines g.root = true)
    (hflaw : flaw ∈ g.analyze.flaws) (hcode : flaw.defect.code = "G002") :
    flaw ∈ g.unreachableRules := by
  rcases mem_flaws_cases hroot hflaw with h | ⟨-, h⟩ | h | ⟨h, -⟩
  · exact absurd (h.symm.trans hcode) (by decide)
  · exact h
  · exact absurd (h.symm.trans hcode) (by decide)
  · exact absurd (h.symm.trans hcode) (by decide)

theorem exists_cycle_of_code (hroot : g.defines g.root = true)
    (hflaw : flaw ∈ g.analyze.flaws) (hcode : flaw.defect.code = "G004") :
    ∃ c ∈ g.leftCycles g.nullableRules, flaw = .leftRecursion c.1 c.2 := by
  rcases mem_flaws_cases hroot hflaw with h | ⟨h, -⟩ | h | ⟨-, h⟩
  · exact absurd (h.symm.trans hcode) (by decide)
  · exact absurd (h.symm.trans hcode) (by decide)
  · exact absurd (h.symm.trans hcode) (by decide)
  · exact h

/-- The cycles that a report tells of are those found. -/
theorem filterMap_cycle?_flaws (hroot : g.defines g.root = true) :
    g.analyze.flaws.filterMap Flaw.cycle? =
      (g.leftCycles g.nullableRules).map fun c => c.1 :: c.2 := by
  have hnone : ∀ {flaws : List Flaw}, (∀ flaw ∈ flaws, flaw.defect.code ≠ "G004") →
      flaws.filterMap Flaw.cycle? = [] :=
    fun h => List.filterMap_eq_nil_iff.mpr fun flaw hflaw => Flaw.cycle?_eq_none (h flaw hflaw)
  have hreferences : (g.rules.flatMap g.undefinedReferences).filterMap Flaw.cycle? = [] := by
    apply hnone
    intro flaw hflaw
    obtain ⟨rule, -, hflaw⟩ := List.mem_flatMap.mp hflaw
    rw [code_of_mem_undefinedReferences hflaw]
    decide
  have hunreachable : g.unreachableRules.filterMap Flaw.cycle? = [] := by
    apply hnone
    intro flaw hflaw
    obtain ⟨name, -, -, rfl⟩ := mem_unreachableRules_iff.mp hflaw
    simp [Flaw.defect]
  have hloops : (g.rules.flatMap (emptyLoops g.nullableRules)).filterMap Flaw.cycle? = [] := by
    apply hnone
    intro flaw hflaw
    obtain ⟨rule, -, hflaw⟩ := List.mem_flatMap.mp hflaw
    rw [code_of_mem_emptyLoops hflaw]
    decide
  rw [flaws_analyze hroot, List.filterMap_append, List.filterMap_append, List.filterMap_append,
    hreferences, hunreachable, hloops, List.filterMap_map]
  exact congrFun List.filterMap_eq_map _

theorem nullable_analyze_of_root (hroot : g.defines g.root = true) :
    g.analyze.nullable = sortedNames g.nullableRules := by
  rw [analyze, if_pos hroot]

/-- The edges that the search for cycles follows are those of the graph. -/
theorem leftCalls_eq_enters (hnames : g.ruleNames.Nodup) :
    (fun a b => b ∈ g.leftCalls g.nullableRules a) = g.Enters :=
  funext fun _ => funext fun _ => propext (mem_leftCalls_iff hnames)

end Grammar

namespace Grammar

variable {g : Grammar}

/-- G002 is told of the rules to which no chain of references leads. -/
theorem exists_unreachable_iff (hg : g.Coherent) (hroot : g.defines g.root = true) (name : String) :
    (∃ defect ∈ g.analyze.defects, defect.code = "G002" ∧ defect.rule = name) ↔
      name ∈ g.ruleNames ∧ ¬ReflTransGen g.Refers g.root name := by
  constructor
  · rintro ⟨defect, hdefect, hcode, rfl⟩
    obtain ⟨flaw, hflaw, rfl⟩ := List.mem_map.mp hdefect
    obtain ⟨name, hname, hout, rfl⟩ :=
      mem_unreachableRules_iff.mp (mem_unreachableRules_of_code hroot hflaw hcode)
    exact ⟨hname, fun hreach => hout ((mem_reachable_iff hg hname).mpr hreach)⟩
  · rintro ⟨hname, hout⟩
    have hflaw : .unreachable name g.root ∈ g.unreachableRules :=
      mem_unreachableRules_iff.mpr
        ⟨name, hname, fun hreach => hout ((mem_reachable_iff hg hname).mp hreach), rfl⟩
    refine ⟨(Flaw.unreachable name g.root).defect, List.mem_map_of_mem ?_, rfl, rfl⟩
    rw [flaws_analyze hroot]
    exact List.mem_append_left _ (List.mem_append_left _ (List.mem_append_right _ hflaw))

/-- G004 is told just when a cycle was found. -/
theorem exists_leftRecursive_iff (hroot : g.defines g.root = true) :
    (∃ defect ∈ g.analyze.defects, defect.code = "G004") ↔ g.leftCycles g.nullableRules ≠ [] := by
  constructor
  · rintro ⟨defect, hdefect, hcode⟩
    obtain ⟨flaw, hflaw, rfl⟩ := List.mem_map.mp hdefect
    obtain ⟨c, hc, -⟩ := exists_cycle_of_code hroot hflaw hcode
    exact List.ne_nil_of_mem hc
  · intro hfound
    obtain ⟨c, hc⟩ := List.exists_mem_of_ne_nil _ hfound
    refine ⟨(Flaw.leftRecursion c.1 c.2).defect, List.mem_map_of_mem ?_, rfl⟩
    rw [flaws_analyze hroot]
    exact List.mem_append_right _ (List.mem_map_of_mem hc)

end Grammar

/-- The self-check of a grammar with a root, whose rules mention each other by references
only, is exact: G002 is told of the rules out of reach, G004 just when there is left
recursion, and then of genuine cycles around different rules, and the rules that can match
nothing are the least ones that the equations allow, in whatever order they are defined. -/
theorem self_check_is_exact {g : Grammar} (hg : g.Coherent) (hroot : g.defines g.root = true) :
    g.analyze.Exact g ∧
      ∀ g' : Grammar, g'.root = g.root → g'.rules.Perm g.rules →
        ∀ name, name ∈ g'.analyze.nullable ↔ name ∈ g.analyze.nullable := by
  obtain ⟨hcycles, hdistinct, hexists⟩ := g.leftCycles_exact g.nullableRules
  rw [Grammar.leftCalls_eq_enters hg.names] at hexists
  have hnullable : ∀ name, name ∈ g.analyze.nullable ↔ name ∈ g.nullableRules := by
    rw [Grammar.nullable_analyze_of_root hroot]
    exact fun _ => mem_sortedNames
  refine ⟨{
    unreachable := Grammar.exists_unreachable_iff hg hroot
    leftRecursive := (Grammar.exists_leftRecursive_iff hroot).trans hexists
    cyclic := fun defect hdefect hcode => ?_
    distinct := ?_
    nullable_closed := Grammar.nullableClosed_nullableRules.congr fun name => (hnullable name).symm
    nullable_least := fun names hnames name hname =>
      hnames.nullableAfter_subset _ ((hnullable name).mp hname) }, ?_⟩
  · obtain ⟨flaw, hflaw, rfl⟩ := List.mem_map.mp hdefect
    obtain ⟨c, hc, rfl⟩ := Grammar.exists_cycle_of_code hroot hflaw hcode
    have hchain := (hcycles c hc).chain
    rw [Grammar.leftCalls_eq_enters hg.names] at hchain
    exact ⟨c.1, c.2, rfl, rfl, (hcycles c hc).nodup, hchain⟩
  · rw [Grammar.filterMap_cycle?_flaws hroot, List.pairwise_map]
    exact hdistinct
  · intro g' hsame hperm name
    have hroot' : g'.defines g'.root = true := by
      rw [Grammar.defines_iff] at hroot ⊢
      rw [hsame]
      exact (hperm.map Rule.name).mem_iff.mpr hroot
    rw [hnullable, Grammar.nullable_analyze_of_root hroot', mem_sortedNames]
    exact Grammar.mem_nullableRules_iff_of_perm hperm

namespace Grammar

/-- A grammar with a rule of sums that begins with itself, and a rule that is not used. -/
def sums : Grammar :=
  ofRules "sums" "root" []
    [{ name := "root", body := .ref none "sum" },
      { name := "sum"
        body := .choice [.seq [.ref none "sum", .text "+", .text "1"], .text "1"] },
      { name := "orphan", body := .text "b" }]

theorem coherent_sums : sums.Coherent := by
  have hsite : ∀ rule ∈ sums.rules, ∀ p ∈ rule.body.subpatterns,
      p.site = none ∧ ∀ name, p ≠ .rule name := by
    intro rule hrule p hp
    simp only [sums, rules_ofRules, List.mem_cons, List.not_mem_nil, or_false] at hrule
    rcases hrule with rfl | rfl | rfl
    all_goals
      simp only [Pattern.text, Pattern.subpatterns, Pattern.subpatternsOfAll, List.nil_append,
        List.cons_append, List.mem_cons, List.not_mem_nil, or_false] at hp
      rcases hp with rfl | rfl | rfl | rfl | rfl | rfl <;> simp [Pattern.site]
  exact {
    names := by decide
    unplaced := fun rule hrule name hname => (hsite rule hrule _ hname).2 name rfl
    shared := fun rule hrule p hp _ _ _ hsome => absurd (hsite rule hrule p hp).1 hsome }

end Grammar

/-- The self-check tells of the left recursion of the sums. -/
theorem self_check_is_exact_sums :
    Grammar.sums.Coherent ∧ Grammar.sums.defines Grammar.sums.root = true ∧
      ∃ defect ∈ Grammar.sums.analyze.defects, defect.code = "G004" := by
  have hroot : Grammar.sums.defines Grammar.sums.root = true := by
    rw [Grammar.defines_iff]
    decide
  have hcycle : TransGen Grammar.sums.Enters "sum" "sum" :=
    .single ⟨_, .tail _ (.head _), rfl, by decide, by decide⟩
  exact ⟨Grammar.coherent_sums, hroot,
    (self_check_is_exact Grammar.coherent_sums hroot).1.leftRecursive.mpr ⟨"sum", hcycle⟩⟩

end CartLua
