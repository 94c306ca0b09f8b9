import CartLua.Proofs.Sorting
import CartLua.Proofs.Suggestion.WordDistance

/-!
# The nearest keywords

Which keywords are suggested for a misspelt word is said by a ranking of the whole list: those that
are close enough, by their distance and then by their place.  The suggestions are the head of the
ranking.
-/

namespace CartLua.Suggestion

/-- Whether keywords, each with its place in the list, are those close to a word, nearest first, and
at one distance in the order of their places. -/
structure Ranks (word : List Char) (keywords : List String) (ranking : List (String × Nat)) :
    Prop where
  perm : ranking.Perm (keywords.zipIdx.filter fun entry =>
    editDistance word entry.1.toList ≤ 2 ∧ editDistance word entry.1.toList < entry.1.length)
  ordered : ranking.Pairwise fun a b =>
    editDistance word a.1.toList < editDistance word b.1.toList ∨
      editDistance word a.1.toList = editDistance word b.1.toList ∧ a.2 < b.2

/-- The places of a list rise. -/
theorem pairwise_zipIdx (keywords : List String) :
    keywords.zipIdx.Pairwise fun a b => a.2 < b.2 := by
  have hplaces : (keywords.zipIdx.map Prod.snd).Pairwise (· < ·) := by
    rw [List.zipIdx_map_snd]
    exact List.pairwise_lt_range'
  exact List.pairwise_map.mp hplaces

/-- The keywords close to a word, each with its place in the list. -/
def closeEntries (word : List Char) (keywords : List String) : List (String × Nat) :=
  keywords.zipIdx.filter fun entry => isClose (editDistance word entry.1.toList) entry.1.toList

theorem closeKeywords_eq (word : List Char) (keywords : List String) :
    closeKeywords word keywords = (closeEntries word keywords).map fun entry =>
      (editDistance word entry.1.toList, entry.1) := by
  have hmeasured : keywords.map (fun keyword => (editDistance word keyword.toList, keyword)) =
      (keywords.zipIdx.map Prod.fst).map fun keyword =>
        (editDistance word keyword.toList, keyword) := by
    rw [List.zipIdx_map_fst]
  rw [closeKeywords, hmeasured, List.map_map, List.filter_map]
  rfl

/-- The close keywords in the order of their distances. -/
def rankedEntries (word : List Char) (keywords : List String) : List (String × Nat) :=
  sortBy (fun a b => editDistance word a.1.toList ≤ editDistance word b.1.toList)
    (closeEntries word keywords)

theorem ranks_rankedEntries (word : List Char) (keywords : List String) :
    Ranks word keywords (rankedEntries word keywords) := by
  constructor
  · have hclose : closeEntries word keywords = keywords.zipIdx.filter fun entry =>
        editDistance word entry.1.toList ≤ 2 ∧ editDistance word entry.1.toList < entry.1.length :=
      List.filter_congr fun entry _ => by rw [isClose, String.length_toList, Bool.decide_and]
    rw [← hclose]
    exact sortBy_perm _ _
  · exact pairwise_sortBy_of_pairwise (List.Pairwise.filter _ (pairwise_zipIdx keywords))

theorem nearestKeywords_eq (word : String) (keywords : List String) :
    nearestKeywords word keywords =
      if Text.lower word.toList = [] ∨ String.ofList (Text.lower word.toList) ∈ keywords then []
      else ((rankedEntries (Text.lower word.toList) keywords).take 3).map Prod.fst := by
  rw [nearestKeywords, closeKeywords_eq, sortBy_map, ← List.map_take, List.map_map]
  simp [rankedEntries, Function.comp_def]

/-- The distance of two words is the least number of single-character changes between them, which
makes it a metric, and the suggestions for a word are the first three of a ranking of the keywords
close to its lower-case form, unless that is empty or a keyword itself. -/
theorem suggestions_are_nearest :
    (∀ word other : List Char,
      IsLeast {count | Script count word other} (editDistance word other)) ∧
    (∀ word other : List Char, editDistance word other = editDistance other word) ∧
    (∀ word other : List Char, editDistance word other = 0 ↔ word = other) ∧
    (∀ word between other : List Char,
      editDistance word other ≤ editDistance word between + editDistance between other) ∧
    ∀ (word : String) (keywords : List String), ∃ ranking,
      Ranks (Text.lower word.toList) keywords ranking ∧
        nearestKeywords word keywords =
          if Text.lower word.toList = [] ∨ String.ofList (Text.lower word.toList) ∈ keywords then []
          else (ranking.take 3).map Prod.fst :=
  ⟨isLeast_editDistance, editDistance_comm, editDistance_eq_zero_iff, editDistance_triangle,
    fun word keywords => ⟨_, ranks_rankedEntries _ keywords, nearestKeywords_eq word keywords⟩⟩

end CartLua.Suggestion
