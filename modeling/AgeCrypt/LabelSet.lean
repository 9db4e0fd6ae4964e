/-!
# Label sets

The labels that a recipient attaches to its stanzas. A set lists its labels in the order of their characters,
each once, so that equal sets are equal lists.
-/

namespace AgeCrypt

structure LabelSet where
  labels : List String
  sorted : labels.Pairwise (· < ·)
deriving DecidableEq

namespace LabelSet

def empty : LabelSet := ⟨[], .nil⟩

/-- Puts a label into its place in a sorted list. -/
def place (s : String) : List String → List String
  | [] => [s]
  | t :: ts => if s < t then s :: t :: ts else if s = t then t :: ts else t :: place s ts

theorem mem_place {s t : String} {l : List String} : t ∈ place s l ↔ t = s ∨ t ∈ l := by
  induction l with
  | nil => simp [place]
  | cons u us ih =>
    simp only [place]
    split
    · simp
    · split
      · rename_i same
        subst same
        simp
      · simp only [List.mem_cons, ih]
        exact or_left_comm

theorem place_sorted (s : String) {l : List String} (sorted : l.Pairwise (· < ·)) :
    (place s l).Pairwise (· < ·) := by
  induction l with
  | nil => simp [place]
  | cons t ts ih =>
    obtain ⟨first, rest⟩ := List.pairwise_cons.1 sorted
    simp only [place]
    split
    · rename_i lt
      refine List.pairwise_cons.2 ⟨?_, sorted⟩
      intro u mem
      rcases List.mem_cons.1 mem with rfl | mem
      · exact lt
      · exact String.lt_trans lt (first u mem)
    · split
      · exact sorted
      · rename_i notLess differ
        have less : t < s := by
          rcases Decidable.em (t < s) with yes | no
          · exact yes
          · exact absurd (String.le_antisymm (String.not_lt.1 no) (String.not_lt.1 notLess)) differ
        refine List.pairwise_cons.2 ⟨?_, ih rest⟩
        intro u mem
        rcases mem_place.1 mem with rfl | mem
        · exact less
        · exact first u mem

def insert (s : String) (set : LabelSet) : LabelSet := ⟨place s set.labels, place_sorted s set.sorted⟩

def ofList (l : List String) : LabelSet := l.foldr insert empty

/-- The labels of a set with commas between them. -/
def text (set : LabelSet) : String := ", ".intercalate set.labels

theorem mem_ofList {s : String} {l : List String} : s ∈ (ofList l).labels ↔ s ∈ l := by
  induction l with
  | nil => simp [ofList, empty]
  | cons t ts ih => simp [ofList, insert, mem_place, ← ih]

end LabelSet

end AgeCrypt
