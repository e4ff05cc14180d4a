/-!
# Order of names

Names are ordered by code point, which is also the order of their UTF-8 bytes.
Sorting is a merge sort, so equal entries keep their places.
-/

namespace IncludeGraph.Text

/-- Sorts names by code point and keeps repetitions. -/
def sortNames (names : List String) : List String :=
  names.mergeSort (fun a b => decide (a ≤ b))

/-- Sorts names by code point and lists each once. -/
def sortDistinct (names : List String) : List String :=
  (sortNames names).eraseReps

/-- The lexicographic order of lists of names: the first difference decides, and a
list comes before the lists that continue it. -/
def listLe : List String → List String → Bool
  | [], _ => true
  | _ :: _, [] => false
  | a :: as, b :: bs => decide (a < b) || (a == b && listLe as bs)

def sortNameLists (lists : List (List String)) : List (List String) :=
  lists.mergeSort listLe

def pairLe (p q : String × String) : Bool :=
  decide (p.1 < q.1) || (p.1 == q.1 && decide (p.2 ≤ q.2))

def sortDistinctPairs (pairs : List (String × String)) : List (String × String) :=
  (pairs.mergeSort pairLe).eraseReps

end IncludeGraph.Text
