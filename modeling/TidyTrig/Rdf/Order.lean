import TidyTrig.Rdf.Term
import TidyTrig.Text.Utf8

/-!
# The canonical order of statements

Statements are compared by graph, subject, predicate and object in turn, the default graph before
every named one, and terms by the bytes of their canonical forms. The kind of a term is never
asked for. `sort` keeps duplicates and the order of statements that compare equal.
-/

namespace TidyTrig

/-- Byte strings compare at their first difference; what goes on is the greater. -/
def Bytes.compare (a b : Bytes) : Ordering :=
  a.compareLex (fun x y => compareOfLessAndEq x y) b

/-- Terms compare as the bytes of their canonical forms. -/
def Term.compare (a b : Term) : Ordering :=
  Bytes.compare (Utf8.encode a.canonical) (Utf8.encode b.canonical)

namespace Statement

/-- The default graph comes before all named graphs. -/
def compareGraphs : Option Term → Option Term → Ordering
  | none, none => .eq
  | none, some _ => .lt
  | some _, none => .gt
  | some a, some b => a.compare b

/-- The canonical order. -/
def compare (a b : Statement) : Ordering :=
  (compareGraphs a.graph b.graph).then <|
    (a.subject.compare b.subject).then <|
      (a.predicate.compare b.predicate).then (a.object.compare b.object)

/-- Puts statements into canonical order. -/
def sort (statements : List Statement) : List Statement :=
  statements.mergeSort fun a b => (a.compare b).isLE

end Statement
end TidyTrig
