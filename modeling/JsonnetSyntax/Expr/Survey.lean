import JsonnetSyntax.Expr.Basic

/-!
# Surveys of trees

A `Survey` sums up a tree: how many nodes it has, of which constructs, how deep it is and which node
is the first one that deep.
-/

namespace JsonnetSyntax

/-- What is known of the nodes seen so far. -/
structure Survey where
  nodes : Nat
  maxDepth : Nat
  /-- The first node at `maxDepth`. -/
  deepest : Expr
  /-- How often each construct occurs, in the order in which they first do. -/
  counts : List (String × Nat)

namespace Survey

/-- Counts one more occurrence of `name`. -/
def count (name : String) : List (String × Nat) → List (String × Nat)
  | [] => [(name, 1)]
  | (other, n) :: rest =>
    if other = name then (other, n + 1) :: rest else (other, n) :: count name rest

/-- Takes a further node into account. -/
def add (survey : Survey) (entry : Nat × Expr) : Survey :=
  let deeper := decide (survey.maxDepth < entry.1)
  { nodes := survey.nodes + 1
    maxDepth := if deeper then entry.1 else survey.maxDepth
    deepest := if deeper then entry.2 else survey.deepest
    counts := count entry.2.name survey.counts }

/-- The survey of a whole tree. -/
def ofExpr (root : Expr) : Survey := root.preorder.foldl add ⟨0, 0, root, []⟩

end Survey

end JsonnetSyntax
