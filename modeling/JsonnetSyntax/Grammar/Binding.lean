import JsonnetSyntax.Grammar.Items

/-!
# Bindings

A binding gives a name to an expression, or to a function if the name has parameters.  It stands in
`local` expressions and in objects; a name can be bound only once in each of them.
-/

namespace JsonnetSyntax.Rule

variable {S : Type} [TokenSource S]

/-- Reads a binding of a name that is not `taken`. -/
def binding (full : Rule S Expr) (taken : String → Bool) : Rule S (Binding Expr) := do
  let name ← expect .identifier
  if taken name.data then fail (.duplicateLocal name.data) name.span
  else
    let parameters ← optionalParameters full .functionParameter
    let _ ← expectOperator "="
    return ⟨name.data, ← full, parameters⟩

/-- Appends a binding whose name is not bound yet. -/
def pushBinding (full : Rule S Expr) (seen : Array (Binding Expr)) :
    Rule S (Array (Binding Expr)) :=
  return seen.push (← binding full fun name => seen.any fun b => b.name == name)

/-- Reads one or more bindings with commas between them. -/
def bindings (full : Rule S Expr) : Rule S (List (Binding Expr)) := do
  let first ← pushBinding full #[]
  let all ← whileNext comma? (fun _ _ seen => pushBinding full seen) first
  return all.toList

end JsonnetSyntax.Rule
