import JsonnetSyntax.Fault

/-!
# Interrupted reading

The scanners of the lexer take a text as a list of characters and give back what they took off its
front together with the rest.  One that cannot go on gives an `Interruption`.
-/

namespace JsonnetSyntax

/-- A fault, and the text between the start of the faulty lexeme and the place the fault is reported
    at. -/
structure Interruption where
  fault : LexicalFault
  read : List Char := []
deriving DecidableEq, Repr

end JsonnetSyntax
