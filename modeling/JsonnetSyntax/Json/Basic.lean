import JsonnetSyntax.Decimal.Format

/-!
# JSON values

Values in which the fields of an object keep their order and a number is held by its literal.
-/

namespace JsonnetSyntax

/-- A JSON value. -/
inductive Json where
  | null
  | bool (value : Bool)
  | number (literal : String)
  | string (value : String)
  | array (items : List Json)
  | object (fields : List (String × Json))

namespace Json

/-- Numbers are written without an exponent when their leading digit stands for `10 ^ -5` up to
    `10 ^ 15`. -/
def floatFormat : FloatFormat := ⟨-5, 15⟩

/-- A natural number. -/
def ofNat (n : Nat) : Json := number (toString n)

/-- A binary64 value; the infinities and no number are written as null. -/
def ofFloat (x : Float) : Json := (floatFormat.render? x).elim null number

/-- A value that may be absent, which is written as null. -/
def ofOption {α : Type} (f : α → Json) (value : Option α) : Json := value.elim null f

/-- An array of strings. -/
def ofStrings (items : List String) : Json := array (items.map string)

end Json

end JsonnetSyntax
