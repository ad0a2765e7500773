/-!
# Runs of symbols

An operator is the longest run of symbol characters, with two refinements.  The run stops in front
of anything that opens a comment or a text block, and it gives back the characters `+ - ~ ! $` at
its end, so that `x<-1` reads as `x < -1`; it never gives back its first character.

Main statement: `SymbolRun.scan_eq_append`, the operator and the rest make up the input.
-/

namespace JsonnetSyntax.SymbolRun

/-- The characters that operators are made of. -/
def isSymbol (c : Char) : Bool :=
  ['!', '$', ':', '~', '+', '-', '&', '|', '^', '=', '<', '>', '*', '/', '%', '#'].contains c

/-- The characters that an operator does not end in, unless it has no other. -/
def isGivenBack (c : Char) : Bool := ['+', '-', '~', '!', '$'].contains c

/-- Whether a comment or a text block opens at the front of a text. -/
def opensOther : List Char → Bool
  | '/' :: '/' :: _ => true
  | '/' :: '*' :: _ => true
  | '#' :: _ => true
  | '|' :: '|' :: '|' :: _ => true
  | _ => false

/-- The run of symbols at the front of a text, in reverse, behind the run `seen`. -/
def reverseRun (seen : List Char) : List Char → List Char
  | [] => seen
  | c :: text =>
    if isSymbol c && !opensOther (c :: text) then reverseRun (c :: seen) text else seen

/-- What follows the first character of an operator. -/
def tail (text : List Char) : List Char := ((reverseRun [] text).dropWhile isGivenBack).reverse

/-- The operator that starts with `first`, followed by `text`, and the rest. -/
def scan (first : Char) (text : List Char) : List Char × List Char :=
  (first :: tail text, text.drop (tail text).length)

/-- A run, which is collected in reverse, is a front of the text together with what was seen before
it. -/
theorem reverseRun_isPrefix (seen text : List Char) :
    (reverseRun seen text).reverse <+: seen.reverse ++ text := by
  fun_induction reverseRun seen text with
  | case1 seen => simp
  | case2 seen c text _ ih => simpa using ih
  | case3 seen c text _ => exact List.prefix_append _ _

/-- What an operator takes after its first character is a front of the text. -/
theorem tail_isPrefix (text : List Char) : tail text <+: text := by
  -- What is given back stands at the end of the run, which is the front of the collected
  -- characters.
  have suffix : (reverseRun [] text).dropWhile isGivenBack <:+ reverseRun [] text :=
    List.dropWhile_suffix _
  have run : (reverseRun [] text).reverse <+: text := by simpa using reverseRun_isPrefix [] text
  exact (List.reverse_prefix.mpr suffix).trans run

/-- An operator and the rest make up the input. -/
theorem scan_eq_append (first : Char) (text : List Char) :
    (scan first text).1 ++ (scan first text).2 = first :: text := by
  simp [scan, List.prefix_iff_eq_append.mp (tail_isPrefix text)]

end JsonnetSyntax.SymbolRun
