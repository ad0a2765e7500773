/-!
# Quoted strings

A quoted string ends at the first quote that no backslash protects.  A backslash protects the
character after it, whatever it is; escapes are not interpreted.

Main statement: `Quoted.scan_eq_append`, the content, the quote and the rest make up the input.
-/

namespace JsonnetSyntax.Quoted

/-- Reads up to the closing quote, behind the content `seen`, kept in reverse. -/
def scanFrom (quote : Char) (seen : List Char) : List Char → Option (List Char × List Char)
  | [] => none
  -- Whatever stands behind a backslash is taken with it, a quote included.
  | '\x5c' :: c :: text => scanFrom quote (c :: '\x5c' :: seen) text
  | c :: text => if c = quote then some (seen.reverse, text) else scanFrom quote (c :: seen) text

/-- The content of the string whose opening quote stands in front of `text`, and what follows its
    closing quote; nothing if the string is never closed. -/
def scan (quote : Char) (text : List Char) : Option (List Char × List Char) :=
  scanFrom quote [] text

/-- What a string has taken so far goes in front of what is left to read. -/
theorem scanFrom_eq_append {quote : Char} {seen text content rest : List Char}
    (h : scanFrom quote seen text = some (content, rest)) :
    content ++ quote :: rest = seen.reverse ++ text := by
  fun_induction scanFrom quote seen text with
  | case1 => cases h
  | case2 seen c text ih => simpa using ih h
  | case3 seen text _ => cases h; rfl
  | case4 seen c text _ _ ih => simpa using ih h

/-- The content of a quoted string, its closing quote and the rest make up the input. -/
theorem scan_eq_append {quote : Char} {text content rest : List Char}
    (h : scan quote text = some (content, rest)) : content ++ quote :: rest = text := by
  simpa using scanFrom_eq_append h

end JsonnetSyntax.Quoted
