/-!
# Comments

A comment after `//` or `#` runs up to the end of its line and leaves the line feed.  A comment
after `/*` runs through the next `*/`, which may not overlap the opening.

Main statement: `Comment.scanBlock_eq_append`, the comment and the rest make up the input.
-/

namespace JsonnetSyntax.Comment

/-- Splits a text in front of its first line feed. -/
def scanLine (text : List Char) : List Char × List Char :=
  (text.takeWhile (· != '\n'), text.dropWhile (· != '\n'))

/-- Reads through the next `*/`, behind the text `seen`, kept in reverse. -/
def scanBlockFrom (seen : List Char) : List Char → Option (List Char × List Char)
  | [] => none
  | '*' :: '/' :: text => some (seen.reverse ++ ['*', '/'], text)
  | c :: text => scanBlockFrom (c :: seen) text

/-- What stands between an opening `/*` and the rest, through the closing `*/`; nothing if the
    comment is never closed. -/
def scanBlock (text : List Char) : Option (List Char × List Char) := scanBlockFrom [] text

/-- A line comment and the rest make up the input. -/
theorem scanLine_eq_append (text : List Char) : (scanLine text).1 ++ (scanLine text).2 = text :=
  List.takeWhile_append_dropWhile

/-- What a block comment has taken so far goes in front of what is left to read. -/
theorem scanBlockFrom_eq_append {seen text body rest : List Char}
    (h : scanBlockFrom seen text = some (body, rest)) : body ++ rest = seen.reverse ++ text := by
  fun_induction scanBlockFrom seen text with
  | case1 => cases h
  | case2 seen text => cases h; simp
  | case3 seen c text _ ih => simpa using ih h

/-- A block comment and the rest make up the input. -/
theorem scanBlock_eq_append {text body rest : List Char}
    (h : scanBlock text = some (body, rest)) : body ++ rest = text := by
  simpa using scanBlockFrom_eq_append h

end JsonnetSyntax.Comment
