import JsonnetSyntax.Token.Basic

/-!
# Token streams

A `TokenStream` is what is left to read: the tokens ahead, and behind them the token that marks
the end of the file.  Reading takes tokens off the front and never gets past the end mark, which is
why every stream that reading leads to is a `TokenStream.IsRestOf` the first one.

What reading goes through need not be the stream alone.  A `TokenSource` is a state that holds a
stream, beside whatever else is kept account of while tokens are read.
-/

namespace JsonnetSyntax

/-- The tokens ahead, and the token that marks the end of the file. -/
structure TokenStream where
  ahead : List Token
  eof : Token
deriving DecidableEq, Repr

namespace TokenStream

/-- The end mark for tokens that have none: it stands at the end of the last token. -/
def missingEnd (tokens : List Token) : Token :=
  { kind := .endOfFile
    data := ""
    span :=
      match tokens.getLast? with
      | some last => .point last.span.file last.span.stop
      | none => .unset "" }

/-- The stream of the tokens in front of the first end mark. -/
def ofTokens (tokens : List Token) : TokenStream where
  ahead := tokens.takeWhile fun t => t.kind != .endOfFile
  eof := (tokens.find? fun t => t.kind == .endOfFile).getD (missingEnd tokens)

/-- The next token. -/
def next (s : TokenStream) : Token :=
  match s.ahead with
  | [] => s.eof
  | t :: _ => t

/-- The stream behind the next token; the end mark stays. -/
def skip (s : TokenStream) : TokenStream := ⟨s.ahead.drop 1, s.eof⟩

/-- The stream `later` is what some reading leaves of `earlier`. -/
structure IsRestOf (later earlier : TokenStream) : Prop where
  ahead : later.ahead <:+ earlier.ahead
  eof : later.eof = earlier.eof

namespace IsRestOf

/-- A stream is what reading nothing leaves of it. -/
theorem refl (s : TokenStream) : s.IsRestOf s := ⟨List.suffix_refl _, rfl⟩

/-- Reading on from a rest leaves a rest of the first stream. -/
theorem trans {a b c : TokenStream} (hab : a.IsRestOf b) (hbc : b.IsRestOf c) : a.IsRestOf c :=
  ⟨hab.ahead.trans hbc.ahead, hab.eof.trans hbc.eof⟩

/-- Reading leaves no more tokens than there were. -/
theorem length_le {a b : TokenStream} (h : a.IsRestOf b) : a.ahead.length ≤ b.ahead.length :=
  h.ahead.length_le

end IsRestOf

/-- Skipping a token leaves a rest of the stream. -/
theorem skip_isRestOf (s : TokenStream) : s.skip.IsRestOf s := ⟨List.drop_suffix _ _, rfl⟩

/-- The stream behind its first token is a rest of it. -/
theorem tail_isRestOf (t : Token) (ahead : List Token) (eof : Token) :
    IsRestOf ⟨ahead, eof⟩ ⟨t :: ahead, eof⟩ := ⟨List.suffix_cons _ _, rfl⟩

end TokenStream

/-- States with tokens to be read.  Taking a token changes the stream of a state in the same way,
    whatever else the state holds. -/
class TokenSource (S : Type) where
  /-- What is left to read. -/
  stream : S → TokenStream
  /-- The state behind the next token. -/
  skip : S → S
  stream_skip : ∀ s, stream (skip s) = (stream s).skip

/-- A stream alone is the smallest such state. -/
instance : TokenSource TokenStream where
  stream s := s
  skip := TokenStream.skip
  stream_skip _ := rfl

end JsonnetSyntax
