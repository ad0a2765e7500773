import Mathlib.Data.List.Induction
import JsonnetSyntax.Lexical.Scanner

/-!
# Steps of a scanner

While a scanner reads a lexeme, its state is given by three texts: what stands in front of the
lexeme, what was taken of it and what is left.  `Spot.scanner` is the state for these texts, and
every operation of a scanner takes such a state to another one: none of them can crash there, except
that a step back needs a step that was not taken back.  So this module has one lemma for each
operation, and one for each way a round of a loop can end.

## Key results

- `Mark.position_behind`: the position that a cursor computes is the position behind the text in
  front
- `Spot.run_advance_cons`, `Spot.run_stepBack`, `Spot.run_peek`, `Spot.run_skip`: moving the cursor
- `Scan.run_iterate_next`, `Scan.run_iterate_done`, `Scan.run_iterate_stop`: rounds of a loop
- `Spot.run_readWhile`: reading the longest run of characters
- `Spot.run_emitWith`, `Spot.run_addComment`: making tokens and comments
-/

namespace JsonnetSyntax

/-! ## Marks and cursors -/

namespace Mark

/-- The place behind a text. -/
def behind (text : List Char) : Mark := text.foldl step {}

/-- One more character is one more step. -/
theorem behind_concat (text : List Char) (c : Char) :
    behind (text ++ [c]) = (behind text).step c := by
  rw [behind, List.foldl_append]
  rfl

/-- A place stands behind its text, and not in front of its line. -/
theorem offset_behind (text : List Char) :
    (behind text).offset = text.length ∧ (behind text).lineStart ≤ text.length := by
  induction text using List.reverseRecOn with
  | nil => exact ⟨rfl, Nat.le_refl 0⟩
  | append_singleton text c ih =>
    -- The place moves by one character, and its line starts there or stays.
    rw [behind_concat, step, List.length_append, List.length_singleton]
    split
    · -- Behind a line feed, the line starts at the place itself.
      exact ⟨by rw [ih.1], Nat.succ_le_succ (Nat.le_of_eq ih.1)⟩
    · exact ⟨by rw [ih.1], Nat.le_succ_of_le ih.2⟩

/-- The position of a place is the position behind its text. -/
theorem position_behind (text : List Char) : (behind text).position = .after .origin text := by
  induction text using List.reverseRecOn with
  | nil => rfl
  | append_singleton text c ih =>
    have hstart := offset_behind text
    rw [behind_concat, Position.after_append, ← ih, Position.after_cons, Position.after_nil]
    by_cases hc : c = '\n'
    · simp [step, position, Position.advance, hc]
    · simp only [step, position, Position.advance, if_neg hc, hstart.1]
      -- The subtraction does not go below zero, so one more character is one more column.
      have hcolumn : text.length + 1 - (behind text).lineStart =
          text.length - (behind text).lineStart + 1 := by
        omega
      rw [hcolumn]

end Mark

namespace Cursor

variable {before rest : List Char} {slot : Option Mark} {c : Char}

/-- The cursor between two parts of a text. -/
def between (before rest : List Char) (slot : Option Mark) : Cursor :=
  { text := (before ++ rest).toArray, current := .behind before, previous := slot }

/-- A step reads the next character and marks where it started. -/
theorem advance_between_cons :
    (between before (c :: rest) slot).advance =
      (some c, between (before ++ [c]) rest (some (.behind before))) := by
  simp [advance, between, (Mark.offset_behind before).1, Mark.behind_concat]

/-- A step at the end of a text reads nothing, but can be taken back. -/
theorem advance_between_nil :
    (between before [] slot).advance = (none, between before [] (some (.behind before))) := by
  simp [advance, between, (Mark.offset_behind before).1]

/-- What is left of a cursor is the second of its two texts. -/
theorem rest_between : (between before rest slot).rest = rest := by
  simp [Cursor.rest, between, (Mark.offset_behind before).1]

/-- The slice between the lengths of two fronts is what stands between them. -/
theorem slice_between {front mid back : List Char} (h : before ++ rest = front ++ (mid ++ back)) :
    (between before rest slot).slice front.length (front ++ mid).length = .ok mid := by
  -- The two ends of the slice lie in the text, and in the right order.
  have hlength :
      front.length ≤ (front ++ mid).length ∧ (front ++ mid).length ≤ (before ++ rest).length := by
    rw [h]
    simp
  rw [slice, if_pos (by simpa [between] using hlength)]
  simp [between, h, ← List.append_assoc]

end Cursor

/-! ## Sequences and loops -/

namespace Scan

variable {α β σ : Type} {s after : Scanner}

/-- A sequence goes on behind what is done. -/
theorem run_bind_of_ok {x : Scan α} {f : α → Scan β} {value : α}
    (h : x.run s = .ok (value, after)) :
    (x >>= f).run s = (f value).run after := by
  rw [StateT.run_bind, h]
  rfl

/-- A sequence halts where its first part does. -/
theorem run_bind_of_error {x : Scan α} {f : α → Scan β} {halt : Halt} (h : x.run s = .error halt) :
    (x >>= f).run s = .error halt := by
  rw [StateT.run_bind, h]
  rfl

/-- A step moves the cursor only. -/
theorem run_advance (s : Scanner) :
    advance.run s = .ok (s.cursor.advance.1, { s with cursor := s.cursor.advance.2 }) := rfl

/-- A step back moves the cursor only. -/
theorem run_stepBack_of_ok {cursor : Cursor} (h : s.cursor.stepBack = .ok cursor) :
    stepBack.run s = .ok ((), { s with cursor }) := by
  show (ofCursor s.cursor.stepBack >>= fun cursor => modify fun s => { s with cursor }).run s = _
  rw [h]
  rfl

/-- A subtraction that stays above zero does not crash. -/
theorem run_sub {a b : Nat} (h : b ≤ a) : (sub a b).run s = .ok (a - b, s) := by
  rw [sub, if_pos h]
  rfl

variable {round : σ → Scan (σ ⊕ α)} {state next : σ}

/-- A round that goes on and reads something is followed by the other rounds. -/
theorem run_iterate_next (h : (round state).run s = .ok (.inl next, after))
    (hless : remaining after < remaining s) :
    (iterate round state).run s = (iterate round next).run after := by
  show runIterate round state s = runIterate round next after
  rw [runIterate, h]
  exact if_pos hless

/-- A round that is done ends the loop. -/
theorem run_iterate_done {result : α} (h : (round state).run s = .ok (.inr result, after)) :
    (iterate round state).run s = .ok (result, after) := by
  show runIterate round state s = _
  rw [runIterate, h]

/-- A round that halts halts the loop. -/
theorem run_iterate_stop {halt : Halt} (h : (round state).run s = .error halt) :
    (iterate round state).run s = .error halt := by
  show runIterate round state s = _
  rw [runIterate, h]

end Scan

/-! ## Spots -/

/-- A place between two lexemes: the text in front of it, and what was assembled from that text. -/
structure Spot where
  file : String
  assembly : Assembly
  before : List Char
  position_eq : assembly.position = .after .origin before

namespace Spot

/-- The place in front of the whole text. -/
def origin (file : String) : Spot := ⟨file, {}, [], rfl⟩

/-- The position behind a piece is the position behind its text. -/
theorem position_add (p : Spot) (piece : Piece) :
    (p.assembly.add p.file piece).position = .after .origin (p.before ++ piece.text.toList) := by
  rw [Position.after_append, ← p.position_eq]
  cases piece with
  | fodder element => rfl
  | lexeme content block => rfl

/-- The place behind a piece. -/
def add (p : Spot) (piece : Piece) : Spot where
  file := p.file
  assembly := p.assembly.add p.file piece
  before := p.before ++ piece.text.toList
  position_eq := p.position_add piece

/-- The place behind the part `taken` of the lexeme that starts at a spot. -/
def mark (p : Spot) (taken : List Char) : Mark := .behind (p.before ++ taken)

/-- The scanner that has read the part `taken` of the lexeme that starts at a spot, and has `rest`
    left. -/
def scanner (p : Spot) (taken rest : List Char) (slot : Option Mark) : Scanner where
  file := p.file
  cursor := .between (p.before ++ taken) rest slot
  tokens := p.assembly.tokens
  fodder := p.assembly.fodder
  start := p.before.length
  startPosition := p.assembly.position

/-- The fault that an interruption of the lexeme at a spot is. -/
def fault (p : Spot) (interruption : Interruption) : Halt :=
  .fault ⟨.lexical interruption.fault, .point p.file (p.assembly.position.after interruption.read)⟩

variable {p : Spot} {taken rest : List Char} {slot : Option Mark} {c : Char}

/-- What remains of a scanner is what is left of its text. -/
theorem remaining_scanner : Scan.remaining (p.scanner taken rest slot) = rest.length := by
  -- The text in front and the text that is left make up the text of the cursor.
  simp [Scan.remaining, scanner, Cursor.between, (Mark.offset_behind _).1]
  omega

/-! ## Moving the cursor -/

open Scan

/-- A step takes the next character, and can be taken back. -/
theorem run_advance_cons :
    advance.run (p.scanner taken (c :: rest) slot) =
      .ok (some c, p.scanner (taken ++ [c]) rest (some (p.mark taken))) := by
  rw [run_advance, scanner, Cursor.advance_between_cons, List.append_assoc]
  rfl

/-- A step at the end of the text takes nothing, and can be taken back. -/
theorem run_advance_nil :
    advance.run (p.scanner taken [] slot) =
      .ok (none, p.scanner taken [] (some (p.mark taken))) := by
  rw [run_advance, scanner, Cursor.advance_between_nil]
  rfl

/-- A step back leads to the place of the mark, and cannot be followed by another one. -/
theorem run_stepBack {front back : List Char} (h : front ++ back = taken ++ rest) :
    stepBack.run (p.scanner taken rest (some (p.mark front))) =
      .ok ((), p.scanner front back none) := by
  have hcursor : (p.scanner taken rest (some (p.mark front))).cursor.stepBack =
      .ok (.between (p.before ++ front) back none) := by
    simp [Cursor.stepBack, scanner, Cursor.between, mark, h]
  rw [run_stepBack_of_ok hcursor]
  rfl

/-- A look ahead takes nothing, and no step can be taken back behind it. -/
theorem run_peek :
    peek.run (p.scanner taken rest slot) = .ok (rest.head?, p.scanner taken rest none) := by
  cases rest with
  | nil =>
    rw [peek, run_bind_of_ok run_advance_nil, run_bind_of_ok (run_stepBack rfl)]
    rfl
  | cons c rest =>
    -- The step back leads to the place in front of the character that was just read.
    have hback : taken ++ c :: rest = taken ++ [c] ++ rest := List.append_cons taken c rest
    rw [peek, run_bind_of_ok run_advance_cons, run_bind_of_ok (run_stepBack hback)]
    rfl

/-- As many characters as a text has are skipped by skipping the text. -/
theorem run_skip (p : Spot) (taken more rest : List Char) (slot : Option Mark) :
    ∃ slot', (skip more.length).run (p.scanner taken (more ++ rest) slot) =
      .ok ((), p.scanner (taken ++ more) rest slot') := by
  -- The induction is on the characters that are skipped; each of them is one step.
  induction more generalizing taken slot with
  | nil => exact ⟨slot, by rw [List.append_nil]; rfl⟩
  | cons c more ih =>
    obtain ⟨slot', hmore⟩ := ih (taken ++ [c]) (some (p.mark taken))
    refine ⟨slot', ?_⟩
    rw [List.length_cons, skip, List.cons_append, run_bind_of_ok run_advance_cons, hmore,
      List.append_assoc]
    rfl

/-- The text that is left can be asked for at any spot. -/
theorem run_rest :
    Scan.rest.run (p.scanner taken rest slot) = .ok (rest, p.scanner taken rest slot) := by
  show Except.ok ((p.scanner taken rest slot).cursor.rest, _) = _
  rw [show (p.scanner taken rest slot).cursor.rest = rest from Cursor.rest_between]

/-- The offset of a scanner is the length of what stands in front of it. -/
theorem run_offset :
    offset.run (p.scanner taken rest slot) =
      .ok ((p.before ++ taken).length, p.scanner taken rest slot) := by
  show Except.ok ((p.mark taken).offset, _) = _
  rw [mark, (Mark.offset_behind _).1]

/-- A slice of the text in front of a scanner is the part between its two ends. -/
theorem run_slice {front mid back : List Char} (h : taken ++ rest = front ++ (mid ++ back)) :
    (slice (p.before ++ front).length (p.before ++ front ++ mid).length).run
      (p.scanner taken rest slot) =
      .ok (mid, p.scanner taken rest slot) := by
  -- The same text is cut in two ways, since the slice lies across the cursor.
  have htext : p.before ++ taken ++ rest = p.before ++ front ++ (mid ++ back) := by simp [h]
  show (ofCursor ((p.scanner taken rest slot).cursor.slice _ _)).run _ = _
  rw [scanner, Cursor.slice_between htext]
  rfl

/-- The place behind a part of the lexeme has a position. -/
theorem run_positionOf {s : Scanner} (front : List Char) :
    (positionOf (p.mark front)).run s = .ok (p.assembly.position.after front, s) := by
  -- No line starts behind the place, so the column can be computed.
  have hmark := Mark.offset_behind (p.before ++ front)
  have hposition := Mark.position_behind (p.before ++ front)
  rw [Position.after_append, ← p.position_eq] at hposition
  rw [positionOf, run_bind_of_ok (run_sub (by rw [mark, hmark.1]; exact hmark.2)), ← hposition]
  rfl

/-- The position of a scanner is that behind what was taken. -/
theorem run_position :
    Scan.position.run (p.scanner taken rest slot) =
      .ok (p.assembly.position.after taken, p.scanner taken rest slot) :=
  run_positionOf taken

/-- The position of the last step is that behind the part in front of it. -/
theorem run_previousPosition {front : List Char} :
    Scan.previousPosition.run (p.scanner taken rest (some (p.mark front))) =
      .ok (p.assembly.position.after front, p.scanner taken rest (some (p.mark front))) :=
  run_positionOf front

/-! ## Runs of characters -/

/-- Reading while `holds` is true takes the longest run, and leaves nothing to step back. -/
theorem run_readWhileFrom {holds : Char → Bool} {seen : List Char} :
    (iterate (readRound holds) seen).run (p.scanner taken rest slot) =
      .ok (seen ++ rest.takeWhile holds,
        p.scanner (taken ++ rest.takeWhile holds) (rest.dropWhile holds) none) := by
  -- The induction is on the text that is left: one round of the loop for each character.
  induction rest generalizing taken seen slot with
  | nil =>
    -- A step at the end of the text can be taken back like any other.
    have hround : (readRound holds seen).run (p.scanner taken [] slot) =
        .ok (.inr seen, p.scanner taken [] none) := by
      rw [readRound, run_bind_of_ok run_advance_nil]
      exact run_bind_of_ok (run_stepBack rfl)
    rw [run_iterate_done hround]
    simp
  | cons c rest ih =>
    by_cases hc : holds c = true
    · have hround : (readRound holds seen).run (p.scanner taken (c :: rest) slot) =
          .ok (.inl (seen ++ [c]), p.scanner (taken ++ [c]) rest (some (p.mark taken))) := by
        rw [readRound, run_bind_of_ok run_advance_cons, Option.filter_some_pos hc]
        rfl
      rw [run_iterate_next hround (by simp [remaining_scanner]), ih]
      simp [hc]
    -- The character ends the run, so the step that read it is taken back.
    · have hround : (readRound holds seen).run (p.scanner taken (c :: rest) slot) =
          .ok (.inr seen, p.scanner taken (c :: rest) none) := by
        rw [readRound, run_bind_of_ok run_advance_cons,
          Option.filter_some_neg (Bool.eq_false_iff.mpr hc)]
        exact run_bind_of_ok (run_stepBack (List.append_cons taken c rest))
      rw [run_iterate_done hround]
      simp [hc]

/-- Reading while `holds` is true takes the longest run of such characters. -/
theorem run_readWhile {holds : Char → Bool} :
    (readWhile holds).run (p.scanner taken rest slot) =
      .ok (rest.takeWhile holds,
        p.scanner (taken ++ rest.takeWhile holds) (rest.dropWhile holds) none) :=
  run_readWhileFrom

/-! ## Tokens and fodder -/

/-- What was taken of a lexeme is the slice from its start to the cursor. -/
theorem run_taken :
    Scan.taken.run (p.scanner taken rest slot) = .ok (taken, p.scanner taken rest slot) := by
  -- The lexeme starts where the scanner started, so nothing stands in front of the slice.
  have htext : taken ++ rest = [] ++ (taken ++ rest) := rfl
  show (offset >>= fun stop => slice p.before.length stop).run (p.scanner taken rest slot) = _
  rw [run_bind_of_ok run_offset]
  simpa using run_slice (p := p) htext

/-- The next lexeme starts where the cursor stands. -/
theorem run_restart {s : Scanner} (h : s.cursor = .between (p.before ++ taken) rest slot) :
    restart.run s =
      .ok ((), { s with
        start := (p.before ++ taken).length
        startPosition := p.assembly.position.after taken }) := by
  have hoffset : offset.run s = .ok ((p.before ++ taken).length, s) := by
    show Except.ok (s.cursor.current.offset, s) = _
    rw [h, ← (Mark.offset_behind _).1]
    rfl
  have hposition : Scan.position.run s = .ok (p.assembly.position.after taken, s) := by
    show (positionOf s.cursor.current).run s = _
    rw [h]
    exact run_positionOf taken
  rw [restart, run_bind_of_ok hoffset, run_bind_of_ok hposition]
  rfl

/-- A token that is written as what was taken is assembled. -/
theorem run_emitWith {content : Lexeme} {block : Option TextBlock}
    (h : (content.sourceText block).toList = taken) :
    (emitWith content block).run (p.scanner taken rest slot) =
      .ok ((), (p.add (.lexeme content block)).scanner [] rest slot) := by
  subst h
  -- The token ends at the cursor, and there the next lexeme starts.
  rw [emitWith, run_bind_of_ok run_position, run_bind_of_ok rfl, run_restart rfl]
  simp [add, scanner, Assembly.add, Assembly.push, Piece.text]

/-- The same for tokens whose data is their text. -/
theorem run_emit {kind : TokenKind} (h : ∀ form, kind ≠ .string form) :
    (emit kind).run (p.scanner taken rest slot) =
      .ok ((), (p.add (.ofLexeme kind taken)).scanner [] rest slot) := by
  rw [emit, run_bind_of_ok run_taken]
  exact run_emitWith (Piece.toList_text_ofLexeme h taken)

/-- A comment that is written as what was taken becomes fodder. -/
theorem run_addComment {kind : FodderKind} :
    (addComment kind).run (p.scanner taken rest slot) =
      .ok ((), (p.add (.ofFodder kind taken)).scanner [] rest slot) := by
  rw [addComment, run_bind_of_ok run_taken, run_bind_of_ok rfl, run_restart rfl]
  simp [add, scanner, Assembly.add, Piece.ofFodder, Piece.text]

end Spot

end JsonnetSyntax
