/-
GemCourier/Yaml/Scalar.lean

Reading the text of scalars: plain, in quotes, and in blocks.

A scalar can go over several lines.  Between two lines of a plain or a quoted
scalar a single break reads as a space and several read as one less; a block
keeps its breaks or folds them in the same way, except around lines that start
with a blank.
-/
import GemCourier.Yaml.Cursor

namespace GemCourier.Yaml

/-- Some line breaks. -/
def breaks (n : Nat) : List Char := List.replicate n '\n'

/-- Between two pieces of a scalar: the blanks since the last piece and, once a line has
ended, whether its break is kept apart and how many more followed. -/
structure Gap where
  blanks : List Char
  first : Bool
  more : Nat

namespace Gap

/-- No gap. -/
def none : Gap := ⟨[], false, 0⟩

/-- What a gap over a line break reads as. -/
def folded (g : Gap) : List Char :=
  if g.first ∧ g.more = 0 then [' '] else breaks g.more

end Gap

/-! ### Plain scalars -/

/-- The characters with which a plain scalar goes on from here without a gap. -/
def plainRun (inFlow : Bool) : Nat → Cursor → List Char
  | 0, _ => []
  | steps + 1, c =>
    if isGap c.char || !c.plainGoesOn inFlow then []
    else c.char :: plainRun inFlow steps (c.skip 1)

/-- Passes over the blanks and breaks behind a piece of a plain scalar. -/
def plainGap (indent : Int) : Nat → Cursor → Gap → Option (Cursor × Gap)
  | 0, c, g => some (c, g)
  | steps + 1, c, g =>
    if isBlank c.char then
      if !c.fresh then
        plainGap indent steps (c.skipBlanks 1) { g with blanks := g.blanks ++ [c.char] }
      else if (c.column : Int) < indent ∧ c.char = '\t' then
        -- tabs may stand in the indentation of a line only if nothing else does
        match c.passBlanks true with
        | Option.none => Option.none
        | some passed =>
          if isBreakOrEnd passed.cursor.char then plainGap indent steps passed.cursor g
          else Option.none
      else plainGap indent steps (c.skipBlanks 1) g
    else if isBreak c.char then
      if c.fresh then plainGap indent steps c.skipBreak { g with more := g.more + 1 }
      else plainGap indent steps c.skipBreak { g with blanks := [], first := true }
    else some (c, g)

/-- A plain scalar from here on, after some text and a gap.  `indent` is the least column in
which a further line of it can start. -/
def plainFrom (indent : Int) (inFlow : Bool) :
    Nat → Cursor → List Char → Gap → Option (List Char × Cursor)
  | 0, _, _, _ => none
  | steps + 1, c, text, g =>
    if (c.fresh && (c.atDocumentStart || c.atDocumentEnd)) || c.char = '#' then some (text, c)
    else if inFlow ∧ c.char = '-' ∧ isFlow (c.peek 1) then none
    else
      let run := plainRun inFlow c.steps c
      let joint := if run.isEmpty then [] else if c.fresh then g.folded else g.blanks
      let g := if run.isEmpty then g else Gap.none
      let text := text ++ joint ++ run
      let c := if run.isEmpty then c else c.skip run.length
      if !(isBlank c.char || isBreak c.char) then some (text, c)
      else match plainGap indent c.steps c g with
        | Option.none => none
        | some (c, g) =>
          if !inFlow ∧ (c.column : Int) < indent then some (text, c)
          else plainFrom indent inFlow steps c text g

/-- The plain scalar that starts here, and the place behind it. -/
def plainScalar (indent : Int) (inFlow : Bool) (c : Cursor) : Option (String × Cursor) :=
  match plainFrom indent inFlow c.steps c [] Gap.none with
  | some (d :: text, c) => some (String.ofList (d :: text), c)
  | _ => none

/-! ### Quoted scalars -/

/-- What a character behind a backslash stands for. -/
def shortEscape? : Char → Option Char
  | '0' => some '\x00'
  | 'a' => some '\x07'
  | 'b' => some '\x08'
  | 't' => some '\t'
  | '\t' => some '\t'
  | 'n' => some '\n'
  | 'v' => some '\x0b'
  | 'f' => some '\x0c'
  | 'r' => some '\r'
  | 'e' => some '\x1b'
  | ' ' => some ' '
  | '\x22' => some '\x22'
  | '/' => some '/'
  | '\\' => some '\\'
  | 'N' => some '\u0085'
  | '_' => some '\u00a0'
  | 'L' => some '\u2028'
  | 'P' => some '\u2029'
  | _ => none

/-- How many digits follow a character behind a backslash that stands for a code. -/
def codeLength? : Char → Option Nat
  | 'x' => some 2
  | 'u' => some 4
  | 'U' => some 8
  | _ => none

/-- The character an escape stands for, with the place behind it. -/
def escape? (c : Cursor) : Option (Char × Cursor) :=
  match codeLength? (c.peek 1) with
  | some n =>
    let digits := (c.rest.drop 2).take n
    if digits.length < n then none
    else ((hexNumber? digits).bind char?).map fun d => (d, c.skip (2 + n))
  | none => (shortEscape? (c.peek 1)).map fun d => (d, c.skip 2)

/-- A run of a quoted scalar up to a gap or the closing quote, and whether it ended with an
escaped line break. -/
def quotedRun (single : Bool) :
    Nat → Cursor → List Char → Option (List Char × Cursor × Bool)
  | 0, c, text => some (text, c, false)
  | steps + 1, c, text =>
    if isGap c.char then some (text, c, false)
    else if single then
      if c.char = '\x27' then
        if c.peek 1 = '\x27' then quotedRun single steps (c.skip 2) (text ++ ['\x27'])
        else some (text, c, false)
      else quotedRun single steps (c.skip 1) (text ++ [c.char])
    else if c.char = '\x22' then some (text, c, false)
    else if c.char = '\\' then
      if isBreak (c.peek 1) then some (text, (c.skip 1).skipBreak, true)
      else match escape? c with
        | some (d, c) => quotedRun single steps c (text ++ [d])
        | none => none
    else quotedRun single steps (c.skip 1) (text ++ [c.char])

/-- Passes over the blanks and breaks behind a run of a quoted scalar; `broken` says whether
a line has ended since the run. -/
def quotedGap (indent : Int) : Nat → Cursor → Bool → Gap → Option (Cursor × Bool × Gap)
  | 0, c, broken, g => some (c, broken, g)
  | steps + 1, c, broken, g =>
    if isBlank c.char then
      if broken then
        if c.char = '\t' ∧ (c.column : Int) < indent then none
        else quotedGap indent steps (c.skipBlanks 1) broken g
      else quotedGap indent steps (c.skipBlanks 1) broken { g with blanks := g.blanks ++ [c.char] }
    else if isBreak c.char then
      if broken then quotedGap indent steps c.skipBreak broken { g with more := g.more + 1 }
      else quotedGap indent steps c.skipBreak true { g with blanks := [], first := true }
    else some (c, broken, g)

/-- A quoted scalar from behind its opening quote, after some text; the place is that of the
closing quote. -/
def quotedFrom (indent : Int) (single : Bool) :
    Nat → Cursor → List Char → Option (List Char × Cursor)
  | 0, _, _ => none
  | steps + 1, c, text =>
    if c.column = 0 ∧ (c.atDocumentStart || c.atDocumentEnd) then none
    else if c.char = ending then none
    else if (c.column : Int) < indent then none
    else match quotedRun single c.steps c text with
      | none => none
      | some (text, c, broken) =>
        if c.char = (if single then '\x27' else '\x22') then some (text, c)
        else match quotedGap indent c.steps c broken Gap.none with
          | none => none
          | some (c, broken, g) =>
            quotedFrom indent single steps c (text ++ if broken then g.folded else g.blanks)

/-- Whether a character can stand behind a quoted scalar. -/
def mayFollowQuoted (inFlow sameLine : Bool) (d : Char) : Bool :=
  isBreakOrEnd d || (inFlow && (d = ',' || d = '\x7d' || d = ']')) ||
    (d = ':' && (inFlow || sameLine))

/-- The quoted scalar that starts here, and the place behind it. -/
def quotedScalar (indent : Int) (inFlow single : Bool) (c : Cursor) : Option (String × Cursor) :=
  match quotedFrom indent single (c.steps + 1) (c.skip 1) [] with
  | none => none
  | some (text, quote) =>
    match (quote.skip 1).passBlanks true with
    | none => none
    | some passed =>
      if mayFollowQuoted inFlow (c.line = passed.cursor.line) passed.cursor.char then
        some (String.ofList text, passed.cursor)
      else none

/-! ### Block scalars -/

/-- What becomes of the breaks at the end of a block. -/
inductive Chomping where
  | strip | clip | keep
deriving DecidableEq

/-- The chomping a character stands for. -/
def Chomping.ofChar? : Char → Option Chomping
  | '+' => some .keep
  | '-' => some .strip
  | _ => none

/-- The indentation a digit asks for; zero is not allowed. -/
def indentDigit? (d : Char) : Option Nat :=
  if d = '0' then none else some (d.toNat - '0'.toNat)

/-- The indicators behind the start of a block: its chomping and the indentation asked for,
zero if none is. -/
def blockIndicators (c : Cursor) : Option (Chomping × Nat × Cursor) :=
  match Chomping.ofChar? c.char with
  | some chomping =>
    if (c.peek 1).isDigit then
      (indentDigit? (c.peek 1)).map fun n => (chomping, n, c.skip 2)
    else some (chomping, 0, c.skip 1)
  | none =>
    if c.char.isDigit then
      (indentDigit? c.char).map fun n =>
        match Chomping.ofChar? (c.peek 1) with
        | some chomping => (chomping, n, c.skip 2)
        | none => (.clip, n, c.skip 1)
    else some (.clip, 0, c)

/-- Passes over empty lines at the start of a block whose indentation is not known; answers
the deepest column that was reached and the number of breaks. -/
def blockLead : Nat → Cursor → Nat → Nat → Cursor × Nat × Nat
  | 0, c, deepest, n => (c, deepest, n)
  | steps + 1, c, deepest, n =>
    let c := c.skipWhile (· = ' ')
    let deepest := max deepest c.column
    if isBreak c.char then blockLead steps c.skipBreak deepest (n + 1) else (c, deepest, n)

/-- Passes over the indentation of the next line of a block, and over empty lines before it;
answers the number of breaks. -/
def blockIndent (indent : Nat) : Nat → Cursor → Nat → Cursor × Nat
  | 0, c, n => (c, n)
  | steps + 1, c, n =>
    let blanks := (c.rest.takeWhile (· = ' ')).length
    let c := c.skipBlanks (min blanks (indent - c.column))
    if isBreak c.char then blockIndent indent steps c.skipBreak (n + 1) else (c, n)

/-- What has been read of a block: its text, whether a break ended the last line, how many
breaks followed, and whether the last line started with a blank. -/
structure BlockText where
  text : List Char
  first : Bool
  more : Nat
  blank : Bool

/-- The lines of a block from the first character of one of them on. -/
def blockLines (folds : Bool) (indent : Nat) : Nat → Cursor → BlockText → BlockText × Cursor
  | 0, c, b => (b, c)
  | steps + 1, c, b =>
    if c.column ≠ indent ∨ c.char = ending then (b, c)
    else if indent = 0 ∧ c.atDocumentEnd then (b, c)
    else
      let blank := isBlank c.char
      let joint :=
        if folds ∧ b.first ∧ !b.blank ∧ !blank then
          if b.more = 0 then [' '] else breaks b.more
        else breaks ((if b.first then 1 else 0) + b.more)
      let line := c.rest.takeWhile fun d => !isBreakOrEnd d
      let text := b.text ++ joint ++ line
      let c := c.skip line.length
      if c.char = ending then (⟨text, false, 0, blank⟩, c)
      else
        let (c, more) := blockIndent indent c.steps c.skipBreak 0
        blockLines folds indent steps c ⟨text, true, more, blank⟩

/-- The text of a block without a line of its own. -/
def emptyBlock (chomping : Chomping) (hasBreak : Bool) (more : Nat) : List Char :=
  if !hasBreak then []
  else match chomping with
    | .strip => []
    | .clip => ['\n']
    | .keep => if more = 0 then ['\n'] else breaks more

/-- The text of a block with its last breaks chomped. -/
def chomped (chomping : Chomping) (indent : Nat) (b : BlockText) (c : Cursor) : List Char :=
  let clipped :=
    if chomping = .strip then []
    else breaks (if b.first then 1 else 0) ++
      if c.char = ending ∧ max indent 1 ≤ c.column then ['\n'] else []
  b.text ++ clipped ++ if chomping = .keep then breaks b.more else []

/-- The block scalar that starts here, and the place behind it.  `outer` is the indentation
of what holds it. -/
def blockScalar (outer : Int) (literal : Bool) (c : Cursor) : Option (String × Cursor) := do
  let (chomping, asked, header) ← blockIndicators (c.skip 1)
  let passed ← header.passBlanks true
  let ended := passed.cursor
  if !isBreakOrEnd ended.char then none
  else
    let hasBreak := isBreak ended.char
    let body := if hasBreak then ended.skipBreak else ended
    if body.char = '\t' then none
    else
      let wanted := if asked = 0 then 0 else if 0 ≤ outer then (outer + asked).toNat else asked
      let (first, indent, more) :=
        if wanted = 0 then
          let (c, deepest, n) := blockLead body.steps body 0 0
          let indent := max deepest (outer + 1).toNat
          (c, if 0 < outer then max indent 1 else indent, n)
        else
          let (c, n) := blockIndent wanted body.steps body 0
          (c, wanted, n)
      if first.char = ending then
        some (String.ofList (emptyBlock chomping (c.line ≠ first.line) more), first)
      else if first.column < indent ∧ outer < (first.column : Int) then none
      else
        let (b, last) := blockLines (!literal) indent first.steps first ⟨[], false, more, false⟩
        some (String.ofList (chomped chomping indent b last), last)

end GemCourier.Yaml
