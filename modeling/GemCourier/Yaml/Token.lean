/-
GemCourier/Yaml/Token.lean

The tokens of a YAML text.

Block structure shows in a text by columns, and flow structure by brackets.
The scan keeps the columns at which open blocks start, and for each level of
brackets the place at which a key may have started: only when a `:` turns up
later is it known that what stands there is a key, and its tokens are put in
front of it then.  A text that has no reading gives no tokens at all.
-/
import GemCourier.Yaml.Scalar

namespace GemCourier.Yaml

/-- A token. -/
inductive Token where
  | versionDirective
  | tagDirective (handle address : String)
  | documentStart
  | documentEnd
  | blockSequenceStart
  | blockMappingStart
  | blockEnd
  | blockEntry
  | flowSequenceStart
  | flowSequenceEnd
  | flowMappingStart
  | flowMappingEnd
  | flowEntry
  | key
  | value
  | alias (name : String)
  | anchor (name : String)
  | tag (handle suffix : String)
  /-- A scalar, and whether it is plain. -/
  | scalar (plain : Bool) (text : String)
deriving DecidableEq, Repr, Inhabited

namespace Token

/-- Whether the token is a property of the node that follows. -/
def isProperty : Token → Bool
  | anchor _ => true
  | tag .. => true
  | _ => false

end Token

/-! ### The state of a scan -/

/-- A place at which a key without a mark may have started. -/
structure KeyPlace where
  possible : Bool
  required : Bool
  /-- The number of tokens before it. -/
  number : Nat
  index : Nat
  line : Nat
  column : Nat
deriving Inhabited

/-- The place of no key. -/
def KeyPlace.none : KeyPlace := ⟨false, false, 0, 0, 0, 0⟩

/-- A column to return to, and whether a block ends there. -/
structure Outer where
  column : Int
  isBlock : Bool

/-- How far a scan has come. -/
structure Scan where
  cursor : Cursor
  tokens : Array Token
  /-- The column at which the last token that is a property started. -/
  propertyColumn : Nat
  /-- The column at which the open block starts. -/
  indent : Int
  outer : List Outer
  /-- How many brackets are open. -/
  flow : Nat
  /-- Whether a key may start here. -/
  keyAllowed : Bool
  /-- The places of possible keys, the innermost level first. -/
  keys : List KeyPlace
  /-- The place at which a `:` needs no blank behind it. -/
  adjacent : Nat
  /-- Whether the pairs inside the brackets belong to a mapping that has been started. -/
  inMapping : Bool
  /-- For each open sequence in brackets whether it is inside a pair of its own. -/
  pairs : List Bool

namespace Scan

/-- The most brackets that can be open. -/
def mostBrackets : Nat := 255

/-- How far ahead a `:` may be from the start of its key. -/
def keyReach : Nat := 1024

/-- The scan at the start of a text. -/
def start (text : String) : Scan :=
  ⟨.start text, #[], 0, -1, [], 0, true, [.none], 0, false, []⟩

/-- The scan at another place. -/
def goto (s : Scan) (c : Cursor) : Scan := { s with cursor := c }

/-- The scan with one more token. -/
def push (s : Scan) (t : Token) : Scan := { s with tokens := s.tokens.push t }

/-- The scan with a token put in at an earlier place. -/
def insert (s : Scan) (number : Nat) (t : Token) : Scan :=
  { s with tokens := s.tokens.insertIdxIfInBounds number t }

/-- The innermost place of a possible key. -/
def key (s : Scan) : KeyPlace := s.keys.headD .none

/-- The scan with the innermost place of a key set. -/
def setKey (s : Scan) (k : KeyPlace) : Scan := { s with keys := k :: s.keys.drop 1 }

/-- The scan with keys allowed or not. -/
def allowKey (s : Scan) (allowed : Bool) : Scan := { s with keyAllowed := allowed }

/-- Whether the block around the scan was opened as a block. -/
def inBlock (s : Scan) : Bool := s.outer.head?.any Outer.isBlock

/-! ### Columns -/

/-- Drops the columns that open no block of their own. -/
def dropLoose (s : Scan) : Scan :=
  match s.outer.dropWhile (!·.isBlock), (s.outer.takeWhile (!·.isBlock)).getLast? with
  | outer, some last => { s with indent := last.column, outer := outer }
  | _, none => s

/-- Opens a column one further on that opens no block of its own. -/
def indentLoosely (s : Scan) : Scan :=
  if s.flow = 0 ∧ s.inBlock then
    { s with outer := ⟨s.indent, false⟩ :: s.outer, indent := s.indent + 1 }
  else s

/-- Opens a block at a column, if one is open further out only; its token stands before the
token with the given number. -/
def openBlock (s : Scan) (column : Nat) (number : Nat) (t : Token) : Scan :=
  if 0 < s.flow then s
  else
    let s := match s.outer with
      | o :: outer =>
        if s.indent ≤ (column : Int) ∧ !o.isBlock then
          { s with indent := o.column, outer := outer }
        else s
      | [] => s
    if s.indent < (column : Int) then
      ({ s with outer := ⟨s.indent, true⟩ :: s.outer, indent := column }).insert number t
    else s

/-- Closes the blocks that start behind a column. -/
def closeBlocksWithin : Nat → Scan → Int → Scan
  | 0, s, _ => s
  | steps + 1, s, column =>
    match s.outer with
    | [] => s
    | o :: outer =>
      if s.indent ≤ column then s
      else
        let s := { s with indent := o.column, outer := outer }
        closeBlocksWithin steps (if o.isBlock then s.push .blockEnd else s) column

/-- Closes the blocks that start behind a column, unless brackets are open. -/
def closeBlocks (s : Scan) (column : Int) : Scan :=
  if 0 < s.flow then s else closeBlocksWithin s.outer.length s column

/-! ### Keys -/

/-- Gives up the places of keys that are too far back. -/
def dropOldKeys (s : Scan) : Option Scan :=
  let isOld (k : KeyPlace) : Bool :=
    k.possible && s.flow = 0 &&
      (k.line < s.cursor.line || k.index + keyReach < s.cursor.index)
  if s.keys.any fun k => isOld k && k.required then none
  else
    let keys := s.keys.map fun k => if isOld k then { k with possible := false } else k
    some { s with keys := keys }

/-- Remembers that a key may start here. -/
def markKey (s : Scan) : Scan :=
  if s.keyAllowed then
    s.setKey ⟨true, s.flow = 0 ∧ s.indent = (s.cursor.column : Int) ∧ s.inBlock,
      s.tokens.size, s.cursor.index, s.cursor.line, s.cursor.column⟩
  else s

/-- Forgets the innermost place of a key, which is not possible where a key has to be. -/
def forgetKey (s : Scan) : Option Scan :=
  if s.key.possible ∧ s.key.required then none
  else some (s.setKey { s.key with possible := false })

/-! ### Between tokens -/

/-- Passes over blanks, comments and line breaks up to the next token. -/
def toNextWithin : Nat → Scan → Option Scan
  | 0, s => some s
  | steps + 1, s =>
    let c := s.cursor
    if c.char = '\t' ∧ !s.outer.isEmpty ∧ c.fresh ∧ (c.column : Int) < s.indent then
      match c.passBlanks true with
      | none => none
      | some passed =>
        if isBreakOrEnd passed.cursor.char then toNextWithin steps (s.goto passed.cursor) else none
    else if isBlank c.char then toNextWithin steps (s.goto (c.skipBlanks 1))
    else if isBreak c.char then
      toNextWithin steps ((s.goto c.skipBreak).allowKey (s.flow = 0 || s.keyAllowed))
    else if c.char = '#' then toNextWithin steps (s.goto c.skipLine)
    else some s

/-- Passes over what stands before the next token. -/
def toNext (s : Scan) : Option Scan := toNextWithin s.cursor.steps s

/-- Passes over the blanks behind a token, and a comment behind these. -/
def passBlanks (s : Scan) : Option Scan :=
  (s.cursor.passBlanks true).map fun passed => s.goto passed.cursor

/-! ### Directives and documents -/

/-- A number of a version. -/
def versionNumber (c : Cursor) : Option Cursor :=
  let digits := c.rest.takeWhile Char.isDigit
  if digits.isEmpty ∨ 9 < digits.length then none else some (c.skip digits.length)

/-- The version a directive names. -/
def version (c : Cursor) : Option (Token × Cursor) := do
  let c ← versionNumber (c.skipWhile isBlank)
  if c.char ≠ '.' then none
  else
    let c ← versionNumber (c.skip 1)
    return (.versionDirective, c)

/-- A character written by its bytes. -/
def escapedChar (c : Cursor) : Option (Char × Cursor) :=
  let byte? (n : Nat) : Option Nat :=
    if c.peek (3 * n) = '%' then hexNumber? [c.peek (3 * n + 1), c.peek (3 * n + 2)] else none
  let width? (b : Nat) : Option Nat :=
    if b < 0x80 then some 1
    else if 0xC0 ≤ b ∧ b < 0xE0 then some 2
    else if 0xE0 ≤ b ∧ b < 0xF0 then some 3
    else if 0xF0 ≤ b ∧ b < 0xF8 then some 4
    else none
  let further (code? : Option Nat) (n : Nat) : Option Nat :=
    code?.bind fun code => (byte? n).bind fun b =>
      if 0x80 ≤ b ∧ b < 0xC0 then some (code * 256 + b) else none
  (byte? 0).bind fun first => (width? first).bind fun width =>
    (((List.range width).drop 1).foldl further (some first)).bind fun code =>
      (char? code).map fun d => (d, c.skip (3 * width))

/-- A run of characters of a class, some of which may be written by their bytes. -/
def escapedRun (p : Char → Bool) : Nat → Cursor → List Char → Option (List Char × Cursor)
  | 0, c, text => some (text, c)
  | steps + 1, c, text =>
    if !p c.char then some (text, c)
    else if c.char = '%' then
      match escapedChar c with
      | none => none
      | some (d, c) => escapedRun p steps c (text ++ [d])
    else escapedRun p steps (c.skip 1) (text ++ [c.char])

/-- The handle of a tag.  In a directive it has to end in a `!`. -/
def tagHandle (c : Cursor) (directive : Bool) : Option (List Char × Cursor) :=
  if c.char ≠ '!' then none
  else
    let name := (c.skip 1).rest.takeWhile isWord
    let c := c.skip (1 + name.length)
    if c.char = '!' then some ('!' :: name ++ ['!'], c.skip 1)
    else if directive ∧ !name.isEmpty then none
    else some ('!' :: name, c)

/-- The address that a directive gives a handle. -/
def tagAddress (c : Cursor) : Option (List Char × Cursor) :=
  if c.char = '!' then escapedRun isUri c.steps (c.skip 1) ['!']
  else if !isTag c.char then none
  else escapedRun isUri c.steps c []

/-- The handle and the address a directive names. -/
def tagDirective (c : Cursor) : Option (Token × Cursor) := do
  let (handle, c) ← tagHandle (c.skipWhile isBlank) true
  let (address, c) ← tagAddress (c.skipWhile isBlank)
  if isGap c.char then
    return (.tagDirective (String.ofList handle) (String.ofList address), c)
  else none

/-- What a directive says.  One with a name that is not known says nothing. -/
def directiveBody (name : String) (c : Cursor) : Option (Token × Cursor) :=
  if name = "YAML" then version c
  else if name = "TAG" then tagDirective c
  else some (.tagDirective "" "", c.skipLine)

/-- A directive. -/
def readDirective (s : Scan) : Option Scan := do
  let s ← (s.closeBlocks (-1)).forgetKey
  let s := s.allowKey false
  let c := s.cursor.skip 1
  let name := c.rest.takeWhile isWord
  let c := c.skip name.length
  if name.isEmpty ∨ !isGap c.char then none
  else
    let (t, c) ← directiveBody (String.ofList name) c
    let passed ← c.passBlanks true
    if isBreakOrEnd passed.cursor.char then
      return (s.goto passed.cursor.skipBreak).push t
    else none

/-- The start or the end of a document. -/
def readDocumentMark (s : Scan) (t : Token) : Option Scan := do
  let s ← (s.closeBlocks (-1)).forgetKey
  return ((s.allowKey false).goto (s.cursor.skip 3)).push t

/-- The end of a document, which has its line for itself. -/
def readDocumentEnd (s : Scan) : Option Scan := do
  let s ← s.readDocumentMark .documentEnd
  let s ← s.passBlanks
  if isBreakOrEnd s.cursor.char then return s else none

/-- The end of the text. -/
def readEnd (s : Scan) : Option Scan :=
  if s.flow ≠ 0 then none
  else if s.keys.any fun k => k.possible && k.required then none
  else some (s.closeBlocks (-1))

/-! ### Brackets -/

/-- Ends the pair that a sequence in brackets is inside of. -/
def endPair (s : Scan) : Scan :=
  match s.pairs with
  | true :: pairs => { s with pairs := false :: pairs, inMapping := false }.push .flowMappingEnd
  | _ => s

/-- An opening bracket. -/
def readOpening (s : Scan) (t : Token) : Option Scan := do
  let s := s.markKey.indentLoosely
  if mostBrackets ≤ s.flow then none
  else
    let s := { s with
      keys := .none :: s.keys, flow := s.flow + 1, keyAllowed := true
      inMapping := s.inMapping || t = Token.flowMappingStart
      pairs := if t = Token.flowMappingStart then s.pairs else false :: s.pairs }
    let s ← (s.goto (s.cursor.skip 1)).passBlanks
    return s.push t

/-- A closing bracket. -/
def readClosing (s : Scan) (t : Token) : Option Scan := do
  let s ← s.forgetKey
  let s := if 0 < s.flow then { s with flow := s.flow - 1, keys := s.keys.drop 1 } else s
  let s := s.allowKey false
  let s := if t = .flowSequenceEnd then
      let s := s.endPair
      { s with pairs := s.pairs.drop 1 }
    else s
  let s ← (s.goto (s.cursor.skip 1)).passBlanks
  let s := if 0 < s.flow then { s with adjacent := s.cursor.index } else s
  return s.push t

/-- A comma between brackets. -/
def readFlowEntry (s : Scan) : Option Scan := do
  let s ← s.forgetKey
  let s := (s.allowKey true).endPair
  let s ← (s.goto (s.cursor.skip 1)).passBlanks
  return s.push .flowEntry

/-! ### Entries, keys and values -/

/-- The dash of a block entry. -/
def readBlockEntry (s : Scan) : Option Scan := do
  let c := s.cursor
  if 0 < s.flow ∨ !s.keyAllowed then none
  else if s.tokens.back?.any Token.isProperty ∧ c.column = 0 ∧ s.propertyColumn = 0 ∧
      -1 < s.indent then none
  else
    let s := (s.goto (c.skip 1)).openBlock c.column s.tokens.size .blockSequenceStart
    let passed ← s.cursor.passBlanks true
    if passed.tab ∧ passed.cursor.char = '-' ∧ isGap (passed.cursor.peek 1) then none
    else
      let passed ← passed.cursor.passBlanks false
      let s := s.goto passed.cursor
      let s := if isBreak s.cursor.char ∨ isFlow s.cursor.char then s.indentLoosely else s
      let s ← s.forgetKey
      return (s.allowKey true).push .blockEntry

/-- Passes over spaces, comments and line breaks, of which there has to be one. -/
def passSpace : Nat → Scan → Bool → Option Scan
  | 0, _, _ => none
  | steps + 1, s, met =>
    let c := s.cursor
    if c.char = ' ' then passSpace steps (s.goto (c.skipBlanks 1)) true
    else if isBreak c.char then
      passSpace steps ((s.goto c.skipBreak).allowKey (s.flow = 0 || s.keyAllowed)) true
    else if c.char = '#' then passSpace steps (s.goto c.skipLine) met
    else if met then some s else none

/-- The question mark of a key. -/
def readKey (s : Scan) : Option Scan := do
  let c := s.cursor
  if s.flow = 0 ∧ !s.keyAllowed then none
  else
    let s := if s.flow = 0 then s.openBlock c.column s.tokens.size .blockMappingStart
      else { s with inMapping := true }
    let s ← s.forgetKey
    let s := (s.allowKey (s.flow = 0)).goto (c.skip 1)
    let s ← passSpace s.cursor.steps s false
    if s.cursor.char = '\t' then none else return s.push .key

/-- Puts the tokens of a key in front of what turned out to be one. -/
def keyFound (s : Scan) (k : KeyPlace) (pairStarts : Bool) (line : Nat) : Option Scan :=
  let s := s.insert k.number .key
  if pairStarts ∧ k.line < line then none
  else
    let s := if pairStarts then s.insert k.number .flowMappingStart else s
    let s := (s.openBlock k.column k.number .blockMappingStart).indentLoosely
    some ((s.setKey { k with possible := false }).allowKey false)

/-- A value behind a key that has a mark of its own, or behind none. -/
def keyMarked (s : Scan) (pairStarts : Bool) (column : Nat) : Option Scan :=
  let s := if pairStarts then s.push .flowMappingStart else s
  if s.flow = 0 then
    if !s.keyAllowed then none
    else some ((s.openBlock column s.tokens.size .blockMappingStart).indentLoosely.allowKey true)
  else some (s.indentLoosely.allowKey false)

/-- The colon of a value. -/
def readValue (s : Scan) : Option Scan := do
  let k := s.key
  let c := s.cursor
  let pairStarts := !s.pairs.isEmpty && !s.inMapping
  let s := if pairStarts then { s with pairs := true :: s.pairs.drop 1 } else s
  let after := c.skip 1
  let s ←
    if after.char = '\t' then
      match after.passBlanks true with
      | none => none
      | some passed =>
        if !passed.space ∧ (passed.cursor.char = '-' ∨ isWord passed.cursor.char) then none
        else some (s.goto passed.cursor)
    else some (s.goto after)
  let s ← if k.possible then s.keyFound k pairStarts c.line else s.keyMarked pairStarts c.column
  return s.push .value

/-- The colon of a value between brackets without a blank behind it. -/
def readFlowValue (s : Scan) : Option Scan :=
  let next := s.cursor.peek 1
  if s.cursor.index ≠ s.adjacent ∧ (next = '[' ∨ next = '\x7b') then none else s.readValue

/-! ### Properties and scalars -/

/-- The name of an anchor or an alias. -/
def readAnchor (s : Scan) (token : String → Token) : Option Scan :=
  let column := s.cursor.column
  let s := s.markKey.allowKey false
  let name := (s.cursor.skip 1).rest.takeWhile isAnchor
  if name.isEmpty then none
  else some ({ s.goto (s.cursor.skip (1 + name.length)) with propertyColumn := column }.push
    (token (String.ofList name)))

/-- A tag written out between angle brackets. -/
def verbatimTag (c : Cursor) : Option (Token × Cursor) :=
  match escapedRun isUri c.steps (c.skip 2) [] with
  | some (address, c) =>
    if c.char = '>' then some (.tag "" (String.ofList address), c.skip 1) else none
  | none => none

/-- A tag with a handle, or a local one. -/
def shortTag (c : Cursor) : Option (Token × Cursor) := do
  let (handle, c) ← tagHandle c false
  if 2 ≤ handle.length ∧ handle.getLast? = some '!' then
    let (suffix, c) ← escapedRun isTag c.steps c []
    if suffix.isEmpty then none
    else return (.tag (String.ofList handle) (String.ofList suffix), c)
  else
    let (suffix, c) ← escapedRun isTag c.steps c (handle.drop 1)
    if suffix.isEmpty then return (.tag "" "!", c)
    else return (.tag "!" (String.ofList suffix), c)

/-- A tag. -/
def readTag (s : Scan) : Option Scan := do
  let column := s.cursor.column
  let s := s.markKey.allowKey false
  let (t, c) ← if s.cursor.peek 1 = '<' then verbatimTag s.cursor else shortTag s.cursor
  if isGap c.char ∨ (0 < s.flow ∧ isFlow c.char) then
    return { s.goto c with propertyColumn := column }.push t
  else none

/-- A block scalar. -/
def readBlockScalar (s : Scan) (literal : Bool) : Option Scan := do
  let s := (s.markKey.allowKey true).dropLoose
  let (text, c) ← blockScalar s.indent literal s.cursor
  return (s.goto c).push (.scalar false text)

/-- A quoted scalar. -/
def readQuotedScalar (s : Scan) (single : Bool) : Option Scan := do
  let s := s.markKey.allowKey false
  let (text, c) ← quotedScalar s.indent (0 < s.flow) single s.cursor
  let s ← (s.goto c).toNext
  return { s with adjacent := s.cursor.index }.push (.scalar false text)

/-- A plain scalar. -/
def readPlainScalar (s : Scan) : Option Scan := do
  let s := (s.markKey.allowKey false).dropLoose
  if 0 < s.flow ∧ (s.cursor.column : Int) < s.indent + 1 then none
  else
    let (text, c) ← plainScalar (s.indent + 1) (0 < s.flow) s.cursor
    return ((s.goto c).allowKey (s.keyAllowed || c.fresh)).push (.scalar true text)

/-! ### Token by token -/

/-- The token that starts at a place inside a document. -/
def readContent (s : Scan) : Option Scan :=
  let c := s.cursor
  let gap := isGap (c.peek 1)
  match c.char with
  | '[' => s.readOpening .flowSequenceStart
  | '\x7b' => s.readOpening .flowMappingStart
  | ']' => s.readClosing .flowSequenceEnd
  | '\x7d' => s.readClosing .flowMappingEnd
  | ',' => s.readFlowEntry
  | '*' => s.readAnchor .alias
  | '&' => s.readAnchor .anchor
  | '!' => s.readTag
  | '\x27' => s.readQuotedScalar true
  | '\x22' => s.readQuotedScalar false
  | '%' => none
  | '@' => none
  | '\x60' => none
  | d =>
    if d = '-' ∧ gap then s.readBlockEntry
    else if d = '?' ∧ gap then s.readKey
    else if d = ':' ∧ gap then s.readValue
    else if d = ':' ∧ 0 < s.flow ∧ (isFlow (c.peek 1) ∨ c.index = s.adjacent) then
      s.readFlowValue
    else if d = '|' ∧ s.flow = 0 then s.readBlockScalar true
    else if d = '>' ∧ s.flow = 0 then s.readBlockScalar false
    else s.readPlainScalar

/-- The next token, if there is one. -/
def readNext (s : Scan) : Option Scan := do
  let s ← s.toNext
  let s ← s.dropOldKeys
  let s := s.closeBlocks s.cursor.column
  let c := s.cursor
  if c.column = 0 ∧ c.char = '%' then s.readDirective
  else if c.column = 0 ∧ c.atDocumentStart then s.readDocumentMark .documentStart
  else if c.column = 0 ∧ c.atDocumentEnd then s.readDocumentEnd
  else if (c.column : Int) < s.indent then none
  else s.readContent

/-- All tokens from a place on. -/
def readAll : Nat → Scan → Option (List Token)
  | 0, _ => none
  | steps + 1, s =>
    match s.toNext with
    | none => none
    | some ahead =>
      if ahead.cursor.char = ending then
        ((ahead.dropOldKeys.map fun s => s.closeBlocks s.cursor.column).bind readEnd).map
          (·.tokens.toList)
      else match s.readNext with
        | none => none
        | some s => readAll steps s

end Scan

/-- The tokens of a text, if it has a reading. -/
def tokens? (text : String) : Option (List Token) :=
  let s := Scan.start text
  s.readAll (s.cursor.steps + 1)

end GemCourier.Yaml
