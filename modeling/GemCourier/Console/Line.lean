/-
GemCourier/Console/Line.lean

Lines for the operator, and how they are shown with and without colours.

A line is a list of spans, each with a style.  With colours off a line is its
text.  With colours on a styled span stands between the escape sequence of its
style and the one that ends every style; where the span's own text holds the
ending sequence, the style is taken up again behind it.
-/

namespace GemCourier.Console

/-- The colours a span can have. -/
inductive Colour where
  | red | green | yellow
deriving DecidableEq, Repr

/-- The number of a colour in an escape sequence. -/
def Colour.code : Colour → String
  | red => "31"
  | green => "32"
  | yellow => "33"

/-- How a span is shown. -/
structure Style where
  bold : Bool
  colour : Option Colour
deriving DecidableEq, Repr

namespace Style

/-- The style of ordinary text. -/
def plain : Style := ⟨false, none⟩

/-- Bold text without a colour. -/
def strong : Style := ⟨true, none⟩

/-- Text in a colour. -/
def coloured (c : Colour) : Style := ⟨false, some c⟩

/-- The numbers of the style in an escape sequence. -/
def codes (s : Style) : List String :=
  (if s.bold then ["1"] else []) ++ (s.colour.map Colour.code).toList

/-- The escape sequence with which the style begins. -/
def opening (s : Style) : String :=
  "\x1b[" ++ ";".intercalate s.codes ++ "m"

/-- The escape sequence that ends every style. -/
def closing : String := "\x1b[0m"

/-- A text in the style. -/
def paint (s : Style) (text : String) : String :=
  if s = plain then text
  else s.opening ++ text.replace closing (closing ++ s.opening) ++ closing

end Style

/-- A piece of a line in one style. -/
structure Span where
  style : Style
  text : String
deriving DecidableEq, Repr

/-- A line for the operator. -/
abbrev Line := List Span

namespace Line

/-- A line of ordinary text. -/
def plain (text : String) : Line := [⟨.plain, text⟩]

/-- An empty line. -/
def blank : Line := []

/-- The heading of a command. -/
def header (title : String) : Line := [⟨.strong, s!"=== {title} ==="⟩]

/-- A labelled value. -/
def field (label value : String) : Line := [⟨.strong, label⟩, ⟨.plain, s!": {value}"⟩]

/-- One file copied to another place. -/
def copied (source destination : String) : Line := plain s!"    {source} -> {destination}"

/-- A message behind a tag in a colour. -/
def tagged (tag : String) (colour : Colour) (message : String) : Line :=
  [⟨.plain, "  "⟩, ⟨⟨true, some colour⟩, s!"[{tag}]"⟩, ⟨.plain, s!" {message}"⟩]

/-- A message on something that went well. -/
def success (message : String) : Line := [⟨.coloured .green, message⟩]

/-- A message on something that went wrong. -/
def failure (message : String) : Line := [⟨.coloured .red, message⟩]

/-- The line as it is shown. -/
def render (colours : Bool) (line : Line) : String :=
  String.join (line.map fun span => if colours then span.style.paint span.text else span.text)

end Line

end GemCourier.Console
