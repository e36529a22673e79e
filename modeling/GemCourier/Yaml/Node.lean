/-
GemCourier/Yaml/Node.lean

The values that YAML documents are made of.

A plain scalar without a tag reads as null, a truth value, a whole number or a
decimal number if it is spelled like one, and as text otherwise.  A tag of the
core schema asks for one of these, and a scalar that does not fit is unreadable.
Scalars in quotes and in blocks are text.

A mapping keeps its entries in order; a key that comes again takes its new value
to the end.
-/
import GemCourier.Text.Quoted

namespace GemCourier.Yaml

/-- A scalar. -/
inductive Scalar where
  | null
  | boolean (value : Bool)
  | integer (value : Int)
  /-- A decimal number, by the text that shows it. -/
  | decimal (shown : String)
  | text (value : String)
deriving DecidableEq, Repr

/-- A value. -/
inductive Node where
  | scalar (value : Scalar)
  /-- A scalar that does not fit its tag. -/
  | unreadable
  /-- A value with a tag outside the core schema. -/
  | tagged (handle suffix : String) (value : Node)
  | sequence (items : List Node)
  | mapping (entries : List (Node × Node))

/-! ### Whole numbers -/

/-- Whether a number has a place in 64 bits with a sign. -/
def fits (n : Int) : Bool := -0x8000_0000_0000_0000 ≤ n && n < 0x8000_0000_0000_0000

/-- The value of a digit in a base. -/
def digit? (base : Nat) (c : Char) : Option Nat :=
  let value? :=
    if c.isDigit then some (c.toNat - '0'.toNat)
    else if 'a' ≤ c ∧ c ≤ 'z' then some (c.toNat - 'a'.toNat + 10)
    else if 'A' ≤ c ∧ c ≤ 'Z' then some (c.toNat - 'A'.toNat + 10)
    else none
  value?.filter (· < base)

/-- The number that digits spell in a base; there has to be one. -/
def digits? (base : Nat) : List Char → Option Nat
  | [] => none
  | ds => ds.foldl (fun n? c => n?.bind fun n => (digit? base c).map (n * base + ·)) (some 0)

/-- A whole number with or without a sign in a base. -/
def integer? (base : Nat) (text : List Char) : Option Int :=
  let value? : Option Int := match text with
    | '+' :: ds => (digits? base ds).map Int.ofNat
    | '-' :: ds => (digits? base ds).map fun n => -(n : Int)
    | ds => (digits? base ds).map Int.ofNat
  value?.filter fits

/-! ### Decimal numbers -/

/-- A decimal number: its sign, its digits without zeros around them, and the power of ten
they are multiplied with. -/
structure Decimal where
  negative : Bool
  digits : List Char
  power : Int

namespace Decimal

/-- A decimal number from its digits before and behind the point. -/
def ofParts (negative : Bool) (whole fraction : List Char) (exponent : Int) : Decimal :=
  let all := (whole ++ fraction).dropWhile (· = '0')
  let kept := (all.reverse.dropWhile (· = '0')).reverse
  ⟨negative, kept, exponent - fraction.length + (all.length - kept.length : Nat)⟩

/-- The decimal number as it is shown: positional while it is neither very large nor very
small, always with a point. -/
def shown (d : Decimal) : String :=
  let sign := if d.negative then "-" else ""
  let size : Int := d.digits.length + d.power
  if d.digits.isEmpty then sign ++ "0.0"
  else if 16 < size ∨ size < -3 then
    let rest := d.digits.drop 1
    sign ++ String.ofList (d.digits.take 1) ++
      (if rest.isEmpty then "" else "." ++ String.ofList rest) ++ s!"e{size - 1}"
  else
    let zeros (n : Int) := List.replicate n.toNat '0'
    let whole := if size ≤ 0 then ['0'] else d.digits.take size.toNat ++ zeros d.power
    let fraction := if size ≤ 0 then zeros (-size) ++ d.digits else d.digits.drop size.toNat
    sign ++ String.ofList whole ++ "." ++
      (if fraction.isEmpty then "0" else String.ofList fraction)

/-- The exponent behind a number, if it is well formed. -/
def exponent? : List Char → Option Int
  | [] => some 0
  | e :: '+' :: ds => if e = 'e' ∨ e = 'E' then (digits? 10 ds).map Int.ofNat else none
  | e :: '-' :: ds => if e = 'e' ∨ e = 'E' then (digits? 10 ds).map fun n => -(n : Int) else none
  | e :: ds => if e = 'e' ∨ e = 'E' then (digits? 10 ds).map Int.ofNat else none

/-- A number without a sign. -/
def magnitude? (negative : Bool) (text : List Char) : Option Decimal :=
  let whole := text.takeWhile Char.isDigit
  let (fraction, rest) := match text.dropWhile Char.isDigit with
    | '.' :: rest => (rest.takeWhile Char.isDigit, rest.dropWhile Char.isDigit)
    | rest => ([], rest)
  if whole.isEmpty ∧ fraction.isEmpty then none
  else (exponent? rest).map (ofParts negative whole fraction)

/-- The number a text spells. -/
def parse? : List Char → Option Decimal
  | '+' :: text => magnitude? false text
  | '-' :: text => magnitude? true text
  | text => magnitude? false text

end Decimal

/-- The decimal number a text spells, as it is shown. -/
def decimal? (text : String) : Option String :=
  if [".inf", ".Inf", ".INF", "+.inf", "+.Inf", "+.INF"].contains text then some "inf"
  else if ["-.inf", "-.Inf", "-.INF"].contains text then some "-inf"
  else if [".nan", ".NaN", ".NAN"].contains text then some "NaN"
  else (Decimal.parse? text.toList).map Decimal.shown

/-! ### Scalars -/

namespace Scalar

/-- The whole number a plain scalar spells. -/
def plainInteger? (text : String) : Option Int :=
  let marked? : Option Int := match text.toList with
    | '0' :: 'x' :: ds => integer? 16 ds
    | '0' :: 'o' :: ds => integer? 8 ds
    | '+' :: ds => integer? 10 ds
    | _ => none
  marked?.or (integer? 10 text.toList)

/-- What a plain scalar without a tag reads as. -/
def ofPlain (value : String) : Scalar :=
  if value = "~" ∨ value = "null" then null
  else if value = "true" then boolean true
  else if value = "false" then boolean false
  else match plainInteger? value with
    | some n => integer n
    | none => match decimal? value with
      | some shown => decimal shown
      | none => text value

/-- What a plain scalar with a tag of the core schema reads as, if it fits. -/
def ofCore? (kind value : String) : Option Scalar :=
  match kind with
  | "bool" =>
    if value = "true" then some (boolean true)
    else if value = "false" then some (boolean false)
    else none
  | "int" => (integer? 10 value.toList).map integer
  | "float" => (decimal? value).map decimal
  | "null" => if value = "~" ∨ value = "null" then some null else none
  | "str" => some (text value)
  | _ => none

/-- The scalar as the log shows it. -/
def shown : Scalar → String
  | null => "Null"
  | boolean b => s!"Boolean({b})"
  | integer n => s!"Integer({n})"
  | decimal d => s!"FloatingPoint({d})"
  | text s => s!"String({Text.quotedText s})"

end Scalar

/-! ### Tags -/

/-- The address that the tags of the core schema begin with. -/
def coreAddress : String := "tag:yaml.org,2002:"

/-- A tag: the address its handle stands for, and what follows. -/
structure Tag where
  handle : String
  suffix : String
deriving DecidableEq, Repr

namespace Tag

/-- Whether the tag belongs to the core schema. -/
def isCore (t : Tag) : Bool := t.handle = coreAddress

end Tag

namespace Node

/-- The text of a scalar that is text. -/
def text? : Node → Option String
  | scalar (.text s) => some s
  | _ => none

mutual

/-- The value as the log shows it. -/
def shown : Node → String
  | scalar s => s!"Value({s.shown})"
  | unreadable => "BadValue"
  | tagged handle suffix value =>
    s!"Tagged(Tag \x7b handle: {Text.quotedText handle}, suffix: {Text.quotedText suffix} \x7d, " ++
      shown value ++ ")"
  | sequence items => "Sequence([" ++ ", ".intercalate (shownItems items) ++ "])"
  | mapping entries => "Mapping(\x7b" ++ ", ".intercalate (shownEntries entries) ++ "\x7d)"

/-- Values as the log shows them. -/
def shownItems : List Node → List String
  | [] => []
  | item :: rest => shown item :: shownItems rest

/-- Entries as the log shows them. -/
def shownEntries : List (Node × Node) → List String
  | [] => []
  | (key, value) :: rest => (shown key ++ ": " ++ shown value) :: shownEntries rest

end

/-- Whether two values are the same key. -/
def sameKey (a b : Node) : Bool := a.shown == b.shown

/-- Entries with one more; the value of a key that is there already is replaced. -/
def insertEntry (entries : List (Node × Node)) (key value : Node) : List (Node × Node) :=
  entries.filter (fun e => !e.1.sameKey key) ++ [(key, value)]

/-- The entries that nodes make up which come one after the other.  A node that is unreadable
is no key, so the node behind it is read as the key. -/
def entriesOf (entries : List (Node × Node)) : List Node → List (Node × Node)
  | [] => entries
  | [_] => entries
  | .unreadable :: value :: rest => entriesOf entries (value :: rest)
  | key :: value :: rest => entriesOf (insertEntry entries key value) rest

/-- A value with a tag, which shows only if it is outside the core schema. -/
def withTag (tag : Option Tag) (value : Node) : Node :=
  match tag with
  | some t => if t.isCore then value else tagged t.handle t.suffix value
  | none => value

/-- The value of a scalar by its text, its tag, and whether it is plain. -/
def ofScalar (plain : Bool) (tag : Option Tag) (value : String) : Node :=
  if !plain then scalar (.text value)
  else match tag.filter Tag.isCore with
    | some t => match Scalar.ofCore? t.suffix value with
      | some s => scalar s
      | none => unreadable
    | none => scalar (if tag.isSome then .text value else .ofPlain value)

end Node

end GemCourier.Yaml
