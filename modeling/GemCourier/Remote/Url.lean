/-
GemCourier/Remote/Url.lean

Addresses as they are shown in messages.

An address is built by putting texts together and may hold anything.  Before it
is used it is brought into its usual form: characters without a place in an
address are written by their bytes, `.` and `..` in the path are folded away,
a backslash counts as a slash, and line breaks and tabs are dropped.
-/
import GemCourier.Text.Pieces

namespace GemCourier.Remote.Url

/-- The parts of an address behind its scheme. -/
structure Parts where
  host : String
  path : List Char
  query : Option (List Char)
  fragment : Option (List Char)

/-- An upper-case hexadecimal digit. -/
def hexDigit (n : Nat) : Char :=
  (Nat.digitChar n).toUpper

/-- A byte written with a percent sign. -/
def percentByte (b : UInt8) : List Char :=
  ['%', hexDigit (b.toNat / 16), hexDigit (b.toNat % 16)]

/-- A text in which the characters of a class, and all that are not visible ASCII, are written
by their bytes. -/
def percentEncode (extra : List Char) (text : List Char) : List Char :=
  text.flatMap fun c =>
    if c.toNat ≤ 0x1F ∨ 0x7E < c.toNat ∨ extra.contains c then
      c.toString.toUTF8.toList.flatMap percentByte
    else [c]

/-- What is written by its bytes in a fragment. -/
def fragmentSet : List Char := [' ', '\x22', '<', '>', '\x60']

/-- What is written by its bytes in a query. -/
def querySet : List Char := [' ', '\x22', '#', '<', '>', '\x27']

/-- What is written by its bytes in a path. -/
def pathSet : List Char := [' ', '\x22', '#', '<', '>', '?', '\x60', '\x7b', '\x7d', '^']

/-- Cuts a text at the first character of a class, if there is one. -/
def cutAt (stop : Char → Bool) (text : List Char) : List Char × Option (List Char) :=
  match text.dropWhile fun c => !stop c with
  | [] => (text, none)
  | _ :: after => (text.takeWhile fun c => !stop c, some after)

/-- Whether a path segment stays where it is. -/
def isSingleDot (segment : String) : Bool :=
  segment = "." || segment.toLower = "%2e"

/-- Whether a path segment leads upwards. -/
def isDoubleDot (segment : String) : Bool :=
  ["..", ".%2e", "%2e.", "%2e%2e"].contains segment.toLower

/-- The segments of a path with dots folded away; `done` holds the folded ones backwards. -/
def foldSegments (done : List String) : List String → List String
  | [] => done.reverse
  | [last] =>
    if isDoubleDot last then ("" :: done.drop 1).reverse
    else if isSingleDot last then ("" :: done).reverse
    else (last :: done).reverse
  | segment :: rest =>
    if isDoubleDot segment then foldSegments (done.drop 1) rest
    else if isSingleDot segment then foldSegments done rest
    else foldSegments (segment :: done) rest

/-- Whether a character is dropped from an address. -/
def isDropped (c : Char) : Bool :=
  c = '\t' || c = '\n' || c = '\r'

/-- Whether a character is dropped from the ends of an address. -/
def isOuter (c : Char) : Bool :=
  c.toNat ≤ 0x20

/-- The path of an address in its usual form. -/
def shownPath (path : List Char) : String :=
  let slashed := path.map fun c => if c = '\\' then '/' else c
  let encoded := (Text.pieces '/' slashed).map fun segment =>
    String.ofList (percentEncode pathSet segment)
  "/".intercalate (foldSegments [] encoded)

/-- An address on a host, given by what stands behind the host. -/
def shownFrom (start : String) (rest : List Char) : String :=
  let (front, fragment) := cutAt (· = '#') rest
  let (path, query) := cutAt (· = '?') front
  let shownQuery := match query with
    | some q => "?" ++ String.ofList (percentEncode querySet q)
    | none => ""
  let shownFragment := match fragment with
    | some f => "#" ++ String.ofList (percentEncode fragmentSet f)
    | none => ""
  start ++ "/" ++ shownPath path ++ shownQuery ++ shownFragment

/-- An address in its usual form, where `start` is its scheme and host. -/
def shown (url : String) : String :=
  let kept := (Text.trimmed isOuter url.toList).filter fun c => !isDropped c
  match Text.pieces '/' kept with
  | scheme :: blank :: host :: rest =>
    shownFrom (String.ofList (Text.glue '/' [scheme, blank, host])) (Text.glue '/' rest)
  | _ => url

end GemCourier.Remote.Url
