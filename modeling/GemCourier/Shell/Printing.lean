/-
GemCourier/Shell/Printing.lean

What the printing commands of a shell print.

`echo` prints its words with blanks between them and ends the line; `printf`
goes through its format, puts its words where the format has room for them, and
starts over as long as words are left.  Both know backslash escapes; a byte can
be given by its octal digits.
-/

namespace GemCourier.Shell

/-- The bytes of a character. -/
def bytesOf (c : Char) : List UInt8 :=
  c.toString.toUTF8.toList

/-- The bytes of a text. -/
def textBytes (text : String) : List UInt8 :=
  text.toUTF8.toList

/-- Whether a character is an octal digit. -/
def isOctal (c : Char) : Bool :=
  '0' ≤ c && c ≤ '7'

/-- The byte that octal digits spell. -/
def octalByte (digits : List Char) : UInt8 :=
  UInt8.ofNat (digits.foldl (fun n c => 8 * n + (c.toNat - '0'.toNat)) 0)

/-- At most three octal digits at the front of a text. -/
def octalDigits (text : List Char) : List Char :=
  (text.take 3).takeWhile isOctal

/-- The byte that a letter stands for behind a backslash. -/
def escape? (c : Char) : Option UInt8 :=
  match c with
  | 'a' => some 7
  | 'b' => some 8
  | 't' => some 9
  | 'n' => some 10
  | 'v' => some 11
  | 'f' => some 12
  | 'r' => some 13
  | '\\' => some 92
  | _ => none

/-! ### Printing words -/

/-- A text with its escapes carried out, and whether one of them ended all printing. -/
def expanded (text : List Char) : List UInt8 × Bool :=
  match text with
  | [] => ([], false)
  | '\\' :: 'c' :: _ => ([], true)
  | '\\' :: '0' :: rest =>
    let (bytes, ended) := expanded (rest.drop (octalDigits rest).length)
    (octalByte (octalDigits rest) :: bytes, ended)
  | '\\' :: c :: rest =>
    match escape? c with
    | some byte => let (bytes, ended) := expanded rest; (byte :: bytes, ended)
    | none => let (bytes, ended) := expanded (c :: rest); (92 :: bytes, ended)
  | c :: rest => let (bytes, ended) := expanded rest; (bytesOf c ++ bytes, ended)
termination_by text.length
decreasing_by all_goals simp +arith

/-- What `echo` prints for its words. -/
def echoed (words : List String) : List UInt8 :=
  let (unended, words) := match words with
    | "-n" :: rest => (true, rest)
    | words => (false, words)
  let (bytes, ended) := expanded (" ".intercalate words).toList
  if unended || ended then bytes else bytes ++ [10]

/-! ### Printing by a format -/

/-- What one pass over a format prints, and the words it leaves. -/
def formatOnce (format : List Char) (words : List String) : List UInt8 × List String :=
  match format with
  | [] => ([], words)
  | '%' :: '%' :: rest =>
    let (bytes, left) := formatOnce rest words
    (37 :: bytes, left)
  | '%' :: 's' :: rest =>
    let (bytes, left) := formatOnce rest (words.drop 1)
    (textBytes (words.headD "") ++ bytes, left)
  | '%' :: 'd' :: rest =>
    let (bytes, left) := formatOnce rest (words.drop 1)
    (textBytes (toString ((words.headD "").toInt?.getD 0)) ++ bytes, left)
  | '%' :: 'c' :: rest =>
    let (bytes, left) := formatOnce rest (words.drop 1)
    (((words.headD "").toList.take 1).flatMap bytesOf ++ bytes, left)
  | '%' :: 'b' :: rest =>
    let (bytes, left) := formatOnce rest (words.drop 1)
    ((expanded (words.headD "").toList).1 ++ bytes, left)
  | '\\' :: '\x22' :: rest =>
    let (bytes, left) := formatOnce rest words
    (34 :: bytes, left)
  | '\\' :: c :: rest =>
    if isOctal c then
      let (bytes, left) := formatOnce ((c :: rest).drop (octalDigits (c :: rest)).length) words
      (octalByte (octalDigits (c :: rest)) :: bytes, left)
    else match escape? c with
      | some byte => let (bytes, left) := formatOnce rest words; (byte :: bytes, left)
      | none => let (bytes, left) := formatOnce (c :: rest) words; (92 :: bytes, left)
  | c :: rest =>
    let (bytes, left) := formatOnce rest words
    (bytesOf c ++ bytes, left)
termination_by format.length
decreasing_by all_goals simp +arith

/-- What `printf` prints for a format and words. -/
def formatted (format : List Char) (words : List String) : List UInt8 :=
  let pass := formatOnce format words
  if _h : pass.2 ≠ [] ∧ pass.2.length < words.length then pass.1 ++ formatted format pass.2
  else pass.1
termination_by words.length
decreasing_by exact _h.2

end GemCourier.Shell
