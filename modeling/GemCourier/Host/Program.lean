/-
GemCourier/Host/Program.lean

Starting a program that lies on the disk.

A program is a file that may be run and names its interpreter in its first line.
A name without a slash is looked for in the folders of the search path, in their
order; a folder without it is passed over, and if none has it, a folder whose
file may not be run decides the fault.
-/
import GemCourier.Shell.Run
import GemCourier.Text.Utf8
import GemCourier.Text.Blank

namespace GemCourier.Program

open Shell (Ending)

/-- The program that runs shell scripts. -/
def shell : String := "/bin/sh"

/-- The interpreter that a program names in its first line. -/
def interpreter? (text : String) : Option String :=
  match text.toList with
  | '#' :: '!' :: rest =>
    some (Text.stripped (String.ofList (rest.takeWhile (· ≠ '\n'))))
  | _ => none

/-- The script of a program file. -/
def scriptOf (bytes : ByteArray) : Except Fault String :=
  let text := Text.ofBytes bytes
  match interpreter? text with
  | none => .error .execFormat
  | some interpreter => if interpreter = shell then .ok text else .error .notFound

/-- Whether a mode lets a file be run. -/
def isRunnable (mode : Nat) : Bool :=
  mode &&& 0o111 != 0

/-- The script of the program at a path. -/
def load (d : Disk) (path : Path) : Except Fault String :=
  match d.node path with
  | .error fault => .error fault
  | .ok (.file bytes _ mode) => if isRunnable mode then scriptOf bytes else .error .accessDenied
  | .ok _ => .error .accessDenied

/-- Whether a fault lets the search go on in the next folder. -/
def isPassedOver : Fault → Bool
  | .accessDenied => true
  | .notFound => true
  | .notDirectory => true
  | _ => false

/-- Looks for a program in some folders, `denied` telling whether one was found that may not
be run. -/
def search (d : Disk) (name : String) (denied : Bool) :
    List Path → Except Fault (Path × String)
  | [] => .error (if denied then .accessDenied else .notFound)
  | folder :: rest =>
    match load d (folder.child name) with
    | .ok script => .ok (folder.child name, script)
    | .error fault =>
      if isPassedOver fault then search d name (denied || fault == .accessDenied) rest
      else .error fault

/-- Finds a program by its path, or by its name in the folders of a search path. -/
def find (d : Disk) (searchPath : List Path) (program : Path) :
    Except Fault (Path × String) :=
  if program.text.toList.contains '/' then (load d program).map fun script => (program, script)
  else if program.text = "" then .error .notFound
  else if longestName < program.text.utf8ByteSize then .error .nameTooLong
  else search d program.text false searchPath

/-- Whether a text can be handed to a program. -/
def canBePassed (text : String) : Bool :=
  !text.toList.contains '\x00'

/-- Runs a program with arguments, and answers how it ended, if it could be started. -/
def run (searchPath : List Path) (program : Path) (arguments : List String) :
    Act (Except Fault Ending) := do
  if !(program.text :: arguments).all canBePassed then return .error .holdsNul
  match find (← Act.disk) searchPath program with
  | .error fault => return .error fault
  | .ok (path, script) => return .ok (← Shell.run script path.text arguments)

end GemCourier.Program
