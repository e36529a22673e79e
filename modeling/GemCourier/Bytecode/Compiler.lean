/-
GemCourier/Bytecode/Compiler.lean

Compilers, which turn a script into bytecode.

A `Compiler` is asked to write the bytecode of one file to another place; what
else it does on the host is its own affair.  The compiler of the program is an
external one: it is started with the place to write to and the script, and when
it fails, its complaints are the diagnostic, or its exit code where it had none.
For trials there is a compiler that only marks what it is given.
-/
import GemCourier.Host.Program

namespace GemCourier.Bytecode

/-- Why a script was not compiled. -/
inductive CompileError where
  /-- The compiler could not be started. -/
  | notStarted (program : String) (fault : Fault)
  /-- The compiler refused the script. -/
  | refused (source : Path) (diagnostic : String)
deriving DecidableEq, Repr

namespace CompileError

/-- The error in words, for the disk as it is now. -/
def message (d : Disk) : CompileError → String
  | notStarted program _ => s!"Failed to start '{program}'"
  | refused source diagnostic => s!"Failed to compile {d.describe source}: {diagnostic}"

end CompileError

/-- What turns a script into bytecode at another place. -/
structure Compiler where
  compile (source target : Path) : Act (Except CompileError Unit)

namespace Compiler

/-- The compiler that is looked for when none is named. -/
def usualProgram : Path := ⟨"mrbc"⟩

/-- What is reported of a program that failed. -/
def diagnosticOf (ending : Shell.Ending) : String :=
  let complaints := Text.stripped (Text.ofBytes ending.complaints)
  if complaints ≠ "" then complaints
  else match ending.code with
    | some code => s!"exit code {code}"
    | none => "exit code -1"

/-- Compiles with an external program. -/
def compileWith (searchPath : List Path) (program source target : Path) :
    Act (Except CompileError Unit) := do
  Act.note .debug s!"Compiling {source} -> {target}"
  match ← Program.run searchPath program ["-o", target.text, source.text] with
  | .error fault => return .error (.notStarted program.text fault)
  | .ok ending =>
    if ending.code = some 0 then return .ok ()
    else return .error (.refused source (diagnosticOf ending))

/-! ### Compilers -/

/-- What a compiler for trials puts in front of a script. -/
def mark : String := "compiled:"

/-- Compiles for trials: the script with a mark in front is its bytecode. -/
def markScript (source target : Path) : Act (Except CompileError Unit) := do
  match (← Act.disk).readFile source with
  | .error _ => return .error (.refused source "unreadable")
  | .ok bytes =>
    match ← Act.change (·.writeFile target (mark.toUTF8 ++ bytes)) with
    | .error _ => return .error (.refused source "unwritable")
    | .ok () => return .ok ()

/-- The compiler for trials, which refuses the scripts of some names with a diagnostic. -/
def trial (refusals : List (String × String)) : Compiler :=
  ⟨fun source target => match source.fileName?.bind fun name => refusals.lookup name with
    | some diagnostic => return .error (.refused source diagnostic)
    | none => markScript source target⟩

/-- The compiler that is an external program. -/
def external (searchPath : List Path) (program : Path) : Compiler :=
  ⟨compileWith searchPath program⟩

end Compiler

end GemCourier.Bytecode
