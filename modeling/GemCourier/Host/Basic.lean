/-
GemCourier/Host/Basic.lean

The host the program acts on: a disk, and a transcript of what was said and
asked.

An `Act` is a step that may change the disk and add to the transcript.  The
transcript holds the lines printed for the operator, the notes for the log, the
questions put to a remote tree and the requests sent over the network, all in
the order in which they came; `printed`, `notesFrom`, `questions` and `requests`
are the views of it.

A step has two views too, what it answers on a host and the host it leaves
behind; `answer_bind` and `after_bind` take a composite step apart.
-/
import GemCourier.Disk.Operations
import GemCourier.Console.Line

namespace GemCourier

/-- How urgent a note is. -/
inductive Level where
  | debug | info | warn | error
deriving DecidableEq, Repr

namespace Level

/-- Levels in the order of their urgency. -/
def rank : Level → Nat
  | debug => 0
  | info => 1
  | warn => 2
  | error => 3

/-- The name of a level in the log. -/
def name : Level → String
  | debug => "DEBUG"
  | info => "INFO"
  | warn => "WARN"
  | error => "ERROR"

end Level

/-- What a remote tree is asked. -/
inductive Question where
  /-- What a directory holds. -/
  | list (path : String)
  /-- What a file holds. -/
  | fetch (path : String)
deriving DecidableEq, Repr

/-- A request sent over the network. -/
structure Request where
  url : String
  accept : String
  authorization : Option String
  agent : String
deriving DecidableEq, Repr

/-- What the transcript records. -/
inductive Event where
  /-- A line was printed for the operator. -/
  | printed (line : Console.Line)
  /-- A note was made for the log. -/
  | noted (level : Level) (text : String)
  /-- A remote tree was asked something. -/
  | asked (question : Question)
  /-- A request was sent. -/
  | requested (request : Request)
deriving DecidableEq, Repr

namespace Event

/-- The line, if one was printed. -/
def line? : Event → Option Console.Line
  | printed line => some line
  | _ => none

/-- The note, if one was made that is urgent enough. -/
def noteFrom? (least : Level) : Event → Option (Level × String)
  | noted level text => if least.rank ≤ level.rank then some (level, text) else none
  | _ => none

/-- The question, if one was asked. -/
def question? : Event → Option Question
  | asked question => some question
  | _ => none

/-- The request, if one was sent. -/
def request? : Event → Option Request
  | requested request => some request
  | _ => none

end Event

/-- A disk, and what was said and asked so far. -/
structure Host where
  disk : Disk
  transcript : List Event
deriving Inhabited

namespace Host

/-- The host with one more event in its transcript. -/
def record (h : Host) (e : Event) : Host :=
  { h with transcript := h.transcript ++ [e] }

/-- The lines printed so far. -/
def printed (h : Host) : List Console.Line :=
  h.transcript.filterMap Event.line?

/-- The notes of a level and above. -/
def notesFrom (h : Host) (least : Level) : List (Level × String) :=
  h.transcript.filterMap (Event.noteFrom? least)

/-- The questions put to a remote tree. -/
def questions (h : Host) : List Question :=
  h.transcript.filterMap Event.question?

/-- The requests sent over the network. -/
def requests (h : Host) : List Request :=
  h.transcript.filterMap Event.request?

/-- What was printed, with or without colours, each line ended. -/
def output (h : Host) (colours : Bool) : String :=
  String.join (h.printed.map fun line => line.render colours ++ "\n")

end Host

/-- A step on the host. -/
abbrev Act := StateM Host

namespace Act

/-- What a step answers on a host. -/
def answer {α : Type} (step : Act α) (h : Host) : α :=
  (step h).1

/-- The host that a step leaves behind. -/
def after {α : Type} (step : Act α) (h : Host) : Host :=
  (step h).2

/-- Adds an event to the transcript. -/
def record (e : Event) : Act Unit :=
  modify fun h => h.record e

/-- Prints a line. -/
def print (line : Console.Line) : Act Unit :=
  record (.printed line)

/-- Makes a note. -/
def note (level : Level) (text : String) : Act Unit :=
  record (.noted level text)

/-- The disk as it is now. -/
def disk : Act Disk := do
  return (← get).disk

/-- Puts another disk in the place of the one there was. -/
def setDisk (d : Disk) : Act Unit :=
  modify fun h => { h with disk := d }

/-- Changes the disk, which stays as it was if the change fails. -/
def change (f : Disk → Except Fault Disk) : Act (Except Fault Unit) := do
  match f (← disk) with
  | .ok changed => setDisk changed; return .ok ()
  | .error fault => return .error fault

/-! ### Steps taken apart -/

variable {α β : Type}

@[simp] theorem answer_pure (a : α) (h : Host) : (pure a : Act α).answer h = a := rfl

@[simp] theorem after_pure (a : α) (h : Host) : (pure a : Act α).after h = h := rfl

@[simp] theorem answer_bind (step : Act α) (next : α → Act β) (h : Host) :
    (step >>= next).answer h = (next (step.answer h)).answer (step.after h) := rfl

@[simp] theorem after_bind (step : Act α) (next : α → Act β) (h : Host) :
    (step >>= next).after h = (next (step.answer h)).after (step.after h) := rfl

@[simp] theorem answer_map (f : α → β) (step : Act α) (h : Host) :
    (f <$> step).answer h = f (step.answer h) := rfl

@[simp] theorem after_map (f : α → β) (step : Act α) (h : Host) :
    (f <$> step).after h = step.after h := rfl

@[simp] theorem answer_seqRight (step : Act α) (next : Act β) (h : Host) :
    (step *> next).answer h = next.answer (step.after h) := rfl

@[simp] theorem after_seqRight (step : Act α) (next : Act β) (h : Host) :
    (step *> next).after h = next.after (step.after h) := rfl

@[simp] theorem answer_disk (h : Host) : disk.answer h = h.disk := rfl

@[simp] theorem after_disk (h : Host) : disk.after h = h := rfl

@[simp] theorem after_record (e : Event) (h : Host) : (record e).after h = h.record e := rfl

@[simp] theorem after_setDisk (d : Disk) (h : Host) :
    (setDisk d).after h = { h with disk := d } := rfl

@[simp] theorem disk_after_record (e : Event) (h : Host) :
    ((record e).after h).disk = h.disk := rfl

@[simp] theorem disk_after_print (line : Console.Line) (h : Host) :
    ((print line).after h).disk = h.disk := rfl

@[simp] theorem disk_after_note (level : Level) (text : String) (h : Host) :
    ((note level text).after h).disk = h.disk := rfl

/-- A change that succeeds is answered so and puts the changed disk in place. -/
theorem change_ok {f : Disk → Except Fault Disk} {h : Host} {d : Disk} (hf : f h.disk = .ok d) :
    (change f).answer h = .ok () ∧ (change f).after h = { h with disk := d } := by
  simp [change, hf]

/-- A change that fails is answered with its fault and leaves the host as it was. -/
theorem change_error {f : Disk → Except Fault Disk} {h : Host} {fault : Fault}
    (hf : f h.disk = .error fault) :
    (change f).answer h = .error fault ∧ (change f).after h = h := by
  simp [change, hf]

end Act

end GemCourier
