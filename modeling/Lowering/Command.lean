import Lowering.Pipeline
import Lowering.Sample

/-!
# The command line

A command runs some of the passes on a sample and prints what comes out.

```text
[-v N] canon SAMPLE
[-v N] quads SAMPLE
[-v N] trace SAMPLE
[-v N] alloc SAMPLE [-r N]
```

An option with a number is written `-r 4`, `-r4`, `-r=4`, `--registers 4` or
`--registers=4`.  It may be given once, and a word that starts with a dash is not
its number.  After `--` there are no more options.  `-h` and `--help` ask for help
at either place, `help` does so instead of a task.

A word is looked at again when the next option or word comes, so a mistake in front
of a call for help is noticed before it, with one exception: a mistake in front of
the task is noticed only when the rest is known to be right.

## Main definitions

* `Command`, `Command.parse` — a command and how it is written.
* `Command.execute`, `Command.respond` — what it prints, and how the program ends.
-/

namespace Lowering

/-- What to do with a sample. -/
inductive Task where
  /-- Print canonical statements. -/
  | canon
  /-- Print quads. -/
  | quads
  /-- Print scheduled statements. -/
  | trace
  /-- Print instructions with registers. -/
  | alloc
  deriving DecidableEq, Repr, Inhabited

namespace Task

/-- The word for a task. -/
def name : Task → String
  | canon => "canon"
  | quads => "quads"
  | trace => "trace"
  | alloc => "alloc"

/-- All tasks. -/
def all : List Task := [canon, quads, trace, alloc]

/-- The task with a name. -/
def ofName? (name : String) : Option Task := all.find? (·.name = name)

end Task

/-- A request to run passes on a sample. -/
structure Command where
  task : Task
  sample : Sample
  /-- How many registers may be assigned; all of them if not given. -/
  registers : Option Nat := none
  /-- How much of the journal to show. -/
  verbosity : Nat := 1
  deriving DecidableEq, Repr, Inhabited

namespace Command

/-! ## Reading -/

/-- What a command line asks for. -/
inductive Request where
  | run (command : Command)
  | help
  /-- It is not well formed. -/
  | refused
  deriving DecidableEq, Repr, Inhabited

/-- An option that takes a number. -/
structure Numbered where
  short : Char
  long : String

/-- The option in front of the task. -/
def verbose : Numbered := ⟨'v', "verbose"⟩

/-- The option of a task. -/
def optionOf : Task → Option Numbered
  | .alloc => some ⟨'r', "registers"⟩
  | _ => none

/-- One more than the largest number that an option takes. -/
def numberLimit : Nat := UInt64.size

/-- A number in decimal digits, perhaps with a plus sign. -/
def number? (text : String) : Option Nat :=
  let digits :=
    match text.toList with
    | '+' :: rest => rest
    | cs => cs
  if digits.isEmpty || !digits.all Char.isDigit then none
  else
    let n := digits.foldl (fun n d => 10 * n + (d.toNat - '0'.toNat)) 0
    if n < numberLimit then some n else none

/-- A word as an option sees it. -/
inductive Token where
  /-- The end of the options. -/
  | escape
  /-- `--name` or `--name=value`. -/
  | long (name : String) (value : Option String)
  /-- `-x`, with what follows the letter. -/
  | short (letter : Char) (rest : List Char)
  /-- Anything else. -/
  | plain (text : String)
  deriving DecidableEq, Repr

/-- Split a long option at its first equals sign. -/
def splitValue (cs : List Char) : String × Option String :=
  match cs.dropWhile (· ≠ '=') with
  | [] => (String.ofList cs, none)
  | _ :: value => (String.ofList (cs.takeWhile (· ≠ '=')), some (String.ofList value))

/-- Classify a word. -/
def Token.ofString (text : String) : Token :=
  match text.toList with
  | ['-', '-'] => .escape
  | '-' :: '-' :: cs => let (name, value) := splitValue cs; .long name value
  | '-' :: c :: cs => .short c cs
  | _ => .plain text

/-- What was read last and is not looked at yet. -/
inductive Pending where
  | nothing
  /-- An option whose number comes next. -/
  | awaiting
  /-- The number of the option. -/
  | number (text : String)
  /-- The name of a sample. -/
  | sample (text : String)
  deriving DecidableEq, Repr

/-- What was read so far. -/
structure Scan where
  number : Option Nat := none
  sample : Option Sample := none
  pending : Pending := .nothing

namespace Scan

/-- Take the number of the option. -/
def takeNumber (s : Scan) (text : String) : Option Scan :=
  if s.number.isSome then none
  else (number? text).map fun n => { s with number := some n, pending := .nothing }

/-- Look at what is pending. -/
def resolve (s : Scan) : Option Scan :=
  match s.pending with
  | .nothing => some s
  | .awaiting => none
  | .number text => s.takeNumber text
  | .sample text =>
    (Sample.ofName? text).map fun x => { s with sample := some x, pending := .nothing }

/-- Take a word that is no option as the name of a sample; there is only one. -/
def takeSample (s : Scan) (text : String) : Option Scan :=
  match s.pending with
  | .sample _ => none
  | _ =>
    if s.sample.isSome then none
    else s.resolve.map fun s => { s with pending := .sample text }

end Scan

/-- What an option does. -/
inductive Effect where
  | goOn (scan : Scan)
  | help
  | refused

/-- Go on if there is something to go on with. -/
def Effect.ofOption : Option Scan → Effect
  | some s => goOn s
  | none => refused

/-- The effect of asking for help. -/
def askHelp (s : Scan) : Effect :=
  match s.resolve with
  | some _ => .help
  | none => .refused

/-- The effect of the numbered option, with its number if that is attached. -/
def takeOption (s : Scan) (attached : Option String) : Effect :=
  .ofOption do
    let s ← s.resolve
    match attached with
    | some text => s.takeNumber text
    | none => some { s with pending := .awaiting }

/-- The effect of a long option. -/
def takeLong (numbered : Option Numbered) (s : Scan) (name : String) (value : Option String) :
    Effect :=
  if name = "help" then
    if value.isSome then .refused else askHelp s
  else if numbered.any (·.long = name) then takeOption s value
  else .refused

/-- The effect of a short option. -/
def takeShort (numbered : Option Numbered) (s : Scan) (letter : Char) (rest : List Char) : Effect :=
  if letter = 'h' then askHelp s
  else if numbered.any (·.short = letter) then
    takeOption s
      (match rest with
        | [] => none
        | '=' :: value => some (String.ofList value)
        | value => some (String.ofList value))
  else .refused

/-- Read the words after `--` that follow a task. -/
def readEscaped (s : Scan) : List String → Option Scan
  | [] => s.resolve
  | w :: rest =>
    match s.takeSample w with
    | some s => readEscaped s rest
    | none => none

/-- Read the words that follow a task. -/
def readTask (numbered : Option Numbered) (s : Scan) : List String → Effect
  | [] => .ofOption s.resolve
  | w :: rest =>
    match Token.ofString w with
    | .escape => .ofOption (readEscaped s rest)
    | .long name value =>
      match takeLong numbered s name value with
      | .goOn s => readTask numbered s rest
      | effect => effect
    | .short letter cs =>
      match takeShort numbered s letter cs with
      | .goOn s => readTask numbered s rest
      | effect => effect
    | .plain text =>
      if s.pending = .awaiting then readTask numbered { s with pending := .number text } rest
      else
        match s.takeSample text with
        | some s => readTask numbered s rest
        | none => .refused

/-- Whether `help` was followed by nothing or by what there is help about. -/
def readHelp : List String → Request
  | [] => .help
  | [topic] => if topic = "help" || (Task.ofName? topic).isSome then .help else .refused
  | _ => .refused

/-- Put together what was read in front of a task and after it. -/
def combine (task : Task) (front back : Scan) : Request :=
  match back.sample, front.resolve with
  | some sample, some front =>
    .run ⟨task, sample, back.number, front.number.getD 1⟩
  | _, _ => .refused

/-- Read a command line from its start. -/
def readFront (s : Scan) : List String → Request
  | [] => .refused
  | w :: rest =>
    match Token.ofString w with
    | .escape => .refused
    | .long name value =>
      match takeLong (some verbose) s name value with
      | .goOn s => readFront s rest
      | .help => .help
      | .refused => .refused
    | .short letter cs =>
      match takeShort (some verbose) s letter cs with
      | .goOn s => readFront s rest
      | .help => .help
      | .refused => .refused
    | .plain text =>
      if s.pending = .awaiting then readFront { s with pending := .number text } rest
      else if text = "help" then readHelp rest
      else
        match Task.ofName? text with
        | none => .refused
        | some task =>
          match readTask (optionOf task) {} rest with
          | .goOn back => combine task s back
          | .help => .help
          | .refused => .refused

/-- Read a command line. -/
def parse (args : List String) : Request := readFront {} args

/-! ## Running -/

/-- What a command prints. -/
structure Report where
  /-- The lines of its output, or why there are none. -/
  output : Except Fault (List String)
  /-- What the passes told. -/
  records : List Record

/-- The registers that a command may assign. -/
def palette (c : Command) : List Temp :=
  match c.registers with
  | some n => Mips.allocatable.take n
  | none => Mips.allocatable

/-- The line of an instruction: a label stands at the margin, an empty text is left
out. -/
def line? (text : String) : Option String :=
  if text.endsWith ":" then some text
  else if text.isEmpty then none
  else some ("    " ++ text)

/-- The lines of the output. -/
def lines (c : Command) : Pass (List String) := do
  let body ← Pass.fresh c.sample.body
  match c.task with
  | .canon => do
    let stmts ← Pipeline.canonicalize body
    pure (stmts.map Stmt.text)
  | .quads => do
    let quads ← Pipeline.quads body
    pure (quads.map Quad.text)
  | .trace => do
    let canonical ← Pipeline.canonicalize body
    let g ← Pipeline.partition canonical
    let stmts ← Pipeline.schedule g
    pure (stmts.map Stmt.text)
  | .alloc => do
    let (code, allocation) ← Pipeline.compile body
    let placed ← allocation.apply code
    let texts ← Attempt.ofExcept (Instr.texts placed)
    pure ((c.sample.label.text ++ ":") :: texts.filterMap line?)

/-- The report of a fault. -/
def errorLine (fault : Fault) : String := "Error: " ++ fault.message

/-- What the program does about a command line. -/
inductive Response where
  /-- A command was run. -/
  | ran (report : Report)
  /-- Help was asked for. -/
  | help
  /-- The command line is not well formed. -/
  | refused

/-- The code with which the program ends. -/
def Response.exitCode : Response → Nat
  | ran ⟨.ok _, _⟩ => 0
  | ran ⟨.error _, _⟩ => 1
  | help => 0
  | refused => 2

/-- The journal of a command: nobody listens unless records are to be shown. -/
def journal (c : Command) : Journal := if c.verbosity < 2 then .silent else .listening

/-- The verbosity from which on records of a level are shown. -/
def shownFrom : Level → Nat
  | .info => 2
  | .debug => 3
  | .trace => 4

/-- Run a command.  The report has the records that its verbosity shows. -/
def execute (c : Command) : Report :=
  let (output, w) := c.lines.run { frame := ⟨c.sample.label, c.palette, 0⟩, journal := c.journal }
  ⟨output, w.journal.records.filter fun r => shownFrom r.level ≤ c.verbosity⟩

/-- Read a command line and do what it asks for. -/
def respond (args : List String) : Response :=
  match parse args with
  | .run c => .ran c.execute
  | .help => .help
  | .refused => .refused

end Command

end Lowering
