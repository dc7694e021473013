import Sable.Evaluation
import Sable.Prelude
import Sable.Program.Validation
import Sable.Tree.Dump

/-! The command line.

`sable parse FILE` shows the tree of a file, `sable check FILE` validates a program, and `sable run FILE`
validates it and shows its value. Two options may stand in front of the command or behind it:
`--no-prelude` leaves the prelude out, and `--log-level LEVEL` is accepted for the sake of scripts, since
nothing is logged. -/
namespace Sable

inductive Command where
  | parse | check | run
deriving DecidableEq, Repr

def Command.ofName? : String → Option Command
  | "parse" => some .parse
  | "check" => some .check
  | "run" => some .run
  | _ => none

/-! ## Arguments -/

/-- The options read so far, on one side of the command. -/
structure Options where
  noPrelude : Bool
  logLevel : Bool
deriving DecidableEq, Repr

namespace Options

def initial : Options := ⟨false, false⟩

/-- Whether an argument is written like an option. A hyphen alone is not. -/
def isOptionLike (argument : String) : Bool :=
  match argument.toList with
  | '-' :: _ :: _ => true
  | _ => false

/-- Whether an argument is the option of a log level together with its value. -/
def hasLevel (argument : String) : Bool := "--log-level=".toList.isPrefixOf argument.toList

/-- Reads options off the front of the arguments. None of them may be given twice. -/
def read (seen : Options) : List String → Option (Options × List String)
  | "--no-prelude" :: rest =>
    if seen.noPrelude then none else read { seen with noPrelude := true } rest
  | "--log-level" :: level :: rest =>
    if seen.logLevel || isOptionLike level then none else read { seen with logLevel := true } rest
  | argument :: rest =>
    if hasLevel argument then
      if seen.logLevel then none else read { seen with logLevel := true } rest
    else some (seen, argument :: rest)
  | [] => some (seen, [])

end Options

/-- What a command line asks for. -/
structure Invocation where
  command : Command
  /-- The path of the file, as it is written. -/
  file : String
  noPrelude : Bool
deriving DecidableEq, Repr

namespace Invocation

/-- The file among the arguments behind the command, and the options there. Behind `--` nothing is an
option. -/
def readFile : List String → Option (Options × String)
  | arguments => do
    let (options, rest) ← Options.initial.read arguments
    match rest with
    | ["--", file] => pure (options, file)
    | file :: rest =>
      if Options.isOptionLike file then failure
      let (options, rest) ← options.read rest
      if rest = [] ∨ rest = ["--"] then pure (options, file) else failure
    | [] => failure

/-- What the arguments of a command line ask for, if they are well-formed. -/
def ofArguments? (arguments : List String) : Option Invocation := do
  let (before, rest) ← Options.initial.read arguments
  let name :: rest := rest | failure
  let command ← Command.ofName? name
  let (behind, file) ← readFile rest
  if file = "" then failure
  pure ⟨command, file, before.noPrelude || behind.noPrelude⟩

end Invocation

/-! ## Answers -/

/-- Why a file cannot be read as a text. -/
inductive ReadFault where
  /-- What the operating system says. -/
  | system (code : Nat) (description : String)
  | notText
deriving DecidableEq, Repr

def ReadFault.message : ReadFault → String
  | system code description => description ++ " (os error " ++ toString code ++ ")"
  | notText => "stream did not contain valid UTF-8"

/-- What a command leaves behind. -/
structure Response where
  code : Nat
  stdout : String
  stderr : String
deriving DecidableEq, Repr

namespace Response

def success (stdout : String) : Response := ⟨0, stdout, ""⟩

def failure (stderr : String) : Response := ⟨1, "", stderr⟩

/-- The answer to arguments that are not well-formed. -/
def misuse : Response :=
  ⟨2, "", "usage: sable [--no-prelude] [--log-level LEVEL] (parse | check | run) FILE\n"⟩

end Response

namespace Invocation

/-- A line that says what is wrong at a place in the file. -/
def report (i : Invocation) (kind : String) (span : Span) (message : String) : String :=
  i.file ++ ":" ++ toString span.start ++ ":" ++ toString span.stop ++ ": " ++ kind ++ ": "
    ++ message ++ "\n"

def reportParse (i : Invocation) (offset : Nat) (errors : List ParseError) : String :=
  String.join (errors.map fun e => i.report "parse error" (e.span.rebase offset) e.message)

def reportSource (i : Invocation) (offset : Nat) : SourceError → String
  | .parse errors => i.reportParse offset errors
  | .type e => i.report "type error" (e.span.rebase offset) e.message

/-- Where the file begins in the source text that it is part of. -/
def offset (i : Invocation) : Nat := if i.noPrelude then 0 else Prelude.offset

/-- The source text for the text of the file. -/
def source (i : Invocation) (text : String) : String :=
  if i.noPrelude then text else Prelude.prepend text

/-- Shows the tree, be it an incomplete one. -/
def parse (i : Invocation) (text : String) : Response :=
  let parsed := Sable.parse text
  ⟨if parsed.errors.isEmpty then 0 else 1, parsed.tree.dump, i.reportParse 0 parsed.errors⟩

/-- Validates the program and goes on with it. -/
def checked (i : Invocation) (text : String) (go : Program → Response) : Response :=
  match Program.check (i.source text) with
  | .ok p => go p
  | .error e => .failure (i.reportSource i.offset e)

def check (i : Invocation) (text : String) : Response := i.checked text fun _ => .success "OK\n"

def run (i : Invocation) (text : String) : Response :=
  i.checked text fun p =>
    match p.evaluate Eval.plenty with
    | some (.ok a) => .success (a.text ++ "\n")
    | some (.error e) =>
      .failure (i.report "runtime error" (e.span.rebase i.offset) e.message)
    | none => .failure "error: the program does not end\n"

/-- The text of a file. -/
def decode (content : ByteArray) : Except ReadFault String :=
  match String.fromUTF8? content with
  | some text => .ok text
  | none => .error .notText

/-- The answer, given what the file holds. -/
def respond (i : Invocation) (content : Except ReadFault ByteArray) : Response :=
  match content.bind decode with
  | .error fault => .failure ("error: could not read " ++ i.file ++ ": " ++ fault.message ++ "\n")
  | .ok text =>
    match i.command with
    | .parse => i.parse text
    | .check => i.check text
    | .run => i.run text

end Invocation

end Sable
