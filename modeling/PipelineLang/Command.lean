import PipelineLang.Grammar.Program
import PipelineLang.Syntax.Count
import PipelineLang.Syntax.Layout
import PipelineLang.Syntax.Tree
import PipelineLang.Text.Quoted

/-!
# The command line

## Main definitions

- `Command` — what can be asked about files
- `Command.File` — what stands behind the name of a file
- `Command.report` — what a command says about a text
- `Command.request` — what the words of a command line ask for
- `Command.run` — what is written then, and the exit code

## Design notes

Nothing is read or written here: the files are a function from names to contents.
A fault of one file does not keep the others from being reported on.
-/

namespace PipelineLang

/-- What can be asked about files. -/
inductive Command where
  | validate | format | check | tokens | tree
deriving Repr, BEq, DecidableEq

namespace Command

/-- The words for the commands. -/
def names : List (String × Command) :=
  [("validate", .validate), ("fmt", .format), ("check", .check), ("tokens", .tokens),
   ("tree", .tree)]

/-- What is written for someone who asks for help. -/
def usage : String :=
  "Usage: tql <command> [files...]\n\nCommands:\n" ++
  "  validate  Check if TQL file(s) parse\n" ++
  "  fmt       Format TQL file(s) and print to stdout\n" ++
  "  check     Check if TQL file(s) are formatted\n" ++
  "  tokens    Print the tokens of TQL file(s)\n" ++
  "  tree      Print the syntax tree of TQL file(s) as JSON\n\nExamples:\n" ++
  "  tql validate pipeline.tql\n  tql fmt pipeline.tql\n  tql tokens pipeline.tql\n"

/-- The words that ask for help. -/
def helpWords : List String := ["--help", "-h"]

/-- What stands behind the name of a file. -/
inductive File where
  /-- It cannot be read, for a reason that has a number. -/
  | unreadable (reason : String) (number : Nat)
  | bytes (content : ByteArray)

namespace File

/-- No file has the name. -/
def missing : File := .unreadable "No such file or directory" 2

/-- A directory has the name. -/
def directory : File := .unreadable "Is a directory" 21

/-- The text of a file, or why it has none. -/
def text : File → Except String String
  | .unreadable reason number => .error s!"{reason} (os error {number})"
  | .bytes content =>
    match String.fromUTF8? content with
    | some text => .ok text
    | none => .error "stream did not contain valid UTF-8"

end File

/-- What is written, and the exit code. -/
structure Outcome where
  exitCode : Nat
  output : String
  messages : String
deriving Repr, BEq, DecidableEq

/-- What is said about a file: output and messages, or a fault. -/
structure Report where
  output : String
  messages : String
  failed : Bool
deriving Repr, BEq, DecidableEq

namespace Report

/-- The report of something to print. -/
def printed (output : String) : Report := ⟨output, "", false⟩

/-- The report of something to tell about a file. -/
def told (path message : String) : Report := ⟨"", path ++ ": " ++ message ++ "\n", false⟩

/-- The report of a fault of a file. -/
def fault (path message : String) : Report := { told path message with failed := true }

end Report

/-- A line of a listing of tokens. -/
def tokenLine (token : Token) : String :=
  s!"{token.span.line}:{token.span.column}\t{token.kind.name}\t" ++ Quoted.encode token.text
    ++ "\t" ++ token.capture?.getD "-" ++ "\n"

/-- What the tokens of a text are. -/
def listTokens (path content : String) : Report :=
  match tokenize content with
  | .ok found => .printed (String.join (found.map tokenLine))
  | .error error => .fault path error.message

/-- What `say` says about the program in a file, if there is one. -/
def onProgram (path content : String) (say : Program → Report) : Report :=
  match Program.ofSource Program.defaultLimit content with
  | .ok program => say program
  | .error error => .fault path error.message

/-- What is said about a program that there is. -/
def validMessage (program : Program) : String :=
  s!"valid ({program.count} statement(s)" ++
    if program.frontmatter.isSome then ", frontmatter)" else ")"

/-- What a command says about the content of a file. -/
def report (path content : String) : Command → Report
  | .tokens => listTokens path content
  | .validate => onProgram path content fun program => .told path (validMessage program)
  | .format => onProgram path content fun program => .printed program.layout
  | .tree => onProgram path content fun program => .printed (program.tree.pretty ++ "\n")
  | .check => onProgram path content fun program =>
    if program.layout == content then .told path "formatted" else .fault path "not formatted"

/-- What a command says about a file. -/
def reportFile (command : Command) (path : String) (file : File) : Report :=
  match file.text with
  | .ok content => report path content command
  | .error message => .fault path message

/-- All reports together. -/
def Outcome.ofReports (reports : List Report) : Outcome :=
  ⟨if reports.any (·.failed) then 1 else 0, String.join (reports.map (·.output)),
    String.join (reports.map (·.messages))⟩

/-- The outcome of a command line that cannot be followed. -/
def Outcome.refused (messages : String) : Outcome := ⟨2, "", messages⟩

/-- The command that the words of a command line ask for, and the names of its files. -/
def request (words : List String) : Except Outcome (Command × List String) :=
  match words with
  | [] => .error (.refused usage)
  | word :: paths =>
    if helpWords.contains word then .error (.refused usage)
    else match names.lookup word with
      | none => .error (.refused s!"Unknown command: {word}\n")
      | some command =>
        if paths.isEmpty then .error (.refused "Error: no files specified\n")
        else .ok (command, paths)

/-- What the words of a command line lead to. -/
def run (words : List String) (file : String → File) : Outcome :=
  match request words with
  | .error outcome => outcome
  | .ok (command, paths) =>
    .ofReports (paths.map fun path => command.reportFile path (file path))

end Command

end PipelineLang
