/-!
# Command line options

The options and their spellings.  A spelling has one dash and a letter, or two dashes and a word.
The help page has the usage line, broken where it gets too long, and a table of the file and the
options.
-/
namespace TapeMachine.Cli

inductive Flag
  | help
  | backend
  | channel
  | size
  | bench
  | listing
  | verbose
  deriving DecidableEq, Repr, Inhabited

structure Spelling where
  text : String
  flag : Flag
  deriving DecidableEq, Repr, Inhabited

/-- All spellings, in the order in which they are listed to a reader. -/
def spellings : List Spelling :=
  [⟨"-h", .help⟩, ⟨"--help", .help⟩, ⟨"--backend", .backend⟩, ⟨"--io", .channel⟩, ⟨"-m", .size⟩,
    ⟨"--memory-size", .size⟩, ⟨"--bench", .bench⟩, ⟨"--dump", .listing⟩, ⟨"-v", .verbose⟩,
    ⟨"--verbose", .verbose⟩]

def letter? (c : Char) : Option Flag :=
  (spellings.find? fun s => s.text.toList == ['-', c]).map (·.flag)

namespace Spelling

def isShort (s : Spelling) : Bool := s.text.length == 2

end Spelling

namespace Flag

/-- Options without an argument are switches. -/
def takesArgument : Flag → Bool
  | backend | channel | size | bench => true
  | help | listing | verbose => false

/-- All spellings of an option, as it is named in messages. -/
def display (f : Flag) : String :=
  "/".intercalate ((spellings.filter (·.flag == f)).map (·.text))

def argumentName : Flag → String
  | backend => "BACKEND"
  | channel => "IO"
  | size => "MEMORY_SIZE"
  | bench => "N"
  | _ => ""

def description : Flag → String
  | help => "show this help message and exit"
  | backend => "Define backend, default \"vm\""
  | channel => "I/O channel: console or null, default \"console\""
  | size => "Tape size in cells, default 30000"
  | bench => "Run N times with discarded output and report timings"
  | listing => "Print compiled operations instead of running"
  | verbose => "Debug logging"

def all : List Flag := [help, backend, channel, size, bench, listing, verbose]

def withArgument (f : Flag) (spelling : String) : String :=
  if f.takesArgument then spelling ++ " " ++ f.argumentName else spelling

def invocations (f : Flag) : List String :=
  (spellings.filter (·.flag == f)).map fun s => f.withArgument s.text

end Flag

namespace Help

def width : Nat := 78

/-- The column in which descriptions begin. -/
def descriptionColumn : Nat := 24

def blanks (n : Nat) : String := String.ofList (List.replicate n ' ')

/-- Sets words into lines behind `indent` columns as long as they fit; `line` is the line begun. -/
def fill (indent : Nat) (line : String) : List String → List String
  | [] => [line]
  | word :: rest =>
    if line.length + 1 + word.length > width then line :: fill indent (blanks indent ++ word) rest
    else fill indent (line ++ " " ++ word) rest

def usage (program : String) : List String :=
  let start := "usage: " ++ program
  let indent := start.length + 1
  let words := Flag.all.map fun f => "[" ++ (f.invocations.headD "") ++ "]"
  fill indent start words ++ [blanks indent ++ "file"]

/-- An entry of the table: what to write, and what it does, on a line of its own if need be. -/
def entry (written description : String) : List String :=
  let line := "  " ++ written
  if line.length + 2 ≤ descriptionColumn then
    [line ++ blanks (descriptionColumn - line.length) ++ description]
  else [line, blanks descriptionColumn ++ description]

def page (program : String) : String :=
  let lines := usage program ++ ["", "Optimizing BrainFuck virtual machine", "",
    "positional arguments:"] ++ entry "file" "BrainFuck source file" ++ ["", "options:"] ++
    Flag.all.flatMap fun f => entry (", ".intercalate f.invocations) f.description
  "\n".intercalate lines ++ "\n"

end Help
end TapeMachine.Cli
