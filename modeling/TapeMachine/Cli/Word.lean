import TapeMachine.Cli.Flag
import TapeMachine.Text.Numeral

/-!
# Words of a command line

Each word is a value, an option, or the separator `--`, behind which all words are values.  Long
options may be shortened as long as one option fits, and an argument may be attached to an
option: `--size=5`, `-m=5` or `-m5`.
-/
namespace TapeMachine.Cli

inductive UsageError
  /-- A shortened option may stand for several. -/
  | ambiguous (word : String) (candidates : List String)
  | noArgument (flag : Flag)
  /-- A switch was given an argument. -/
  | ignoredArgument (flag : Flag) (argument : String)
  | badSize (argument : String)
  | sizeBelowOne (argument : String)
  | badCount (argument : String)
  | noFile
  /-- Words that are no options, and words left over. -/
  | unrecognized (words : List String)
  deriving DecidableEq, Repr, Inhabited

namespace UsageError

def about (flag : Flag) (text : String) : String := "argument " ++ flag.display ++ ": " ++ text

def message : UsageError → String
  | ambiguous word candidates =>
    "ambiguous option: " ++ word ++ " could match " ++ ", ".intercalate candidates
  | noArgument flag => about flag "expected one argument"
  | ignoredArgument flag argument =>
    about flag ("ignored explicit argument " ++ Text.quote argument)
  | badSize argument => about .size ("invalid memory_size value: " ++ Text.quote argument)
  | sizeBelowOne argument => about .size ("tape size must be at least 1, got " ++ argument)
  | badCount argument => about .bench ("invalid int value: " ++ Text.quote argument)
  | noFile => "the following arguments are required: file"
  | unrecognized words => "unrecognized arguments: " ++ " ".intercalate words

end UsageError

inductive Word
  | value (text : String)
  | separator
  | option (spelling : Spelling) (attached : Option (List Char))
  /-- A word that looks like an option and is none. -/
  | unknown (text : String)
  deriving DecidableEq, Repr, Inhabited

/-- A digit string, or one with a point before its last digits. -/
def isUnsignedNumber (text : List Char) : Bool :=
  match text.span Text.isDigit with
  | (whole, []) => !whole.isEmpty
  | (_, '.' :: fraction) => !fraction.isEmpty && fraction.all Text.isDigit
  | _ => false

def dropFinalLineFeed (text : List Char) : List Char :=
  if text.getLast? = some '\n' then text.dropLast else text

/-- Negative numbers are values although they begin with a dash. -/
def isNegativeNumber : List Char → Bool
  | '-' :: rest => isUnsignedNumber (dropFinalLineFeed rest)
  | _ => false

/-- The parts of a word before and behind its first equals sign. -/
def splitEquals (word : List Char) : List Char × Option (List Char) :=
  match word.span (· != '=') with
  | (name, _ :: rest) => (name, some rest)
  | (name, []) => (name, none)

def spelled? (name : List Char) : Option Spelling := spellings.find? (·.text.toList == name)

/-- The options that a word may stand for if it is not spelled out. -/
def candidates : List Char → List Word
  | '-' :: '-' :: rest =>
    let (name, attached) := splitEquals ('-' :: '-' :: rest)
    (spellings.filter fun s => name.isPrefixOf s.text.toList).map (Word.option · attached)
  | '-' :: c :: rest =>
    (spellings.filter (·.text.toList == ['-', c])).map (Word.option · (some rest))
  | _ => []

namespace Word

/-- The option that is spelled out in a word, with or without an attached argument. -/
def spelledOut? (word : List Char) : Option Word :=
  match spelled? word with
  | some s => some (option s none)
  | none =>
    match splitEquals word with
    | (name, some attached) => (spelled? name).map fun s => option s (some attached)
    | _ => none

def spelling : Word → String
  | option s _ => s.text
  | _ => ""

def read (text : String) : Except UsageError Word :=
  let word := text.toList
  match word with
  | '-' :: _ :: _ =>
    match spelledOut? word with
    | some w => .ok w
    | none =>
      match candidates word with
      | [w] => .ok w
      | [] => .ok (if isNegativeNumber word || word.contains ' ' then value text else unknown text)
      | several => .error (.ambiguous text (several.map spelling))
  | _ => .ok (value text)

def readAll : List String → Except UsageError (List Word)
  | [] => .ok []
  | "--" :: rest => .ok (separator :: rest.map value)
  | text :: rest => do
    let w ← read text
    return w :: (← readAll rest)

end Word
end TapeMachine.Cli
