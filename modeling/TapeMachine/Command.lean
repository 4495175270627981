/-!
# Commands and sources

A source is a sequence of symbols.  Eight characters are commands and every other symbol is a
remark: it counts towards positions and has no other meaning.

A source file is read byte by byte, each byte being the character with its number.  The three
customary line ends count as one: a carriage return, with or without a line feed behind it, is a
line feed.  The commands of a source file are the command characters among its bytes, whatever line
ends it uses (`commands_sourceOfFile`).
-/
namespace TapeMachine

inductive Command
  | left
  | right
  | increment
  | decrement
  | output
  | input
  | loopStart
  | loopEnd
  deriving DecidableEq, Repr, Inhabited

namespace Command

/-- All commands, in the order in which they are listed to a reader. -/
def all : List Command :=
  [left, right, increment, decrement, output, input, loopStart, loopEnd]

def char : Command → Char
  | left => '<'
  | right => '>'
  | increment => '+'
  | decrement => '-'
  | output => '.'
  | input => ','
  | loopStart => '['
  | loopEnd => ']'

def ofChar? : Char → Option Command
  | '<' => some left
  | '>' => some right
  | '+' => some increment
  | '-' => some decrement
  | '.' => some output
  | ',' => some input
  | '[' => some loopStart
  | ']' => some loopEnd
  | _ => none

theorem char_of_ofChar? {x : Char} {c : Command} (h : ofChar? x = some c) : c.char = x := by
  revert h
  unfold ofChar?
  split <;> rintro ⟨⟩ <;> rfl

end Command

/-- One element of a source: a command, or a text that is none. -/
inductive Symbol
  | command (c : Command)
  | remark (text : String)
  deriving DecidableEq, Repr, Inhabited

namespace Symbol

def ofChar (x : Char) : Symbol :=
  match Command.ofChar? x with
  | some c => command c
  | none => remark (String.singleton x)

/-- A text is a command only if it is exactly one command character. -/
def ofText (text : String) : Symbol :=
  match text.toList with
  | [x] => ofChar x
  | _ => remark text

def text : Symbol → String
  | command c => String.singleton c.char
  | remark t => t

def command? : Symbol → Option Command
  | command c => some c
  | remark _ => none

@[simp] theorem command?_ofChar (x : Char) : (ofChar x).command? = Command.ofChar? x := by
  unfold ofChar
  split <;> simp_all [command?]

end Symbol

def commands (source : List Symbol) : List Command := source.filterMap Symbol.command?

@[simp] theorem commands_map_command (cmds : List Command) :
    commands (cmds.map Symbol.command) = cmds := by
  induction cmds with
  | nil => rfl
  | cons c rest ih => simpa [commands, Symbol.command?] using ih

def symbols (source : String) : List Symbol := source.toList.map Symbol.ofChar

namespace Text

def ofBytes (bytes : List UInt8) : List Char := bytes.map fun b => Char.ofNat b.toNat

/-- What a character stands for behind another: a carriage return stands for a line feed, and a
line feed behind it for nothing. -/
def behind (before c : Char) : Option Char :=
  if c = '\r' then some '\n'
  else if c = '\n' ∧ before = '\r' then none
  else some c

def unifyLineEnds (text : List Char) : List Char :=
  (('\x00' :: text).zip text).filterMap fun (before, c) => behind before c

theorem bind_behind {α : Type} {f : Char → Option α} (feed : f '\n' = none)
    (carriage : f '\r' = none) (before c : Char) : (behind before c).bind f = f c := by
  unfold behind
  split
  · simp_all
  · split <;> simp_all

/-- Whoever takes no notice of line feeds and carriage returns sees the text as it was. -/
theorem filterMap_unifyLineEnds {α : Type} {f : Char → Option α} (feed : f '\n' = none)
    (carriage : f '\r' = none) (text : List Char) :
    (unifyLineEnds text).filterMap f = text.filterMap f := by
  have forget : ∀ a b : List Char, b.length ≤ a.length →
      (a.zip b).filterMap (fun p => f p.2) = b.filterMap f := by
    intro a b le
    rw [← Function.comp_def f, ← List.filterMap_map]
    congr 1
    exact List.map_snd_zip le
  rw [unifyLineEnds, List.filterMap_filterMap]
  simp only [bind_behind feed carriage]
  exact forget _ _ (by simp)

def decode (bytes : List UInt8) : String := String.ofList (unifyLineEnds (ofBytes bytes))

end Text

def sourceOfFile (bytes : List UInt8) : List Symbol := symbols (Text.decode bytes)

theorem commands_map_ofChar (text : List Char) :
    commands (text.map Symbol.ofChar) = text.filterMap Command.ofChar? := by
  rw [commands, List.filterMap_map]
  congr 1
  funext c
  exact Symbol.command?_ofChar c

theorem commands_sourceOfFile (bytes : List UInt8) :
    commands (sourceOfFile bytes) = (Text.ofBytes bytes).filterMap Command.ofChar? := by
  rw [sourceOfFile, symbols, commands_map_ofChar, Text.decode, String.toList_ofList]
  exact Text.filterMap_unifyLineEnds rfl rfl _

end TapeMachine
