import TapeMachine.Cli.Word
import TapeMachine.Size

/-!
# Invocations

A command line names one source file and sets options, in any order; the last setting of an
option counts.  Switches of one letter may share a word, the last of them may be an option with
its argument (`-vm5`).
-/
namespace TapeMachine.Cli

/-- The argument of an option.  Two dashes attached to an option stand for no argument at all. -/
inductive Argument
  | text (s : String)
  | blank
  deriving DecidableEq, Repr, Inhabited

namespace Argument

def ofText (s : String) : Argument := if s = "--" then blank else text s

def shown : Argument → String
  | text s => s
  | blank => "[]"

def text? : Argument → Option String
  | text s => some s
  | blank => none

end Argument

/-- The settings of a run; a number that is set to nothing is missed when it is needed. -/
structure Options where
  backend : Argument := .text "vm"
  channel : Argument := .text "console"
  size : Option TapeSize := some .default
  bench : Option Int := some 0
  listing : Bool := false
  verbose : Bool := false
  deriving DecidableEq, Repr

def tapeSize (text : String) : Except Fault TapeSize := do
  match TapeSize.ofInt? (← Text.integer text) with
  | some size => return size
  | none => throw (.sizeBelowOne text)

namespace Options

def turnOn (o : Options) : Flag → Options
  | .listing => { o with listing := true }
  | .verbose => { o with verbose := true }
  | _ => o

def set (o : Options) (flag : Flag) (argument : Argument) : Except UsageError Options :=
  match flag, argument with
  | .backend, _ => .ok { o with backend := argument }
  | .channel, _ => .ok { o with channel := argument }
  | .size, .blank => .ok { o with size := none }
  | .size, .text s =>
    match tapeSize s with
    | .ok size => .ok { o with size := some size }
    | .error (.sizeBelowOne _) => .error (.sizeBelowOne s)
    | .error _ => .error (.badSize s)
  | .bench, .blank => .ok { o with bench := none }
  | .bench, .text s =>
    match Text.integer s with
    | .ok n => .ok { o with bench := some n }
    | .error _ => .error (.badCount s)
  | _, _ => .ok o

end Options

inductive Tail
  | switch
  | argument (flag : Flag) (text : String)
  /-- An option whose argument is the next word. -/
  | pending (flag : Flag)
  deriving DecidableEq, Repr, Inhabited

structure Cluster where
  switches : List Flag
  tail : Tail
  deriving DecidableEq, Repr, Inhabited

namespace Cluster

def single (flag : Flag) : Cluster :=
  if flag.takesArgument then ⟨[], .pending flag⟩ else ⟨[flag], .switch⟩

/-- A short option with something attached: its argument, or behind a switch more options. -/
def short (flag : Flag) (attached : List Char) : Except UsageError Cluster :=
  if flag.takesArgument then .ok ⟨[], .argument flag (String.ofList attached)⟩
  else
    match attached with
    | [] => .error (.ignoredArgument flag "")
    | c :: rest =>
      match letter? c, rest with
      | none, _ => .error (.ignoredArgument flag (String.ofList attached))
      | some next, [] => .ok { single next with switches := flag :: (single next).switches }
      | some next, d :: rest' => do
        let more ← short next (d :: rest')
        return { more with switches := flag :: more.switches }
termination_by attached.length

def ofWord (s : Spelling) : Option (List Char) → Except UsageError Cluster
  | none => .ok (single s.flag)
  | some attached =>
    if s.isShort then short s.flag attached
    else if s.flag.takesArgument then .ok ⟨[], .argument s.flag (String.ofList attached)⟩
    else .error (.ignoredArgument s.flag (String.ofList attached))

end Cluster

structure Progress where
  options : Options := {}
  file : Option String := none
  leftOver : List String := []
  deriving DecidableEq, Repr

namespace Progress

def leave (p : Progress) (text : String) : Progress := { p with leftOver := p.leftOver ++ [text] }

def turnOn (p : Progress) (switches : List Flag) : Progress :=
  { p with options := switches.foldl Options.turnOn p.options }

def set (p : Progress) (flag : Flag) (text : String) : Except UsageError Progress := do
  return { p with options := ← p.options.set flag (.ofText text) }

def nextValue? : List Word → Option (String × List Word)
  | .value text :: rest => some (text, rest)
  | _ => none

theorem length_of_nextValue? {words rest : List Word} {text : String}
    (h : nextValue? words = some (text, rest)) : words.length = rest.length + 1 := by
  unfold nextValue? at h
  split at h <;> simp_all

def dropSeparator : List Word → List Word
  | .separator :: rest => rest
  | words => words

theorem length_dropSeparator_le (words : List Word) :
    (dropSeparator words).length ≤ words.length := by
  unfold dropSeparator
  split <;> simp

/-- Takes in all words; `none` means that help is asked for.  The first value is the file, and a
separator next to it goes with it. -/
def takeAll (words : List Word) (p : Progress) : Except UsageError (Option Progress) :=
  match words with
  | [] => .ok (some p)
  | .unknown text :: rest => takeAll rest (p.leave text)
  | .separator :: rest =>
    match h : nextValue? rest with
    | some (file, rest') =>
      have := length_of_nextValue? h
      if p.file.isNone then takeAll rest' { p with file := some file }
      else takeAll rest (p.leave "--")
    | none => takeAll rest (p.leave "--")
  | .value text :: rest =>
    have := length_dropSeparator_le rest
    if p.file.isNone then takeAll (dropSeparator rest) { p with file := some text }
    else takeAll rest (p.leave text)
  | .option spelling attached :: rest => do
    let cluster ← Cluster.ofWord spelling attached
    let p' := p.turnOn cluster.switches
    let help := cluster.switches.contains .help
    match cluster.tail with
    | .switch => if help then return none else takeAll rest p'
    | .argument flag text => if help then return none else takeAll rest (← p'.set flag text)
    | .pending flag =>
      match h : nextValue? rest with
      | some (text, rest') =>
        have := length_of_nextValue? h
        if help then return none else takeAll rest' (← p'.set flag text)
      | none => throw (.noArgument flag)
termination_by words.length

end Progress

structure Invocation where
  options : Options
  file : String
  deriving DecidableEq, Repr

namespace Invocation

/-- Reads a command line; `none` means that help is asked for. -/
def ofWords (words : List String) : Except UsageError (Option Invocation) := do
  match ← Progress.takeAll (← Word.readAll words) {} with
  | none => return none
  | some p =>
    match p.file with
    | none => throw .noFile
    | some file =>
      if p.leftOver.isEmpty then return some ⟨p.options, file⟩
      else throw (.unrecognized p.leftOver)

end Invocation
end TapeMachine.Cli
