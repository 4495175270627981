import TapeMachine.Compile
import TapeMachine.Report
import TapeMachine.Size

/-!
# Backends

A backend translates a source, keeps the outcome, and runs it on a channel as often as wanted.
One compiles, one carries out the source as it is, and a plain one does neither.
-/
namespace TapeMachine

/-- What a backend has kept from its translations. -/
inductive Engine
  | plain
  | compiled (code : Option (Array Op))
  | direct (code : Option (Array Symbol)) (loops : Option LoopTable)
  deriving DecidableEq, Repr, Inhabited

namespace Engine

def named? : String → Option Engine
  | "vm" => some (compiled none)
  | "naive" => some (direct none none)
  | _ => none

end Engine

structure Backend where
  name : String
  size : TapeSize
  engine : Engine
  deriving DecidableEq, Repr

/-- A backend after a translation, and why the translation failed if it did. -/
structure Translated where
  backend : Backend
  fault : Option Fault
  log : List Event
  deriving DecidableEq, Repr

namespace Backend

def make (engine : Engine) (name : String) (size : SizeRequest) : Except Fault Backend := do
  return ⟨name, ← size.resolve, engine⟩

/-- Translates a source.  A failed compilation leaves the program that was there; the direct
backend has exchanged its source by then and keeps its loop table. -/
def translate (b : Backend) (source : List Symbol) : Translated :=
  match b.engine with
  | .plain => ⟨b, some .notSupported, []⟩
  | .compiled _ =>
    match compile source with
    | .error f => ⟨b, some f, []⟩
    | .ok code =>
      ⟨{ b with engine := .compiled (some code) }, none,
        [.compiled (commands source).length code.size]⟩
  | .direct _ loops =>
    let code := source.toArray
    match LoopTable.ofSource source with
    | .error f => ⟨{ b with engine := .direct (some code) loops }, some f, []⟩
    | .ok loops => ⟨{ b with engine := .direct (some code) (some loops) }, none, []⟩

/-- Runs what has been translated; `none` if the run has not ended within the limit.  The
compiled program is looked at only when its tape has been made. -/
def run (limit : Nat) (b : Backend) (channel : Channel) : Option Report :=
  match b.engine with
  | .plain => some (.refused .notSupported channel)
  | .compiled none => some (.refused ((Room.refusal? b.size.val).getD .nothingTranslated) channel)
  | .compiled (some code) => Compiled.report limit code b.size.val channel
  | .direct (some code) (some loops) => Direct.report limit code loops b.size.val channel
  | .direct _ _ => some (.refused .nothingMatched channel)

end Backend

def Backend.choose (kind : Option String) (name : String) (size : SizeRequest) :
    Except Fault (Option Backend) :=
  match kind with
  | none => .error (.noSetting "backend")
  | some kind =>
    match Engine.named? kind with
    | none => .ok none
    | some engine => some <$> make engine name size

/-- The channel that users know by a name, holding the input given. -/
def Channel.named? (input : List Char) : String → Option Channel
  | "console" => some (.console input "")
  | "null" => some .null
  | _ => none

def Channel.choose (kind : Option String) (input : List Char) : Except Fault (Option Channel) :=
  match kind with
  | none => .error (.noSetting "io")
  | some kind => .ok (named? input kind)

end TapeMachine
