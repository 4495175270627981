import Mathlib.Data.List.Basic
import TapeMachine.Cli.Outcome

/-!
# Command bytes

Of the bytes of a source file only those of the eight command characters count. What stands between
them, line ends of every kind included, has no effect on anything that an invocation does.
-/
namespace TapeMachine

/-- The bytes of the command characters `<`, `>`, `+`, `-`, `.`, `,`, `[` and `]`. -/
def commandCodes : List UInt8 := [0x3C, 0x3E, 0x2B, 0x2D, 0x2E, 0x2C, 0x5B, 0x5D]

/-- The bytes of a file that are command characters. -/
def commandBytes (bytes : List UInt8) : List UInt8 := bytes.filter (· ∈ commandCodes)

namespace Command

/-- The command of a byte, if it has one. -/
def ofByte? (b : UInt8) : Option Command := ofChar? (Char.ofNat b.toNat)

def byte (c : Command) : UInt8 := UInt8.ofNat c.char.toNat

theorem byte_mem_commandCodes (c : Command) : c.byte ∈ commandCodes := by
  cases c <;> decide

theorem toNat_ofNat_byte (b : UInt8) : (Char.ofNat b.toNat).toNat = b.toNat := by
  have hvalid : b.toNat.isValidChar := .inl (by have := b.toNat_lt; omega)
  rw [Char.ofNat, dif_pos hvalid]
  rfl

theorem byte_of_ofByte? {b : UInt8} {c : Command} (h : ofByte? b = some c) : c.byte = b := by
  rw [byte, char_of_ofChar? h, toNat_ofNat_byte, UInt8.ofNat_toNat]

end Command

/-- The commands of a file are those of its command bytes. -/
theorem commands_sourceOfFile_eq (bytes : List UInt8) :
    commands (sourceOfFile bytes) = (commandBytes bytes).filterMap Command.ofByte? := by
  have hother : ∀ b, b ∉ commandCodes → Command.ofByte? b = none := by
    intro b hb
    by_contra hne
    obtain ⟨c, hc⟩ := Option.ne_none_iff_exists'.mp hne
    exact hb (Command.byte_of_ofByte? hc ▸ c.byte_mem_commandCodes)
  rw [commands_sourceOfFile, Text.ofBytes, List.filterMap_map, commandBytes, List.filterMap_filter]
  congr 1
  funext b
  by_cases hb : b ∈ commandCodes
  · simp only [hb, decide_true, if_true]
    rfl
  · simp only [hb, decide_false, Bool.false_eq_true, if_false]
    exact hother b hb

namespace Cli

/-- What the program does with a command line: a usage error, the help page, or an outcome, unless the
run has not ended within the limit. -/
def respond (limit : Nat) (words : List String) (content : Option (List UInt8))
    (input : List Char) (times : String) : Except UsageError (Option (Option Outcome)) :=
  (Invocation.ofWords words).map fun i => i.map fun i => i.outcome limit content input times

/-- Preparations depend on the commands of the source alone. -/
theorem Invocation.plan_congr (i : Invocation) (input : List Char) {bytes bytes' : List UInt8}
    (h : commands (sourceOfFile bytes) = commands (sourceOfFile bytes')) :
    i.plan (some bytes) input = i.plan (some bytes') input := by
  simp only [plan, planFile, h]

/-- Files with the same command bytes cannot be told apart by any command line: status, text and log
are the same, or neither run has ended. -/
theorem respond_eq_of_commandBytes_eq (limit : Nat) (words : List String) (input : List Char)
    (times : String) {bytes bytes' : List UInt8} (h : commandBytes bytes = commandBytes bytes') :
    respond limit words (some bytes) input times =
      respond limit words (some bytes') input times := by
  have hcommands : commands (sourceOfFile bytes) = commands (sourceOfFile bytes') := by
    rw [commands_sourceOfFile_eq, commands_sourceOfFile_eq, h]
  have houtcome (i : Invocation) :
      i.outcome limit (some bytes) input times = i.outcome limit (some bytes') input times := by
    rw [Invocation.outcome, Invocation.outcome, i.plan_congr input hcommands]
  simp only [respond, houtcome]

/-- In the file `é+`, carriage return, line feed, `.` only `+.` counts. -/
theorem respond_remark_and_lineEnd :
    commandBytes [0xE9, 0x2B, 0x0D, 0x0A, 0x2E] = commandBytes [0x2B, 0x2E] ∧
      respond 10 ["-v", "--backend=naive", "p.bf"] (some [0xE9, 0x2B, 0x0D, 0x0A, 0x2E]) [] "" =
        respond 10 ["-v", "--backend=naive", "p.bf"] (some [0x2B, 0x2E]) [] "" :=
  ⟨by decide, respond_eq_of_commandBytes_eq _ _ _ _ (by decide)⟩

end Cli
end TapeMachine
