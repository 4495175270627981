/-!
# The catalogue

What the machine offers by name.  A component is asked for by a name and a suffix that together
make up its key; keys are in lower case and asking in another case finds nothing.  Some families of
components can be asked for as a whole.
-/
namespace TapeMachine

inductive Component
  | operations
  | wrap
  | machineFault
  | compilationFault
  | rangeFault
  | inputFault
  | filter
  | peephole
  | linking
  | compilation
  | listing
  | backend
  | compiledBackend
  | execution
  | directBackend
  | channel
  | nullChannel
  | consoleChannel
  | bufferChannel
  | faults
  | compilers
  | compiledMachine
  | directMachine
  | channels
  deriving DecidableEq, Repr, Inhabited

namespace Component

def all : List Component :=
  [operations, wrap, machineFault, compilationFault, rangeFault, inputFault, filter, peephole,
    linking, compilation, listing, backend, compiledBackend, execution, directBackend, channel,
    nullChannel, consoleChannel, bufferChannel, faults, compilers, compiledMachine, directMachine,
    channels]

def key : Component → String
  | operations => "vmops"
  | wrap => "wrap"
  | machineFault => "vmerror"
  | compilationFault => "compileerror"
  | rangeFault => "taperangeerror"
  | inputFault => "inputerror"
  | filter => "parse"
  | peephole => "optimize"
  | linking => "resolve_jumps"
  | compilation => "bf_compile"
  | listing => "dump"
  | backend => "backend"
  | compiledBackend => "vmbackend"
  | execution => "execute"
  | directBackend => "naivebackend"
  | channel => "channel"
  | nullChannel => "nullchannel"
  | consoleChannel => "consolechannel"
  | bufferChannel => "bufferchannel"
  | faults => "errors"
  | compilers => "compiler"
  | compiledMachine => "vm"
  | directMachine => "naive"
  | channels => "channels"

def find? (name suffix : String) : Option Component := all.find? (·.key == name ++ suffix)

end Component
end TapeMachine
