import SimpleLR.Cli
/-!
# The program

Reads the arguments and the grammar text, runs the invocation, and prints what it reports. A
failure that the command line does not report ends the program with status 1 and its kind and
message on standard error.
-/

open SimpleLR

/-- All of a stream, line by line. -/
partial def readStream (h : IO.FS.Stream) (acc : String) : IO String := do
  let line ← h.getLine
  if line.isEmpty then return acc else readStream h (acc ++ line)

/-- The fault that the system reports for a failed read. -/
def faultOf : IO.Error → FileSystem.Fault
  | .alreadyExists _ n w | .otherError n w | .resourceBusy n w | .resourceVanished n w
  | .unsupportedOperation n w | .hardwareFault n w | .unsatisfiedConstraints n w
  | .illegalOperation n w | .protocolError n w | .timeExpired n w | .interrupted _ n w
  | .noFileOrDirectory _ n w | .invalidArgument _ n w | .permissionDenied _ n w
  | .resourceExhausted _ n w | .inappropriateType _ n w | .noSuchThing _ n w =>
    FileSystem.Fault.ofCode n.toNat w
  | .unexpectedEof => .other 5 "Input/output error"
  | .userError w => .other 5 w

/-- The grammar text of an invocation, or the fault met in reading its file. -/
def readSource (inv : Invocation) : IO (Except FileSystem.Fault String) := do
  if inv.readsStandardInput then
    return .ok (← readStream (← IO.getStdin) "")
  match FileSystem.checkName inv.path with
  | .error f => return .error f
  | .ok () =>
    try
      match String.fromUTF8? (← IO.FS.readBinFile inv.path) with
      | some text => return .ok text
      | none => return .error .undecodable
    catch e =>
      return .error (faultOf e)

/-- Prints an outcome and gives its status. -/
def emit (o : Outcome) : IO UInt32 := do
  IO.print o.stdout
  IO.eprint o.stderr
  return o.code.toUInt32

def main (args : List String) : IO UInt32 := do
  match Invocation.ofArgs args with
  | .error msg => emit (usageOutcome msg)
  | .ok inv =>
    match inv.execute (← readSource inv) with
    | .ok o => emit o
    | .error e =>
      IO.eprintln (e.kind.name ++ ": " ++ e.message)
      return 1
