import Sable.Command

/-! The program: reads the file that the command line names, prints the answer. -/
namespace Sable

/-- What the operating system says of an error. Some calls give the code with its sign turned, and
the description without its capital. -/
def ReadFault.ofSystem (code : UInt32) (description : String) : ReadFault :=
  .system code.toInt32.toInt.natAbs description.capitalize

def ReadFault.ofError : IO.Error → ReadFault
  | .alreadyExists _ code details | .otherError code details | .resourceBusy code details
  | .resourceVanished code details | .unsupportedOperation code details
  | .hardwareFault code details | .unsatisfiedConstraints code details
  | .illegalOperation code details | .protocolError code details | .timeExpired code details
  | .interrupted _ code details | .noFileOrDirectory _ code details
  | .invalidArgument _ code details | .permissionDenied _ code details
  | .resourceExhausted _ code details | .inappropriateType _ code details
  | .noSuchThing _ code details => ofSystem code details
  | .unexpectedEof => .system 0 "unexpected end of file"
  | .userError details => .system 0 details

/-- What a file holds, or why it cannot be read. -/
def readContent (file : String) : BaseIO (Except ReadFault ByteArray) := do
  pure ((← (IO.FS.readBinFile file).toBaseIO).mapError .ofError)

/-- Does what the arguments ask for; the result is the exit code. -/
def perform (arguments : List String) : IO UInt32 := do
  let response ← match Invocation.ofArguments? arguments with
    | some invocation => do pure (invocation.respond (← readContent invocation.file))
    | none => pure .misuse
  (← IO.getStdout).putStr response.stdout
  (← IO.getStderr).putStr response.stderr
  pure (UInt32.ofNat response.code)

end Sable

def main (arguments : List String) : IO UInt32 := Sable.perform arguments
