import LogoLang.Command

/-!
The command line program.
-/

set_option autoImplicit false

namespace LogoLang

/-- More steps than any run gets to. -/
def stepLimit : Nat := 0x4000000000000000

def failureText : IO.Error → String
  | .alreadyExists _ code text | .invalidArgument _ code text | .resourceExhausted _ code text
  | .inappropriateType _ code text | .noSuchThing _ code text | .interrupted _ code text
  | .otherError code text | .resourceBusy code text | .resourceVanished code text
  | .unsupportedOperation code text | .hardwareFault code text | .unsatisfiedConstraints code text
  | .illegalOperation code text | .protocolError code text | .timeExpired code text =>
    text ++ " (os error " ++ Text.natText code.toNat ++ ")"
  | e => toString e

def readSource (path : String) : IO (Except ReadFault String) := do
  try
    let bytes ← IO.FS.readBinFile path
    return match String.fromUTF8? bytes with
      | some text => .ok text
      | none => .error .notText
  catch e =>
    return match e with
      | .noFileOrDirectory .. => .error .notFound
      | .permissionDenied .. => .error .denied
      | e => .error (.other (failureText e))

def respond (args : List String) : IO UInt32 := do
  let request := Request.ofArgs args
  let source ← match request.path? with
    | some path => readSource path
    | none => pure (.error .notFound)
  let response := request.answer stepLimit fun _ => source
  (← IO.getStdout).putStr response.out
  (← IO.getStderr).putStr response.err
  return response.code.toUInt32

end LogoLang

def main (args : List String) : IO UInt32 := LogoLang.respond args
