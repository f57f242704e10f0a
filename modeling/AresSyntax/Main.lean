import AresSyntax.Command.Run

/-!
The command `ares-parse`: reads the source that its arguments name and prints the answer.
-/
namespace AresSyntax.Command

/-- Why the system could not read a file. -/
def fileError (e : IO.Error) : FileError :=
  match e with
  | .noFileOrDirectory _ _ _ => .notFound
  | .inappropriateType _ number reason =>
    if number = 20 then .notDirectory
    else if number = 21 then .isDirectory
    else .other number.toNat reason
  | .invalidArgument _ 36 _ => .nameTooLong
  | .permissionDenied _ number _ => .other number.toNat "Permission denied"
  | e => .other 5 (toString e)

def readFile (path : String) : IO (Except FileError ByteArray) :=
  try return .ok (← IO.FS.readBinFile path)
  catch e => return .error (fileError e)

/-- Reads a stream to its end. -/
partial def readStream (stream : IO.FS.Stream) (before : ByteArray) : IO ByteArray := do
  let chunk ← stream.read 65536
  if chunk.isEmpty then return before else readStream stream (before ++ chunk)

def emit (o : Output) : IO UInt32 := do
  IO.print o.stdout
  IO.eprint o.stderr
  return o.status.toUInt32

def Crash.message : Crash → String
  | nullInPath => "ares-parse: " ++ nullInPathMessage
  | undecodable => "ares-parse: the source is not valid UTF-8"
  | tooManyDigits count => "ares-parse: " ++ digitLimitMessage count

/-- Answers a command line, reading what it asks for. -/
def serve (words : List String) : IO UInt32 := do
  match Request.read words with
  | .error stop => emit stop.output
  | .ok r =>
    let text ←
      if r.readsInput then pure (textOf (← readStream (← IO.getStdin) .empty))
      else pure (textAt r.source (← readFile r.source))
    match r.answer text with
    | .ok o => emit o
    | .error crash =>
      IO.print crash.printed
      IO.eprintln crash.message
      return 1

end AresSyntax.Command

/-- Runs the command on its arguments. -/
def main (words : List String) : IO UInt32 := AresSyntax.Command.serve words
