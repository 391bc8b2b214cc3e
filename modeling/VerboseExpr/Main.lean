import VerboseExpr.CommandLine.Run

namespace VerboseExpr

/-- The bytes of a text as a string of the operating system. -/
def osString (b : Bytes) : String := String.ofList (Utf8.decode b)

def reasonOf : IO.Error → FileError.Reason
  | .noFileOrDirectory .. => .noSuchFile
  | .permissionDenied _ 13 _ => .permissionDenied
  | .resourceExhausted _ 28 _ => .noSpace
  | .inappropriateType _ 20 _ => .notDirectory
  | .inappropriateType _ 21 _ => .isDirectory
  | e => .other (Bytes.ofString e.toString)

def attempt {α : Type} (operation : String) (path : Bytes) (act : IO α) :
    IO (Except FileError α) := do
  match ← act.toBaseIO with
  | .ok a => return .ok a
  | .error e => return .error ⟨operation, path, reasonOf e⟩

instance : FileSystem IO where
  readFile path := do
    let r ← attempt "open" path (IO.FS.readBinFile (osString path))
    match r with
    | .ok data => return .ok data.toList
    | .error ⟨_, p, .isDirectory⟩ => return .error ⟨"read", p, .isDirectory⟩
    | .error e => return .error e
  writeFile path data := attempt "open" path (IO.FS.writeBinFile (osString path) ⟨data.toArray⟩)
  stat path := attempt "stat" path (discard <| IO.FS.realPath (osString path))

partial def readAll (stream : IO.FS.Stream) (done : ByteArray) : IO Bytes := do
  let more ← stream.read 65536
  if more.isEmpty then return done.toList else readAll stream (done ++ more)

end VerboseExpr

open VerboseExpr in
/-- Runs the program on the arguments of the process. -/
def main (args : List String) : IO UInt32 := do
  let stdout ← IO.getStdout
  let stdin ← IO.getStdin
  let r ← CommandLine.run (← stdout.isTty) (readAll stdin .empty) (args.map Bytes.ofString)
  stdout.write ⟨r.output.toArray⟩
  (← IO.getStderr).write ⟨(r.log ++ r.errors).toArray⟩
  return r.status.toUInt32
