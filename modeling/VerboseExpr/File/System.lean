import VerboseExpr.Text.Bytes

namespace VerboseExpr

inductive FileError.Reason where
  | noSuchFile
  | isDirectory
  | notDirectory
  | notEmpty
  | invalidArgument
  | nameTooLong
  | permissionDenied
  | noSpace
  /-- What the operating system says, where it is none of these. -/
  | other (text : Bytes)
  deriving DecidableEq, Repr

def FileError.Reason.text : FileError.Reason → Bytes
  | noSuchFile => "no such file or directory"
  | isDirectory => "is a directory"
  | notDirectory => "not a directory"
  | notEmpty => "directory not empty"
  | invalidArgument => "invalid argument"
  | nameTooLong => "file name too long"
  | permissionDenied => "permission denied"
  | noSpace => "no space left on device"
  | other t => t

structure FileError where
  operation : Bytes
  path : Bytes
  reason : FileError.Reason
  deriving DecidableEq, Repr

def FileError.message (e : FileError) : Bytes :=
  e.operation ++ Bytes.ofString " " ++ e.path ++ Bytes.ofString ": " ++ e.reason.text

class FileSystem (m : Type → Type) where
  readFile : Bytes → m (Except FileError Bytes)
  /-- Gives a file new content; makes it if it is not there. A failure may leave a part of the content. -/
  writeFile : Bytes → Bytes → m (Except FileError Unit)
  stat : Bytes → m (Except FileError Unit)

end VerboseExpr
