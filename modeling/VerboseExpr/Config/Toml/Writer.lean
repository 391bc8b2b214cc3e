import VerboseExpr.Config.Basic

namespace VerboseExpr.Toml

def escapeByte (b : UInt8) : Bytes :=
  match b.toNat with
  | 0x22 => [0x5C, 0x22]
  | 0x5C => [0x5C, 0x5C]
  | 0x08 => [0x5C, 0x62]
  | 0x09 => [0x5C, 0x74]
  | 0x0A => [0x5C, 0x6E]
  | 0x0C => [0x5C, 0x66]
  | 0x0D => [0x5C, 0x72]
  | n => if n < 0x20 || n = 0x7F then [0x5C, 0x75] ++ Bytes.hex 4 n else [b]

def quoted (b : Bytes) : Bytes := [0x22] ++ b.flatMap escapeByte ++ [0x22]

def entry (key : String) (value : Bytes) : Bytes :=
  Bytes.ofString key ++ Bytes.ofString " = " ++ value ++ [0x0A]

def write (c : Config) : Bytes :=
  entry "name" (quoted c.name) ++ entry "package" (quoted c.package) ++
    entry "output" (quoted c.output) ++ entry "engine" (quoted c.engine) ++
    entry "verbose" (Bytes.ofBool c.verbose) ++ entry "no_color" (Bytes.ofBool c.noColor) ++
    entry "test_file" (Bytes.ofBool c.testFile) ++
    if c.inputs.isEmpty then []
    else
      entry "inputs" (Bytes.ofString "[" ++ Bytes.join (Bytes.ofString ", ") (c.inputs.map quoted) ++
        Bytes.ofString "]")

end VerboseExpr.Toml
