import SchemaLang.Command

/-! The command line on real files. -/

namespace SchemaLang

/-- A file that cannot be read counts as one that is not there. -/
def readFile? (path : String) : IO (Option ByteArray) := do
  try
    let bytes ← IO.FS.readBinFile path
    pure (some bytes)
  catch _ => pure none

end SchemaLang

def main (args : List String) : IO UInt32 := do
  let some command := SchemaLang.Command.ofArgs? args
    | IO.eprintln "usage: ast FILE [-o OUT] | check FILE..."
      return 2
  let contents ← command.inputs.mapM fun path => do
    let bytes ← SchemaLang.readFile? path
    pure (SchemaLang.Directory.plainName path, bytes)
  let run := command.run fun name => (contents.lookup name).join
  IO.print run.stdout
  IO.eprint run.stderr
  if let some (path, text) := run.written then
    IO.FS.writeFile path text
  return run.code.toUInt32
