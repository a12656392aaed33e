import DisplayList.Dump

namespace DisplayList

/-- Depending on the operation, the system's code comes with its sign turned. -/
def FileError.ofSystem : IO.Error → FileError
  | .noFileOrDirectory .. => .notFound
  | e@(.inappropriateType _ code _) =>
    if code = 20 ∨ code = -20 then .notDirectory
    else if code = 21 ∨ code = -21 then .isDirectory
    else .other (toString e)
  | e@(.invalidArgument _ code _) => if code = 36 ∨ code = -36 then .nameTooLong else .other (toString e)
  | e => .other (toString e)

def Files.system : Files IO where
  read path := do return (← (IO.FS.readBinFile path).toBaseIO).mapError .ofSystem
  write path text := do return (← (IO.FS.writeFile path text).toBaseIO).mapError .ofSystem

end DisplayList

def main (args : List String) : IO UInt32 := do
  let outcome ← DisplayList.dump .system args
  IO.print outcome.out
  IO.eprint outcome.err
  return outcome.exitCode.toUInt32
