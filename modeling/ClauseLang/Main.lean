import ClauseLang.CommandLine

namespace ClauseLang.CommandLine

/-- Everything that a stream has left. -/
partial def readAll (stream : IO.FS.Stream) (text : String) : IO String := do
  let line ← stream.getLine
  if line.isEmpty then return text else readAll stream (text ++ line)

def causeOf : IO.Error → String
  | .noFileOrDirectory _ _ _ => "No such file or directory (os error 2)"
  | e => toString e

def readSource (file : Option String) : IO (Except String String) := do
  try
    match file with
    | some path => return .ok (← IO.FS.readFile ⟨path⟩)
    | none => return .ok (← readAll (← IO.getStdin) "")
  catch e => return .error (causeOf e)

def finish : Ending → IO UInt32
  | .success output => do
    IO.print output
    return 0
  | .failure output error => do
    IO.print output
    IO.eprint error.report
    return 1
  | .crash output => do
    IO.print output
    return 101

def start (args : List String) : IO UInt32 := do
  match readArguments {} args with
  | .error e => finish (.failure "" e)
  | .ok .help => finish (.success (usage ++ "\n"))
  | .ok (.run options) => finish (respond options (← readSource options.file))

end ClauseLang.CommandLine

def main (args : List String) : IO UInt32 :=
  ClauseLang.CommandLine.start args
