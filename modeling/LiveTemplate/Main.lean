import LiveTemplate.Cli.Run

/-!
# The command

Reads the files that the arguments name, and standard input where no file is named.
-/
namespace LiveTemplate.Cli

def usage : String :=
  "Parse and render markup templates with placeholders\n\n" ++
  "Arguments:\n" ++
  "  [FILE]                 Template file (standard input if not given)\n\n" ++
  "Options:\n" ++
  "  -c, --config <FILE>    Options of the markup (TOML)\n" ++
  "  -v, --value <VALUE>    Value for the next placeholder (repeatable)\n" ++
  "  -t, --tree             Print the parsed template\n" ++
  "  -l, --live             Render into a document and print its markup\n" ++
  "      --self-close-void  Write childless void elements as <br/>\n" ++
  "  -h, --help             Print this help\n"

/-- The number of a system error, which may be given negated. -/
def errorNumber (code : UInt32) : UInt32 := min code (0 - code)

def fileErrorOf : IO.Error → FileError
  | .inappropriateType _ code _ =>
      if errorNumber code == 20 then .notDirectory else .isDirectory
  | .permissionDenied .. => .permissionDenied
  | .invalidArgument _ code _ => if errorNumber code == 36 then .nameTooLong else .notFound
  | _ => .notFound

def readFile (path : String) : IO (Except FileError ByteArray) := do
  try
    pure (.ok (← IO.FS.readBinFile path))
  catch e => pure (.error (fileErrorOf e))

/-- All of standard input. -/
partial def readAll (stream : IO.FS.Stream) (bytes : ByteArray) : IO ByteArray := do
  let more ← stream.read 65536
  if more.isEmpty then pure bytes else readAll stream (bytes ++ more)

/-- A report in one line, and below it the location and the hint. -/
def reportText (r : Report) : String :=
  let place := (r.location.map fun l => "  " ++ l ++ "\n").getD ""
  let hint := (r.hint.map fun h => "  " ++ h ++ "\n").getD ""
  r.message ++ "\n" ++ place ++ hint

def conclude : Outcome → IO UInt32
  | .printed text => do
      (← IO.getStdout).putStr text
      pure 0
  | .failed message => do
      (← IO.getStderr).putStr message
      pure 1
  | .reported report => do
      (← IO.getStderr).putStr (reportText report)
      pure 1

end LiveTemplate.Cli

open LiveTemplate.Cli in
def main (args : List String) : IO UInt32 := do
  let stdin ← IO.getStdin
  match Request.ofArguments args with
  | .misused => do
      (← IO.getStderr).putStr usage
      pure 2
  | .help => do
      (← IO.getStdout).putStr usage
      pure 0
  | .run a =>
      if a.input.isNone && (← stdin.isTty) then
        (← IO.getStdout).putStr usage
        return 0
      let config ← a.config.mapM readFile
      let input ←
        match a.input with
        | some path => readFile path
        | none => do pure (.ok (← readAll stdin ByteArray.empty))
      conclude (run a config input)
