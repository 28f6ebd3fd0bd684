import UntypedLambda.CommandLine

/-! # The program

Reads files and the standard input, and prints what the command answers. -/
set_option autoImplicit false

open UntypedLambda UntypedLambda.CommandLine

namespace UntypedLambda.CommandLine

/-! ## Time -/

/-- A decimal with two places, from a number of hundredths. -/
def hundredths (n : Nat) : String :=
  let fraction := toString (n % 100)
  toString (n / 100) ++ "." ++ (if fraction.length < 2 then "0" ++ fraction else fraction)

def Timing.ofMicroseconds (n : Nat) : Timing :=
  { elapsed := toString n ++ "µs"
    speed := fun count =>
      if n = 0 then "" else " (" ++ hundredths (count * 100000000 / n) ++ " ops/sec)" }

/-! ## Files and streams -/

def readFile (path : String) : IO (Except String String) := do
  try
    return .ok (← IO.FS.readFile path)
  catch _ =>
    return .error ("open " ++ path ++ ": no such file or directory")

def put (p : Printed) : IO Unit := do
  (← IO.getStdout).putStr p.out
  (← IO.getStderr).putStr p.err

def complain (message : String) : IO Unit := do
  (← IO.getStderr).putStr message

/-- Executes a text, prints the report, and tells whether all went well. -/
def executeTimed (f : Flags) (colour : Bool) (session : Session) (source : String) :
    IO (Bool × Session) := do
  let started ← IO.monoNanosNow
  let (replies, session) := session.exec source
  let ok := succeeded replies
  let finished ← IO.monoNanosNow
  put (report f colour (.ofMicroseconds ((finished - started) / 1000)) replies session)
  return (ok, session)

/-! ## Ways of running -/

partial def converseOn (colour : Bool) (session : Session) : IO UInt32 := do
  let out ← IO.getStdout
  out.putStr prompt
  out.flush
  let line ← (← IO.getStdin).getLine
  if line.isEmpty then
    out.putStrLn ""
    return 0
  let (found, session) := answers colour session (Input.lines line)
  out.putStr (prompt.intercalate found)
  converseOn colour session

/-- Looks at the file five times a second and runs it whenever it has changed. -/
partial def watchFile (f : Flags) (colour : Bool) (path : String) (session : Session)
    (seen : Option (Except String String)) : IO UInt32 := do
  let current ← readFile path
  let changed := match seen, current with
    | some (.ok old), .ok new => old != new
    | some (.error _), .error _ => false
    | _, _ => true
  if !changed then
    IO.sleep 200
    watchFile f colour path session seen
  else
    if seen.isSome then complain ("\n-- " ++ path ++ " changed --\n")
    match current with
    | .error message =>
      complain ("Error reading file: " ++ message ++ "\n")
      watchFile f colour path session (some current)
    | .ok source =>
      let (_, session) ← executeTimed f colour session source
      watchFile f colour path session (some current)

def runOn (f : Flags) (rest : List String) (session : Session) : IO UInt32 := do
  let stdin ← IO.getStdin
  let colour ← (← IO.getStdout).isTty
  if f.repl || (rest.isEmpty && (← stdin.isTty)) then
    (← IO.getStdout).putStr banner
    return ← converseOn colour (converse session)
  match rest with
  | [] =>
    if f.watch then
      complain "Error: -watch needs a file\n"
      return 2
    let source ← stdin.readToEnd
    let (ok, _) ← executeTimed f colour session source
    return if ok then 0 else 1
  | path :: _ =>
    if f.watch then return ← watchFile f colour path session none
    match ← readFile path with
    | .error message =>
      complain ("Error reading file: " ++ message ++ "\n")
      return 1
    | .ok source =>
      let (ok, _) ← executeTimed f colour session source
      return if ok then 0 else 1

end UntypedLambda.CommandLine

def main (args : List String) : IO UInt32 := do
  match parseFlags {} args with
  | .error e =>
    complain e.message
    return 2
  | .ok (f, rest) =>
    let settings ← if f.config = "" then pure (.ok "") else readFile f.config
    match start f fun _ => settings with
    | .error message =>
      complain ("Error: " ++ message ++ "\n")
      return 1
    | .ok session => runOn f rest session
