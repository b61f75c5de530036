import FormConsole.Screen
import Std.Time

/-!
# The command line

Reads the configuration and the stored data, then one key name a line from standard input, and writes the screen after
every key.  The console is closed by `Esc`, by `C-c` and by the end of the input.
-/

namespace FormConsole.CommandLine

/-- What is found at a path. -/
def readContents (path : String) : IO Contents := do
  try
    return .bytes (← IO.FS.readBinFile path)
  catch
    | .noFileOrDirectory .. => return .absent
    | _ => return .unreadable

/-- A directory of the user: the one that the environment names, else the usual one below the home directory. -/
def userDirectory (name fallback : String) : IO String := do
  match ← IO.getEnv name with
  | some path => return path ++ "/nas-console"
  | none =>
    let home := (← IO.getEnv "HOME").getD ""
    return home ++ "/" ++ fallback ++ "/nas-console"

/-- The local time of day. -/
def timeOfDay : IO TimeOfDay := do
  let now ← Std.Time.PlainDateTime.now
  return ⟨⟨now.time.hour.val.toNat % 24, Nat.mod_lt _ (by decide)⟩,
    ⟨now.time.minute.val.toNat % 60, Nat.mod_lt _ (by decide)⟩⟩

/-- Writes the screen of a console, 80 columns by 24 rows. -/
def writeScreen (output : IO.FS.Stream) (c : Console) : IO Unit := do
  let picture := Screen.picture c 80 24
  for row in List.range 24 do
    output.putStrLn (String.ofList ((picture.rowCells 80 row).map (·.char)))
  output.flush

/-- Takes one key after another, until the console is closed; answers with the exit code. -/
partial def serve (input output : IO.FS.Stream) (source : Source) (c : Console) : IO UInt32 := do
  writeScreen output c
  let line ← input.getLine
  if line.isEmpty then
    return 0
  match Key.ofName? (String.ofList (Text.trim line.toList)) with
  | none => serve input output source c
  | some ⟨.char 'c', true⟩ => return 0
  | some key =>
    match c.press ⟨source, ← timeOfDay⟩ key with
    | (_, .error e) =>
      IO.eprintln ("Error: " ++ e.message)
      return 1
    | (c, .ok ()) => if c.quit then return 0 else serve input output source c

/-- Stops with a message. -/
def fail (message : String) : IO UInt32 := do
  IO.eprintln ("Error: " ++ message)
  return 1

/-- Opens the console. -/
def run : IO UInt32 := do
  let configDirectory ← userDirectory "XDG_CONFIG_HOME" ".config"
  let dataDirectory ← userDirectory "XDG_DATA_HOME" ".local/share"
  match Config.load (← readContents (configDirectory ++ "/config.json")) with
  | .error e => fail e.message
  | .ok config =>
    let path := config.fixturePath (← IO.getEnv "NAS_CONSOLE_FIXTURES") dataDirectory
    match Fixture.load (← readContents path) with
    | .error e => fail e.message
    | .ok fixture =>
      let source := Source.ofFixture fixture
      match Console.start config ⟨source, ← timeOfDay⟩ with
      | .error e => fail e.message
      | .ok c => serve (← IO.getStdin) (← IO.getStdout) source c

end FormConsole.CommandLine

/-- The program. -/
def main : IO UInt32 :=
  FormConsole.CommandLine.run
