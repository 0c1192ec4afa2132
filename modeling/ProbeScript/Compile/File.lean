import ProbeScript.Compile.Path
import ProbeScript.Compile.Source
import ProbeScript.Text.Utf8

/-!
# Compile/File — compiling a script file

The file is read as UTF-8.  One that cannot be read is reported, and nothing else is done.
-/

namespace ProbeScript

/-- What stands at a path. -/
inductive Entry where
  | file (bytes : List UInt8)
  | directory
  | missing

namespace Entry

/-- The text of the file at a path, or why there is none. -/
def read (path : String) : Entry → Except String String
  | file bytes => .ok (String.ofList (Text.ofUtf8 bytes))
  | directory => .error "Error: EISDIR: illegal operation on a directory, read"
  | missing => .error ("Error: ENOENT: no such file or directory, open \x27" ++ path ++ "\x27")

end Entry

/-- The report of a file that cannot be read. -/
def Diagnostic.unreadable (reason path : String) : Diagnostic :=
  .ofError .readFailed ("Failed to read script: " ++ reason) path

/-- Compiles a script file, its path taken from a directory. -/
def compile {τ : Type} (directory : String) (entries : String → Entry) (path : String)
    (options : Options) (grammar : Grammar τ) (passes : List (Pass τ)) (client : τ) :
    Except Raised Nat × Compilation τ :=
  let path := Path.resolve directory path
  match (entries path).read path with
  | .ok text => compileSource path text options grammar passes client
  | .error reason => (.ok 0, { diagnostics := [.unreadable reason path], client })

end ProbeScript
