/-!
# Compile/Path — absolute paths in normal form

A path is a sequence of names.  Empty names and single dots stand for nothing, and two dots take the
name before them away.
-/

namespace ProbeScript.Path

/-- Follows one name from the directory whose names are given, the innermost first. -/
def follow (names : List String) (name : String) : List String :=
  if name = "" ∨ name = "." then names else if name = ".." then names.tail else name :: names

/-- The names of an absolute path, the innermost first. -/
def names (path : String) : List String := (path.splitOn "/").foldl follow []

/-- The absolute path of a sequence of names, the innermost first. -/
def ofNames (names : List String) : String := "/" ++ String.intercalate "/" names.reverse

/-- The absolute path in normal form of a path taken from a directory. -/
def resolve (directory path : String) : String :=
  ofNames (names (if path.startsWith "/" then path else directory ++ "/" ++ path))

end ProbeScript.Path
