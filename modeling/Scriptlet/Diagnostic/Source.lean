/-!
Lines of a source text. A line feed ends a line, so there is one line more than there
are line feeds.
-/
namespace Scriptlet.Source

def splitLines : List Char → List (List Char)
  | [] => [[]]
  | c :: rest =>
    if c = '\n' then [] :: splitLines rest
    else
      match splitLines rest with
      | [] => [[c]]
      | line :: lines => (c :: line) :: lines

def lines (source : String) : List (List Char) := splitLines source.toList

def lineCount (source : String) : Nat := (lines source).length

def dropTrailing (c : Char) (cs : List Char) : List Char :=
  (cs.reverse.dropWhile (· == c)).reverse

def lineText (source : String) (line : UInt32) : String :=
  match line.toNat with
  | 0 => ""
  | n + 1 => String.ofList (dropTrailing '\r' ((lines source).getD n []))

end Scriptlet.Source
