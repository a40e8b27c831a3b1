import Scriptlet.Diagnostic.Basic
import Scriptlet.Diagnostic.Source
import Scriptlet.Json.Quoted

/-!
Diagnostics for readers: a block of lines for a terminal, with the line in question
quoted, and a JSON object for other programs.
-/
namespace Scriptlet

inductive Style where
  | bold
  | alarm
  | accent
  | faint
  deriving DecidableEq, Repr

def Style.code : Style → String
  | .bold => "1"
  | .alarm => "1;31"
  | .accent => "36"
  | .faint => "2"

def Style.paint (style : Style) (color : Bool) (s : String) : String :=
  if color then "\x1b[" ++ style.code ++ "m" ++ s ++ "\x1b[0m" else s

namespace Diagnostic

def terminalLabel : Severity → String
  | .error => "error"
  | .fatal => "fatal error"

def location (d : Diagnostic) (file : Option String) : String :=
  match file with
  | some file => file ++ ":" ++ toString d.line
  | none => "line " ++ toString d.line

def quotation (d : Diagnostic) (color : Bool) (source : Option String) : String :=
  match source with
  | none => ""
  | some source =>
    let text := Source.lineText source d.line
    if text.isEmpty then ""
    else
      let number := toString d.line
      let pad := String.ofList (List.replicate number.length ' ')
      let rule := Style.accent.paint color "|"
      pad ++ " " ++ rule ++ "\n"
        ++ Style.accent.paint color number ++ " " ++ rule ++ " " ++ text ++ "\n"
        ++ pad ++ " " ++ rule ++ "\n"

def remark (color : Bool) (kind text : String) : String :=
  "  " ++ Style.faint.paint color "=" ++ " " ++ kind ++ ": " ++ text ++ "\n"

def terminal (d : Diagnostic) (color : Bool) (file source : Option String) : String :=
  Style.alarm.paint color (terminalLabel d.severity) ++ "[" ++ d.problem.id ++ "]: "
    ++ Style.bold.paint color d.message ++ "\n"
    ++ "  " ++ Style.accent.paint color "-->" ++ " " ++ d.location file ++ "\n"
    ++ d.quotation color source
    ++ String.join (d.notes.map (remark color "note"))
    ++ String.join (d.suggestion.toList.map (remark color "suggestion"))

def jsonLabel : Severity → String
  | .error => "error"
  | .fatal => "fatal"

def json (d : Diagnostic) : String :=
  Json.writeObject
    ([("code", Json.quoted d.problem.id), ("line", toString d.line),
      ("message", Json.quoted d.message), ("notes", Json.writeArray (d.notes.map Json.quoted)),
      ("severity", Json.quoted (jsonLabel d.severity))]
      ++ d.suggestion.toList.map fun s => ("suggestion", Json.quoted s))

def jsonAll (ds : List Diagnostic) : String :=
  Json.writeObject [("errors", Json.writeArray (ds.map json))]

end Diagnostic

end Scriptlet
