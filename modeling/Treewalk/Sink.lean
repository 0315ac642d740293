/-! Sinks: where printed lines go. -/

namespace Treewalk

/-- A buffer keeps its lines for later reading; a console has written its lines out, each ended by a
line break. -/
inductive Sink where
  | buffer (lines : Array String)
  | console (written : String)
deriving DecidableEq, Inhabited

namespace Sink

/-- Writes one line. -/
def writeLine : Sink → String → Sink
  | buffer lines, line => buffer (lines.push line)
  | console written, line => console (written ++ line ++ "\n")

/-- The lines kept, oldest first. -/
def lines : Sink → List String
  | buffer lines => lines.toList
  | console _ => []

/-- The text of some lines, each ended by a line break. -/
def textOf (lines : List String) : String := lines.foldl (fun text line => text ++ line ++ "\n") ""

/-- The text kept. -/
def output (s : Sink) : String := textOf s.lines

@[simp] theorem lines_writeLine (kept : Array String) (line : String) :
    ((buffer kept).writeLine line).lines = (buffer kept).lines ++ [line] := by
  simp [writeLine, lines]

theorem textOf_append_singleton (ls : List String) (line : String) :
    textOf (ls ++ [line]) = textOf ls ++ line ++ "\n" := by
  simp [textOf, List.foldl_append]

/-- Forgets the lines kept; what a console wrote stays written. -/
def clear : Sink → Sink
  | buffer _ => buffer #[]
  | console written => console written

end Sink

end Treewalk
