/-! Layout: how lines are ended and indented. Levels and widths are natural numbers; those of a
machine word are meant, with sums and products that stay below its overflow. -/

namespace NixSource

/-- How a line ends: with a line feed, or a carriage return before it. -/
inductive Newline where
  | lf
  | crlf
deriving DecidableEq

def Newline.text : Newline → List Char
  | lf => ['\n']
  | crlf => ['\r', '\n']

/-- The layout of printed source: spaces per level, or one tab per level instead, and the line
ends. -/
structure Layout where
  indentWidth : Nat := 2
  useTabs : Bool := false
  newline : Newline := .lf
deriving DecidableEq

def Layout.indent (layout : Layout) (level : Nat) : List Char :=
  if layout.useTabs then List.replicate level '\t'
  else List.replicate (level * layout.indentWidth) ' '

end NixSource
