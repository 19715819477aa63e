/-!
# Styled output

Text with color and weight, written with the escape sequences of terminals, and when to use them.
-/

namespace Coroutine.Cli

/-- The colors in use. -/
inductive Color where
  | red
  | green
  | cyan
  | white
deriving DecidableEq, Repr

/-- The digit of a color in an escape sequence. -/
def Color.digit : Color → String
  | .red => "1"
  | .green => "2"
  | .cyan => "6"
  | .white => "7"

/-- How text looks. -/
structure Style where
  bold : Bool := false
  foreground : Option Color := none
  background : Option Color := none
deriving DecidableEq, Repr

/-- An escape sequence. -/
def escape (code : String) : String := "\x1b[" ++ code ++ "m"

/-- Writes text in a style: after a reset come weight, foreground and background, and a reset ends
it. -/
def Style.paint (s : Style) (colored : Bool) (text : String) : String :=
  if colored then
    escape "0" ++ (if s.bold then escape "1" else "")
      ++ (s.foreground.elim "" fun c => escape ("3" ++ c.digit))
      ++ (s.background.elim "" fun c => escape ("4" ++ c.digit)) ++ text ++ escape "0"
  else text

namespace Style

/-- For what succeeded. -/
def success : Style := { bold := true, foreground := some .green }

/-- For details. -/
def info : Style := { foreground := some .cyan }

/-- For headings. -/
def heading : Style := { bold := true }

/-- For a word that stands out. -/
def badge (background : Color) : Style :=
  { bold := true, foreground := some .white, background := some background }

end Style

/-- When to use colors. -/
inductive ColorMode where
  | auto
  | always
  | never
deriving DecidableEq, Repr

/-- What the surroundings say about colors. -/
structure Surroundings where
  /-- Colors are not wanted. -/
  noColor : Bool := false
  /-- The kind of terminal. -/
  terminal : Option String := none
deriving DecidableEq, Repr

/-- A color mode by its name; an unknown name leaves it to the surroundings. -/
def ColorMode.ofName : String → ColorMode
  | "always" => .always
  | "never" => .never
  | _ => .auto

/-- Whether to use colors. Without a mode of its own a terminal is trusted with them, unless it is a
dumb one. -/
def ColorMode.colored (m : ColorMode) (s : Surroundings) : Bool :=
  !s.noColor && match m with
    | .always => true
    | .never => false
    | .auto => s.terminal.any (· != "dumb")

end Coroutine.Cli
