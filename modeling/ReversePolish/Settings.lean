/-
ReversePolish/Settings.lean

The settings of a session, each given as a text or not at all: the path of the
prelude, the limit on nesting, and the level below which diagnostics are not
shown.  A setting that makes no sense counts as not given.
-/
import ReversePolish.History
import ReversePolish.Path
import ReversePolish.Text.Integer

namespace ReversePolish

namespace Settings

/-! ### Readers -/

/-- A path: the text without blanks around it, if anything is left. -/
def pathOf? (given : Option String) : Option Path :=
  match Text.trim Text.isBlank (given.getD "").toList with
  | [] => none
  | text => some (.ofText (String.ofList text))

/-- An integer, or the default. -/
def integerOf (given : Option String) (default : Int) : Int :=
  ((given.bind Text.integer?).getD default)

/-- The levels by name. -/
def levels : List (String × Nat) :=
  [("CRITICAL", 50), ("FATAL", 50), ("ERROR", 40), ("WARN", 30), ("WARNING", 30),
   ("INFO", 20), ("DEBUG", 10), ("NOTSET", 0)]

/-- The upper case of a letter, as far as it is a capital that occurs in the
name of a level: the dotless `ı` and the long `ſ` are letters of such a
name too. -/
def capital (c : Char) : Char :=
  if c = 'ı' then 'I' else if c = 'ſ' then 'S' else c.toUpper

/-- The level of a given name in any case; by default that of warnings. -/
def levelOf (given : Option String) : Nat :=
  let name := String.ofList ((given.getD "").toList.map capital)
  (levels.lookup name).getD Severity.warning.rank

end Settings

/-! ### Settings -/

structure Settings where
  preludePath : Option Path
  nestingLimit : Int
  level : Nat

namespace Settings

/-- The settings given by three texts. -/
def ofTexts (preludePath nestingLimit level : Option String) : Settings :=
  { preludePath := pathOf? preludePath
    nestingLimit := integerOf nestingLimit 0
    level := levelOf level }

/-- The limit on nesting that a host starts with. -/
def hostLimit : Int := 1000

/-- The limit in force: the host's own, or the one set if that is larger.  The
host holds it in a signed 32-bit word. -/
def limitInForce (s : Settings) : Except Fault Int :=
  if s.nestingLimit ≤ hostLimit then .ok hostLimit
  else if s.nestingLimit ≤ 0x7fffffff then .ok s.nestingLimit
  else .error .limitTooLarge

/-- A diagnostic is shown from the set level on; level zero leaves the
decision to the host, which shows warnings. -/
def shows (s : Settings) (d : Diagnostic) : Bool :=
  (if s.level = 0 then Severity.warning.rank else s.level) ≤ d.severity.rank

end Settings

end ReversePolish
