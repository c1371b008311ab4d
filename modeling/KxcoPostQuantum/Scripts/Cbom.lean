/-
The check of scripts/build-cbom.mjs that the declared cryptography is that
of the source: `stripComments`, `detect` and `reconcile`.

# Expressions

Each regular expression of the script is a `Matcher` of that name or of
what it looks for. Where one says `[^x]*` or `\s*` in front of a unit that
these cannot take, there is one way to match, and no backtracking is
modelled.

# What is not here

An asset is its name and its occurrences; what else the document says
about it is not looked at by the check. The files are given, as texts.
-/
import KxcoPostQuantum.Js.Json
import KxcoPostQuantum.Js.Text
import KxcoPostQuantum.Lib.Ecma
import KxcoPostQuantum.Lib.Matches

namespace KxcoPostQuantum.Scripts

open Lib Lib.Ecma

-- ============================================================= strings

/-- `s.split(sep)` for a single unit. -/
def splitUnit (sep : UInt16) (s : JsString) : List JsString := s.splitOn sep

/-- `parts.join(sep)`. -/
def joinUnit (sep : UInt16) (parts : List JsString) : JsString :=
  [sep].intercalate parts

/-- The text behind a fixed beginning. -/
def after? (start text : JsString) : Option JsString :=
  if start.isPrefixOf text then some (text.drop start.length) else none

-- ============================================================ comments

/-- How many units there are up to the end of the first star and slash. -/
def closing : JsString → Option Nat
  | 42 :: 47 :: _ => some 2
  | _ :: rest => (closing rest).map (· + 1)
  | [] => none

/-- `/\/\*[\s\S]*?\*\//`. -/
def blockComment : Matcher UInt16 Unit := fun _ text =>
  match text with
  | 47 :: 42 :: rest => (closing rest).map fun n => ((), n + 2)
  | _ => none

/-- `/^\s*\/\//` on one line. -/
def isLineComment (line : JsString) : Bool :=
  (js "//").isPrefixOf (line.dropWhile isSpace)

/-- A place where the source binds an algorithm. -/
structure Found where
  location : JsString
  symbol : JsString
  deriving DecidableEq

/-- `o.location + '\0' + o.symbol`. -/
def Found.key (o : Found) : JsString := o.location ++ [0] ++ o.symbol

end KxcoPostQuantum.Scripts
