/-
  The symbols of program sources: classes of characters, the end, and their names.
-/

namespace Fractran

/-- What can stand at a position of a source. -/
inductive Symbol where
  | comma
  | digit
  | slash
  | finish
  | invalid
  deriving DecidableEq

namespace Symbol

/-- The class of a character. -/
def ofChar (c : Char) : Symbol :=
  if c = ',' then .comma
  else if c = '/' then .slash
  else if c.isDigit then .digit
  else .invalid

/-- The symbols in their order. -/
def all : List Symbol := [comma, digit, slash, finish, invalid]

/-- The name of a symbol in messages. -/
def name : Symbol → String
  | comma => "comma"
  | digit => "digit"
  | slash => "slash"
  | finish => "end of input"
  | invalid => "invalid character"

/-- The name of the symbol with a number, counted from zero; other numbers name none. -/
def nameAt (n : Int) : String :=
  match n with
  | .ofNat k => (all[k]?).elim "unknown" name
  | .negSucc _ => "unknown"

/-- What was found at a position: a character outside the language is quoted, all else is named. -/
def describe : Option Char → String
  | none => name .finish
  | some c =>
    match ofChar c with
    | .invalid => "character '" ++ c.toString ++ "'"
    | s => s.name

end Symbol

end Fractran
