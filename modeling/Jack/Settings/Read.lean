import Jack.Settings.Basic
import Jack.Toml.Document

/-!
# Reading settings

A settings file is a document with at most three entries; whatever it leaves out keeps its default.
-/

namespace Jack

def settingsFileName : String := "jack-syntax.toml"

inductive SettingsError where
  | malformed
  /-- With a nesting limit of zero not even a class could be read. -/
  | zeroDepth
deriving DecidableEq, Repr, Inhabited

def SettingsError.message (path : String) : SettingsError → String
  | .malformed => String.join ["invalid config ", path]
  | .zeroDepth => "invalid config: max_depth must be at least 1"

namespace Settings

open Toml

/-- The name that a value chooses: a string, or a table whose only entry is that name with an empty
value. -/
def choice? : Value → Option String
  | .string name => some name
  | .table _ [(name, .table _ [])] => some name
  | .table _ [(name, .emptyArray)] => some name
  | _ => none

def lineEnding? (value : Value) : Option LineEnding :=
  match choice? value with
  | some "crlf" => some .crlf
  | some "lf" => some .lf
  | _ => none

def format? (value : Value) : Option OutputFormat :=
  match choice? value with
  | some "xml" => some .xml
  | some "json" => some .json
  | _ => none

def maxDepth? : Value → Option Nat
  | .integer value => value.toNat?
  | _ => none

/-- The settings with one entry of a document taken over. -/
def set? (settings : Settings) : String × Value → Option Settings
  | ("line_ending", value) => do return { settings with lineEnding := ← lineEnding? value }
  | ("max_depth", value) => do return { settings with maxDepth := ← maxDepth? value }
  | ("format", value) => do return { settings with format := ← format? value }
  | _ => none

def read (document : String) : Except SettingsError Settings :=
  match (Toml.read? document).bind (·.foldlM set? {}) with
  | none => .error .malformed
  | some settings => if settings.maxDepth = 0 then .error .zeroDepth else .ok settings

end Settings

end Jack
