import Jack.Parse.Run
import Jack.Settings.Basic
import Jack.Trace

/-!
# From source text to output

The whole way from a source text to the text that is written for it.
-/

namespace Jack

/-- A class that was read: its tree, and the subroutine calls in it. -/
structure Parsed where
  tree : Node
  calls : List Call
deriving DecidableEq, Repr

def parseSource (settings : Settings) (source : String) : Except Diagnostic Parsed := do
  let stream ← TokenStream.ofSource source
  let visit := parseClass settings.maxDepth stream
  return ⟨← visit.result, visit.calls⟩

theorem parseSource_of_fault {source : String} {d : Diagnostic} (scanned : Token.scan source = .error d)
    (settings : Settings) : parseSource settings source = .error d := by
  rw [parseSource, TokenStream.ofSource, scanned]
  rfl

theorem parseSource_of_scan {source : String} {tokens : List Token} (scanned : Token.scan source = .ok tokens)
    (settings : Settings) :
    parseSource settings source =
      (parseClass settings.maxDepth ⟨tokens, .endOf source⟩).result.map
        (⟨·, (parseClass settings.maxDepth ⟨tokens, .endOf source⟩).calls⟩) := by
  rw [parseSource, TokenStream.ofSource, scanned]
  rfl

/-- A tree in the layout and with the line ending that the settings ask for. -/
def Settings.emit (settings : Settings) (tree : Node) : String :=
  match settings.format with
  | .xml => tree.render settings.lineEnding
  | .json => tree.toJson.pretty

/-- The markup trace of the class at the start of a source text, whatever layout the settings ask for. -/
def analyze (settings : Settings) (source : String) : Except Diagnostic String :=
  (parseSource settings source).map (·.tree.render settings.lineEnding)

end Jack
