import EastConst.Conservation
import EastConst.Relocation
import EastConst.Text.Substitute

/-!
# Sessions

A session holds a text that is edited, relocated and looked at in turn.
-/

namespace EastConst.Session

/-- One step of a session. -/
inductive Step where
  /-- Relocates the text. -/
  | relocate (options : Options)
  /-- Adds to the end. -/
  | append (text : List Char)
  /-- Adds to the start. -/
  | prepend (text : List Char)
  /-- Replaces all occurrences. -/
  | replace (target replacement : List Char)
  /-- Asks for the roles of the qualifiers. -/
  | roles (options : Options)
  /-- Asks for the significant texts. -/
  | multiset
  /-- Asks for the stripped text. -/
  | strip

/-- What a step answers. -/
inductive Answer where
  /-- The new text, whether it differs from the one before, and the diagnostics. -/
  | relocated (source : List Char) (changed : Bool) (diagnostics : List Diagnostic)
  /-- The text could not be relocated and stays. -/
  | failed (failure : Failure)
  /-- The new text. -/
  | edited (source : List Char)
  | roles (found : List Occurrence)
  | multiset (texts : List (List Char))
  | strip (text : List Char)

/-- Takes the text of a session over one step. -/
def step (source : List Char) : Step → List Char × Answer
  | .relocate options =>
    match EastConst.relocate options source with
    | .ok r => (r.output, .relocated r.output (r.output != source) r.diagnostics)
    | .error failure => (source, .failed failure)
  | .append text => (source ++ text, .edited (source ++ text))
  | .prepend text => (text ++ source, .edited (text ++ source))
  | .replace target replacement =>
    let source := substitute target replacement source
    (source, .edited source)
  | .roles options => (source, .roles (occurrences options (tokens source)))
  | .multiset => (source, .multiset (significantTexts source))
  | .strip => (source, .strip (stripped source))

end EastConst.Session
