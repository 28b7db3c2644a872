/-!
# Log formats

The three ways a trace can be written, and the reader of their names.
-/

namespace Conformance

/-- How a trace is written. -/
inductive LogFormat where
  | text
  | tree
  | json
deriving DecidableEq

/-- Reads a name in any case; a name it does not know selects `text`. Lowering the ASCII letters is enough, since no
other letter lowers to one of `tree` or `json`. -/
def LogFormat.ofName (name : String) : LogFormat :=
  let lowered := name.toLower
  if lowered = "tree" then .tree else if lowered = "json" then .json else .text

end Conformance
