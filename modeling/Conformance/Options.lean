import Conformance.Limits
import Conformance.Json

/-!
# Options of a comparer

Options are written as a JSON object with the members `erasedTypes` and `monitorThreshold`. Reading accepts an object
in which either member may be missing and unknown ones are skipped, or an array that gives the values by position; a
member that is repeated, null or of another type is refused.
-/

namespace Conformance

/-- Settings of a comparer. -/
structure Options where
  /-- After erasure two references to one symbol conform whatever their prefixes are. -/
  erasedTypes : Bool := false
  /-- Nesting depth from which comparisons are monitored. -/
  monitorThreshold : UInt32 := Limits.monitoredDepth
deriving DecidableEq

namespace Options

/-- The settings a comparer starts with when none are given. -/
def default : Options := {}

def withErasedTypes (o : Options) (erased : Bool) : Options := { o with erasedTypes := erased }

def withMonitorThreshold (o : Options) (threshold : UInt32) : Options := { o with monitorThreshold := threshold }

/-- A truth value. -/
def bool? : Json → Option Bool
  | .bool b => some b
  | _ => none

/-- A number that fits a word, written without sign, fraction or exponent. -/
def word? : Json → Option UInt32
  | .number false n true => if n < UInt32.size then some n.toUInt32 else none
  | _ => none

/-- The value of the member `key` if it is there once, `none` if it is not there, failure if it is repeated. -/
def member? (key : String) (members : List (Option String × Json)) : Option (Option Json) :=
  match members.filter (fun m => m.1 = some key) with
  | [] => some none
  | [m] => some (some m.2)
  | _ => none

/-- Settings from a JSON value. -/
def ofJson? : Json → Option Options
  | .object members => do
    if members.any (·.1.isNone) then none
    let erased ← (← member? "erasedTypes" members).mapM bool?
    let threshold ← (← member? "monitorThreshold" members).mapM word?
    some { erasedTypes := erased.getD default.erasedTypes,
           monitorThreshold := threshold.getD default.monitorThreshold }
  | .array [] => some default
  | .array [e] => return default.withErasedTypes (← bool? e)
  | .array [e, t] => return { erasedTypes := ← bool? e, monitorThreshold := ← word? t }
  | _ => none

/-- Settings from a JSON text. -/
def ofText? (text : String) : Option Options := Json.ofText? text >>= ofJson?

/-- The JSON text of the settings. -/
def toText (o : Options) : String :=
  "\x7b\"erasedTypes\":" ++ toString o.erasedTypes ++ ",\"monitorThreshold\":" ++ toString o.monitorThreshold.toNat ++
    "\x7d"

end Options

end Conformance
