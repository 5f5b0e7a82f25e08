import ClassBackend.Text.Unicode

/-! The filter for log messages, from the environment and the command line. -/
namespace ClassBackend.LogFilter

def fallback : String := "warn"

/-- A blank setting counts as none. Tracing code generation adds to the setting. -/
def directive (setting : Option String) (traceCodegen : Bool) : String :=
  let base :=
    match setting with
    | some s => if Text.isAllBlank s then fallback else Text.trim s
    | none => fallback
  if traceCodegen then base ++ ",coolc=trace" else base

end ClassBackend.LogFilter
