import ArithCircuit.Json.Basic
import ArithCircuit.Pipeline.Config

set_option autoImplicit false

namespace ArithCircuit

namespace Pipeline

def flag? (default : Bool) : Option Json → Option Bool
  | none => some default
  | some (.bool value) => some value
  | some _ => none

def toJson (pipeline : Pipeline) : Json :=
  .object [("expand", .bool pipeline.expand), ("simplify", .bool pipeline.simplify),
    ("reduce_depth", .bool pipeline.reduceDepth), ("dedup", .bool pipeline.dedup)]

def ofFlags? (expand simplify reduceDepth dedup : Option Json) : Option Pipeline := do
  let expand ← flag? default.expand expand
  let simplify ← flag? default.simplify simplify
  let reduceDepth ← flag? default.reduceDepth reduceDepth
  let dedup ← flag? default.dedup dedup
  return { expand, simplify, reduceDepth, dedup }

def ofJson? : Json → Option Pipeline
  | .object fields =>
    let json := Json.object fields
    ofFlags? (json.field? "expand") (json.field? "simplify") (json.field? "reduce_depth")
      (json.field? "dedup")
  | .array flags =>
    if flags.length ≤ 4 then ofFlags? flags[0]? flags[1]? flags[2]? flags[3]? else none
  | _ => none

end Pipeline

end ArithCircuit
