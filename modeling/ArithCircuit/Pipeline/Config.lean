set_option autoImplicit false

namespace ArithCircuit

structure Pipeline where
  expand : Bool := false
  simplify : Bool := false
  reduceDepth : Bool := true
  dedup : Bool := true
deriving DecidableEq

namespace Pipeline

def default : Pipeline := {}

def noPasses : Pipeline := ⟨false, false, false, false⟩

def text (pipeline : Pipeline) : String :=
  "Pipeline \x7b " ++ s!"expand: {pipeline.expand}, simplify: {pipeline.simplify}, "
    ++ s!"reduce_depth: {pipeline.reduceDepth}, dedup: {pipeline.dedup}" ++ " \x7d"

end Pipeline

end ArithCircuit
