import ArithCircuit.Rewrite.Balance
import ArithCircuit.Rewrite.Expand
import ArithCircuit.Rewrite.Factor
import ArithCircuit.Rewrite.Merge

set_option autoImplicit false

namespace ArithCircuit

namespace Pipeline

def expandAll (roots : List Nat) : StateT Log Build (List Nat) := fun log => do
  let (forms, distributor) ← roots.mapM Distributor.expand (.fresh log)
  return (forms, distributor.memory)

def simplifyAll (roots : List Nat) : StateT Log Build (List Nat) := fun log => do
  let (forms, factorizer) ← roots.mapM Factorizer.simplify (.fresh log)
  return (forms, factorizer.memory.log)

def reduceAll (roots : List Nat) : StateT Log Build (List Nat) := fun log => do
  let (forms, balancer) ← roots.mapM Balancer.reduce (.fresh log)
  return (forms, balancer.memory.log)

def runPasses (pipeline : Pipeline) (roots : List Nat) : StateT Log Build (List Nat) := do
  let roots ← if pipeline.expand then expandAll roots else pure roots
  let roots ← if pipeline.simplify then simplifyAll roots else pure roots
  let roots ← if pipeline.reduceDepth then reduceAll roots else pure roots
  if pipeline.dedup then Build.mergeAll roots else pure roots

def stats (roots : List Nat) : Build Stats := do
  let circuit ← get
  Stats.of? circuit roots

-- The figures for the log are computed only if the log admits them.
def run (pipeline : Pipeline) (roots : List Nat) : StateT Log Build (List Nat) := do
  if (← get).admits .debug then
    let before ← stats roots
    let forms ← pipeline.runPasses roots
    let after ← stats forms
    modify fun log => log.record (.ran pipeline before after)
    return forms
  else pipeline.runPasses roots

end Pipeline

end ArithCircuit
