/-!
# The stages of a compilation

A compilation goes through stages, which it reports one by one, each with a share of the
work that is done before it.
-/

namespace FlatScript

/-- **A stage of a compilation.** -/
inductive Stage where
  | pragmas | parsing | combining | lowering | sigils | expanding | frames | ordering
  | controls | dots | folding | compacting | writing | done
deriving DecidableEq, Repr, Inhabited

namespace Stage

/-- What a stage does, as it is reported. -/
def title : Stage → String
  | pragmas => "scanning pragmas"
  | parsing => "parsing"
  | combining => "combining callbacks"
  | lowering => "lowering declarations and control flow"
  | sigils => "resolving variable types"
  | expanding => "expanding functions"
  | frames => "building taskfunc frames"
  | ordering => "ordering functions"
  | controls => "checking control parameters"
  | dots => "converting dots"
  | folding => "optimizing"
  | compacting => "compacting variable names"
  | writing => "emitting code"
  | done => "done"

/-- How much of the work is done before a stage, in percent. -/
def percent : Stage → Nat
  | pragmas => 0
  | parsing => 5
  | combining => 15
  | lowering => 20
  | sigils => 30
  | expanding => 40
  | frames => 55
  | ordering => 65
  | controls => 75
  | dots => 80
  | folding => 85
  | compacting => 90
  | writing => 95
  | done => 100

end Stage

end FlatScript
