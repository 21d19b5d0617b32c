import ClauseLang.Expr.Print

namespace ClauseLang

/-- Operands of the wrong kind. A `reported` clash is put into words by a host function. -/
inductive Clash where
  | operand (builtin wanted : String) (found : Expr)
  | operands (builtin wanted : String) (left right : Expr)
  | reported (detail : String)

def Clash.message : Clash → String
  | .operand builtin wanted found =>
    "'" ++ builtin ++ "' expects " ++ wanted ++ ", found " ++ found.kind
  | .operands builtin wanted left right =>
    "'" ++ builtin ++ "' expects " ++ wanted ++ ", found " ++ left.kind ++ " and " ++ right.kind
  | .reported detail => detail

inductive Fault where
  | unbound (name : String)
  | noMatch (argument : Expr)
  | typeMismatch (clash : Clash)
  | notApplicable (callee argument : Expr)
  | badFormal (formal : Expr)
  | matchOnly (found : Expr)
  | unevenRows (rows : UnevenRows)
  | nothingToApply
  | unevaluated
  | emptyApplication
  | divisionByZero
  | overflow (builtin : String)
  | depthLimit (limit : Nat)

def Fault.message : Fault → String
  | .unbound name => "cannot get value for identifier '" ++ name ++ "'"
  | .noMatch argument => "failed to match argument " ++ argument.render ++ " to pattern"
  | .typeMismatch clash => "type mismatch: " ++ clash.message
  | .notApplicable callee argument => "cannot apply " ++ callee.kind ++ " to " ++ argument.render
  | .badFormal formal => formal.kind ++ " cannot be used as a formal parameter"
  | .matchOnly found => "cannot evaluate " ++ found.kind ++ " outside of a match row"
  | .unevenRows rows => rows.message
  | .nothingToApply => "pattern has no formal parameters left to apply"
  | .unevaluated => "pattern was applied before it was evaluated"
  | .emptyApplication => "empty application"
  | .divisionByZero => "division by zero"
  | .overflow builtin => "integer overflow in '" ++ builtin ++ "'"
  | .depthLimit limit =>
    "recursion limit of " ++ Nat.repr limit ++ " nested applications exceeded"

/-- What an enclosing evaluation was doing. Elements are counted from zero, arguments from one. -/
inductive Step where
  | element (index : Nat)
  | callee
  | argument (position : Nat)
  | apply (position : Nat)
  | binding (name : String)
  | letBody
  | builtin (op : Builtin)
  | clauseBody

def Step.message : Step → String
  | .element index => "unable to evaluate element " ++ Nat.repr index ++ " of list"
  | .callee => "unable to evaluate callee of application"
  | .argument position =>
    "unable to evaluate argument " ++ Nat.repr position ++ " of application"
  | .apply position => "unable to apply argument " ++ Nat.repr position ++ " of application"
  | .binding name => "unable to evaluate binding '" ++ name ++ "' of let"
  | .letBody => "unable to evaluate body of let"
  | .builtin op => "unable to apply builtin '" ++ op.name ++ "'"
  | .clauseBody => "unable to evaluate body of matched clause"

/-- A fault and the steps around it, outermost first. -/
structure RuntimeError where
  fault : Fault
  trail : List Step := []

namespace RuntimeError

/-- The steps in words, innermost first. -/
def context (e : RuntimeError) : List String :=
  e.trail.reverse.map Step.message

def report (e : RuntimeError) : String :=
  "runtime error: " ++ e.fault.message ++
    String.join (e.context.zipIdx.map fun (line, index) =>
      "\n  " ++ Nat.repr index ++ ": " ++ line)

end RuntimeError

end ClauseLang
