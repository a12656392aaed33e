import DisplayList.Limits

namespace DisplayList

inductive RenderError where
  | terminated (task : String)
  | workerTerminated
  | missingSink
  | evaluator (message : String)
  | invalidLimits (violation : LimitViolation)
  deriving DecidableEq

namespace RenderError

def message : RenderError → String
  | terminated task => "worker task was terminated: " ++ task
  | workerTerminated => "worker was terminated"
  | missingSink => "operator list has no stream sink to flush into"
  | evaluator message => "evaluator error: " ++ message
  | invalidLimits violation => "invalid pattern limits: " ++ violation.message

/-- Whether the work was called off, rather than failed. -/
def isCancellation : RenderError → Bool
  | terminated _ | workerTerminated => true
  | _ => false

end RenderError

end DisplayList
