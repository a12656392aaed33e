namespace DisplayList

inductive Intent where
  | display
  | print
  | oplist
  deriving DecidableEq

def Intent.text : Intent → String
  | display => "display"
  | print => "print"
  | oplist => "oplist"

end DisplayList
