/-!
The operators of the language and how they are written.
-/

namespace CountedHeap

inductive UnaryOperator
  | negate
  | identity
  deriving DecidableEq

inductive BinaryOperator
  | add
  | subtract
  | multiply
  | divide
  | modulo
  deriving DecidableEq

inductive Comparison
  | equals
  | less
  | greater
  | lessEqual
  | greaterEqual
  deriving DecidableEq

def UnaryOperator.symbol : UnaryOperator → String
  | negate => "-"
  | identity => "+"

def BinaryOperator.symbol : BinaryOperator → String
  | add => "+"
  | subtract => "-"
  | multiply => "*"
  | divide => "/"
  | modulo => "%"

def Comparison.symbol : Comparison → String
  | equals => "=="
  | less => "<"
  | greater => ">"
  | lessEqual => "<="
  | greaterEqual => ">="

def Comparison.holds : Comparison → Ordering → Bool
  | equals, o => o.isEq
  | less, o => o.isLT
  | greater, o => o.isGT
  | lessEqual, o => o.isLE
  | greaterEqual, o => o.isGE

end CountedHeap
