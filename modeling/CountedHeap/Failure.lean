import CountedHeap.Config
import CountedHeap.Operator
import CountedHeap.Pool

/-!
What can go wrong on behalf of the program that runs on the heap. A failure is a cause; an
exception is what the program sees of it, a class and a message. One exception at a time can be
pending.
-/

namespace CountedHeap

inductive ExceptionClass
  | syntaxError
  | nameError
  | typeError
  | valueError
  | indexError
  | keyError
  | memoryError
  | internal
  deriving DecidableEq

def ExceptionClass.text : ExceptionClass → String
  | syntaxError => "SyntaxError"
  | nameError => "NameError"
  | typeError => "TypeError"
  | valueError => "ValueError"
  | indexError => "IndexError"
  | keyError => "KeyError"
  | memoryError => "MemoryError"
  | internal => "<internal>"

structure Exception where
  kind : ExceptionClass
  message : String
  deriving DecidableEq

def Exception.text (e : Exception) : String := e.kind.text ++ ": " ++ e.message

/-- The other half of the pool could not take in what is alive. -/
inductive CollectionError
  | toSpaceExhausted (e : OutOfMemory)
  deriving DecidableEq

def CollectionError.message : CollectionError → String
  | toSpaceExhausted e => "ran out of space while evacuating live values: " ++ e.message

inductive InitError
  | config (e : ConfigError)
  | memory (e : OutOfMemory)
  deriving DecidableEq

def InitError.message : InitError → String
  | config e => "invalid heap configuration: " ++ e.message
  | memory e => "failed to allocate the runtime singletons: " ++ e.message

inductive Failure
  | outOfMemory (e : OutOfMemory)
  | noLength (k : Kind)
  | unhashable (k : Kind)
  | incomparable (left right : Kind)
  | badUnary (op : UnaryOperator) (k : Kind)
  | badBinary (op : BinaryOperator) (left right : Kind)
  | notSubscriptable (k : Kind)
  | noItemAssignment (k : Kind)
  | noItemDeletion (k : Kind)
  | divisionByZero
  | listIndexKind
  | listIndexRange
  | missingKey
  | missingKeyToDelete
  | unboundName (name : String)
  | assignSingleton (name : String)
  | deleteSingleton (name : String)
  | noSuchFunction (name : String)
  | takesNoArguments (name : String) (given : Nat)
  | takesOneArgument (name : String) (given : Nat)
  | collection (e : CollectionError)
  | outputFull
  deriving DecidableEq

namespace Failure

def kind : Failure → ExceptionClass
  | outOfMemory _ => .memoryError
  | noLength _ | unhashable _ | incomparable .. | badUnary .. | badBinary ..
  | notSubscriptable _ | noItemAssignment _ | noItemDeletion _ | listIndexKind
  | takesNoArguments .. | takesOneArgument .. => .typeError
  | divisionByZero => .valueError
  | listIndexRange => .indexError
  | missingKey | missingKeyToDelete => .keyError
  | unboundName _ | noSuchFunction _ => .nameError
  | assignSingleton _ | deleteSingleton _ => .syntaxError
  | collection _ | outputFull => .internal

def quoted (k : Kind) : String := "'" ++ k.typeName ++ "'"

def message : Failure → String
  | outOfMemory e => e.message
  | noLength k => "object of type " ++ quoted k ++ " has no len()"
  | unhashable k => "unhashable type: " ++ quoted k
  | incomparable left right =>
      "type(s) are not comparable: " ++ quoted left ++ " and " ++ quoted right
  | badUnary op k => "bad operand type for unary " ++ op.symbol ++ ": " ++ quoted k
  | badBinary op left right =>
      "unsupported operand type(s) for " ++ op.symbol ++ ": " ++ quoted left ++ " and " ++
        quoted right
  | notSubscriptable k => quoted k ++ " object is not subscriptable"
  | noItemAssignment k => quoted k ++ " object does not support item assignment"
  | noItemDeletion k => quoted k ++ " object does not support item deletion"
  | divisionByZero => "integer division or modulo by zero"
  | listIndexKind => "list indices must be integers"
  | listIndexRange => "list index out of bounds"
  | missingKey => "no value found for key in dictionary"
  | missingKeyToDelete => "can't delete nonexistant key in dictionary"
  | unboundName name => "name '" ++ name ++ "' is not defined"
  | assignSingleton name => "cannot assign to " ++ name
  | deleteSingleton name => "cannot delete " ++ name
  | noSuchFunction name => "no such function '" ++ name ++ "'"
  | takesNoArguments name given =>
      name ++ s!"() takes 0 positional arguments but {given} were given"
  | takesOneArgument name given =>
      name ++ s!"() takes 1 positional argument but {given} were given"
  | collection e => e.message
  | outputFull => "device full"

def exception (f : Failure) : Exception := ⟨f.kind, f.message⟩

end Failure

/-- The pending exception; a new one takes the place of an older. -/
abbrev Pending := Option Exception

namespace Pending

def occurred (p : Pending) : Bool := p.isSome

def line : Pending → String
  | some e => e.text ++ "\n"
  | none => ""

end Pending
end CountedHeap
