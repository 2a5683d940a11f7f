/-!
The kinds of block. Each has a tag, which the block's header stores, and up to three names: its
own, the one a user of the language sees, and the one a dump shows.
-/

namespace CountedHeap

inductive Kind
  | none
  | bool
  | integer
  | string
  | list
  | dict
  /-- Storage behind lists and dicts, which users never see. -/
  | array
  /-- A block on the free list. -/
  | free
  deriving DecidableEq, Inhabited

namespace Kind

def tag : Kind → Nat
  | none => 0
  | bool => 1
  | integer => 2
  | string => 3
  | list => 4
  | dict => 5
  | array => 7
  | free => 8

def ofTag? : Nat → Option Kind
  | 0 => some none
  | 1 => some bool
  | 2 => some integer
  | 3 => some string
  | 4 => some list
  | 5 => some dict
  | 7 => some array
  | 8 => some free
  | _ => Option.none

def label : Kind → String
  | none => "None"
  | bool => "Bool"
  | integer => "Integer"
  | string => "String"
  | list => "List"
  | dict => "Dict"
  | array => "RefArray"
  | free => "Free"

def typeName : Kind → String
  | none => "NoneType"
  | bool => "bool"
  | integer => "int"
  | string => "str"
  | list => "list"
  | dict => "dict"
  | array | free => "<unknown>"

def dumpName : Kind → String
  | none => "VAL_NONE"
  | bool => "VAL_BOOL"
  | integer => "VAL_INTEGER"
  | string => "VAL_STRING"
  | list => "VAL_LIST"
  | dict => "VAL_DICT"
  | array => "VAL_REF_ARRAY"
  | free => "VAL_FREE"

def isContainer : Kind → Bool
  | list | dict | array => true
  | _ => false

theorem ofTag?_tag (k : Kind) : ofTag? k.tag = some k := by cases k <;> rfl

end Kind
end CountedHeap
