import CountedHeap.Block

/-!
Where the fields of a value stand behind its header. None and truth values have none: a truth
value stands in the header's auxiliary word.
-/

namespace CountedHeap.Layout

/-- The count of references to a value stands in the link of its header. -/
def countOffset : Nat := Block.linkOffset

def integerOffset : Nat := Block.headerSize
def integerSize : Nat := 32

def stringOffset : Nat := Block.headerSize

def listSizeOffset : Nat := 24
def listValuesOffset : Nat := 32
def listSize : Nat := 40

def dictSizeOffset : Nat := 24
def dictOccupiedOffset : Nat := 32
def dictKeysOffset : Nat := 40
def dictValuesOffset : Nat := 44
def dictSize : Nat := 48

def capacityOffset : Nat := 24
def elementsOffset : Nat := 32

/-- A string ends in a zero byte. -/
def stringSize (length : Nat) : Except Fault Nat := do
  Word.add (← Word.add stringOffset length) 1

def arraySize (capacity : Nat) : Except Fault Nat := do
  Word.add elementsOffset (← Word.mul capacity 4)

def elementOffset (index : Nat) : Nat := elementsOffset + index * 4

end CountedHeap.Layout
