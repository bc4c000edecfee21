import KabyLake.Addr
import KabyLake.Library.Linked

/-!
# The doubly linked list

list.c. A pointer is an optional address; following a null or freed one is a fault. `malloc`
succeeds with a node an allocator picks among the free addresses, its content indeterminate. The
loop of `clear_list` takes fuel.
-/

namespace KabyLake

open Linked (Heap Cell Allocator)

@[ext]
structure ListT where
  front : Option ℕ
  back : Option ℕ
  deriving DecidableEq, Repr

namespace ListT

/-- `*p`. -/
def load (h : Heap Word) (p : Option ℕ) : Exec (ℕ × Cell Word) :=
  match p with
  | none => .error .heap
  | some p =>
    match h.cell p with
    | none => .error .heap
    | some c => .ok (p, c)

/-- `p->next = next`. -/
def setNext (h : Heap Word) (p next : Option ℕ) : Exec (Heap Word) := do
  let (p, _) ← load h p
  return h.withNext p next

/-- `p->previous = previous`. -/
def setPrevious (h : Heap Word) (p previous : Option ℕ) : Exec (Heap Word) := do
  let (p, _) ← load h p
  return h.withPrevious p previous

/-- `p->value = value`. -/
def setValue (h : Heap Word) (p : Option ℕ) (value : Word) : Exec (Heap Word) := do
  let (p, _) ← load h p
  return h.withValue p value

/-- `malloc(sizeof(node_t))`. -/
def malloc (A : Allocator Word) (h : Heap Word) : ℕ × Heap Word :=
  (A.pick h, h.set (A.pick h) (some (A.junk h)))

/-- `free(p)`. -/
def free (h : Heap Word) (p : Option ℕ) : Exec (Heap Word) := do
  let (p, _) ← load h p
  return h.set p none

def isEmptyList (l : ListT) : ℕ :=
  if l.back = none ∧ l.front = none then 1
  else if l.back = none ∨ l.front = none then 3
  else 0

def initList : ListT := ⟨none, none⟩

/-- The loop of `clear_list` from `current` on. -/
def clearNodes : ℕ → Heap Word → Option ℕ → Exec (Heap Word)
  | 0, _, _ => .error .fuel
  | fuel + 1, h, current => do
    if current = none then return h
    let (_, c) ← load h current
    let temp := c.next
    let h ← setNext h current none
    let h ← setPrevious h current none
    let h ← setValue h current 0
    let h ← free h current
    clearNodes fuel h temp

def clearList (fuel : ℕ) (h : Heap Word) (l : ListT) : Exec (Heap Word × ListT) := do
  let h ← clearNodes fuel h l.front
  return (h, ⟨none, none⟩)

/-- `push_back`, with the node it returns. -/
def pushBack (A : Allocator Word) (h : Heap Word) (l : ListT) (value : Word) :
    Exec (Heap Word × ListT × ℕ) := do
  let (added, h) := malloc A h
  if isEmptyList l ≠ 0 then
    let l : ListT := ⟨some added, some added⟩
    let h ← setNext h (some added) none
    let h ← setPrevious h (some added) none
    let h ← setValue h (some added) value
    return (h, l, added)
  else
    let h ← setNext h l.back (some added)
    let h ← setValue h (some added) value
    let h ← setPrevious h (some added) l.back
    let h ← setNext h (some added) none
    return (h, ⟨l.front, some added⟩, added)

/-- `push_front`, with the node it returns. -/
def pushFront (A : Allocator Word) (h : Heap Word) (l : ListT) (value : Word) :
    Exec (Heap Word × ListT × ℕ) := do
  let (added, h) := malloc A h
  if isEmptyList l ≠ 0 then
    let l : ListT := ⟨some added, some added⟩
    let h ← setNext h (some added) none
    let h ← setPrevious h (some added) none
    let h ← setValue h (some added) value
    return (h, l, added)
  else
    let h ← setPrevious h l.front (some added)
    let h ← setValue h (some added) value
    let h ← setNext h (some added) l.front
    let h ← setPrevious h (some added) none
    return (h, ⟨some added, l.back⟩, added)

def popFront (h : Heap Word) (l : ListT) : Exec (Heap Word × ListT) := do
  if isEmptyList l ≠ 0 then return (h, l)
  if l.front = l.back then
    let h ← setValue h l.front 0
    let h ← free h l.front
    return (h, initList)
  else
    let (_, c) ← load h l.front
    let newFront := c.next
    let h ← setPrevious h newFront none
    let h ← setNext h l.front none
    let h ← setValue h l.front 0
    let h ← free h l.front
    return (h, ⟨newFront, l.back⟩)

def popBack (h : Heap Word) (l : ListT) : Exec (Heap Word × ListT) := do
  if isEmptyList l ≠ 0 then return (h, l)
  if l.front = l.back then
    let h ← setValue h l.back 0
    let h ← free h l.front
    return (h, initList)
  else
    let (_, c) ← load h l.back
    let newBack := c.previous
    let h ← setNext h newBack none
    let h ← setPrevious h l.back none
    let h ← setValue h l.back 0
    let h ← free h l.back
    return (h, ⟨l.front, newBack⟩)

def moveBack (A : Allocator Word) (h : Heap Word) (l : ListT) (node : Option ℕ) :
    Exec (Heap Word × ListT) := do
  if isEmptyList l ≠ 0 then return (h, l)
  if l.back = l.front then return (h, l)
  if l.front = node then
    let (_, c) ← load h node
    let (h, l, _) ← pushBack A h l c.value
    popFront h l
  else
    let (_, c) ← load h node
    if c.next = none then return (h, l)
    let h ← setNext h c.previous c.next
    let h ← setPrevious h c.next c.previous
    let h ← setNext h node none
    let h ← setPrevious h node l.back
    let h ← setNext h l.back node
    return (h, ⟨l.front, node⟩)

end ListT

end KabyLake
