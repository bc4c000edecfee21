import KabyLake.Library.Scanf
import KabyLake.LinkedList

/-!
# The text of an address and of a list

`print_virtual_address` and `print_physical_address` of addr_mng.c, `print_list` and
`print_reverse_list` of list.c. No `fprintf` fails. A print is the `int` it returns, where 3 is
`ERR_BAD_PARAMETER`, and its text. The loop over a list takes fuel.
-/

namespace KabyLake

open Linked (Heap Cell)
open Scanf

def printVirtualAddress (vaddr : VirtAddr) : ℕ × List Char :=
  let text := "PGD=0x".toList ++ printHex 0 vaddr.pgdEntry.toNat
    ++ "; PUD=0x".toList ++ printHex 0 vaddr.pudEntry.toNat
    ++ "; PMD=0x".toList ++ printHex 0 vaddr.pmdEntry.toNat
    ++ "; PTE=0x".toList ++ printHex 0 vaddr.pteEntry.toNat
    ++ "; offset=0x".toList ++ printHex 0 vaddr.pageOffset.toNat
  (text.length, text)

def printPhysicalAddress (paddr : PhyAddr) : ℕ × List Char :=
  let text := "page num=0x".toList ++ printHex 0 paddr.phyPageNum.toNat
    ++ "; offset=0x".toList ++ printHex 0 paddr.pageOffset.toNat
  (text.length, text)

namespace ListT

/-- The loop of `print_list` from `current` on, with `link` the next node of a node: after each
node `print == 1` is required of what its separator returns. -/
def printNodes (h : Heap Word) (link : Cell Word → Option ℕ) :
    ℕ → Option ℕ → ℕ → List Char → Exec (ℕ × List Char)
  | _, none, counter, text => .ok (counter, text)
  | 0, some _, _, _ => .error .fuel
  | fuel + 1, some current, counter, text => do
    let (_, c) ← load h (some current)
    let counter := counter + 1
    let text := text ++ Nat.toDigits 10 c.value.toNat
    let separator := if link c = none then [')'] else [',', ' ']
    let print := separator.length
    let text := text ++ separator
    if print ≠ 1 then return (3, text)
    printNodes h link fuel (link c) counter text

def printList (fuel : ℕ) (h : Heap Word) (l : ListT) : Exec (ℕ × List Char) :=
  printNodes h Cell.next fuel l.front 0 ['(']

def printReverseList (fuel : ℕ) (h : Heap Word) (l : ListT) : Exec (ℕ × List Char) :=
  printNodes h Cell.previous fuel l.back 0 ['(']

end ListT

end KabyLake
