import KabyLake.Library.Printf
import KabyLake.Prints
import KabyLake.Proofs.LinkedListSpec

/-!
# What the printed text tells

The text of an address tells every field that is translated (`printAddress_eq_iff`). That of a list
does not tell the list: the separator of two values has two characters and the function requires
one, so it returns `ERR_BAD_PARAMETER` after the first value, and the empty list is left open
(`printList_eq`).
-/

namespace KabyLake

open Linked Printf Scanf

section Addresses

theorem printVirtualAddress_inj {v w : VirtAddr}
    (h : (printVirtualAddress v).2 = (printVirtualAddress w).2) :
    { v with reserved := 0 } = { w with reserved := 0 } := by
  have hsep : ∀ {after : List Char}, ∃ c rest, ';' :: after = c :: rest ∧ isXDigit c = false :=
    ⟨_, _, rfl, by decide⟩
  unfold printVirtualAddress at h
  simp only [List.append_assoc] at h
  obtain ⟨hpgd, h⟩ := printHex_append_inj hsep (List.append_cancel_left h)
  obtain ⟨hpud, h⟩ := printHex_append_inj hsep h
  obtain ⟨hpmd, h⟩ := printHex_append_inj hsep h
  obtain ⟨hpte, h⟩ := printHex_append_inj hsep h
  have hoffset := printHex_inj h
  ext1
  · rfl
  · exact BitVec.eq_of_toNat_eq hpgd
  · exact BitVec.eq_of_toNat_eq hpud
  · exact BitVec.eq_of_toNat_eq hpmd
  · exact BitVec.eq_of_toNat_eq hpte
  · exact BitVec.eq_of_toNat_eq hoffset

theorem printPhysicalAddress_inj {p q : PhyAddr}
    (h : (printPhysicalAddress p).2 = (printPhysicalAddress q).2) : p = q := by
  have hsep : ∀ {after : List Char}, ∃ c rest, ';' :: after = c :: rest ∧ isXDigit c = false :=
    ⟨_, _, rfl, by decide⟩
  unfold printPhysicalAddress at h
  simp only [List.append_assoc] at h
  obtain ⟨hpage, h⟩ := printHex_append_inj hsep (List.append_cancel_left h)
  have hoffset := printHex_inj h
  ext1
  · exact BitVec.eq_of_toNat_eq hpage
  · exact BitVec.eq_of_toNat_eq hoffset

/-- Two virtual addresses have the same text exactly if they differ at most in the reserved bits,
and two physical addresses exactly if they are the same. Each print returns the length of its
text. -/
theorem printAddress_eq_iff :
    (∀ v w : VirtAddr, (printVirtualAddress v = printVirtualAddress w
        ↔ { v with reserved := 0 } = { w with reserved := 0 })
      ∧ (printVirtualAddress v).1 = (printVirtualAddress v).2.length)
    ∧ ∀ p q : PhyAddr, (printPhysicalAddress p = printPhysicalAddress q ↔ p = q)
      ∧ (printPhysicalAddress p).1 = (printPhysicalAddress p).2.length := by
  refine ⟨fun v w => ⟨⟨fun h => printVirtualAddress_inj (congrArg Prod.snd h), fun h => ?_⟩, rfl⟩,
    fun p q => ⟨⟨fun h => printPhysicalAddress_inj (congrArg Prod.snd h), fun h => ?_⟩, rfl⟩⟩
  · obtain ⟨r, a, b, c, d, e⟩ := v
    obtain ⟨r', a', b', c', d', e'⟩ := w
    cases h
    rfl
  · rw [h]

end Addresses

namespace ListT

variable {h : Heap Word} {l : ListT} {ns : List (ℕ × Word)} {fuel : ℕ}

/-- What is printed of a list of values, and returned. -/
def printedValues : List Word → ℕ × List Char
  | [] => (0, ['('])
  | [v] => (1, '(' :: (Nat.toDigits 10 v.toNat ++ [')']))
  | v :: _ :: _ => (3, '(' :: (Nat.toDigits 10 v.toNat ++ [',', ' ']))

theorem printNodes_path {link : Cell Word → Option ℕ} {p : Option ℕ} (hp : Path h link p ns)
    (hfuel : 2 ≤ fuel) :
    printNodes h link fuel p 0 ['('] = .ok (printedValues (ns.map Prod.snd)) := by
  obtain ⟨fuel, rfl⟩ := Nat.exists_eq_add_of_le' hfuel
  rcases ns with _ | ⟨⟨q, v⟩, _ | ⟨⟨q', v'⟩, ns⟩⟩
  · obtain rfl : p = none := hp
    rfl
  · obtain ⟨rfl, c, hc, rfl, hlink⟩ := hp
    have hlast : link c = none := hlink
    simp only [printNodes, load_eq hc, Exec.ok_bind, hlast]
    rfl
  · obtain ⟨rfl, c, hc, rfl, hlink⟩ := hp
    have hnext : link c = some q' := hlink.1
    simp only [printNodes, load_eq hc, Exec.ok_bind, hnext]
    simp [printedValues]

/-- Both prints of a list give its first value alone, from the front and from the back. -/
theorem printList_eq (hs : Spells h l ns) (hfuel : 2 ≤ fuel) :
    printList fuel h l = .ok (printedValues (ns.map Prod.snd))
      ∧ printReverseList fuel h l = .ok (printedValues (ns.map Prod.snd).reverse) := by
  refine ⟨printNodes_path hs.path_next hfuel, ?_⟩
  rw [← List.map_reverse]
  exact printNodes_path hs.path_previous hfuel

end ListT

end KabyLake
