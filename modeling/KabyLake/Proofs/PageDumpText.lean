import KabyLake.Library.Printf
import KabyLake.Proofs.PageDump

/-!
# The text of a page dump

Of two memories in which an address walks to the same page the dumps have the same shape and differ
in the bytes only (`vmemPageDump_over`), apart from the pointers printed, which only one format has
(`vmemPageDump_noPointer`). A byte takes two digits whatever it is, so the texts are equal exactly
if the pages are, whatever the separator (`vmemPageDump_text_eq_iff`).
-/

namespace KabyLake

variable {size : ℕ} {m m' : Memory size} {vaddr : VirtAddr} {pa : PhyAddr}

/-- The print with the byte that a memory holds. -/
def Printed.over (m : Memory size) : Printed → Printed
  | .byte addr _ => .byte addr (m.byteAt addr)
  | p => p

/-- The text of a dump. -/
def textOfDump (pointer : ℕ → List Char) (sep : List Char) (printed : List Printed) : List Char :=
  printed.flatMap (Printed.text pointer sep)

section Shape

theorem map_over_addressPrint (m : Memory size) (showAddr : AddrFmt) (addr : ℕ) :
    (addressPrint showAddr addr).map (Printed.over m) = addressPrint showAddr addr := by
  unfold addressPrint
  split_ifs <;> rfl

theorem map_over_newline (m : Memory size) (P : Prop) [Decidable P] :
    (if P then [.newline] else []).map (Printed.over m) = if P then [.newline] else [] := by
  split_ifs <;> rfl

theorem map_over_gaps (m : Memory size) (k : ℕ) :
    (List.replicate k .gap).map (Printed.over m) = List.replicate k .gap :=
  List.map_replicate

/-- The loop reads the same offsets of every memory of a size. -/
theorem memDumpLoop_over (m m' : Memory size) (showAddr : AddrFmt) (lineSize : ℕ) : ∀ n addr nb,
    memDumpLoop m' showAddr lineSize n addr nb
      = (memDumpLoop m showAddr lineSize n addr nb).map fun x =>
        (x.1.map (Printed.over m'), x.2)
  | 0, _, _ => rfl
  | n + 1, addr, nb => by
    have ih := memDumpLoop_over m m' showAddr lineSize n (addr + 1)
      (if nb - 1 = 0 then lineSize else nb - 1)
    by_cases hin : addr < size
    · have hload : ∀ m : Memory size, m.loadByte addr = .ok (m.byteAt addr) := fun m => if_pos hin
      have haddress : (if nb = lineSize then addressPrint showAddr addr else []).map
          (Printed.over m') = if nb = lineSize then addressPrint showAddr addr else [] := by
        split_ifs
        · exact map_over_addressPrint m' showAddr addr
        · rfl
      simp only [memDumpLoop, hload, Exec.ok_bind, ih]
      rcases memDumpLoop m showAddr lineSize n (addr + 1) (if nb - 1 = 0 then lineSize else nb - 1)
        with fault | ⟨printed, nb'⟩
      · rfl
      · simp only [Except.map, Exec.ok_bind, Exec.pure_eq, List.map_append, List.map_cons, haddress,
          map_over_newline, Printed.over]
    · have hload : ∀ m : Memory size, m.loadByte addr = .error .memory := fun m => if_neg hin
      simp only [memDumpLoop, hload]
      rfl

theorem memDumpWithOptions_over (m m' : Memory size) (first last : ℕ) (showAddr : AddrFmt)
    (lineSize : ℕ+) : memDumpWithOptions m' first last showAddr lineSize
      = (memDumpWithOptions m first last showAddr lineSize).map (List.map (Printed.over m')) := by
  simp only [memDumpWithOptions, memDumpLoop_over m m']
  rcases memDumpLoop m showAddr lineSize (last - first) first lineSize with fault | ⟨printed, nb⟩
  · rfl
  · simp only [Except.map, Exec.ok_bind, Exec.pure_eq, List.map_append, map_over_newline]

/-- The dump of a page of another memory has the bytes of that memory in the same places. -/
theorem vmemPageDump_over (hwalk : pageWalk m vaddr ⟨0, 0⟩ = .ok (.errNone, pa))
    (hwalk' : pageWalk m' vaddr ⟨0, 0⟩ = .ok (.errNone, pa)) (showAddr : AddrFmt) (lineSize : ℕ+) :
    vmemPageDumpWithOptions m' vaddr showAddr lineSize
      = (vmemPageDumpWithOptions m vaddr showAddr lineSize).map fun x =>
        (x.1, x.2.map (Printed.over m')) := by
  unfold vmemPageDumpWithOptions
  simp only [hwalk, hwalk', Exec.ok_bind, ne_eq, not_true_eq_false, if_false,
    memDumpWithOptions_over m m']
  generalize (pa.phyPageNum.setWidth 32 <<< 12 : Word).toNat = page
  generalize page + pa.pageOffset.toNat = start
  rcases memDumpWithOptions m page start showAddr lineSize with fault | before
  · rfl
  generalize start + (lineSize - pa.pageOffset.toNat % lineSize) = endLine
  rcases hline : memDumpWithOptions m start endLine .none lineSize with fault | line
  · rfl
  rcases memDumpWithOptions m endLine (page + 4096) showAddr lineSize with fault | rest
  · rfl
  simp only [Except.map, Exec.ok_bind, Exec.pure_eq, List.map_append, map_over_newline,
    map_over_addressPrint, map_over_gaps]

end Shape

section Pointer

/-- Nothing printed is a pointer. -/
def NoPointer (printed : List Printed) : Prop := ∀ addr, Printed.address .pointer addr ∉ printed

@[simp] theorem noPointer_append {ps qs : List Printed} :
    NoPointer (ps ++ qs) ↔ NoPointer ps ∧ NoPointer qs := by
  simp only [NoPointer, List.mem_append, not_or, forall_and]

@[simp] theorem noPointer_byte {addr : ℕ} {value : Byte} {ps : List Printed} :
    NoPointer (.byte addr value :: ps) ↔ NoPointer ps := by
  simp [NoPointer]

@[simp] theorem noPointer_newline (P : Prop) [Decidable P] :
    NoPointer (if P then [.newline] else []) := by
  intro addr
  split_ifs <;> simp

@[simp] theorem noPointer_gaps (k : ℕ) : NoPointer (List.replicate k .gap) := by
  intro addr h
  cases List.eq_of_mem_replicate h

variable {showAddr : AddrFmt} (hfmt : showAddr ≠ .pointer)
include hfmt

theorem noPointer_addressPrint (addr : ℕ) : NoPointer (addressPrint showAddr addr) := by
  intro addr' h
  unfold addressPrint at h
  split_ifs at h
  · cases h
  · cases List.mem_singleton.1 h
    exact hfmt rfl

theorem memDumpLoop_noPointer {lineSize : ℕ} : ∀ {n addr nb : ℕ} {printed : List Printed} {nb' : ℕ},
    memDumpLoop m showAddr lineSize n addr nb = .ok (printed, nb') → NoPointer printed
  | 0, _, _, _, _, h => by
    cases h
    exact fun _ => List.not_mem_nil
  | n + 1, addr, nb, printed, nb', h => by
    obtain ⟨value, -, h⟩ := Exec.bind_eq_ok h
    obtain ⟨⟨rest, nb''⟩, hrest, h⟩ := Exec.bind_eq_ok h
    cases h
    have haddress : NoPointer (if nb = lineSize then addressPrint showAddr addr else []) := by
      split_ifs
      · exact noPointer_addressPrint hfmt addr
      · exact fun _ => List.not_mem_nil
    simp [haddress, memDumpLoop_noPointer hrest]

theorem memDumpWithOptions_noPointer {first last : ℕ} {lineSize : ℕ+} {printed : List Printed}
    (h : memDumpWithOptions m first last showAddr lineSize = .ok printed) : NoPointer printed := by
  obtain ⟨⟨loop, nb⟩, hloop, h⟩ := Exec.bind_eq_ok h
  cases h
  exact noPointer_append.2 ⟨memDumpLoop_noPointer hfmt hloop, noPointer_newline _⟩

/-- A dump in another format prints no pointer. -/
theorem vmemPageDump_noPointer {lineSize : ℕ+} {err : ErrorCode} {printed : List Printed}
    (h : vmemPageDumpWithOptions m vaddr showAddr lineSize = .ok (err, printed)) :
    NoPointer printed := by
  obtain ⟨⟨walked, paddr⟩, -, h⟩ := Exec.bind_eq_ok h
  dsimp only at h
  split at h
  · cases h
    exact fun _ => List.not_mem_nil
  · obtain ⟨before, hbefore, h⟩ := Exec.bind_eq_ok h
    obtain ⟨line, hline, h⟩ := Exec.bind_eq_ok h
    obtain ⟨rest, hrest, h⟩ := Exec.bind_eq_ok h
    cases h
    have hnone : AddrFmt.none ≠ .pointer := nofun
    simp [memDumpWithOptions_noPointer hfmt hbefore, memDumpWithOptions_noPointer hfmt hrest,
      noPointer_addressPrint hfmt, memDumpWithOptions_noPointer hnone hline]

omit hfmt in
/-- Without pointers the text does not depend on where the memory lies. -/
theorem textOfDump_pointer {printed : List Printed} (h : NoPointer printed)
    (pointer pointer' : ℕ → List Char) (sep : List Char) :
    textOfDump pointer sep printed = textOfDump pointer' sep printed := by
  refine List.flatMap_congr fun p hp => ?_
  rcases p with ⟨_ | _ | _ | _, addr⟩ | _ | _ | _
  case address.pointer => exact absurd hp (h addr)
  all_goals rfl

end Pointer

section Text

theorem length_text_over (m : Memory size) (pointer : ℕ → List Char) (sep : List Char)
    (p : Printed) : (p.text pointer sep).length = ((p.over m).text pointer sep).length := by
  cases p with
  | byte addr value =>
    have hdigits : ∀ value : Byte, (Scanf.printHex 2 value.toNat).length = 2 := fun value =>
      Printf.length_printHex (by decide) value.isLt
    simp only [Printed.over, Printed.text, List.length_append, hdigits]
  | address => rfl
  | gap => rfl
  | newline => rfl

theorem text_over_iff (m : Memory size) (pointer : ℕ → List Char) (sep : List Char) (p : Printed) :
    p.text pointer sep = (p.over m).text pointer sep
      ↔ ∀ addr value, p.byte? = some (addr, value) → value = m.byteAt addr := by
  cases p with
  | byte addr value =>
    simp only [Printed.over, Printed.text, Printed.byte?, Option.some.injEq, Prod.mk.injEq]
    constructor
    · rintro heq addr value ⟨rfl, rfl⟩
      exact BitVec.eq_of_toNat_eq (Printf.printHex_inj (List.append_cancel_right heq))
    · intro h
      rw [h addr value ⟨rfl, rfl⟩]
  | address => exact iff_of_true rfl (by rintro _ _ ⟨⟩)
  | gap => exact iff_of_true rfl (by rintro _ _ ⟨⟩)
  | newline => exact iff_of_true rfl (by rintro _ _ ⟨⟩)

theorem length_textOfDump_over (m : Memory size) (pointer : ℕ → List Char) (sep : List Char)
    (printed : List Printed) : (textOfDump pointer sep printed).length
      = (textOfDump pointer sep (printed.map (Printed.over m))).length := by
  unfold textOfDump
  rw [List.flatMap_map, List.length_flatMap, List.length_flatMap]
  exact congrArg List.sum (List.map_congr_left fun p _ => length_text_over m pointer sep p)

/-- The text is the same with the bytes of another memory exactly if the bytes printed are. -/
theorem textOfDump_over_iff (m : Memory size) (pointer : ℕ → List Char) (sep : List Char)
    (printed : List Printed) :
    textOfDump pointer sep printed = textOfDump pointer sep (printed.map (Printed.over m))
      ↔ ∀ addr value, (addr, value) ∈ bytesOf printed → value = m.byteAt addr := by
  unfold textOfDump
  rw [List.flatMap_map, Printf.flatMap_eq_iff fun p _ => length_text_over m pointer sep p]
  constructor
  · intro h addr value hmem
    obtain ⟨p, hp, hbyte⟩ := List.mem_filterMap.1 hmem
    exact (text_over_iff m pointer sep p).1 (h p hp) addr value hbyte
  · intro h p hp
    exact (text_over_iff m pointer sep p).2 fun addr value hbyte =>
      h addr value (List.mem_filterMap.2 ⟨p, hp, hbyte⟩)

theorem mem_bytes (m : Memory size) (first n addr : ℕ) (value : Byte) :
    (addr, value) ∈ m.bytes first n ↔ (∃ i < n, addr = first + i) ∧ value = m.byteAt addr := by
  simp only [Memory.bytes, List.mem_map, List.mem_range'_1, Prod.mk.injEq]
  constructor
  · rintro ⟨a, ⟨hle, hlt⟩, rfl, rfl⟩
    exact ⟨⟨a - first, by omega, by omega⟩, rfl⟩
  · rintro ⟨⟨i, hi, rfl⟩, rfl⟩
    exact ⟨_, ⟨by omega, by omega⟩, rfl, rfl⟩

/-- If the address walks to the same page of two memories, and its line ends in the page, the texts
printed are as long as each other, and equal exactly if the pages are, wherever the memories lie if
the format is not that of the pointers. -/
theorem vmemPageDump_text_eq_iff (hwalk : pageWalk m vaddr ⟨0, 0⟩ = .ok (.errNone, pa))
    (hwalk' : pageWalk m' vaddr ⟨0, 0⟩ = .ok (.errNone, pa))
    (hpage : pa.phyPageNum.toNat * 4096 + 4096 ≤ size)
    (showAddr : AddrFmt) (lineSize : ℕ+)
    (hline : (pa.pageOffset.toNat / lineSize + 1) * lineSize ≤ 4096)
    (pointer pointer' : ℕ → List Char) (hpointer : showAddr = .pointer → pointer' = pointer)
    (sep : List Char) :
    ∃ printed printed',
      vmemPageDumpWithOptions m vaddr showAddr lineSize = .ok (.errNone, printed)
      ∧ vmemPageDumpWithOptions m' vaddr showAddr lineSize = .ok (.errNone, printed')
      ∧ (textOfDump pointer sep printed).length = (textOfDump pointer' sep printed').length
      ∧ (textOfDump pointer sep printed = textOfDump pointer' sep printed'
        ↔ ∀ i < 4096, m.byteAt (pa.phyPageNum.toNat * 4096 + i)
          = m'.byteAt (pa.phyPageNum.toNat * 4096 + i)) := by
  obtain ⟨printed, hdump, hbytes⟩ := (vmemPageDump_bytes_iff hwalk hpage showAddr lineSize).2 hline
  have hdump' := vmemPageDump_over hwalk hwalk' showAddr lineSize
  rw [hdump] at hdump'
  have htext : textOfDump pointer' sep (printed.map (Printed.over m'))
      = textOfDump pointer sep (printed.map (Printed.over m')) := by
    by_cases hfmt : showAddr = .pointer
    · rw [hpointer hfmt]
    · exact textOfDump_pointer (vmemPageDump_noPointer hfmt hdump') pointer' pointer sep
  refine ⟨printed, _, hdump, hdump', ?_, ?_⟩
  · exact (length_textOfDump_over m' pointer sep printed).trans (congrArg _ htext.symm)
  rw [htext, textOfDump_over_iff, hbytes]
  constructor
  · intro h i hi
    exact h _ _ ((mem_bytes m _ _ _ _).2 ⟨⟨i, hi, rfl⟩, rfl⟩)
  · intro h addr value hmem
    obtain ⟨⟨i, hi, rfl⟩, rfl⟩ := (mem_bytes m _ _ _ _).1 hmem
    exact h i hi

/-- An image of zeros, and one elsewhere whose last byte is 7. -/
theorem vmemPageDump_text_lastByte : ∃ printed printed',
    vmemPageDumpWithOptions (fun _ => 0 : Memory 4096) ⟨0, 0, 0, 0, 0, 20⟩ .offset 16
        = .ok (.errNone, printed)
      ∧ vmemPageDumpWithOptions (fun i => if i.val = 4095 then 7 else 0 : Memory 4096)
          ⟨0, 0, 0, 0, 0, 20⟩ .offset 16 = .ok (.errNone, printed')
      ∧ textOfDump (fun _ => []) [] printed ≠ textOfDump (fun _ => ['0']) [] printed' := by
  have hwalk : pageWalk (fun _ => 0 : Memory 4096) ⟨0, 0, 0, 0, 0, 20⟩ ⟨0, 0⟩
      = .ok (.errNone, ⟨0, 20⟩) := rfl
  have hwalk' : pageWalk (fun i => if i.val = 4095 then 7 else 0 : Memory 4096)
      ⟨0, 0, 0, 0, 0, 20⟩ ⟨0, 0⟩ = .ok (.errNone, ⟨0, 20⟩) := rfl
  obtain ⟨printed, printed', hdump, hdump', -, hiff⟩ := vmemPageDump_text_eq_iff
    hwalk hwalk' (by decide) .offset 16 (by decide) (fun _ => []) (fun _ => ['0']) nofun []
  refine ⟨printed, printed', hdump, hdump', fun heq => ?_⟩
  have hbyte := hiff.1 heq 4095 (by decide)
  revert hbyte
  decide

end Text

end KabyLake
