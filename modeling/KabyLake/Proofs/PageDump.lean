import KabyLake.MemoryDump
import KabyLake.Proofs.Walk

/-!
# The bytes of a dump

Each of the three ranges of a dump is printed byte by byte (`memDumpWithOptions_bytes`). The first
two meet, and so do the last two if the line of the address ends in the page; otherwise the dump
runs over the end of the page (`vmemPageDump_bytes_iff`).
-/

namespace KabyLake

variable {size n addr nb nb' first last : ℕ} {m : Memory size} {showAddr : AddrFmt}
  {printed : List Printed} {lineSize : ℕ+} {vaddr : VirtAddr} {pa : PhyAddr}

/-- A byte printed, with the offset it was read at. -/
def Printed.byte? : Printed → Option (ℕ × Byte)
  | .byte addr value => some (addr, value)
  | _ => none

def bytesOf (printed : List Printed) : List (ℕ × Byte) := printed.filterMap Printed.byte?

/-- The bytes of a range of the memory. -/
def Memory.bytes (m : Memory size) (first n : ℕ) : List (ℕ × Byte) :=
  (List.range' first n).map fun a => (a, m.byteAt a)

@[simp] theorem bytesOf_append (ps qs : List Printed) :
    bytesOf (ps ++ qs) = bytesOf ps ++ bytesOf qs := List.filterMap_append

@[simp] theorem bytesOf_addressPrint : bytesOf (addressPrint showAddr addr) = [] := by
  unfold addressPrint
  split_ifs <;> rfl

@[simp] theorem bytesOf_newline (P : Prop) [Decidable P] :
    bytesOf (if P then [.newline] else []) = [] := by
  split_ifs <;> rfl

@[simp] theorem bytesOf_gaps (k : ℕ) : bytesOf (List.replicate k .gap) = [] := by
  induction k with
  | zero => rfl
  | succ k ih => rw [List.replicate_succ]; exact ih

theorem Memory.bytes_append (m : Memory size) (first n k : ℕ) :
    m.bytes first n ++ m.bytes (first + n) k = m.bytes first (n + k) := by
  rw [bytes, bytes, bytes, ← List.map_append, List.range'_append_1]

theorem Memory.bytes_succ (m : Memory size) (first n : ℕ) :
    m.bytes first (n + 1) = (first, m.byteAt first) :: m.bytes (first + 1) n := by
  rw [bytes, List.range'_succ, List.map_cons, bytes]

theorem Memory.length_bytes (m : Memory size) (first n : ℕ) : (m.bytes first n).length = n := by
  rw [bytes, List.length_map, List.length_range']

/-- The loop prints the bytes of its range if they are in the memory. -/
theorem memDumpLoop_eq (m : Memory size) (showAddr : AddrFmt) (lineSize : ℕ) : ∀ n addr nb,
    ∃ printed nb', bytesOf printed = m.bytes addr n ∧ memDumpLoop m showAddr lineSize n addr nb
      = if n = 0 ∨ addr + n ≤ size then .ok (printed, nb') else .error .memory
  | 0, addr, nb => ⟨[], nb, rfl, rfl⟩
  | n + 1, addr, nb => by
    obtain ⟨printed, nb', hbytes, hloop⟩ := memDumpLoop_eq m showAddr lineSize n (addr + 1)
      (if nb - 1 = 0 then lineSize else nb - 1)
    refine ⟨(if nb = lineSize then addressPrint showAddr addr else [])
      ++ .byte addr (m.byteAt addr) :: (if nb - 1 = 0 then [.newline] else []) ++ printed, nb',
      ?_, ?_⟩
    · have haddress : bytesOf (if nb = lineSize then addressPrint showAddr addr else []) = [] := by
        split_ifs
        · exact bytesOf_addressPrint
        · rfl
      have hbyte : ∀ ps, bytesOf (.byte addr (m.byteAt addr) :: ps)
          = (addr, m.byteAt addr) :: bytesOf ps := fun ps => rfl
      simp only [bytesOf_append, List.append_assoc, List.cons_append, haddress, hbyte,
        bytesOf_newline, hbytes, List.nil_append, m.bytes_succ]
    · by_cases hin : addr < size
      · have hload : m.loadByte addr = .ok (m.byteAt addr) := if_pos hin
        have hiff : n = 0 ∨ addr + 1 + n ≤ size ↔ n + 1 = 0 ∨ addr + (n + 1) ≤ size := by omega
        simp only [memDumpLoop, hload, hloop, hiff, Exec.ok_bind]
        split_ifs <;> rfl
      · have hload : m.loadByte addr = .error .memory := if_neg hin
        rw [if_neg (by omega)]
        simp only [memDumpLoop, hload, Exec.error_bind]

theorem memDumpWithOptions_eq (m : Memory size) (first last : ℕ) (showAddr : AddrFmt)
    (lineSize : ℕ+) :
    ∃ printed, bytesOf printed = m.bytes first (last - first)
      ∧ memDumpWithOptions m first last showAddr lineSize
        = if last ≤ first ∨ last ≤ size then .ok printed else .error .memory := by
  obtain ⟨printed, nb, hbytes, hloop⟩ := memDumpLoop_eq m showAddr lineSize (last - first) first
    lineSize
  have hiff : last - first = 0 ∨ first + (last - first) ≤ size ↔ last ≤ first ∨ last ≤ size := by
    omega
  refine ⟨printed ++ if nb ≠ lineSize then [.newline] else [], ?_, ?_⟩
  · rw [bytesOf_append, hbytes, bytesOf_newline, List.append_nil]
  · rw [memDumpWithOptions, hloop, if_congr hiff rfl rfl]
    by_cases hin : last ≤ first ∨ last ≤ size
    · rw [if_pos hin, if_pos hin]
      rfl
    · rw [if_neg hin, if_neg hin]
      rfl

/-- The bytes printed are those of the page in order, and no others are read. -/
def DumpsPage (m : Memory size) (vaddr : VirtAddr) (showAddr : AddrFmt) (lineSize : ℕ+)
    (page : ℕ) : Prop :=
  ∃ printed, vmemPageDumpWithOptions m vaddr showAddr lineSize = .ok (.errNone, printed)
    ∧ bytesOf printed = m.bytes page 4096

theorem pageStart_toNat (frame : BitVec 20) :
    (frame.setWidth 32 <<< 12 : Word).toNat = frame.toNat * 4096 := by
  have hlt := frame.isLt
  rw [BitVec.toNat_shiftLeft, BitVec.toNat_setWidth, Nat.shiftLeft_eq]
  omega

/-- A line ends at the next multiple of its size. -/
theorem lineEnd_eq (off : ℕ) {ls : ℕ} (h : 0 < ls) :
    off + (ls - off % ls) = (off / ls + 1) * ls := by
  have hmod := Nat.mod_lt off h
  have hdiv := Nat.div_add_mod' off ls
  rw [add_mul, one_mul]
  omega

/-- A dump prints the page and what is left of the line of its address after the page. -/
theorem vmemPageDump_bytes (hwalk : pageWalk m vaddr ⟨0, 0⟩ = .ok (.errNone, pa))
    (hpage : pa.phyPageNum.toNat * 4096 + 4096 ≤ size) (showAddr : AddrFmt) (lineSize : ℕ+) :
    ∃ printed, bytesOf printed = m.bytes (pa.phyPageNum.toNat * 4096)
        (max ((pa.pageOffset.toNat / lineSize + 1) * lineSize) 4096)
      ∧ vmemPageDumpWithOptions m vaddr showAddr lineSize
        = if pa.phyPageNum.toNat * 4096 + (pa.pageOffset.toNat / lineSize + 1) * lineSize ≤ size
          then .ok (.errNone, printed) else .error .memory := by
  have hoff := pa.pageOffset.isLt
  have hend := lineEnd_eq pa.pageOffset.toNat lineSize.pos
  have hmod := Nat.mod_lt pa.pageOffset.toNat lineSize.pos
  unfold vmemPageDumpWithOptions
  rw [hwalk]
  simp only [Exec.ok_bind, ne_eq, not_true_eq_false, if_false, pageStart_toNat, Nat.add_assoc, hend]
  generalize (pa.pageOffset.toNat / lineSize + 1) * (lineSize : ℕ) = next at hend ⊢
  generalize pa.pageOffset.toNat = off at hoff hend hmod ⊢
  generalize pa.phyPageNum.toNat * 4096 = page at hpage ⊢
  obtain ⟨before, hbytes₁, hdump₁⟩ := memDumpWithOptions_eq m page (page + off) showAddr lineSize
  obtain ⟨line, hbytes₂, hdump₂⟩ :=
    memDumpWithOptions_eq m (page + off) (page + next) .none lineSize
  obtain ⟨rest, hbytes₃, hdump₃⟩ :=
    memDumpWithOptions_eq m (page + next) (page + 4096) showAddr lineSize
  rw [if_pos (by omega)] at hdump₁ hdump₃
  have hiff : page + next ≤ page + off ∨ page + next ≤ size ↔ page + next ≤ size := by omega
  rw [if_congr hiff rfl rfl] at hdump₂
  refine ⟨before ++ (if off % lineSize = 0 then [.newline] else [])
    ++ addressPrint showAddr (page + off) ++ List.replicate (off % lineSize) .gap ++ line ++ rest,
    ?_, ?_⟩
  · have hjoin := m.bytes_append page off (next - off)
    have hjoin' := m.bytes_append page next (4096 - next)
    have hlen₁ : page + off - page = off := by omega
    have hlen₂ : page + next - (page + off) = next - off := by omega
    have hlen₃ : page + 4096 - (page + next) = 4096 - next := by omega
    have hnext : off + (next - off) = next := by omega
    have hmax : next + (4096 - next) = max next 4096 := by omega
    simp only [bytesOf_append, bytesOf_newline, bytesOf_addressPrint, bytesOf_gaps, List.append_nil,
      hbytes₁, hbytes₂, hbytes₃, hlen₁, hlen₂, hlen₃]
    rw [hjoin, hnext, hjoin', hmax]
  · rw [hdump₁, hdump₂, hdump₃]
    by_cases hin : page + next ≤ size
    · rw [if_pos hin, if_pos hin]
      rfl
    · rw [if_neg hin, if_neg hin]
      rfl

/-- A page in the memory is dumped exactly if the line of the address ends in the page, at the first
multiple of the line size above the offset. -/
theorem vmemPageDump_bytes_iff (hwalk : pageWalk m vaddr ⟨0, 0⟩ = .ok (.errNone, pa))
    (hpage : pa.phyPageNum.toNat * 4096 + 4096 ≤ size) (showAddr : AddrFmt) (lineSize : ℕ+) :
    DumpsPage m vaddr showAddr lineSize (pa.phyPageNum.toNat * 4096)
      ↔ (pa.pageOffset.toNat / lineSize + 1) * lineSize ≤ 4096 := by
  obtain ⟨printed, hbytes, hdump⟩ := vmemPageDump_bytes hwalk hpage showAddr lineSize
  constructor
  · rintro ⟨printed', hdump', hbytes'⟩
    rw [hdump] at hdump'
    split_ifs at hdump' with hin
    cases hdump'
    have hlen := congrArg List.length (hbytes.symm.trans hbytes')
    rw [Memory.length_bytes, Memory.length_bytes] at hlen
    exact max_eq_right_iff.1 hlen
  · intro hle
    rw [if_pos (by omega)] at hdump
    rw [max_eq_right hle] at hbytes
    exact ⟨printed, hdump, hbytes⟩

/-- The default line of 16 bytes. -/
theorem vmemPageDump_bytes_sixteen :
    DumpsPage (fun _ => 0 : Memory 8192) ⟨0, 0, 0, 0, 0, 4090⟩ .offset 16 0 := by
  have hwalk : pageWalk (fun _ => 0 : Memory 8192) ⟨0, 0, 0, 0, 0, 4090⟩ ⟨0, 0⟩
      = .ok (.errNone, ⟨0, 4090⟩) := rfl
  exact (vmemPageDump_bytes_iff hwalk (by decide) .offset 16).2 (by decide)

/-- With lines of 100 bytes the line of the byte 4090 ends four bytes after the page. -/
theorem vmemPageDump_overruns :
    pageWalk (fun _ => 0 : Memory 8192) ⟨0, 0, 0, 0, 0, 4090⟩ ⟨0, 0⟩ = .ok (.errNone, ⟨0, 4090⟩)
      ∧ ¬ DumpsPage (fun _ => 0 : Memory 8192) ⟨0, 0, 0, 0, 0, 4090⟩ .offset 100 0 := by
  have hwalk : pageWalk (fun _ => 0 : Memory 8192) ⟨0, 0, 0, 0, 0, 4090⟩ ⟨0, 0⟩
      = .ok (.errNone, ⟨0, 4090⟩) := rfl
  refine ⟨hwalk, ?_⟩
  rintro ⟨printed, hdump, hbytes⟩
  obtain ⟨printed', hbytes', hdump'⟩ := vmemPageDump_bytes hwalk (by decide) .offset 100
  rw [hdump, if_pos (by decide)] at hdump'
  cases hdump'
  have hlen := congrArg List.length (hbytes.symm.trans hbytes')
  rw [Memory.length_bytes, Memory.length_bytes] at hlen
  exact absurd hlen (by decide)

end KabyLake
