import KabyLake.Proofs.PageBlocks

/-!
# The walk in a loaded image

A walk follows one entry of each table, and stops at one that is not page-aligned; nothing compares
it with the size of the image. So a walk over an image loaded from a dump stays inside it exactly if
each entry it follows is in the file and the address it ends at is too (`pageWalk_inside_iff`).
-/

namespace KabyLake

variable {size : ℕ} {m : Memory size} {content : List Byte}

/-- The walk reads no entry outside the image, and the address it yields is inside. -/
def WalkInside (m : Memory size) (vaddr : VirtAddr) (paddr : PhyAddr) : Prop :=
  (∀ fault, pageWalk m vaddr paddr ≠ .error fault)
    ∧ ∀ pa, pageWalk m vaddr paddr = .ok (.errNone, pa) → pa.addr < size

/-- From a page on, each entry at the indices of the levels left is in the file as long as the ones
before it are page-aligned, and so then is the byte at the offset of the last page. -/
def EntriesInside (content : List Byte) (offset : ℕ) : Word → List ℕ → Prop
  | page, [] => page.toNat + offset < content.length
  | page, index :: indices => page.toNat + 4 * index + 4 ≤ content.length
    ∧ (entryOf content (page.toNat / 4 + index) % 4096 = 0 →
      EntriesInside content offset (entryOf content (page.toNat / 4 + index)) indices)

instance decidableEntriesInside (content : List Byte) (offset : ℕ) :
    ∀ page indices, Decidable (EntriesInside content offset page indices)
  | _, [] => inferInstanceAs (Decidable (_ < _))
  | _, _ :: indices =>
    have := fun page => decidableEntriesInside content offset page indices
    inferInstanceAs (Decidable (_ ∧ (_ → _)))

/-- An entry of an image is a word of its file. -/
theorem readPageEntry_image {m : Memory content.length} (h : Blocks.Holds m (0, content))
    {page : Word} (hpage : page % 4096 = 0) (index : ℕ) : readPageEntry m page index
      = if page.toNat + 4 * index + 4 ≤ content.length
        then .ok (entryOf content (page.toNat / 4 + index)) else .error .memory := by
  have haligned : page.toNat % 4096 = 0 := by
    simpa using congrArg BitVec.toNat hpage
  have hindex : 4 * (page.toNat / 4 + index) = page.toNat + 4 * index := by omega
  split_ifs with hsize
  · have hread : readPageEntry m 0 (page.toNat / 4 + index)
        = .ok (entryOf content (page.toNat / 4 + index)) :=
      readPageEntry_holds h rfl (dvd_zero _) (by rw [hindex]; exact hsize)
    rw [← hread, readPageEntry, readPageEntry]
    simp
  · rw [readPageEntry, Memory.loadWord, if_neg (by omega)]

/-- A walk from a page on stays in the image exactly if the entries it follows do. -/
theorem walkPages_inside_iff {m : Memory content.length} (h : Blocks.Holds m (0, content))
    (offset : ℕ) : ∀ (indices : List ℕ) {page : Word}, page % 4096 = 0 →
    (((∀ fault, walkPages m page indices ≠ .error fault)
        ∧ ∀ last, walkPages m page indices = .ok (some last) →
          last.toNat + offset < content.length)
      ↔ EntriesInside content offset page indices)
  | [], page, _ => by
    simp [walkPages, EntriesInside]
  | index :: indices, page, hpage => by
    have hread := readPageEntry_image h hpage index
    rw [walkPages, EntriesInside, hread]
    by_cases hsize : page.toNat + 4 * index + 4 ≤ content.length
    · rw [if_pos hsize, Exec.ok_bind]
      by_cases hnext : entryOf content (page.toNat / 4 + index) % 4096 = 0
      · have ih := walkPages_inside_iff h offset indices hnext
        rw [if_neg (not_not_intro hnext)]
        simp only [hsize, hnext, true_and, forall_const]
        exact ih
      · rw [if_pos hnext]
        exact iff_of_true (by simp) ⟨hsize, fun h => absurd h hnext⟩
    · rw [if_neg hsize]
      simp [hsize]

theorem walkInside_iff (m : Memory size) (vaddr : VirtAddr) (paddr : PhyAddr) :
    WalkInside m vaddr paddr ↔ (∀ fault, walkPages m 0 vaddr.indices ≠ .error fault)
      ∧ ∀ last, walkPages m 0 vaddr.indices = .ok (some last) →
        last.toNat + vaddr.pageOffset.toNat < size := by
  unfold WalkInside
  rw [pageWalk_eq, walkFrame_eq]
  rcases hwalk : walkPages m 0 vaddr.indices with e | _ | last
  · simp [Except.map]
  · simp [Except.map]
  · have haddr := addr_of_aligned (walkPages_aligned rfl hwalk) vaddr.pageOffset
    simp [Except.map, haddr]

/-- A walk over an image that was loaded from a dump stays inside it exactly if, along it, each
entry is in the file as long as the ones before it are page-aligned, and so is the byte the address
ends at. -/
theorem pageWalk_inside_iff {calloc : ℕ → Bool} {files : Files} {seek close : ℤ}
    {filename : List Char} {memCapacityInBytes : BitVec 64}
    (hload : memInitFromDumpfile calloc files seek close filename memCapacityInBytes
      = .ok ⟨.errNone, size, some m⟩) (vaddr : VirtAddr) (paddr : PhyAddr) :
    WalkInside m vaddr paddr ↔ ∀ content, files filename = some content →
      EntriesInside content vaddr.pageOffset.toNat 0 vaddr.indices := by
  unfold memInitFromDumpfile at hload
  rcases hfile : files filename with _ | content <;> rw [hfile] at hload
  · cases hload
  simp only [Memory.readFile_whole, Exec.ok_bind] at hload
  split_ifs at hload
  · cases hload
  · cases hload
  · cases hload
  · cases hload
    have hholds : Blocks.Holds (Blocks.put (fun _ => 0 : Memory content.length) (0, content))
        (0, content) := Blocks.put_self (Nat.zero_add _).le
    rw [walkInside_iff, walkPages_inside_iff hholds vaddr.pageOffset.toNat vaddr.indices rfl]
    simp only [Option.some.injEq, forall_eq']

/-- A dump that can be opened, read and closed is its image. -/
theorem memInitFromDumpfile_image {calloc : ℕ → Bool} {files : Files} {filename : List Char}
    (hopen : files filename = some content) (hblock : calloc content.length = true)
    (memCapacityInBytes : BitVec 64) :
    memInitFromDumpfile calloc files 0 0 filename memCapacityInBytes
      = .ok ⟨.errNone, content.length, some (Blocks.put (fun _ => 0) (0, content))⟩ := by
  simp only [memInitFromDumpfile, hopen, Memory.readFile_whole, hblock]
  rfl

/-- Two pages of zeros, but for entry 1 of the first, which is the second. -/
def twoTables : List Byte := (List.range 8192).map fun i => if i = 5 then 0x10 else 0

/-- A walk that reads an entry of the second page and goes back to the first. -/
theorem pageWalk_inside_twoTables :
    WalkInside (Blocks.put (fun _ => 0 : Memory twoTables.length) (0, twoTables))
      ⟨0, 1, 2, 3, 4, 5⟩ ⟨0, 0⟩ := by
  have hload : memInitFromDumpfile (fun _ => true) (fun _ => some twoTables) 0 0 [] 0 = _ :=
    memInitFromDumpfile_image rfl rfl 0
  refine (pageWalk_inside_iff hload _ _).2 fun content hcontent => ?_
  obtain rfl : twoTables = content := Option.some.inj hcontent
  decide +kernel

/-- A page whose first entry is the page after it. -/
theorem pageWalk_leaves_image : ¬ ∀ size (m : Memory size), memInitFromDumpfile (fun _ => true)
    (fun _ => some ([0, 0x10, 0, 0] ++ List.replicate 4092 0)) 0 0 [] 0
      = .ok ⟨.errNone, size, some m⟩ → WalkInside m ⟨0, 0, 0, 0, 0, 0⟩ ⟨0, 0⟩ := by
  intro h
  have hinside := h _ _ (memInitFromDumpfile_image rfl rfl 0)
  rw [walkInside_iff, walkPages_inside_iff (Blocks.put_self (Nat.zero_add _).le) _ _ rfl] at hinside
  have hnext := (hinside.2 rfl).1
  have hlen : ([0, 0x10, 0, 0] ++ List.replicate 4092 (0 : Byte)).length = 4096 := by
    rw [List.length_append, List.length_replicate]
    rfl
  rw [hlen] at hnext
  exact absurd hnext (by decide)

end KabyLake
