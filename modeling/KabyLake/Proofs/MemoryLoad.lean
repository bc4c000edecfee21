import KabyLake.Proofs.DescriptionLines
import KabyLake.Proofs.PageBlocks

/-!
# Loading a description

A description is read line by line: each of its pages is copied to its place, and a page file to
where its address walks to. The tables are in pages of their own, so the page files copied before do
not change the walk (`memInitFromDescription_builds`).
-/

namespace KabyLake

open Scanf Blocks

variable {size fuel : ℕ} {files : Files} {l : PageLine} {d : Description}
  {target : VirtAddr → PhyAddr} {capacity : BitVec 64}

/-- Page 0 and the offsets of the translation pages. -/
def Description.tablePages (d : Description) : List ℕ := 0 :: d.tables.map PageLine.value

/-- Those pages with their files. -/
def Description.tableBlocks (d : Description) (files : Files) : List (Block Byte) :=
  (0, contentOf files d.pgdFile) :: d.tables.map fun l => (l.value, contentOf files l.file)

/-- The files of the data pages where their addresses walk to. -/
def Description.dataBlocks (d : Description) (files : Files) (target : VirtAddr → PhyAddr) :
    List (Block Byte) :=
  d.data.map fun l => ((target l.vaddr).addr, contentOf files l.file)

def Description.blocks (d : Description) (files : Files) (target : VirtAddr → PhyAddr) :
    List (Block Byte) := d.tableBlocks files ++ d.dataBlocks files target

/-- The memory once the tables are loaded. -/
def Description.tablesMemory (d : Description) (files : Files) (size : ℕ) : Memory size :=
  putAll (fun _ => 0) (d.tableBlocks files)

/-- Every file is a page, all pages are different and inside the capacity, and the addresses of the
data pages walk over the loaded tables to `target`. -/
structure Description.Fits (d : Description) (files : Files) (capacity : BitVec 64)
    (target : VirtAddr → PhyAddr) : Prop where
  pageFiles : ∀ name ∈ d.pgdFile :: (d.tables ++ d.data).map PageLine.file, IsPage files name
  nodup : (d.tablePages ++ d.data.map fun l => (target l.vaddr).addr).Nodup
  inside : ∀ page ∈ d.tablePages ++ d.data.map fun l => (target l.vaddr).addr,
    page + 4096 ≤ capacity.toNat
  walks : ∀ l ∈ d.data,
    WalksOver (d.tablesMemory files capacity.toNat) d.tablePages l.vaddr (target l.vaddr)

/-- The call returns `ERR_NONE` with a memory that holds each block and is 0 elsewhere, and in which
the address of each data page walks to its target. -/
def Description.BuiltBy (d : Description) (files : Files) (capacity : BitVec 64)
    (target : VirtAddr → PhyAddr) (call : Exec LoadResult) : Prop :=
  ∃ m : Memory capacity.toNat, call = .ok ⟨.errNone, capacity.toNat, some m⟩
    ∧ (∀ b ∈ d.blocks files target, Holds m b)
    ∧ (∀ j : Fin capacity.toNat, (∀ b ∈ d.blocks files target, ¬ Covers b j) → m j = 0)
    ∧ ∀ l ∈ d.data, ∀ paddr, pageWalk m l.vaddr paddr = .ok (.errNone, target l.vaddr)

theorem pageOffset_vaddr (h : 4096 ∣ l.value) : l.vaddr.pageOffset = 0 := by
  obtain ⟨n, hn⟩ := h
  apply BitVec.eq_of_toNat_eq
  simp only [PageLine.vaddr, initVirtAddr64]
  rw [BitVec.toNat_setWidth, Bits.toNat_and_mask (k := 12) rfl, BitVec.toNat_setWidth,
    BitVec.toNat_ofNat, hn]
  show 4096 * n % 2 ^ 64 % 2 ^ 16 % 2 ^ 12 % 2 ^ 12 = 0
  omega

/-- A page-aligned address walks to the beginning of a page. -/
theorem WalksOver.aligned {m : Memory size} {loaded : List ℕ} {pa : PhyAddr}
    (h : WalksOver m loaded l.vaddr pa) (hl : 4096 ∣ l.value) : 4096 ∣ pa.addr := by
  have hoffset := ((pageWalk_errNone_iff m l.vaddr ⟨0, 0⟩ pa).1 (h.walk _)).2
  rw [pageOffset_vaddr hl] at hoffset
  rw [PhyAddr.addr, hoffset]
  show 4096 ∣ pa.phyPageNum.toNat * 4096 + 0
  omega

/-- The beginning of each block is a page of the list. -/
theorem Description.blocks_fst (d : Description) (files : Files) (target : VirtAddr → PhyAddr) :
    (d.blocks files target).map Prod.fst
      = d.tablePages ++ d.data.map fun l => (target l.vaddr).addr := by
  simp only [Description.blocks, tableBlocks, dataBlocks, tablePages, List.map_append,
    List.map_cons, List.map_map]
  rfl

theorem Description.WellFormed.tablePages_aligned (h : d.WellFormed capacity) :
    ∀ page ∈ d.tablePages, 4096 ∣ page := by
  intro page hpage
  rcases List.mem_cons.1 hpage with rfl | hpage
  · exact Dvd.intro 0 rfl
  · obtain ⟨l, hl, rfl⟩ := List.mem_map.1 hpage
    exact (h.tables l hl).aligned

theorem Description.Fits.of_mem_tables (hfit : d.Fits files capacity target) (hl : l ∈ d.tables) :
    IsPage files l.file ∧ l.value + 4096 ≤ capacity.toNat := by
  refine ⟨hfit.pageFiles _ ?_, hfit.inside _ ?_⟩
  · simp only [List.mem_cons, List.mem_map, List.mem_append]
    exact .inr ⟨l, .inl hl, rfl⟩
  · exact List.mem_append_left _ (List.mem_cons_of_mem _ (List.mem_map_of_mem hl))

theorem Description.Fits.of_mem_data (hfit : d.Fits files capacity target)
    (hd : d.WellFormed capacity) (hl : l ∈ d.data) :
    IsPage files l.file ∧ 4096 ∣ (target l.vaddr).addr ∧ (target l.vaddr).addr ∉ d.tablePages
      ∧ (target l.vaddr).addr + 4096 ≤ capacity.toNat := by
  have hmem : (target l.vaddr).addr ∈ d.data.map fun l => (target l.vaddr).addr :=
    List.mem_map_of_mem hl
  refine ⟨hfit.pageFiles _ ?_, (hfit.walks l hl).aligned (hd.data l hl).aligned, fun hpage => ?_,
    hfit.inside _ (List.mem_append_right _ hmem)⟩
  · simp only [List.mem_cons, List.mem_map, List.mem_append]
    exact .inr ⟨l, .inr hl, rfl⟩
  · exact (List.nodup_append.1 hfit.nodup).2.2 _ hpage _ hmem rfl

section Blocks

variable (hd : d.WellFormed capacity) (hfit : d.Fits files capacity target)
include hd hfit

/-- Each block is a page. -/
theorem isPageBlock_of_mem {b : Block Byte} (hb : b ∈ d.blocks files target) : IsPageBlock b := by
  have hlen : ∀ name ∈ d.pgdFile :: (d.tables ++ d.data).map PageLine.file,
      (contentOf files name).length = 4096 := fun name h => (hfit.pageFiles name h).length
  simp only [List.mem_cons, List.mem_map, List.mem_append] at hlen
  rcases List.mem_append.1 hb with hb | hb
  · rcases List.mem_cons.1 hb with rfl | hb
    · exact ⟨Dvd.intro 0 rfl, hlen _ (.inl rfl)⟩
    · obtain ⟨l, hl, rfl⟩ := List.mem_map.1 hb
      exact ⟨(hd.tables l hl).aligned, hlen _ (.inr ⟨l, .inl hl, rfl⟩)⟩
  · obtain ⟨l, hl, rfl⟩ := List.mem_map.1 hb
    exact ⟨(hfit.walks l hl).aligned (hd.data l hl).aligned, hlen _ (.inr ⟨l, .inr hl, rfl⟩)⟩

theorem pairwise_apart : (d.blocks files target).Pairwise Apart := by
  have hne : (d.blocks files target).Pairwise fun b c => b.1 ≠ c.1 := by
    rw [← List.pairwise_map, d.blocks_fst]
    exact hfit.nodup
  exact hne.imp_of_mem fun hb hc hbc =>
    apart_of_ne (isPageBlock_of_mem hd hfit hb) (isPageBlock_of_mem hd hfit hc) hbc

theorem block_inside {b : Block Byte} (hb : b ∈ d.blocks files target) :
    b.1 + b.2.length ≤ capacity.toNat := by
  rw [(isPageBlock_of_mem hd hfit hb).2]
  refine hfit.inside b.1 ?_
  rw [← d.blocks_fst files]
  exact List.mem_map_of_mem hb

/-- There are fewer translation pages than an `int` can count, as they have different offsets. -/
theorem tables_length_le : d.tables.length ≤ 2 ^ 20 := by
  have hnodup : (d.tables.map PageLine.value).Nodup :=
    (List.nodup_append.1 hfit.nodup).1.of_cons
  have hpages : ((d.tables.map PageLine.value).map (· / 4096)).Nodup := by
    refine List.Nodup.map_on (fun x hx y hy hxy => ?_) hnodup
    obtain ⟨a, ha⟩ := hd.tablePages_aligned x (List.mem_cons_of_mem _ hx)
    obtain ⟨b, hb⟩ := hd.tablePages_aligned y (List.mem_cons_of_mem _ hy)
    omega
  have hsubset : (d.tables.map PageLine.value).map (· / 4096) ⊆ List.range (2 ^ 20) := by
    intro n hn
    obtain ⟨x, hx, rfl⟩ := List.mem_map.1 hn
    obtain ⟨l, hl, rfl⟩ := List.mem_map.1 hx
    exact List.mem_range.2 (Nat.div_lt_of_lt_mul (hd.tables l hl).value_lt)
  have hlen := (hpages.subperm hsubset).length_le
  rwa [List.length_map, List.length_map, List.length_range] at hlen

end Blocks

/-- The lines of the data pages are read one after the other, and the tables stay as they are. -/
theorem loadPageFiles_lines {inner : ℕ} {lines : List PageLine} {loaded : List ℕ}
    {m : Memory size} (hwf : ∀ l ∈ lines, l.WellFormed 16)
    (hfile : ∀ l ∈ lines, IsPage files l.file)
    (htarget : ∀ l ∈ lines, 4096 ∣ (target l.vaddr).addr ∧ (target l.vaddr).addr ∉ loaded
      ∧ (target l.vaddr).addr + 4096 ≤ size)
    (haligned : ∀ page ∈ loaded, 4096 ∣ page)
    (hwalk : ∀ l ∈ lines, WalksOver m loaded l.vaddr (target l.vaddr)) (hinner : 0 < inner)
    (hfuel : lines.length < fuel) {s : Loader size} (hsame : SameTables loaded m s.memory)
    (hs : Ahead s (lines.flatMap PageLine.text)) :
    ∃ s', loadPageFiles files inner fuel s = .ok (.errNone, s')
      ∧ SameTables loaded m s'.memory
      ∧ s'.memory = putAll s.memory
          (lines.map fun l => ((target l.vaddr).addr, contentOf files l.file)) := by
  induction lines generalizing s fuel with
  | nil =>
    obtain ⟨fuel, rfl⟩ := Nat.exists_eq_succ_of_ne_zero (Nat.ne_of_gt hfuel)
    obtain ⟨c, hs⟩ := hs
    have heof : s.file.eof = true := congrArg (fun p => p.2.eof) hs.symm
    refine ⟨s, ?_, hsame, rfl⟩
    rw [loadPageFiles, heof]
    rfl
  | cons l lines ih =>
    obtain ⟨fuel, rfl⟩ := Nat.exists_eq_succ_of_ne_zero (Nat.ne_of_gt (Nat.zero_lt_of_lt hfuel))
    obtain ⟨hmul, hnot, hinside⟩ := htarget l List.mem_cons_self
    have hblock : IsPageBlock ((target l.vaddr).addr, contentOf files l.file) :=
      ⟨hmul, (hfile l List.mem_cons_self).length⟩
    rw [List.flatMap_cons] at hs
    obtain ⟨s₁, hstep, hs₁, hmem₁⟩ := loadPageFile_line (hwf l List.mem_cons_self)
      (hfile l List.mem_cons_self) hinside hinner hs
      ((hwalk l List.mem_cons_self).pageWalk_eq hsame)
    have hsame₁ : SameTables loaded m s₁.memory := hmem₁ ▸ hsame.put hblock haligned hnot
    obtain ⟨s₂, hrun, hsame₂, hmem₂⟩ := ih (fun l hl => hwf l (List.mem_cons_of_mem _ hl))
      (fun l hl => hfile l (List.mem_cons_of_mem _ hl))
      (fun l hl => htarget l (List.mem_cons_of_mem _ hl))
      (fun l hl => hwalk l (List.mem_cons_of_mem _ hl)) (Nat.lt_of_succ_lt_succ hfuel) hsame₁ hs₁
    have heof : s.file.eof = false := by
      obtain ⟨c, hs⟩ := hs
      exact congrArg (fun p => p.2.eof) hs.symm
    refine ⟨s₂, ?_, hsame₂, ?_⟩
    · rw [loadPageFiles, heof, hstep]
      exact hrun
    · rw [hmem₂, hmem₁]
      rfl

/-- The lines after the capacity fill the memory, the last ones without change to the tables. -/
theorem loadPages_text (hd : d.WellFormed capacity) (hfit : d.Fits files capacity target)
    (hfuel : d.data.length < fuel) (locals : Locals) : ∃ m : Memory capacity.toNat,
      loadPages files fuel locals ⟨d.pgdFile ++ '\n' :: (d.count ++ '\n' :: d.pageText), false⟩
          (fun _ => 0) = .ok (.errNone, m)
        ∧ m = putAll (fun _ => 0) (d.blocks files target)
        ∧ SameTables d.tablePages (d.tablesMemory files capacity.toNat) m := by
  have hpos : 0 < fuel := Nat.zero_lt_of_lt hfuel
  have hread : pageFileRead files d.pgdFile (fun _ => 0 : Memory capacity.toNat) 0
      = .ok (.errNone, put (fun _ => 0) (0, contentOf files d.pgdFile)) :=
    pageFileRead_page (hfit.pageFiles _ List.mem_cons_self) (hfit.inside 0 List.mem_cons_self) _
  have hle := tables_length_le hd hfit
  have hcount : scanInt ⟨d.count ++ '\n' :: d.pageText, false⟩
      = (some (BitVec.ofNat 32 d.tables.length), ⟨'\n' :: d.pageText, false⟩) := by
    rw [← hd.count_value]
    exact scanInt_digits hd.count_ne hd.count_digits isSpace_newline
      (by rw [hd.count_value]; omega)
  have hpasses : ((BitVec.ofNat 32 d.tables.length).signExtend 64).toNat = d.tables.length :=
    signExtend_ofNat (by omega)
  unfold loadPages
  simp only [Option.getD_some, nextLine_newline hpos, Exec.ok_bind, if_false,
    scanFileName_first hd.pgdFile, hread, ne_eq, not_true_eq_false, hcount, hpasses]
  -- the tables
  obtain ⟨s₁, hrun₁, hfile₁, hmem₁⟩ := loadTranslationPages_lines hd.tables
    (fun l hl => (hfit.of_mem_tables hl).1) (fun l hl => (hfit.of_mem_tables hl).2) hpos
    (s := ⟨{ locals with pgdFileName := d.pgdFile }, ⟨d.pageText, false⟩,
      put (fun _ => 0) (0, contentOf files d.pgdFile)⟩) rfl
  rw [hrun₁]
  simp only [Exec.ok_bind, not_true_eq_false, if_false]
  have hmem : s₁.memory = d.tablesMemory files capacity.toNat := hmem₁
  -- the data pages
  have hahead : Ahead { s₁ with
      currChar := (scanChar s₁.currChar s₁.file).1
      file := (scanChar s₁.currChar s₁.file).2 } (d.data.flatMap PageLine.text) := by
    rw [hfile₁]
    exact ⟨s₁.currChar, rfl⟩
  obtain ⟨s₂, hrun₂, hsame₂, hmem₂⟩ := loadPageFiles_lines hd.data
    (fun l hl => (hfit.of_mem_data hd hl).1) (fun l hl => (hfit.of_mem_data hd hl).2)
    hd.tablePages_aligned hfit.walks hpos hfuel (by rw [hmem]; exact fun _ _ _ _ => rfl) hahead
  rw [hrun₂]
  refine ⟨s₂.memory, rfl, ?_, hsame₂⟩
  rw [hmem₂, hmem]
  exact List.foldl_append.symm

/-- The loader of a description in the documented format builds the memory it describes, and in that
memory each address of a data page walks to the page of its file. -/
theorem memInitFromDescription_builds {calloc : ℕ → Bool} {masterFilename : List Char}
    (hd : d.WellFormed capacity) (hfit : d.Fits files capacity target)
    (hmaster : (files masterFilename).map textOf = some d.text)
    (halloc : calloc capacity.toNat = true) (hfuel : d.data.length < fuel) (locals : Locals)
    (memCapacityInBytes : BitVec 64) : d.BuiltBy files capacity target
      (memInitFromDescription calloc files fuel locals masterFilename memCapacityInBytes) := by
  obtain ⟨bytes, hbytes, htext⟩ := Option.map_eq_some_iff.1 hmaster
  obtain ⟨m, hload, hblocks, hsame⟩ := loadPages_text hd hfit hfuel locals
  refine ⟨m, ?_, fun b hb => ?_, fun j hj => ?_, fun l hl paddr => ?_⟩
  · have hcapacity : scanSize ⟨d.text, false⟩ = (some (BitVec.ofNat 64 (decValue d.capacity)),
        ⟨'\n' :: (d.pgdFile ++ '\n' :: (d.count ++ '\n' :: d.pageText)), false⟩) :=
      scanSize_digits hd.capacity_ne hd.capacity_digits isSpace_newline
        (hd.capacity_value ▸ capacity.isLt)
    rw [hd.capacity_value, BitVec.ofNat_toNat, BitVec.setWidth_eq] at hcapacity
    unfold memInitFromDescription
    rw [hbytes]
    dsimp only
    rw [htext, hcapacity]
    simp only [Option.getD_some, nextLine_newline (Nat.zero_lt_of_lt hfuel), Exec.ok_bind, halloc,
      Bool.not_true, Bool.false_eq_true, if_false, hload, Exec.pure_eq]
  · rw [hblocks]
    exact putAll_of_mem (pairwise_apart hd hfit) (fun b hb => block_inside hd hfit hb) hb
  · rw [hblocks]
    exact putAll_outside hj
  · exact (hfit.walks l hl).pageWalk_eq hsame paddr

/-- A page that starts with some bytes. -/
def pageOf (bytes : List Byte) : List Byte := bytes ++ List.replicate (4096 - bytes.length) 0

/-- A description with a table at 4096 for all lower levels, and a data page at that address. -/
def twoLines : Description where
  capacity := ['1', '2', '2', '8', '8']
  pgdFile := ['g']
  count := ['1']
  tables := [⟨['1', '0', '0', '0'], [' '], ['t']⟩]
  data := [⟨['1', '0', '0', '0'], [' '], ['d']⟩]

def twoFiles : Files := fun name =>
  if name = ['m'] then some (twoLines.text.map fun c => BitVec.ofNat 8 c.toNat)
  else if name = ['g'] then some (pageOf [0, 0x10, 0, 0])
  else if name = ['t'] then some (pageOf [0, 0x10, 0, 0, 0, 0x20, 0, 0])
  else some (pageOf [7])

theorem length_pageOf {bytes : List Byte} (h : bytes.length ≤ 4096) :
    (pageOf bytes).length = 4096 := by
  rw [pageOf, List.length_append, List.length_replicate]
  omega

theorem twoLines_walks : WalksOver (twoLines.tablesMemory twoFiles 12288) twoLines.tablePages
    (initVirtAddr64 0x1000) ⟨2, 0⟩ := by
  have hg : IsPageBlock (0, pageOf [0, 0x10, 0, 0]) :=
    ⟨Dvd.intro 0 rfl, length_pageOf (by decide)⟩
  have ht : IsPageBlock (0x1000, pageOf [0, 0x10, 0, 0, 0, 0x20, 0, 0]) :=
    ⟨Dvd.intro 1 rfl, length_pageOf (by decide)⟩
  have hblocks : twoLines.tableBlocks twoFiles
      = [(0, pageOf [0, 0x10, 0, 0]), (0x1000, pageOf [0, 0x10, 0, 0, 0, 0x20, 0, 0])] := rfl
  have hpages : twoLines.tablePages = [0, 0x1000] := rfl
  have hholds : ∀ b ∈ twoLines.tableBlocks twoFiles,
      Holds (twoLines.tablesMemory twoFiles 12288) b := by
    refine fun b hb => putAll_of_mem ?_ (fun b hb => ?_) hb
    · rw [hblocks]
      exact List.pairwise_pair.2 (apart_of_ne hg ht (by norm_num))
    · simp only [hblocks, List.mem_cons, List.not_mem_nil, or_false] at hb
      rcases hb with rfl | rfl
      · rw [hg.2]
        norm_num
      · rw [ht.2]
        norm_num
  rw [hblocks] at hholds
  generalize twoLines.tablesMemory twoFiles 12288 = m at hholds
  have h0 : readPageEntry m 0 0 = .ok 0x1000 :=
    readPageEntry_holds (hholds _ List.mem_cons_self) rfl (Dvd.intro 0 rfl)
      (by rw [hg.2]; norm_num)
  have hentry : ∀ index < 2, readPageEntry m 0x1000 index
      = .ok (entryOf (pageOf [0, 0x10, 0, 0, 0, 0x20, 0, 0]) index) := fun index hindex =>
    readPageEntry_holds (hholds _ (.tail _ List.mem_cons_self)) rfl (Dvd.intro 1 rfl)
      (by rw [ht.2]; omega)
  have h1 : readPageEntry m 0x1000 0 = .ok 0x1000 := hentry 0 (by norm_num)
  have h2 : readPageEntry m 0x1000 1 = .ok 0x2000 := hentry 1 (by norm_num)
  have hindices : (initVirtAddr64 0x1000).indices = [0, 0, 0, 1] := by decide
  refine ⟨?_, fun paddr => ?_⟩
  · rw [walkTables, hindices, tablesFrom_of_ok _ h0, tablesFrom_of_ok _ h1, tablesFrom_of_ok _ h1,
      tablesFrom_of_ok _ h2, hpages]
    simp [tablesFrom]
  · have hframe : walkFrame m (initVirtAddr64 0x1000) = .ok (some 2) := by
      simp only [VirtAddr.indices, List.cons.injEq, and_true] at hindices
      obtain ⟨hpgd, hpud, hpmd, hpte⟩ := hindices
      simp only [walkFrame, hpgd, hpud, hpmd, hpte, h0, h1, h2, Exec.ok_bind]
      rfl
    rw [pageWalk_eq, hframe]
    rfl

theorem twoLines_wellFormed : twoLines.WellFormed 12288 := by
  have hname : ∀ c ∈ ['g', 't', 'd'], IsFileName [c] := by
    intro c hc
    refine ⟨List.cons_ne_nil c [], by norm_num, fun c' hc' => ?_⟩
    rw [List.mem_singleton.1 hc']
    simp only [List.mem_cons, List.not_mem_nil, or_false] at hc
    rcases hc with rfl | rfl | rfl <;> decide
  have hdigits : ∀ c ∈ ['1', '0', '0', '0'], isXDigit c :=
    List.all_eq_true.1 (by decide)
  have hsep : ∀ c ∈ [' '], c = ' ' ∨ c = '\t' := List.forall_mem_singleton.2 (.inl rfl)
  have hline : ∀ c ∈ ['t', 'd'], ∀ width ≥ 4,
      PageLine.WellFormed width ⟨['1', '0', '0', '0'], [' '], [c]⟩ := fun c hc width hwidth =>
    ⟨List.cons_ne_nil _ _, hwidth, hdigits, Dvd.intro 1 rfl, List.cons_ne_nil _ _, hsep,
      hname c (.tail _ hc)⟩
  refine ⟨by decide, List.all_eq_true.1 (by decide), rfl, hname 'g' (by decide), by decide,
    List.all_eq_true.1 (by decide), rfl, List.forall_mem_singleton.2 ?_,
    List.forall_mem_singleton.2 ?_⟩
  · exact hline 't' (by decide) 8 (by norm_num)
  · exact hline 'd' (by decide) 16 (by norm_num)

theorem twoLines_fits : twoLines.Fits twoFiles 12288 fun _ => ⟨2, 0⟩ := by
  refine ⟨?_, by decide, by decide, List.forall_mem_singleton.2 twoLines_walks⟩
  intro name hname
  simp only [twoLines, List.map_cons, List.map_nil, List.cons_append,
    List.nil_append, List.mem_cons, List.not_mem_nil, or_false] at hname
  rcases hname with rfl | rfl | rfl <;> exact ⟨_, rfl, length_pageOf (by decide)⟩

/-- The loader builds that description. -/
theorem memInitFromDescription_twoLines : twoLines.BuiltBy twoFiles 12288 (fun _ => ⟨2, 0⟩)
    (memInitFromDescription (fun _ => true) twoFiles 2 ⟨[], '0', [], 0, 0, ⟨0, 0⟩⟩ ['m'] 0) :=
  memInitFromDescription_builds twoLines_wellFormed twoLines_fits (by decide) rfl (by decide) _ _

end KabyLake
