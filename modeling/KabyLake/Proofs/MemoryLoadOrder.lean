import KabyLake.Proofs.MemoryLoad

/-!
# The order of the lines of a description

The memory that a description loads is the zeros with each of its pages written over them
(`memInitFromDescription_memory`). The pages are apart, so the lines of the tables, and those of the
data, can be in any order (`memInitFromDescription_reorders`).
-/

namespace KabyLake

open Scanf Blocks

variable {size fuel : ℕ} {files : Files} {d d' : Description} {target : VirtAddr → PhyAddr}
  {capacity : BitVec 64} {calloc : ℕ → Bool} {masterFilename masterFilename' : List Char}

/-- The zeros with each page of the description written. -/
def Description.memory (d : Description) (files : Files) (target : VirtAddr → PhyAddr)
    (size : ℕ) : Memory size :=
  putAll (fun _ => 0) (d.blocks files target)

theorem memInitFromDescription_memory (hd : d.WellFormed capacity)
    (hfit : d.Fits files capacity target)
    (hmaster : (files masterFilename).map textOf = some d.text)
    (halloc : calloc capacity.toNat = true) (hfuel : d.data.length < fuel) (locals : Locals)
    (memCapacityInBytes : BitVec 64) :
    memInitFromDescription calloc files fuel locals masterFilename memCapacityInBytes
      = .ok ⟨.errNone, capacity.toNat, some (d.memory files target capacity.toNat)⟩ := by
  obtain ⟨bytes, hbytes, htext⟩ := Option.map_eq_some_iff.1 hmaster
  obtain ⟨m, hload, hmemory, -⟩ := loadPages_text hd hfit hfuel locals
  have hcapacity : scanSize ⟨d.text, false⟩ = (some (BitVec.ofNat 64 (decValue d.capacity)),
      ⟨'\n' :: (d.pgdFile ++ '\n' :: (d.count ++ '\n' :: d.pageText)), false⟩) :=
    scanSize_digits hd.capacity_ne hd.capacity_digits isSpace_newline
      (hd.capacity_value ▸ capacity.isLt)
  rw [hd.capacity_value, BitVec.ofNat_toNat, BitVec.setWidth_eq] at hcapacity
  unfold memInitFromDescription
  rw [hbytes]
  dsimp only
  rw [htext, hcapacity]
  simp only [Option.getD_some, nextLine_newline (Nat.zero_lt_of_lt hfuel), Exec.ok_bind, halloc,
    Bool.not_true, Bool.false_eq_true, if_false, hload, Exec.pure_eq, hmemory, Description.memory]

/-- The same page directory, and the same lines in another order. -/
structure Description.Reorders (d d' : Description) : Prop where
  pgdFile : d'.pgdFile = d.pgdFile
  tables : d.tables.Perm d'.tables
  data : d.data.Perm d'.data

variable (h : d.Reorders d')
include h

theorem Description.Reorders.tablePages : d.tablePages.Perm d'.tablePages :=
  (h.tables.map PageLine.value).cons 0

theorem Description.Reorders.tableBlocks (files : Files) :
    (d.tableBlocks files).Perm (d'.tableBlocks files) := by
  unfold Description.tableBlocks
  rw [h.pgdFile]
  exact (h.tables.map _).cons _

theorem Description.Reorders.blocks (files : Files) (target : VirtAddr → PhyAddr) :
    (d.blocks files target).Perm (d'.blocks files target) :=
  (h.tableBlocks files).append (h.data.map _)

theorem Description.Reorders.pages (target : VirtAddr → PhyAddr) :
    (d.tablePages ++ d.data.map fun l => (target l.vaddr).addr).Perm
      (d'.tablePages ++ d'.data.map fun l => (target l.vaddr).addr) :=
  h.tablePages.append (h.data.map _)

variable (hd : d.WellFormed capacity) (hfit : d.Fits files capacity target)
include hd hfit

theorem Description.Reorders.tablesMemory :
    d'.tablesMemory files capacity.toNat = d.tablesMemory files capacity.toNat := by
  have hapart := pairwise_apart hd hfit
  rw [Description.blocks, List.pairwise_append] at hapart
  exact (putAll_perm (h.tableBlocks files) hapart.1 _).symm

/-- The pages fit in the other order, and the walks are the same. -/
theorem Description.Reorders.fits : d'.Fits files capacity target := by
  refine ⟨fun name hname => hfit.pageFiles name ?_, (h.pages target).nodup_iff.1 hfit.nodup,
    fun page hpage => hfit.inside page ((h.pages target).mem_iff.2 hpage), fun l hl => ?_⟩
  · rw [h.pgdFile] at hname
    exact (((h.tables.append h.data).map _).cons _).mem_iff.2 hname
  · have hwalk := hfit.walks l (h.data.mem_iff.2 hl)
    rw [h.tablesMemory hd hfit]
    exact ⟨fun page hpage => h.tablePages.mem_iff.1 (hwalk.tables page hpage), hwalk.walk⟩

theorem Description.Reorders.memory :
    d'.memory files target capacity.toNat = d.memory files target capacity.toNat :=
  (putAll_perm (h.blocks files target) (pairwise_apart hd hfit) _).symm

/-- Two descriptions of the same pages in different orders load the same memory, whatever the
variables of the loader held. -/
theorem memInitFromDescription_reorders (hd' : d'.WellFormed capacity)
    (hmaster : (files masterFilename).map textOf = some d.text)
    (hmaster' : (files masterFilename').map textOf = some d'.text)
    (halloc : calloc capacity.toNat = true) (hfuel : d.data.length < fuel)
    (locals locals' : Locals) (memCapacityInBytes memCapacityInBytes' : BitVec 64) :
    memInitFromDescription calloc files fuel locals' masterFilename' memCapacityInBytes'
      = memInitFromDescription calloc files fuel locals masterFilename memCapacityInBytes := by
  have hfuel' : d'.data.length < fuel := h.data.length_eq ▸ hfuel
  rw [memInitFromDescription_memory hd hfit hmaster halloc hfuel,
    memInitFromDescription_memory hd' (h.fits hd hfit) hmaster' halloc hfuel', h.memory hd hfit]

omit h hd hfit

section Example

/-- A description with a table at 4096 for all lower levels, and two data pages. -/
def twoPages : Description where
  capacity := ['1', '6', '3', '8', '4']
  pgdFile := ['g']
  count := ['1']
  tables := [⟨['1', '0', '0', '0'], [' '], ['t']⟩]
  data := [⟨['1', '0', '0', '0'], [' '], ['d']⟩, ⟨['2', '0', '0', '0'], [' '], ['e']⟩]

def twoPagesBack : Description := { twoPages with data := twoPages.data.reverse }

def tableBytes : List Byte := [0, 0x10, 0, 0, 0, 0x20, 0, 0, 0, 0x30, 0, 0]

def twoPagesFiles : Files := fun name =>
  if name = ['m'] then some (twoPages.text.map fun c => BitVec.ofNat 8 c.toNat)
  else if name = ['n'] then some (twoPagesBack.text.map fun c => BitVec.ofNat 8 c.toNat)
  else if name = ['g'] then some (pageOf [0, 0x10, 0, 0])
  else if name = ['t'] then some (pageOf tableBytes)
  else if name = ['d'] then some (pageOf [7]) else some (pageOf [8])

theorem twoPages_tables : ∀ b ∈ twoPages.tableBlocks twoPagesFiles,
    Holds (twoPages.tablesMemory twoPagesFiles 16384) b := by
  have hg : IsPageBlock (0, pageOf [0, 0x10, 0, 0]) :=
    ⟨Dvd.intro 0 rfl, length_pageOf (by decide)⟩
  have ht : IsPageBlock (0x1000, pageOf tableBytes) := ⟨Dvd.intro 1 rfl, length_pageOf (by decide)⟩
  have hblocks : twoPages.tableBlocks twoPagesFiles
      = [(0, pageOf [0, 0x10, 0, 0]), (0x1000, pageOf tableBytes)] := rfl
  refine fun b hb => putAll_of_mem ?_ (fun b hb => ?_) hb
  · rw [hblocks]
    exact List.pairwise_pair.2 (apart_of_ne hg ht (by norm_num))
  · simp only [hblocks, List.mem_cons, List.not_mem_nil, or_false] at hb
    rcases hb with rfl | rfl
    · rw [hg.2]
      norm_num
    · rw [ht.2]
      norm_num

theorem twoPages_walks {vaddr : VirtAddr} {index : ℕ} (hindex : index = 1 ∨ index = 2)
    (hindices : vaddr.indices = [0, 0, 0, index]) (hoffset : vaddr.pageOffset = 0) :
    WalksOver (twoPages.tablesMemory twoPagesFiles 16384) twoPages.tablePages vaddr
      ⟨BitVec.ofNat 20 (index + 1), 0⟩ := by
  have hholds := twoPages_tables
  have hblocks : twoPages.tableBlocks twoPagesFiles
      = [(0, pageOf [0, 0x10, 0, 0]), (0x1000, pageOf tableBytes)] := rfl
  have hpages : twoPages.tablePages = [0, 0x1000] := rfl
  rw [hblocks] at hholds
  generalize twoPages.tablesMemory twoPagesFiles 16384 = m at hholds
  have h0 : readPageEntry m 0 0 = .ok 0x1000 :=
    readPageEntry_holds (hholds _ List.mem_cons_self) rfl (Dvd.intro 0 rfl)
      (by rw [length_pageOf (by decide)]; norm_num)
  have hentry : ∀ index < 3,
      readPageEntry m 0x1000 index = .ok (entryOf (pageOf tableBytes) index) :=
    fun index hindex => readPageEntry_holds (hholds _ (.tail _ List.mem_cons_self)) rfl
      (Dvd.intro 1 rfl) (by rw [length_pageOf (by decide)]; omega)
  have h1 : readPageEntry m 0x1000 0 = .ok 0x1000 := hentry 0 (by norm_num)
  have h2 : readPageEntry m 0x1000 index = .ok (BitVec.ofNat 32 ((index + 1) * 4096)) := by
    rcases hindex with rfl | rfl
    · exact hentry 1 (by norm_num)
    · exact hentry 2 (by norm_num)
  refine ⟨?_, fun paddr => ?_⟩
  · rw [walkTables, hindices, tablesFrom_of_ok _ h0, tablesFrom_of_ok _ h1, tablesFrom_of_ok _ h1,
      tablesFrom_of_ok _ h2, hpages]
    simp [tablesFrom]
  · have hframe : walkFrame m vaddr = .ok (some (BitVec.ofNat 20 (index + 1))) := by
      simp only [VirtAddr.indices, List.cons.injEq, and_true] at hindices
      obtain ⟨hpgd, hpud, hpmd, hpte⟩ := hindices
      simp only [walkFrame, hpgd, hpud, hpmd, hpte, h0, h1, h2, Exec.ok_bind]
      rcases hindex with rfl | rfl <;> rfl
    rw [pageWalk_eq, hframe, hoffset]
    rfl

/-- The frame of each page, one after its index. -/
def twoPagesTarget (vaddr : VirtAddr) : PhyAddr := ⟨BitVec.ofNat 20 (vaddr.pteEntry.toNat + 1), 0⟩

theorem twoPages_fits : twoPages.Fits twoPagesFiles 16384 twoPagesTarget := by
  refine ⟨fun name hname => ?_, by decide, by decide, fun l hl => ?_⟩
  · simp only [twoPages, List.map_cons, List.map_nil, List.cons_append, List.nil_append,
      List.mem_cons, List.not_mem_nil, or_false] at hname
    rcases hname with rfl | rfl | rfl | rfl <;> exact ⟨_, rfl, length_pageOf (by decide)⟩
  · simp only [twoPages, List.mem_cons, List.not_mem_nil, or_false] at hl
    rcases hl with rfl | rfl
    · exact twoPages_walks (.inl rfl) (by decide) (by decide)
    · exact twoPages_walks (.inr rfl) (by decide) (by decide)

theorem twoPages_wellFormed : twoPages.WellFormed 16384 := by
  have hname : ∀ c ∈ ['g', 't', 'd', 'e'], IsFileName [c] := by
    intro c hc
    refine ⟨List.cons_ne_nil c [], by norm_num, fun c' hc' => ?_⟩
    rw [List.mem_singleton.1 hc']
    simp only [List.mem_cons, List.not_mem_nil, or_false] at hc
    rcases hc with rfl | rfl | rfl | rfl <;> decide
  have hsep : ∀ c ∈ [' '], c = ' ' ∨ c = '\t' := List.forall_mem_singleton.2 (.inl rfl)
  have hdigits : ∀ d ∈ ['1', '2'], (∀ c ∈ [d, '0', '0', '0'], isXDigit c)
      ∧ 4096 ∣ hexValue [d, '0', '0', '0'] := by
    intro d hd
    simp only [List.mem_cons, List.not_mem_nil, or_false] at hd
    rcases hd with rfl | rfl
    · exact ⟨List.all_eq_true.1 (by decide), Dvd.intro 1 rfl⟩
    · exact ⟨List.all_eq_true.1 (by decide), Dvd.intro 2 rfl⟩
  have hline : ∀ d ∈ ['1', '2'], ∀ c ∈ ['t', 'd', 'e'], ∀ width ≥ 4,
      PageLine.WellFormed width ⟨[d, '0', '0', '0'], [' '], [c]⟩ := fun d hd c hc width hwidth =>
    ⟨List.cons_ne_nil _ _, hwidth, (hdigits d hd).1, (hdigits d hd).2, List.cons_ne_nil _ _, hsep,
      hname c (.tail _ hc)⟩
  refine ⟨by decide, List.all_eq_true.1 (by decide), rfl, hname 'g' (by decide), by decide,
    List.all_eq_true.1 (by decide), rfl, List.forall_mem_singleton.2 ?_,
    List.forall_mem_cons.2 ⟨?_, List.forall_mem_singleton.2 ?_⟩⟩
  · exact hline '1' (by decide) 't' (by decide) 8 (by norm_num)
  · exact hline '1' (by decide) 'd' (by decide) 16 (by norm_num)
  · exact hline '2' (by decide) 'e' (by decide) 16 (by norm_num)

theorem twoPages_reorders : twoPages.Reorders twoPagesBack :=
  ⟨rfl, .rfl, (List.reverse_perm _).symm⟩

theorem twoPagesBack_wellFormed : twoPagesBack.WellFormed 16384 :=
  { twoPages_wellFormed with
    data := fun l hl => twoPages_wellFormed.data l (twoPages_reorders.data.mem_iff.2 hl) }

/-- Those data pages in the other order, with other values in the variables of the loader. -/
theorem memInitFromDescription_twoPages :
    memInitFromDescription (fun _ => true) twoPagesFiles 3 ⟨['x'], '1', [], 5, 7, ⟨3, 0⟩⟩ ['n'] 0
      = memInitFromDescription (fun _ => true) twoPagesFiles 3 ⟨[], '0', [], 0, 0, ⟨0, 0⟩⟩
        ['m'] 0 :=
  memInitFromDescription_reorders twoPages_reorders twoPages_wellFormed twoPages_fits
    twoPagesBack_wellFormed (by decide) (by decide) rfl (by decide) _ _ _ _

end Example

end KabyLake
