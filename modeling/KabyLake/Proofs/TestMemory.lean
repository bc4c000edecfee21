import KabyLake.Proofs.MemoryLoadOrder
import KabyLake.Proofs.PageDumpText
import KabyLake.Proofs.WalkBounds
import KabyLake.TestMemory

/-!
# What test-memory prints

Over dumps in which the addresses walk to the same pages, the program prints the same exactly if the
files are the same in those pages (`main_dump_eq_iff`). Over a description it prints for each
address of a data page the bytes of its file (`main_desc_pages`).
-/

namespace KabyLake.TestMemory

open Scanf Blocks

variable {size fuel : ℕ} {m m' : Memory size} {target : VirtAddr → PhyAddr}
  {argument : List Char} {arguments : List (List Char)}

/-- The address an argument is scanned as. -/
def addressOf (argument : List Char) : Option VirtAddr :=
  (scanHex ⟨argument, false⟩).1.map initVirtAddr64

/-- An argument that is a number walks to its target, a page inside the memory. -/
def WalksTo (m : Memory size) (target : VirtAddr → PhyAddr) (argument : List Char) : Prop :=
  ∀ vaddr, addressOf argument = some vaddr →
    pageWalk m vaddr ⟨0, 0⟩ = .ok (.errNone, target vaddr)
      ∧ (target vaddr).phyPageNum.toNat * 4096 + 4096 ≤ size

/-- The page an argument walks to is the same. -/
def SamePage (m m' : Memory size) (target : VirtAddr → PhyAddr) (argument : List Char) : Prop :=
  ∀ vaddr, addressOf argument = some vaddr → ∀ i < 4096,
    m.byteAt ((target vaddr).phyPageNum.toNat * 4096 + i)
      = m'.byteAt ((target vaddr).phyPageNum.toNat * 4096 + i)

/-- A line of 16 bytes ends in the page. -/
theorem sixteen_line (offset : BitVec 12) : (offset.toNat / 16 + 1) * 16 ≤ 4096 := by
  have := offset.isLt
  omega

section Texts

variable (tFmt : AddrFmt) (pointer pointer' : ℕ → List Char)
  (hpointer : tFmt = .pointer → pointer' = pointer) (spacer : List Char)
include hpointer

/-- Two memories print texts of the same length for an argument, equal exactly if its pages are. -/
theorem dumpArgument_eq_iff (h : WalksTo m target argument) (h' : WalksTo m' target argument) :
    ∃ text text', dumpArgument m tFmt pointer spacer argument = .ok text
      ∧ dumpArgument m' tFmt pointer' spacer argument = .ok text'
      ∧ text.length = text'.length ∧ (text = text' ↔ SamePage m m' target argument) := by
  unfold WalksTo at h h'
  unfold SamePage dumpArgument
  unfold addressOf at h h' ⊢
  generalize (scanHex ⟨argument, false⟩).1 = scanned at h h' ⊢
  rcases scanned with _ | vaddr64
  · exact ⟨_, _, rfl, rfl, rfl, iff_of_true rfl (by rintro _ ⟨⟩)⟩
  · obtain ⟨hwalk, hpage⟩ := h _ rfl
    obtain ⟨hwalk', -⟩ := h' _ rfl
    obtain ⟨printed, printed', hdump, hdump', hlen, hiff⟩ := vmemPageDump_text_eq_iff hwalk hwalk'
      hpage tFmt 16 (sixteen_line _) pointer pointer' hpointer spacer
    refine ⟨_, _, ?_, ?_, hlen, hiff.trans ?_⟩
    · simp only [hdump, Exec.ok_bind]
      rfl
    · simp only [hdump', Exec.ok_bind]
      rfl
    · simp only [Option.map_some, Option.some.injEq, forall_eq']

theorem dumpArguments_eq_iff (h : ∀ argument ∈ arguments, WalksTo m target argument)
    (h' : ∀ argument ∈ arguments, WalksTo m' target argument) :
    ∃ texts texts', arguments.mapM (dumpArgument m tFmt pointer spacer) = .ok texts
      ∧ arguments.mapM (dumpArgument m' tFmt pointer' spacer) = .ok texts'
      ∧ texts.flatten.length = texts'.flatten.length
      ∧ (texts.flatten = texts'.flatten
        ↔ ∀ argument ∈ arguments, SamePage m m' target argument) := by
  induction arguments with
  | nil => exact ⟨[], [], rfl, rfl, rfl, iff_of_true rfl (List.forall_mem_nil _)⟩
  | cons argument arguments ih =>
    rw [List.forall_mem_cons] at h h'
    obtain ⟨text, text', hrun, hrun', hlen, hiff⟩ :=
      dumpArgument_eq_iff tFmt pointer pointer' hpointer spacer h.1 h'.1
    obtain ⟨texts, texts', hruns, hruns', hlens, hiffs⟩ := ih h.2 h'.2
    have happend : text ++ texts.flatten = text' ++ texts'.flatten
        ↔ text = text' ∧ texts.flatten = texts'.flatten :=
      ⟨fun heq => List.append_inj heq hlen, fun heq => congrArg₂ _ heq.1 heq.2⟩
    refine ⟨text :: texts, text' :: texts', ?_, ?_, ?_, ?_⟩
    · rw [List.mapM_cons, hrun, hruns]
      rfl
    · rw [List.mapM_cons, hrun', hruns']
      rfl
    · rw [List.flatten_cons, List.flatten_cons, List.length_append, List.length_append, hlen, hlens]
    · rw [List.flatten_cons, List.flatten_cons, happend, hiff, hiffs, List.forall_mem_cons]

end Texts

/-- `main` once the memory is loaded. -/
theorem main_of_load {env : Environment} {name command filename format address : List Char}
    {addresses : List (List Char)} {c : Char} {spacer : List Char}
    (hargv : env.argv = name :: command :: filename :: format :: (c :: spacer) :: address
      :: addresses)
    (hload : command = "dump".toList ∧ memInitFromDumpfile env.calloc env.files env.seek env.close
          filename 0 = .ok ⟨.errNone, size, some m⟩
        ∨ command = "desc".toList ∧ memInitFromDescription env.calloc env.files fuel env.locals
          filename 0 = .ok ⟨.errNone, size, some m⟩) :
    main fuel env = ((address :: addresses).mapM
      (dumpArgument m (addrFmt format) env.pointer [c])).map fun texts => (0, texts.flatten) := by
  have hspacer : c :: spacer ≠ [] := List.cons_ne_nil c spacer
  have htake : (c :: spacer).take 1 = [c] := rfl
  unfold main
  rcases hload with ⟨rfl, hload⟩ | ⟨rfl, hload⟩
  · simp only [hargv, if_true, hload, Exec.ok_bind, if_neg hspacer, ne_eq, not_true_eq_false,
      false_and, if_false, htake]
    rcases (address :: addresses).mapM (dumpArgument m (addrFmt format) env.pointer [c]) <;> rfl
  · have hdesc : "desc".toList ≠ "dump".toList := by decide
    simp only [hargv, if_neg hdesc, hload, Exec.ok_bind, if_neg hspacer, ne_eq, not_true_eq_false,
      and_false, if_false, htake]
    rcases (address :: addresses).mapM (dumpArgument m (addrFmt format) env.pointer [c]) <;> rfl

/-- A dump that loads is the memory. -/
theorem byteAt_of_load {calloc : ℕ → Bool} {files : Files} {seek close : ℤ}
    {filename : List Char} {memCapacityInBytes : BitVec 64} {content : List Byte}
    (hfile : files filename = some content)
    (hload : memInitFromDumpfile calloc files seek close filename memCapacityInBytes
      = .ok ⟨.errNone, size, some m⟩) {i : ℕ} (hi : i < size) :
    content[i]? = some (m.byteAt i) := by
  unfold memInitFromDumpfile at hload
  rw [hfile] at hload
  simp only [Memory.readFile_whole, Exec.ok_bind] at hload
  split_ifs at hload
  · cases hload
  · cases hload
  · cases hload
  · cases hload
    have hholds : Holds (put (fun _ => 0 : Memory content.length) (0, content)) (0, content) :=
      put_self (Nat.zero_add _).le
    obtain ⟨hj, hbyte⟩ := hholds i hi
    have hput : put (fun _ => 0 : Memory content.length) (0, content) ⟨i, hi⟩ = content[i] := by
      rw [← hbyte]
      congr 2
      exact (Nat.zero_add i).symm
    rw [Memory.byteAt, dif_pos hi, hput]
    exact List.getElem?_eq_getElem hi

/-- Over two dumps of a size in which the addresses walk to the same pages, the program prints the
same exactly if the files are the same in these pages, wherever the memories lie if the format is
not that of the pointers. -/
theorem main_dump_eq_iff (env env' : Environment) {content content' : List Byte}
    {name filename format address : List Char} {addresses : List (List Char)} {c : Char}
    {spacer : List Char}
    (hargv : env.argv = name :: "dump".toList :: filename :: format :: (c :: spacer) :: address
      :: addresses) (hargv' : env'.argv = env.argv)
    (hpointer : addrFmt format = .pointer → env'.pointer = env.pointer)
    (hfile : env.files filename = some content) (hfile' : env'.files filename = some content')
    (hload : memInitFromDumpfile env.calloc env.files env.seek env.close filename 0
      = .ok ⟨.errNone, size, some m⟩)
    (hload' : memInitFromDumpfile env'.calloc env'.files env'.seek env'.close filename 0
      = .ok ⟨.errNone, size, some m'⟩)
    (hwalk : ∀ argument ∈ address :: addresses, WalksTo m target argument)
    (hwalk' : ∀ argument ∈ address :: addresses, WalksTo m' target argument) :
    main fuel env = main fuel env' ↔ ∀ argument ∈ address :: addresses, ∀ vaddr,
      addressOf argument = some vaddr → ∀ i < 4096,
        content[(target vaddr).phyPageNum.toNat * 4096 + i]?
          = content'[(target vaddr).phyPageNum.toNat * 4096 + i]? := by
  obtain ⟨texts, texts', hrun, hrun', -, hiff⟩ := dumpArguments_eq_iff (addrFmt format) env.pointer
    env'.pointer hpointer [c] hwalk hwalk'
  rw [main_of_load hargv (.inl ⟨rfl, hload⟩), main_of_load (hargv'.trans hargv)
    (.inl ⟨rfl, hload'⟩), hrun, hrun']
  have hsame : (.ok (0, texts.flatten) : Exec (ℕ × List Char)) = .ok (0, texts'.flatten)
      ↔ texts.flatten = texts'.flatten := by
    rw [Except.ok.injEq, Prod.mk.injEq, and_iff_right rfl]
  refine hsame.trans (hiff.trans ?_)
  refine forall₂_congr fun argument hargument => forall₂_congr fun vaddr haddress =>
    forall₂_congr fun i hi => ?_
  have hinside : (target vaddr).phyPageNum.toNat * 4096 + i < size := by
    have hpage := (hwalk argument hargument vaddr haddress).2
    omega
  rw [byteAt_of_load hfile hload hinside, byteAt_of_load hfile' hload' hinside, Option.some_inj]

section Example

/-- The page of address 0x14 of a dump, of which the memory starts somewhere. -/
def dumpEnvironment (content : List Byte) (start : ℕ) : Environment where
  argv := [[], "dump".toList, ['f'], ['o'], [','], "0x14".toList]
  files _ := some content
  calloc _ := true
  seek := 0
  close := 0
  locals := ⟨[], '0', [], 0, 0, ⟨0, 0⟩⟩
  pointer addr := "0x".toList ++ Printf.lowerHex 0 (start + addr)

theorem dumpEnvironment_load (start : ℕ) {content : List Byte} (hlen : content.length = size) :
    ∃ m : Memory size, memInitFromDumpfile (fun _ => true) (dumpEnvironment content start).files 0 0
      ['f'] 0 = .ok ⟨.errNone, size, some m⟩ := by
  subst hlen
  exact ⟨_, memInitFromDumpfile_image rfl rfl 0⟩

/-- A first entry of 0 makes page 0 its own table for all levels. -/
theorem pageWalk_zeros {m : Memory 4096} (hzero : ∀ i < 4, m.byteAt i = 0) (offset : BitVec 12) :
    pageWalk m ⟨0, 0, 0, 0, 0, offset⟩ ⟨0, 0⟩ = .ok (.errNone, ⟨0, offset⟩) := by
  have hentry : readPageEntry m 0 0 = .ok 0 := by
    have hword : m.wordAt 0 = 0 := by
      rw [Memory.wordAt, hzero 3 (by decide), hzero 2 (by decide), hzero 1 (by decide),
        hzero 0 (by decide)]
      rfl
    show m.loadWord 0 = .ok 0
    rw [Memory.loadWord, if_pos (by decide), hword]
  have hframe : walkFrame m ⟨0, 0, 0, 0, 0, offset⟩ = .ok (some 0) := by
    have hzero : (0 : BitVec 9).toNat = 0 := rfl
    simp only [walkFrame, hzero, hentry, Exec.ok_bind]
    rfl
  rw [pageWalk_eq, hframe]
  rfl

/-- Of two dumps that differ in the last byte of the page only, it prints different texts. -/
theorem main_dump_lastByte :
    main 0 (dumpEnvironment (List.replicate 4095 0 ++ [0]) 0x1000)
      ≠ main 0 (dumpEnvironment (List.replicate 4095 0 ++ [7]) 0x8000) := by
  have hwalk : ∀ {last : Byte} {start : ℕ} {m : Memory 4096}, memInitFromDumpfile (fun _ => true)
      (dumpEnvironment (List.replicate 4095 0 ++ [last]) start).files 0 0 ['f'] 0
        = .ok ⟨.errNone, 4096, some m⟩ →
      ∀ argument ∈ ["0x14".toList], WalksTo m (fun _ => ⟨0, 20⟩) argument := by
    intro last start m hload
    refine List.forall_mem_singleton.2 fun vaddr haddress => ?_
    have hscan : addressOf "0x14".toList = some ⟨0, 0, 0, 0, 0, 20⟩ := by decide
    rw [hscan] at haddress
    cases haddress
    refine ⟨pageWalk_zeros (fun i hi => ?_) 20, by decide⟩
    have hbyte := byteAt_of_load rfl hload (show i < 4096 by omega)
    rw [List.getElem?_append_left (by rw [List.length_replicate]; omega),
      List.getElem?_replicate_of_lt (by omega)] at hbyte
    exact (Option.some.inj hbyte).symm
  have hlen : ∀ last : Byte, (List.replicate 4095 0 ++ [last]).length = 4096 := by
    intro last
    rw [List.length_append, List.length_replicate, List.length_singleton]
  have hsame : ∀ content content' start start',
      (dumpEnvironment content' start').argv = (dumpEnvironment content start).argv :=
    fun _ _ _ _ => rfl
  have hfmt : addrFmt ['o'] ≠ .pointer := nofun
  obtain ⟨m, hload⟩ := dumpEnvironment_load 0x1000 (hlen 0)
  obtain ⟨m', hload'⟩ := dumpEnvironment_load 0x8000 (hlen 7)
  intro heq
  have hpages := (main_dump_eq_iff (dumpEnvironment _ _) (dumpEnvironment _ _) rfl
    (hsame _ _ _ _) (absurd · hfmt) rfl rfl hload hload' (hwalk hload) (hwalk hload')).1 heq
    "0x14".toList List.mem_cons_self ⟨0, 0, 0, 0, 0, 20⟩ (by decide) 4095 (by decide)
  have hat : (⟨0, 20⟩ : PhyAddr).phyPageNum.toNat * 4096 + 4095
      = (List.replicate 4095 (0 : Byte)).length := by
    rw [List.length_replicate]
    rfl
  rw [hat, List.getElem?_concat_length, List.getElem?_concat_length] at hpages
  cases hpages

end Example

section Described

variable {files : Files} {d : Description} {capacity : BitVec 64} {l : PageLine}

/-- The address of a data page, with any offset, walks to the page in the memory described. -/
theorem memory_walk (hd : d.WellFormed capacity) (hfit : d.Fits files capacity target)
    (hl : l ∈ d.data) {vaddr : VirtAddr} (hpage : vaddr.vpn = l.vaddr.vpn) (paddr : PhyAddr) :
    pageWalk (d.memory files target capacity.toNat) vaddr paddr
      = .ok (.errNone, ⟨(target l.vaddr).phyPageNum, vaddr.pageOffset⟩) := by
  obtain ⟨m, -, hm, hsame⟩ := loadPages_text hd hfit (Nat.lt_succ_self _)
    ⟨[], '0', [], 0, 0, ⟨0, 0⟩⟩
  have hm' : d.memory files target capacity.toNat = m := hm.symm
  have hwalk := (hfit.walks l hl).pageWalk_eq hsame paddr
  rw [pageWalk_errNone_iff] at hwalk
  rw [hm', pageWalk_errNone_iff, walkFrame_congr m hpage]
  exact ⟨hwalk.1, rfl⟩

/-- In that page lies the file of the line. -/
theorem memory_page (hd : d.WellFormed capacity) (hfit : d.Fits files capacity target)
    (hl : l ∈ d.data) : (target l.vaddr).phyPageNum.toNat * 4096 + 4096 ≤ capacity.toNat
      ∧ ((d.memory files target capacity.toNat).bytes ((target l.vaddr).phyPageNum.toNat * 4096)
        4096).map Prod.snd = contentOf files l.file := by
  obtain ⟨hfile, haligned, -, hinside⟩ := hfit.of_mem_data hd hl
  have haddr : (target l.vaddr).addr = (target l.vaddr).phyPageNum.toNat * 4096 := by
    have hlt := (target l.vaddr).pageOffset.isLt
    unfold PhyAddr.addr at haligned ⊢
    omega
  have hmem : ((target l.vaddr).addr, contentOf files l.file) ∈ d.blocks files target :=
    List.mem_append_right _ (List.mem_map.2 ⟨l, hl, rfl⟩)
  have hholds : Holds (d.memory files target capacity.toNat)
      ((target l.vaddr).addr, contentOf files l.file) :=
    putAll_of_mem (pairwise_apart hd hfit) (fun b hb => block_inside hd hfit hb) hmem
  have hlen : (contentOf files l.file).length = 4096 := hfile.length
  rw [haddr] at hinside hholds
  refine ⟨hinside, List.ext_getElem ?_ fun i hi hi' => ?_⟩
  · rw [List.length_map, Memory.length_bytes, hlen]
  · obtain ⟨hj, hbyte⟩ := hholds i hi'
    simp only [Memory.bytes, List.map_map, List.getElem_map, List.getElem_range', Function.comp,
      one_mul]
    rw [Memory.byteAt, dif_pos hj, hbyte]

/-- The argument is an address in the page of the line. -/
def Names (d : Description) (argument : List Char) (l : PageLine) : Prop :=
  l ∈ d.data ∧ ∃ vaddr, addressOf argument = some vaddr ∧ vaddr.vpn = l.vaddr.vpn

/-- The bytes printed are the file of the line. -/
def PrintsFile (files : Files) (l : PageLine) (printed : List Printed) : Prop :=
  (bytesOf printed).map Prod.snd = contentOf files l.file

theorem dumpArgument_described (hd : d.WellFormed capacity) (hfit : d.Fits files capacity target)
    (tFmt : AddrFmt) (pointer : ℕ → List Char) (spacer : List Char) (h : Names d argument l) :
    ∃ printed, dumpArgument (d.memory files target capacity.toNat) tFmt pointer spacer argument
        = .ok (textOfDump pointer spacer printed) ∧ PrintsFile files l printed := by
  obtain ⟨hl, vaddr, haddress, hpage⟩ := h
  obtain ⟨vaddr64, hscan, rfl⟩ := Option.map_eq_some_iff.1 haddress
  obtain ⟨hinside, hbytes⟩ := memory_page hd hfit hl
  obtain ⟨printed, hdump, hprinted⟩ := (vmemPageDump_bytes_iff (memory_walk hd hfit hl hpage ⟨0, 0⟩)
    hinside tFmt 16).2 (sixteen_line _)
  refine ⟨printed, ?_, ?_⟩
  · simp only [dumpArgument, hscan, hdump, Exec.ok_bind]
    rfl
  · rw [PrintsFile, hprinted, hbytes]

theorem dumpArguments_described (hd : d.WellFormed capacity)
    (hfit : d.Fits files capacity target) (tFmt : AddrFmt) (pointer : ℕ → List Char)
    (spacer : List Char) {lines : List PageLine} (h : List.Forall₂ (Names d) arguments lines) :
    ∃ dumps, arguments.mapM
        (dumpArgument (d.memory files target capacity.toNat) tFmt pointer spacer)
        = .ok (dumps.map (textOfDump pointer spacer))
      ∧ List.Forall₂ (PrintsFile files) lines dumps := by
  induction h with
  | nil => exact ⟨[], rfl, .nil⟩
  | cons hnames _ ih =>
    obtain ⟨printed, hrun, hprints⟩ := dumpArgument_described hd hfit tFmt pointer spacer hnames
    obtain ⟨dumps, hruns, hall⟩ := ih
    refine ⟨printed :: dumps, ?_, .cons hprints hall⟩
    rw [List.mapM_cons, hrun, hruns]
    rfl

/-- Over a description the program prints for each address in a data page the bytes of the file that
the line of the page names, in their order. -/
theorem main_desc_pages {env : Environment} {name filename format address : List Char}
    {addresses : List (List Char)} {c : Char} {spacer : List Char}
    (hargv : env.argv = name :: "desc".toList :: filename :: format :: (c :: spacer) :: address
      :: addresses) (hd : d.WellFormed capacity) (hfit : d.Fits env.files capacity target)
    (hmaster : (env.files filename).map textOf = some d.text)
    (halloc : env.calloc capacity.toNat = true) (hfuel : d.data.length < fuel)
    {lines : List PageLine} (hnames : List.Forall₂ (Names d) (address :: addresses) lines) :
    ∃ dumps : List (List Printed),
      main fuel env = .ok (0, (dumps.map (textOfDump env.pointer [c])).flatten)
      ∧ List.Forall₂ (PrintsFile env.files) lines dumps := by
  have hload := memInitFromDescription_memory hd hfit hmaster halloc hfuel env.locals 0
  obtain ⟨dumps, hrun, hprints⟩ := dumpArguments_described hd hfit (addrFmt format) env.pointer [c]
    hnames
  refine ⟨dumps, ?_, hprints⟩
  rw [main_of_load hargv (.inr ⟨rfl, hload⟩), hrun]
  rfl

/-- An address in the second data page and the first one, with its whole page. -/
def descEnvironment : Environment where
  argv := [[], "desc".toList, ['m'], ['n'], [','], "0x2014".toList, "1000".toList]
  files := twoPagesFiles
  calloc _ := true
  seek := 0
  close := 0
  locals := ⟨[], '0', [], 0, 0, ⟨0, 0⟩⟩
  pointer _ := []

theorem main_desc_twoPages : ∃ dumps : List (List Printed),
    main 3 descEnvironment
      = .ok (0, (dumps.map (textOfDump descEnvironment.pointer [','])).flatten)
    ∧ List.Forall₂ (PrintsFile descEnvironment.files) twoPages.data.reverse dumps := by
  have hmaster : (descEnvironment.files ['m']).map textOf = some twoPages.text := by decide
  have hnames : List.Forall₂ (Names twoPages) ["0x2014".toList, "1000".toList]
      twoPages.data.reverse := by
    refine .cons ⟨.tail _ List.mem_cons_self, ⟨0, 0, 0, 0, 2, 20⟩, by decide, by decide⟩
      (.cons ⟨List.mem_cons_self, ⟨0, 0, 0, 0, 1, 0⟩, by decide, by decide⟩ .nil)
  exact main_desc_pages rfl twoPages_wellFormed twoPages_fits hmaster rfl (by decide) hnames

end Described

end KabyLake.TestMemory
