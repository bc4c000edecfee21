import KabyLake.MemoryInit
import KabyLake.Proofs.Walk

/-!
# Pages in the memory

Pages that start at different multiples of 4096 are apart. So a page written elsewhere leaves the
entries of a table (`readPageEntry_put`), and with them the walks over it (`WalksOver.pageWalk_eq`).
-/

namespace KabyLake

open Blocks

variable {size : ℕ} {m m' : Memory size} {loaded : List ℕ} {b c : Block Byte}

/-- A page of bytes at a multiple of its size. -/
def IsPageBlock (b : Block Byte) : Prop := 4096 ∣ b.1 ∧ b.2.length = 4096

theorem covers_iff (hb : IsPageBlock b) (j : ℕ) : Covers b j ↔ j / 4096 * 4096 = b.1 := by
  obtain ⟨⟨n, hn⟩, hlen⟩ := hb
  unfold Covers
  rw [hlen]
  omega

theorem apart_of_ne (hb : IsPageBlock b) (hc : IsPageBlock c) (hne : b.1 ≠ c.1) : Apart b c := by
  intro j hj hj'
  rw [covers_iff hb] at hj
  rw [covers_iff hc] at hj'
  exact hne (hj.symm.trans hj')

/-- A page written elsewhere leaves the entries of a table. -/
theorem readPageEntry_put (hb : IsPageBlock b) {page : Word} (haligned : 4096 ∣ page.toNat)
    (hne : b.1 ≠ page.toNat) {index : ℕ} (hindex : index < 512) :
    readPageEntry (put m b) page index = readPageEntry m page index := by
  have hbyte : ∀ k < 4, Memory.byteAt (put m b) (4 * (page.toNat / 4 + index) + k)
      = m.byteAt (4 * (page.toNat / 4 + index) + k) := by
    intro k hk
    have hnot : ¬ Covers b (4 * (page.toNat / 4 + index) + k) := by
      rw [covers_iff hb]
      omega
    unfold Memory.byteAt
    split_ifs with hj
    · exact put_outside (j := ⟨_, hj⟩) hnot
    · rfl
  unfold readPageEntry Memory.loadWord Memory.wordAt
  rw [hbyte 3 (by norm_num), hbyte 2 (by norm_num), hbyte 1 (by norm_num),
    ← Nat.add_zero (4 * (page.toNat / 4 + index)), hbyte 0 (by norm_num)]

/-- A walk that reads loaded tables and succeeds. -/
structure WalksOver (m : Memory size) (loaded : List ℕ) (vaddr : VirtAddr) (pa : PhyAddr) :
    Prop where
  tables : ∀ page ∈ walkTables m vaddr, page.toNat ∈ loaded
  walk : ∀ paddr, pageWalk m vaddr paddr = .ok (.errNone, pa)

/-- The entries of the tables are the same. -/
def SameTables (loaded : List ℕ) (m m' : Memory size) : Prop :=
  ∀ page : Word, page.toNat ∈ loaded → ∀ index < 512,
    readPageEntry m' page index = readPageEntry m page index

theorem WalksOver.pageWalk_eq {vaddr : VirtAddr} {pa : PhyAddr} (h : WalksOver m loaded vaddr pa)
    (hsame : SameTables loaded m m') (paddr : PhyAddr) :
    pageWalk m' vaddr paddr = .ok (.errNone, pa) := by
  rw [pageWalk_congr_tables fun page hpage => hsame page (h.tables page hpage)]
  exact h.walk paddr

theorem SameTables.put (h : SameTables loaded m m') (hb : IsPageBlock b)
    (haligned : ∀ page ∈ loaded, 4096 ∣ page) (hne : b.1 ∉ loaded) :
    SameTables loaded m (put m' b) := by
  intro page hpage index hindex
  have hpageb : b.1 ≠ page.toNat := fun he => hne (he ▸ hpage)
  rw [readPageEntry_put hb (haligned _ hpage) hpageb hindex, h page hpage index hindex]

/-- The word that four bytes of a file make. -/
def entryOf (bytes : List Byte) (index : ℕ) : Word :=
  bytes.getD (4 * index + 3) 0 ++ bytes.getD (4 * index + 2) 0 ++ bytes.getD (4 * index + 1) 0
    ++ bytes.getD (4 * index) 0

/-- The entries of a page that lies in the memory are the words of its file. -/
theorem readPageEntry_holds (h : Holds m b) {page : Word} (hpage : b.1 = page.toNat)
    (haligned : 4096 ∣ page.toNat) {index : ℕ} (hindex : 4 * index + 4 ≤ b.2.length) :
    readPageEntry m page index = .ok (entryOf b.2 index) := by
  have hbyte : ∀ k < 4, 4 * (page.toNat / 4 + index) + k < size
      ∧ m.byteAt (4 * (page.toNat / 4 + index) + k) = b.2.getD (4 * index + k) 0 := by
    intro k hk
    obtain ⟨hj, hbyte⟩ := h (4 * index + k) (by omega)
    have hat : 4 * (page.toNat / 4 + index) + k = b.1 + (4 * index + k) := by omega
    rw [hat, Memory.byteAt, dif_pos hj, hbyte]
    exact ⟨hj, List.getElem_eq_getD 0⟩
  have hsize : 4 * (page.toNat / 4 + index) + 4 ≤ size := (hbyte 3 (by norm_num)).1
  unfold readPageEntry Memory.loadWord
  rw [if_pos hsize, Memory.wordAt, (hbyte 3 (by norm_num)).2, (hbyte 2 (by norm_num)).2,
    (hbyte 1 (by norm_num)).2, ← Nat.add_zero (4 * (page.toNat / 4 + index)),
    (hbyte 0 (by norm_num)).2]
  rfl

end KabyLake
