import Xrash.PageAllocator
import Mathlib.Data.List.Pairwise

/-!
# What the page allocator hands out

While no size wraps when the header is added to it, the blocks of a run lie on the pages of the
allocator, past their headers, and have no byte in common. A size that wraps gets a single page.
-/

namespace Xrash

namespace PageAllocator

variable {w pageSize : ℕ} {m m' : PageAllocator} {blocks : List Block} {mmap : ℕ → Option ℕ}
  {bytes a : ℕ}

/-! ## One allocation -/

theorem alloc_some (h : m.alloc w mmap bytes = (some a, m')) :
    (∃ page, m.currentPage = some page ∧ bytes ≤ m.pageSize - m.pageOffset ∧
      a = page + m.pageOffset ∧ m' = if m.pageOffset + bytes = m.pageSize then
        { m with pageOffset := 0, currentPage := none }
        else { m with pageOffset := m.pageOffset + bytes }) ∨
    ∃ pages ret pageOffset, pages = (bytes + sizeofHeader w + m.pageSize - 1) % 2 ^ w / m.pageSize ∧
      mmap (m.pageSize * pages % 2 ^ w) = some ret ∧ a = ret + sizeofHeader w ∧
      pageOffset = sub w m.pageSize
        (sub w (m.pageSize * pages % 2 ^ w) ((bytes + sizeofHeader w) % 2 ^ w)) % m.pageSize ∧
      m' = { m with
        headers := (ret, pages) :: m.headers
        pagesAllocated := (m.pagesAllocated + pages) % 2 ^ w
        pageOffset := pageOffset
        currentPage := if pageOffset = 0 then none
          else some (ret + m.pageSize * (pages - 1)) } := by
  unfold alloc at h
  split at h
  · simp at h
  split at h
  · next page hpage =>
    rw [Option.filter_eq_some_iff] at hpage
    simp only [Prod.mk.injEq, Option.some.injEq] at h
    exact Or.inl ⟨page, hpage.1, by simpa using hpage.2, h.1.symm, h.2.symm⟩
  · dsimp only at h
    split at h
    · simp at h
    · next hpages =>
      simp only [getNPages, Option.map_eq_some_iff, Prod.mk.injEq] at hpages
      obtain ⟨ret, hmmap, rfl, rfl⟩ := hpages
      simp only [Prod.mk.injEq, Option.some.injEq] at h
      exact Or.inr ⟨_, ret, _, rfl, hmmap, h.1.symm, rfl, h.2.symm⟩

theorem alloc_none (h : m.alloc w mmap bytes = (none, m')) : m' = m := by
  unfold alloc at h
  split at h
  · simpa using h.symm
  split at h
  · simp at h
  · dsimp only at h
    split at h
    · simpa using h.symm
    · simp at h

theorem alloc_bytes (h : m.alloc w mmap bytes = (some a, m')) : 0 < bytes := by
  rcases Nat.eq_zero_or_pos bytes with rfl | hbytes
  · simp [alloc] at h
  · exact hbytes

theorem alloc_pageSize (h : m.alloc w mmap bytes = (some a, m')) : m'.pageSize = m.pageSize := by
  rcases alloc_some h with ⟨page, -, -, -, rfl⟩ | ⟨pages, ret, pageOffset, -, -, -, -, rfl⟩
  · split <;> rfl
  · rfl

/-- The pages that are got for `n` bytes hold them, and no page of them is left empty. -/
theorem pages_cases {n : ℕ} (hP : 0 < pageSize) (hPw : pageSize < 2 ^ w) (hn : 0 < n)
    (hnw : n ≤ 2 ^ w) : (n + pageSize - 1) % 2 ^ w / pageSize = 0 ∨
      ∃ k, (n + pageSize - 1) % 2 ^ w / pageSize = k + 1 ∧ pageSize * k < n ∧
        n ≤ pageSize * k + pageSize ∧ pageSize * k + pageSize < 2 ^ w := by
  by_cases hlt : n + pageSize - 1 < 2 ^ w
  · right
    have hq : (n + pageSize - 1) / pageSize = (n - 1) / pageSize + 1 := by
      rw [show n + pageSize - 1 = n - 1 + pageSize by omega, Nat.add_div_right _ hP]
    have hdiv := Nat.div_add_mod (n - 1) pageSize
    have hmod := Nat.mod_lt (n - 1) hP
    refine ⟨(n - 1) / pageSize, by rw [Nat.mod_eq_of_lt hlt, hq], ?_, ?_, ?_⟩ <;> omega
  · left
    have hmod : (n + pageSize - 1) % 2 ^ w = n + pageSize - 1 - 2 ^ w := by
      rw [Nat.mod_eq_sub_mod (by omega), Nat.mod_eq_of_lt (by omega)]
    rw [hmod, Nat.div_eq_of_lt (by omega)]

theorem sub_eq {b c : ℕ} (hb : b < 2 ^ w) (hc : c ≤ b) : sub w b c = b - c := by
  rw [sub, show b + 2 ^ w - c = b - c + 2 ^ w by omega, Nat.add_mod_right,
    Nat.mod_eq_of_lt (by omega)]

/-- How much of the last page is used. -/
theorem pageOffset_eq {n k : ℕ} (hlt : pageSize * k < n) (hle : n ≤ pageSize * k + pageSize)
    (hw : pageSize * k + pageSize < 2 ^ w) :
    sub w pageSize (sub w (pageSize * (k + 1) % 2 ^ w) (n % 2 ^ w)) = n - pageSize * k := by
  rw [Nat.mul_add_one, Nat.mod_eq_of_lt hw, Nat.mod_eq_of_lt (by omega), sub_eq hw hle,
    sub_eq (by omega) (by omega)]
  omega

/-! ## Runs -/

/-- The pages of a header, past it. -/
def room (w : ℕ) (m : PageAllocator) (header : ℕ × ℕ) : Block :=
  ⟨header.1 + sizeofHeader w, m.pageSize * header.2 - sizeofHeader w⟩

/-- What is free of the current page. -/
def rest (m : PageAllocator) (page : ℕ) : Block := ⟨page + m.pageOffset, m.pageSize - m.pageOffset⟩

structure Safe (w : ℕ) (m : PageAllocator) (blocks : List Block) : Prop where
  pages : m.headers.Pairwise fun h h' => (m.pages h).Apart (m.pages h')
  headers : ∀ h ∈ m.headers, sizeofHeader w ≤ m.pageSize * h.2
  apart : blocks.Pairwise Block.Apart
  within : ∀ b ∈ blocks, ∃ h ∈ m.headers, b.Within (m.room w h)
  offset : ∀ page, m.currentPage = some page → m.pageOffset < m.pageSize
  restWithin : ∀ page, m.currentPage = some page →
    ∃ h ∈ m.headers, (m.rest page).Within (m.room w h)
  restApart : ∀ page, m.currentPage = some page → ∀ b ∈ blocks, (m.rest page).Apart b

theorem new_safe : Safe w (new pageSize) [] := by
  constructor <;> simp [new]

theorem room_within (h : ℕ × ℕ) (hh : sizeofHeader w ≤ m.pageSize * h.2) :
    (m.room w h).Within (m.pages h) := by
  constructor <;> simp only [room, PageAllocator.pages] <;> omega

/-- A block that is cut from the current page. -/
theorem Safe.cut (hs : Safe w m blocks) {page : ℕ} (hpage : m.currentPage = some page)
    (hbytes : bytes ≤ m.pageSize - m.pageOffset) :
    Safe w (if m.pageOffset + bytes = m.pageSize then
        { m with pageOffset := 0, currentPage := none }
      else { m with pageOffset := m.pageOffset + bytes })
      (⟨page + m.pageOffset, bytes⟩ :: blocks) := by
  have hcut : (⟨page + m.pageOffset, bytes⟩ : Block).Within (m.rest page) := by
    constructor <;> simp only [rest] <;> omega
  have hoff := hs.offset page hpage
  obtain ⟨h, hh, hrest⟩ := hs.restWithin page hpage
  have hapart : (⟨page + m.pageOffset, bytes⟩ :: blocks).Pairwise Block.Apart :=
    List.pairwise_cons.2 ⟨fun b hb => (hs.restApart page hpage b hb).of_within hcut (.refl b),
      hs.apart⟩
  have hwithin : ∀ b ∈ (⟨page + m.pageOffset, bytes⟩ : Block) :: blocks,
      ∃ h ∈ m.headers, b.Within (m.room w h) :=
    List.forall_mem_cons.2 ⟨⟨h, hh, hcut.trans hrest⟩, hs.within⟩
  split
  · exact ⟨hs.pages, hs.headers, hapart, hwithin, by simp, by simp, by simp⟩
  · next hne =>
    have hleft : ({ m with pageOffset := m.pageOffset + bytes } : PageAllocator).rest page
        |>.Within (m.rest page) := by
      constructor <;> simp only [rest] <;> omega
    refine ⟨hs.pages, hs.headers, hapart, hwithin, fun _ _ => ?_, fun p hp => ?_, fun p hp => ?_⟩
    · show m.pageOffset + bytes < m.pageSize
      omega
    all_goals
      obtain rfl : page = p := Option.some.inj (hpage.symm.trans hp)
    · exact ⟨h, hh, hleft.trans hrest⟩
    · refine List.forall_mem_cons.2 ⟨Or.inr ?_, fun b hb =>
        (hs.restApart page hpage b hb).of_within hleft (.refl b)⟩
      simp only [rest]
      omega

/-- A block at the start of new pages. -/
theorem Safe.map (hs : Safe w m blocks) (hmmap : Fresh w m mmap)
    (hP : sizeofHeader w < m.pageSize) (hPw : m.pageSize < 2 ^ w) (hbytes : 0 < bytes)
    (hle : bytes + sizeofHeader w ≤ 2 ^ w) {pages ret pageOffset pagesAllocated : ℕ}
    (hpages : pages = (bytes + sizeofHeader w + m.pageSize - 1) % 2 ^ w / m.pageSize)
    (hret : mmap (m.pageSize * pages % 2 ^ w) = some ret)
    (hoff : pageOffset = sub w m.pageSize
      (sub w (m.pageSize * pages % 2 ^ w) ((bytes + sizeofHeader w) % 2 ^ w)) % m.pageSize) :
    Safe w { m with
      headers := (ret, pages) :: m.headers
      pagesAllocated := pagesAllocated
      pageOffset := pageOffset
      currentPage := if pageOffset = 0 then none else some (ret + m.pageSize * (pages - 1)) }
      (⟨ret + sizeofHeader w, bytes⟩ :: blocks) := by
  obtain ⟨hpos, -, -, hfresh⟩ := hmmap _ _ hret
  rcases pages_cases (n := bytes + sizeofHeader w) (by omega : 0 < m.pageSize) hPw (by omega) hle
    with h0 | ⟨k, hk, hklt, hkle, hkw⟩
  · simp [hpages, h0] at hpos
  obtain rfl : pages = k + 1 := hpages.trans hk
  rw [pageOffset_eq hklt hkle hkw] at hoff
  rw [Nat.mul_add_one, Nat.mod_eq_of_lt hkw] at hfresh
  have hnew : ∀ h ∈ m.headers, (m.pages (ret, k + 1)).Apart (m.pages h) := by
    simpa only [PageAllocator.pages, Nat.mul_add_one] using hfresh
  have hroom : m.room w (ret, k + 1) =
      ⟨ret + sizeofHeader w, m.pageSize * k + m.pageSize - sizeofHeader w⟩ := by
    simp only [room, Nat.mul_add_one]
  have hblock : (⟨ret + sizeofHeader w, bytes⟩ : Block).Within (m.room w (ret, k + 1)) := by
    rw [hroom]
    constructor <;> simp only <;> omega
  -- The new pages are apart from the old, and the old blocks are within these.
  have hold : ∀ b ∈ blocks, ∀ c : Block, c.Within (m.room w (ret, k + 1)) → c.Apart b := by
    intro b hb c hc
    obtain ⟨h, hh, hbh⟩ := hs.within b hb
    refine (hnew h hh).of_within (hc.trans (room_within _ ?_))
      (hbh.trans (room_within _ (hs.headers h hh)))
    rw [Nat.mul_add_one]
    omega
  have hrest : pageOffset ≠ 0 → pageOffset = bytes + sizeofHeader w - m.pageSize * k ∧
      pageOffset < m.pageSize := by
    intro hne
    rcases Nat.lt_or_ge (bytes + sizeofHeader w - m.pageSize * k) m.pageSize with hlt | hge
    · rw [Nat.mod_eq_of_lt hlt] at hoff
      exact ⟨hoff, by omega⟩
    · rw [show bytes + sizeofHeader w - m.pageSize * k = m.pageSize by omega, Nat.mod_self] at hoff
      exact absurd hoff hne
  refine ⟨List.pairwise_cons.2 ⟨hnew, hs.pages⟩, List.forall_mem_cons.2 ⟨?_, hs.headers⟩,
    List.pairwise_cons.2 ⟨fun b hb => hold b hb _ hblock, hs.apart⟩,
    List.forall_mem_cons.2 ⟨⟨_, List.mem_cons_self, hblock⟩, fun b hb => ?_⟩,
    fun p hp => ?_, fun p hp => ?_, fun p hp => ?_⟩
  · simp only [Nat.mul_add_one]
    omega
  · obtain ⟨h, hh, hbh⟩ := hs.within b hb
    exact ⟨h, List.mem_cons_of_mem _ hh, hbh⟩
  all_goals
    simp only [Option.ite_none_left_eq_some, Option.some.injEq] at hp
    obtain ⟨hne, rfl⟩ := hp
    obtain ⟨hoff', hlt⟩ := hrest hne
  · exact hlt
  all_goals
    have hin : (⟨ret + m.pageSize * k + pageOffset, m.pageSize - pageOffset⟩ : Block).Within
        (m.room w (ret, k + 1)) := by
      rw [hroom]
      constructor <;> simp only <;> omega
  · exact ⟨_, List.mem_cons_self, hin⟩
  · refine List.forall_mem_cons.2 ⟨Or.inr ?_, fun b hb => hold b hb _ hin⟩
    show ret + sizeofHeader w + bytes ≤ ret + m.pageSize * k + pageOffset
    omega

theorem Reaches.pageSize_eq (h : Reaches w pageSize m blocks) : m.pageSize = pageSize := by
  induction h with
  | new => rfl
  | alloc _ _ _ halloc ih => rw [alloc_pageSize halloc, ih]
  | fail _ _ _ halloc ih => rw [alloc_none halloc, ih]

theorem Reaches.safe (h : Reaches w pageSize m blocks) (hP : sizeofHeader w < pageSize)
    (hPw : pageSize < 2 ^ w) (hbytes : ∀ b ∈ blocks, b.size + sizeofHeader w ≤ 2 ^ w) :
    Safe w m blocks := by
  induction h with
  | new => exact new_safe
  | @alloc m m' blocks mmap bytes a h hmmap _ halloc ih =>
    rw [List.forall_mem_cons] at hbytes
    have hs := ih hbytes.2
    rw [← h.pageSize_eq] at hP hPw
    rcases alloc_some halloc with ⟨page, hpage, hle, rfl, rfl⟩ |
      ⟨pages, ret, pageOffset, hpages, hret, rfl, hoff, rfl⟩
    · exact hs.cut hpage hle
    · exact hs.map hmmap hP hPw (alloc_bytes halloc) hbytes.1 hpages hret hoff
  | fail _ _ _ halloc ih =>
    rw [alloc_none halloc]
    exact ih hbytes

theorem Safe.headersApart (hs : Safe w m blocks) {b : Block} (hb : b ∈ blocks) {h : ℕ × ℕ}
    (hh : h ∈ m.headers) : b.Apart ⟨h.1, sizeofHeader w⟩ := by
  obtain ⟨h', hh', hbh⟩ := hs.within b hb
  by_cases heq : h' = h
  · subst heq
    exact Or.inr hbh.1
  · have : Std.Symm fun h h' => (m.pages h).Apart (m.pages h') := ⟨fun _ _ => Block.Apart.symm⟩
    have hapart := hs.pages.forall hh' hh heq
    refine hapart.of_within (hbh.trans (room_within _ (hs.headers h' hh'))) ⟨Nat.le_refl _, ?_⟩
    have hle := hs.headers h hh
    simp only [PageAllocator.pages]
    omega

/-- The blocks of a run have no byte in common, with each other or with the headers, the allocator
owns each of their bytes, and no page is unmapped twice. -/
theorem reaches_blocks (h : Reaches w pageSize m blocks) (hP : sizeofHeader w < pageSize)
    (hPw : pageSize < 2 ^ w) (hbytes : ∀ b ∈ blocks, b.size + sizeofHeader w ≤ 2 ^ w) :
    blocks.Pairwise Block.Apart ∧
      (∀ b ∈ blocks, ∀ h ∈ m.headers, b.Apart ⟨h.1, sizeofHeader w⟩) ∧
      (∀ b ∈ blocks, ∀ p, b.Has p → m.ownsPointer p) ∧ m.freeAll.Pairwise Block.Apart := by
  have hs := h.safe hP hPw hbytes
  refine ⟨hs.apart, fun b hb h hh => hs.headersApart hb hh, fun b hb p hp => ?_,
    List.pairwise_map.2 hs.pages⟩
  obtain ⟨h, hh, hbh⟩ := hs.within b hb
  have hin := hbh.trans (room_within _ (hs.headers h hh))
  simp only [ownsPointer, List.any_eq_true, decide_eq_true_eq]
  exact ⟨h, hh, hin.has hp⟩

/-- A kernel that maps a page of eight bytes where it is asked for one. -/
def mmapEight (n : ℕ) : Option ℕ := if n = 8 then some 8 else none

theorem fresh_mmapEight (hm : m.headers = []) : Fresh 8 m mmapEight := by
  intro n a h
  simp only [mmapEight, Option.ite_none_right_eq_some, Option.some.injEq] at h
  obtain ⟨rfl, rfl⟩ := h
  simp [hm]

theorem fresh_none : Fresh w m fun _ => none := fun _ _ h => absurd h (by simp)

/-- Two blocks of one page. -/
theorem reaches_blocks_two :
    [(⟨13, 3⟩ : Block), ⟨10, 3⟩].Pairwise Block.Apart ∧
      (∀ b ∈ [(⟨13, 3⟩ : Block), ⟨10, 3⟩], ∀ h ∈ [(8, 1)], b.Apart ⟨h.1, sizeofHeader 8⟩) ∧
      (∀ b ∈ [(⟨13, 3⟩ : Block), ⟨10, 3⟩], ∀ p, b.Has p →
        ownsPointer ⟨8, [(8, 1)], none, 0, 1⟩ p) ∧
      [(⟨8, 8⟩ : Block)].Pairwise Block.Apart := by
  have h : Reaches 8 8 ⟨8, [(8, 1)], some 8, 5, 1⟩ [⟨10, 3⟩] :=
    .alloc .new (fresh_mmapEight rfl) (by decide)
      (by simp [alloc, new, getNPages, sub, sizeofHeader, mmapEight])
  have h' : Reaches 8 8 ⟨8, [(8, 1)], none, 0, 1⟩ [⟨13, 3⟩, ⟨10, 3⟩] :=
    .alloc h fresh_none (by decide) rfl
  exact reaches_blocks h' (by decide) (by decide) (by decide)

/-! ## Sizes that wrap -/

theorem Reaches.pages_le (h : Reaches w pageSize m blocks) :
    ∀ h ∈ m.headers, h.1 + pageSize * h.2 ≤ 2 ^ w := by
  induction h with
  | new => exact fun h hh => absurd hh List.not_mem_nil
  | @alloc m m' blocks mmap bytes a h hmmap _ halloc ih =>
    rcases alloc_some halloc with ⟨page, -, -, -, rfl⟩ |
      ⟨pages, ret, pageOffset, hpages, hret, -, -, rfl⟩
    · split <;> exact ih
    · refine List.forall_mem_cons.2 ⟨?_, ih⟩
      have hle := (hmmap _ _ hret).2.2.1
      rwa [Nat.mod_eq_of_lt, h.pageSize_eq] at hle
      rw [hpages]
      exact Nat.lt_of_le_of_lt (Nat.mul_div_le _ _) (Nat.mod_lt _ (Nat.two_pow_pos w))
  | fail _ _ _ halloc ih =>
    rw [alloc_none halloc]
    exact ih

theorem Reaches.wraps (h : Reaches w pageSize m blocks) (hPw : pageSize + sizeofHeader w ≤ 2 ^ w) :
    ∀ b ∈ blocks, 2 ^ w < b.size + sizeofHeader w → 2 ^ w < b.start + b.size := by
  induction h with
  | new => simp
  | @alloc m m' blocks mmap bytes a h hmmap _ halloc ih =>
    refine List.forall_mem_cons.2 ⟨fun hlt => ?_, ih⟩
    simp only at hlt ⊢
    rcases alloc_some halloc with ⟨page, -, hle, -, -⟩ | ⟨_, ret, _, -, -, rfl, -, -⟩
    · rw [h.pageSize_eq] at hle
      omega
    · omega
  | fail _ _ _ _ ih => exact ih

/-- The blocks of a run lie on its pages just where no size wraps with the header. -/
theorem reaches_within_iff (h : Reaches w pageSize m blocks) (hP : sizeofHeader w < pageSize)
    (hPw : pageSize + sizeofHeader w < 2 ^ w) :
    (∀ b ∈ blocks, ∃ h ∈ m.headers, b.Within (m.pages h)) ↔
      ∀ b ∈ blocks, b.size + sizeofHeader w ≤ 2 ^ w := by
  constructor
  · intro hin b hb
    obtain ⟨h', hh', hbh⟩ := hin b hb
    have hle := h.pages_le h' hh'
    rw [← h.pageSize_eq] at hle
    have hwraps := h.wraps hPw.le b hb
    simp only [Block.Within, PageAllocator.pages] at hbh
    omega
  · intro hbytes b hb
    have hs := h.safe hP (by omega) hbytes
    obtain ⟨h', hh', hbh⟩ := hs.within b hb
    exact ⟨h', hh', hbh.trans (room_within _ (hs.headers h' hh'))⟩

/-- The largest block, on a page of eight bytes. -/
theorem reaches_within_iff_largest :
    (∀ b ∈ [(⟨10, 255⟩ : Block)], ∃ h ∈ [(8, 1)], b.Within ⟨h.1, 8 * h.2⟩) ↔
      ∀ b ∈ [(⟨10, 255⟩ : Block)], b.size + sizeofHeader 8 ≤ 2 ^ 8 := by
  have h : Reaches 8 8 ⟨8, [(8, 1)], some 8, 1, 1⟩ [⟨10, 255⟩] :=
    .alloc .new (fresh_mmapEight rfl) (by decide)
      (by simp [alloc, new, getNPages, sub, sizeofHeader, mmapEight])
  exact reaches_within_iff h (by decide) (by decide)

end PageAllocator

end Xrash
