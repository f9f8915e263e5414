/-
  RowStore/Proofs/Pager/Save.lean
  ===============================
  **Saving and opening again.**  Saving writes the loaded pages one after the other.  Each
  write changes the bytes of its own page in the file and no others, so that in the end
  the file has all that the pager shows, and a pager on that file shows the same.
-/
import RowStore.Proofs.Pager.View

namespace RowStore.Pager

/-! ## Writing a page -/

theorem pageAt_write_self (file : Image) (id : PageId) (page : Page) :
    (file.write id.fileOffset page.toList).pageAt id.fileOffset pageSize = page := by
  apply Bytes.ext_byte
  intro i hi
  have hlen : page.toList.length = pageSize := Vector.length_toList
  rw [Image.byte_pageAt _ _ _ hi, if_pos hi, Image.byte_write, if_pos (by omega),
    Nat.add_sub_cancel_left]
  simp [Bytes.byte]

theorem pageAt_write_of_ne (file : Image) {id other : PageId} (page : Page) (hne : other ≠ id) :
    (file.write id.fileOffset page.toList).pageAt other.fileOffset pageSize =
      file.pageAt other.fileOffset pageSize := by
  apply Bytes.ext_byte
  intro i hi
  have hlen : page.toList.length = pageSize := Vector.length_toList
  have hindex : other.index ≠ id.index := fun he => hne (PageId.ext_index he)
  have hapart : ¬(id.fileOffset ≤ other.fileOffset + i ∧
      other.fileOffset + i < id.fileOffset + page.toList.length) := by
    rw [hlen]
    change i < 4096 at hi
    change ¬(id.index * 4096 ≤ other.index * 4096 + i ∧
      other.index * 4096 + i < id.index * 4096 + 4096)
    omega
  rw [Image.byte_pageAt _ _ _ hi, Image.byte_pageAt _ _ _ hi, if_pos hi, if_pos hi,
    Image.byte_write, if_neg hapart]

/-! ## Flushing -/

/-- The file has the page in full, as it is shown. -/
def Backed (pager : Pager) (id : PageId) : Prop :=
  pager.file.pageAt id.fileOffset pageSize = pager.content id ∧
    id.fileOffset + pageSize ≤ pager.file.size

/-- What flushing keeps. -/
structure Keeps (pager after : Pager) : Prop where
  coherent : after.Coherent
  numPages_eq : after.numPages = pager.numPages
  slots_eq : after.slots = pager.slots
  content_eq : after.content = pager.content
  backed : ∀ id, pager.Backed id → after.Backed id

theorem Keeps.refl {pager : Pager} (hp : pager.Coherent) : pager.Keeps pager :=
  ⟨hp, rfl, rfl, rfl, fun _ h => h⟩

theorem Keeps.trans {pager middle after : Pager} (h : pager.Keeps middle)
    (h' : middle.Keeps after) :
    pager.Keeps after where
  coherent := h'.coherent
  numPages_eq := h'.numPages_eq.trans h.numPages_eq
  slots_eq := h'.slots_eq.trans h.slots_eq
  content_eq := h'.content_eq.trans h.content_eq
  backed id hid := h'.backed id (h.backed id hid)

/-- The pager after a page has been written. -/
def flushed (pager : Pager) (id : PageId) (page : Page) : Pager :=
  { pager with
    file := pager.file.write id.fileOffset page.toList
    fileLength := max pager.fileLength (id.fileOffset + pageSize)
    counters := pager.counters + .write }

section Flushed

variable {pager : Pager} {id : PageId} {page : Page}

theorem run_flush (hid : id.index < maxPages) (hslot : pager.slot id = some page) :
    (flush id pageSize).run pager = .ok () (pager.flushed id page) := by
  have htake : page.toList.take pageSize = page.toList :=
    List.take_of_length_le (Nat.le_of_eq Vector.length_toList)
  rw [flush, lift_bind_run (checkBounds_of_lt hid), if_neg (Nat.lt_irrefl pageSize)]
  change (get >>= _ : PagerM Unit).run pager = _
  rw [get_bind_run, hslot]
  dsimp only
  rw [htake]
  rfl

theorem size_flushed (pager : Pager) (id : PageId) (page : Page) :
    (pager.flushed id page).file.size = max pager.file.size (id.fileOffset + pageSize) := by
  have hlen : page.toList.length = pageSize := Vector.length_toList
  rw [flushed, Image.size_write _ _ _ (List.ne_nil_of_length_pos (by rw [hlen]; decide)), hlen]

theorem content_flushed (hslot : pager.slot id = some page) :
    (pager.flushed id page).content = pager.content := by
  funext other
  by_cases hne : other = id
  · subst hne
    rw [content_of_slot hslot]
    exact content_of_slot hslot
  · change (pager.slot other).getD ((pager.file.write id.fileOffset page.toList).pageAt
      other.fileOffset pageSize) = _
    rw [pageAt_write_of_ne _ _ hne]
    rfl

theorem coherent_flushed (hp : pager.Coherent) (hslot : pager.slot id = some page) :
    (pager.flushed id page).Coherent where
  fileLength_eq := by
    rw [size_flushed, ← hp.fileLength_eq]
    rfl
  file_le := by
    have hlt : id.index + 1 ≤ pager.numPages := hp.loaded_lt id (isLoaded_iff.mpr ⟨page, hslot⟩)
    have hend : id.fileOffset + pageSize ≤ pager.numPages * pageSize := by
      rw [PageId.fileOffset, ← Nat.succ_mul]
      exact Nat.mul_le_mul_right pageSize hlt
    rw [size_flushed]
    exact Nat.max_le.mpr ⟨hp.file_le, hend⟩
  loaded_lt := hp.loaded_lt
  last_backed other hother := by
    rw [size_flushed]
    exact (hp.last_backed other hother).imp_right fun h => Nat.lt_of_lt_of_le h (Nat.le_max_left ..)

theorem backed_flushed_self (hslot : pager.slot id = some page) :
    (pager.flushed id page).Backed id := by
  refine ⟨?_, ?_⟩
  · rw [content_flushed hslot, content_of_slot hslot]
    exact pageAt_write_self pager.file id page
  · rw [size_flushed]
    exact Nat.le_max_right ..

theorem backed_flushed (hslot : pager.slot id = some page) {other : PageId}
    (h : pager.Backed other) : (pager.flushed id page).Backed other := by
  by_cases hne : other = id
  · subst hne
    exact backed_flushed_self hslot
  · refine ⟨?_, ?_⟩
    · rw [content_flushed hslot, ← h.1]
      exact pageAt_write_of_ne pager.file page hne
    · rw [size_flushed]
      exact Nat.le_trans h.2 (Nat.le_max_left ..)

end Flushed

theorem index_lt_of_isLoaded {pager : Pager} {id : PageId} (h : pager.isLoaded id = true) :
    id.index < maxPages := by
  by_contra hle
  rw [isLoaded, slot_of_le pager (Nat.not_lt.mp hle)] at h
  cases h

theorem exists_flush {pager : Pager} (hp : pager.Coherent) {id : PageId}
    (hid : pager.isLoaded id = true) :
    ∃ after : Pager, (flush id pageSize).run pager = .ok () after ∧ pager.Keeps after ∧
      after.Backed id := by
  obtain ⟨page, hslot⟩ := isLoaded_iff.mp hid
  refine ⟨pager.flushed id page, run_flush (index_lt_of_isLoaded hid) hslot, ?_,
    backed_flushed_self hslot⟩
  exact ⟨coherent_flushed hp hslot, rfl, rfl, content_flushed hslot,
    fun _ => backed_flushed hslot⟩

/-- The step of `flushAll` for one page. -/
theorem exists_flush_if_loaded {pager : Pager} (hp : pager.Coherent) (i : Nat) :
    ∃ after : Pager, (do
        if (← get).isLoaded (PageId.ofNat i) then flush (PageId.ofNat i) pageSize
        : PagerM Unit).run pager = .ok () after ∧ pager.Keeps after ∧
      (pager.isLoaded (PageId.ofNat i) = true → after.Backed (PageId.ofNat i)) := by
  rw [get_bind_run]
  by_cases hid : pager.isLoaded (PageId.ofNat i) = true
  · obtain ⟨after, hrun, hkeeps, hbacked⟩ := exists_flush hp hid
    rw [if_pos hid]
    exact ⟨after, hrun, hkeeps, fun _ => hbacked⟩
  · rw [if_neg hid]
    exact ⟨pager, rfl, .refl hp, fun h => absurd h hid⟩

theorem exists_flush_list {pager : Pager} (hp : pager.Coherent) (l : List Nat) :
    ∃ after : Pager, (l.forM fun i => do
        if (← get).isLoaded (PageId.ofNat i) then flush (PageId.ofNat i) pageSize
        : PagerM Unit).run pager = .ok () after ∧ pager.Keeps after ∧
      ∀ i ∈ l, pager.isLoaded (PageId.ofNat i) = true → after.Backed (PageId.ofNat i) := by
  induction l generalizing pager with
  | nil => exact ⟨pager, rfl, .refl hp, fun i hi => absurd hi List.not_mem_nil⟩
  | cons first rest ih =>
    obtain ⟨middle, hrun, hkeeps, hfirst⟩ := exists_flush_if_loaded hp first
    obtain ⟨after, hrun', hkeeps', hrest⟩ := ih hkeeps.coherent
    refine ⟨after, (bind_run hrun).trans hrun', hkeeps.trans hkeeps', fun i hi hloaded => ?_⟩
    rcases List.mem_cons.mp hi with rfl | hi
    · exact hkeeps'.backed _ (hfirst hloaded)
    · refine hrest i hi ?_
      rw [isLoaded, slot, hkeeps.slots_eq]
      exact hloaded

/-- Saving puts all that is shown into the file. -/
theorem exists_flushAll {pager : Pager} (hp : pager.Coherent) :
    ∃ after : Pager, flushAll.run pager = .ok () after ∧ pager.Keeps after ∧
      ∀ id, pager.isLoaded id = true → after.Backed id := by
  obtain ⟨after, hrun, hkeeps, hbacked⟩ := exists_flush_list hp (List.range maxPages)
  refine ⟨after, hrun, hkeeps, fun id hid => ?_⟩
  have h := hbacked id.index (List.mem_range.mpr (index_lt_of_isLoaded hid))
  rw [PageId.ofNat_index] at h
  exact h hid

/-- What every single write keeps is kept by writing all pages, and nothing stops that. -/
theorem exists_flushAll_of {R : Pager → Prop}
    (hR : ∀ {pager : Pager} {id : PageId} {page : Page}, pager.slot id = some page → R pager →
      R (pager.flushed id page))
    (h : R pager) : ∃ after : Pager, flushAll.run pager = .ok () after ∧ R after := by
  suffices hlist : ∀ (l : List Nat) (pager : Pager), R pager → ∃ after : Pager,
      (l.forM fun i => do
        if (← get).isLoaded (PageId.ofNat i) then Pager.flush (PageId.ofNat i) pageSize
        : PagerM Unit).run pager = .ok () after ∧ R after from hlist (List.range maxPages) pager h
  intro l
  induction l with
  | nil =>
    intro pager h
    exact ⟨pager, rfl, h⟩
  | cons i rest ih =>
    intro pager h
    by_cases hid : pager.isLoaded (PageId.ofNat i) = true
    · obtain ⟨page, hslot⟩ := isLoaded_iff.mp hid
      obtain ⟨after, hrun, hafter⟩ := ih _ (hR hslot h)
      refine ⟨after, (bind_run (a := ()) ?_).trans hrun, hafter⟩
      rw [get_bind_run, if_pos hid]
      exact run_flush (index_lt_of_isLoaded hid) hslot
    · obtain ⟨after, hrun, hafter⟩ := ih pager h
      refine ⟨after, (bind_run (a := ()) ?_).trans hrun, hafter⟩
      rw [get_bind_run, if_neg hid]
      rfl

theorem exists_flushAll_ok (pager : Pager) :
    ∃ after : Pager, flushAll.run pager = .ok () after := by
  obtain ⟨after, hrun, -⟩ := exists_flushAll_of (R := fun _ => True) (fun _ _ => trivial) trivial
  exact ⟨after, hrun⟩

/-! ## Opening again -/

/-- The number of pages is found from the length of the file. -/
theorem pagesIn_eq {len n : Nat} (hn : n < 4294967296) (hle : len ≤ n * pageSize)
    (hlast : ∀ k, k + 1 = n → k * pageSize < len) : pagesIn len = n := by
  replace hle : len ≤ n * 4096 := hle
  change (len + 4095) / 4096 % 4294967296 = n
  cases n with
  | zero => omega
  | succ k =>
    have hlt : k * 4096 < len := hlast k rfl
    omega

/-- A pager on a file is coherent, unless the file has more pages than there are numbers. -/
theorem coherent_ofImage {file : Image}
    (hsize : (file.size + (pageSize - 1)) / pageSize < 4294967296) : (ofImage file).Coherent := by
  have hpages : pagesIn file.size = (file.size + (pageSize - 1)) / pageSize :=
    Nat.mod_eq_of_lt hsize
  unfold pageSize at hpages
  refine ⟨rfl, ?_, fun id hid => ?_, fun id hid => .inr ?_⟩
  · change file.size ≤ pagesIn file.size * 4096
    omega
  · rw [isLoaded, slot_ofImage] at hid
    cases hid
  · change id.index + 1 = pagesIn file.size at hid
    change id.index * 4096 < file.size
    omega

/-- After saving, the file has every page as it is shown. -/
theorem pageAt_of_flushed {pager after : Pager} (hkeeps : pager.Keeps after)
    (hbacked : ∀ id, pager.isLoaded id = true → after.Backed id) (id : PageId) :
    after.file.pageAt id.fileOffset pageSize = pager.content id := by
  rw [← hkeeps.content_eq]
  by_cases hid : pager.isLoaded id = true
  · exact (hbacked id hid).1
  · have hslot : pager.slot id = none := by
      simpa [isLoaded] using hid
    have hnone : after.slot id = none := by
      rw [slot, hkeeps.slots_eq]
      exact hslot
    exact (content_of_not_loaded hnone).symm

/-- A pager on the file of a saved one shows what that one showed. -/
theorem ofImage_of_flushed {pager after : Pager} (hn : pager.numPages < 4294967296)
    (hkeeps : pager.Keeps after) (hbacked : ∀ id, pager.isLoaded id = true → after.Backed id) :
    (ofImage after.file).Coherent ∧ (ofImage after.file).numPages = pager.numPages ∧
      (ofImage after.file).content = pager.content := by
  have hnum : after.numPages = pager.numPages := hkeeps.numPages_eq
  have hloaded : ∀ id, after.isLoaded id = pager.isLoaded id := fun id => by
    rw [isLoaded, isLoaded, slot, slot, hkeeps.slots_eq]
  have hlast : ∀ id : PageId, id.index + 1 = pager.numPages → id.fileOffset < after.file.size := by
    intro id hid
    rcases hkeeps.coherent.last_backed id (hid.trans hnum.symm) with h | h
    · have hend := (hbacked id (hloaded id ▸ h)).2
      exact Nat.lt_of_lt_of_le (Nat.lt_add_of_pos_right (by decide)) hend
    · exact h
  have hpages : pagesIn after.file.size = pager.numPages := by
    refine pagesIn_eq hn (hnum ▸ hkeeps.coherent.file_le) fun k hk => ?_
    have hindex : (PageId.ofNat k).index = k := PageId.index_ofNat (by omega)
    have hoffset := hlast (PageId.ofNat k) (by rw [hindex]; exact hk)
    rwa [PageId.fileOffset, hindex] at hoffset
  refine ⟨⟨rfl, ?_, ?_, ?_⟩, hpages, ?_⟩
  · change after.file.size ≤ pagesIn after.file.size * pageSize
    rw [hpages, ← hnum]
    exact hkeeps.coherent.file_le
  · intro id hid
    rw [isLoaded, slot_ofImage] at hid
    cases hid
  · intro id hid
    exact .inr (hlast id (hid.trans hpages))
  · funext id
    rw [content_of_not_loaded (slot_ofImage after.file id)]
    exact pageAt_of_flushed hkeeps hbacked id

/-! ## The file that is left -/

/-- The file with the given pages one after the other. -/
def imageOf (n : Nat) (page : PageId → Page) : Image :=
  Array.ofFn fun i : Fin (n * pageSize) =>
    (page (PageId.ofNat (i.val / pageSize))).byte (i.val % pageSize)

theorem size_imageOf (n : Nat) (page : PageId → Page) : (imageOf n page).size = n * pageSize :=
  Array.size_ofFn

/-- A byte of a file stands on one of its pages. -/
theorem byte_eq_pageAt (file : Image) {i : Nat} (hi : i / pageSize < 4294967296) :
    file.byte i =
      (file.pageAt (PageId.ofNat (i / pageSize)).fileOffset pageSize).byte (i % pageSize) := by
  have hmod : i % pageSize < pageSize := Nat.mod_lt i (by decide)
  have hplace : (PageId.ofNat (i / pageSize)).fileOffset + i % pageSize = i := by
    rw [PageId.fileOffset, PageId.index_ofNat hi, Nat.mul_comm]
    exact Nat.div_add_mod i pageSize
  rw [Image.byte_pageAt _ _ _ hmod, if_pos hmod, hplace]

theorem pageAt_imageOf {n : Nat} (page : PageId → Page) (id : PageId) (hid : id.index < n) :
    (imageOf n page).pageAt id.fileOffset pageSize = page id := by
  apply Bytes.ext_byte
  intro i hi
  have hend : id.fileOffset + i < n * pageSize := by
    have hmul : (id.index + 1) * pageSize ≤ n * pageSize := Nat.mul_le_mul_right _ hid
    rw [Nat.succ_mul] at hmul
    exact Nat.lt_of_lt_of_le (Nat.add_lt_add_left hi _) hmul
  have hdiv : (id.fileOffset + i) / pageSize = id.index := by
    rw [PageId.fileOffset, Nat.mul_comm, Nat.mul_add_div (by decide), Nat.div_eq_of_lt hi]
    rfl
  have hmod : (id.fileOffset + i) % pageSize = i := by
    rw [PageId.fileOffset, Nat.mul_comm, Nat.mul_add_mod, Nat.mod_eq_of_lt hi]
  have hget : (imageOf n page)[id.fileOffset + i]? = some ((page id).byte i) := by
    rw [Array.getElem?_eq_getElem (by rwa [size_imageOf])]
    simp only [imageOf, Array.getElem_ofFn, hdiv, hmod, PageId.ofNat_index]
  rw [Image.byte_pageAt _ _ _ hi, if_pos hi, Image.byte, hget, Option.getD_some]

/-- A file is known by its pages. -/
theorem eq_imageOf {file : Image} {n : Nat} {page : PageId → Page} (hn : n < 4294967296)
    (hsize : file.size = n * pageSize)
    (hpage : ∀ id : PageId, file.pageAt id.fileOffset pageSize = page id) :
    file = imageOf n page := by
  apply Array.ext
  · rw [hsize, size_imageOf]
  · intro i hi hi'
    have hin : i < n * 4096 := hsize ▸ hi
    have hbyte : file.byte i = file[i] := by
      simp [Image.byte, hi]
    have hlt : i / pageSize < 4294967296 := show i / 4096 < 4294967296 by omega
    simp only [imageOf, Array.getElem_ofFn]
    rw [← hbyte, byte_eq_pageAt file hlt, hpage]

/-- If the file was made of whole pages before, saving makes it just the pages of the pager. -/
theorem file_of_flushed {pager after : Pager} (hp : pager.Coherent)
    (hn : pager.numPages < 4294967296) (hwhole : pageSize ∣ pager.file.size)
    (hkeeps : pager.Keeps after) (hbacked : ∀ id, pager.isLoaded id = true → after.Backed id) :
    after.file = imageOf pager.numPages pager.content := by
  have hle : after.file.size ≤ pager.numPages * pageSize := by
    rw [← hkeeps.numPages_eq]
    exact hkeeps.coherent.file_le
  refine eq_imageOf hn (Nat.le_antisymm hle ?_) (pageAt_of_flushed hkeeps hbacked)
  cases hnum : pager.numPages with
  | zero =>
    rw [Nat.zero_mul]
    exact Nat.zero_le _
  | succ k =>
    have hindex : (PageId.ofNat k).index = k := PageId.index_ofNat (by omega)
    -- The last page is in the file, from memory or from before.
    have hlast : after.Backed (PageId.ofNat k) := by
      rcases hp.last_backed (PageId.ofNat k) (by rw [hindex, hnum]) with hloaded | hfile
      · exact hbacked _ hloaded
      · by_cases hloaded : pager.isLoaded (PageId.ofNat k) = true
        · exact hbacked _ hloaded
        · have hslot : pager.slot (PageId.ofNat k) = none := by
            simpa [isLoaded] using hloaded
          refine hkeeps.backed _ ⟨(content_of_not_loaded hslot).symm, ?_⟩
          obtain ⟨m, hm⟩ := hwhole
          rw [PageId.fileOffset, hindex] at hfile ⊢
          change k * 4096 < pager.file.size at hfile
          change pager.file.size = 4096 * m at hm
          change k * 4096 + 4096 ≤ pager.file.size
          omega
    have hend := hlast.2
    rwa [PageId.fileOffset, hindex, ← Nat.succ_mul] at hend

/-- If the pages are shown as the file has them, saving puts zeros behind the file and does
    nothing else to it. -/
theorem exists_flushAll_append {pager : Pager} (hp : pager.Coherent)
    (hn : pager.numPages < 4294967296)
    (hsame : ∀ id, pager.content id = pager.file.pageAt id.fileOffset pageSize) :
    ∃ (after : Pager) (k : Nat), flushAll.run pager = .ok () after ∧
      after.file = pager.file ++ Array.replicate k 0 := by
  obtain ⟨after, hrun, hkeeps, hbacked⟩ := exists_flushAll hp
  have hle : pager.file.size ≤ after.file.size := by
    obtain ⟨after', hrun', hle⟩ := exists_flushAll_of
      (R := fun saved => pager.file.size ≤ saved.file.size)
      (fun _ h => size_flushed .. ▸ Nat.le_trans h (Nat.le_max_left ..)) (Nat.le_refl _)
    cases hrun.symm.trans hrun'
    exact hle
  have hend : after.file.size ≤ pager.numPages * pageSize :=
    hkeeps.numPages_eq ▸ hkeeps.coherent.file_le
  have hbyte (i : Nat) (hi : i < after.file.size) : after.file.byte i = pager.file.byte i := by
    have hlt : i / pageSize < pager.numPages :=
      Nat.div_lt_of_lt_mul (Nat.mul_comm _ _ ▸ Nat.lt_of_lt_of_le hi hend)
    have hindex : i / pageSize < 4294967296 := Nat.lt_trans hlt hn
    rw [byte_eq_pageAt after.file hindex, byte_eq_pageAt pager.file hindex, ← hsame,
      pageAt_of_flushed hkeeps hbacked]
  refine ⟨after, after.file.size - pager.file.size, hrun, ?_⟩
  apply Array.ext
  · rw [Array.size_append, Array.size_replicate]
    omega
  · intro i hi hi'
    have hread := hbyte i hi
    rw [Image.byte, Image.byte, Array.getElem?_eq_getElem hi, Option.getD_some] at hread
    rw [hread, Array.getElem_append]
    split
    · rename_i hlt
      rw [Array.getElem?_eq_getElem hlt, Option.getD_some]
    · rename_i hlt
      rw [Array.getElem?_eq_none (Nat.not_lt.mp hlt), Array.getElem_replicate]
      rfl

end RowStore.Pager
