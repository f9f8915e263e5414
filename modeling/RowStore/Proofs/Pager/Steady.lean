/-
  RowStore/Proofs/Pager/Steady.lean
  =================================
  **What a step goes by.**  A step of the tree asks for pages and for the number of pages.
  Whether a page comes from memory or from the file it cannot see, and it leaves the file
  alone.  Pagers with the same pages are *twins*: a *steady* step ends alike on twins and
  leaves twins behind.

  `Steady ids m` is said of a step that may change the pages `ids` without asking for them,
  as they have been asked for before.
-/
import RowStore.Proofs.Pager.Memory

namespace RowStore

variable {α β : Type}

namespace Pager

/-- Coherent pagers of as many pages, with the same bytes on them. -/
structure Twins (a b : Pager) : Prop where
  left : a.Coherent
  right : b.Coherent
  numPages_eq : a.numPages = b.numPages
  content_eq : a.content = b.content

namespace Twins

variable {a b c : Pager}

theorem refl (h : a.Coherent) : Twins a a := ⟨h, h, rfl, rfl⟩

theorem symm (h : Twins a b) : Twins b a := ⟨h.right, h.left, h.numPages_eq.symm, h.content_eq.symm⟩

theorem trans (h : Twins a b) (h' : Twins b c) : Twins a c :=
  ⟨h.left, h'.right, h.numPages_eq.trans h'.numPages_eq, h.content_eq.trans h'.content_eq⟩

end Twins

end Pager

/-- What a step does depends on the pages and their number, and the file stays. -/
def Steady (ids : List PageId) (m : PagerM α) : Prop :=
  ∀ (n : Nat) (page : PageId → Page), (∀ id ∈ ids, id.index < maxPages ∧ id.index < n) →
    ∃ (r : Except Failure α) (n' : Nat) (page' : PageId → Page), n ≤ n' ∧
      ∀ file, Leads Pager.view m ⟨file, n, page⟩ r ⟨file, n', page'⟩

namespace Steady

variable {ids : List PageId} {id : PageId} {m : PagerM α} {f : α → PagerM β}

theorem pure (a : α) : Steady ids (Pure.pure a : PagerM α) :=
  fun n page _ => ⟨.ok a, n, page, Nat.le_refl n, fun _ => .pure a⟩

theorem throw (failure : Failure) : Steady ids (MonadExcept.throw failure : PagerM α) :=
  fun n page _ => ⟨.error failure, n, page, Nat.le_refl n, fun _ => .throw failure⟩

theorem bind (hm : Steady ids m) (hf : ∀ a, Steady ids (f a)) : Steady ids (m >>= f) := by
  intro n page hids
  obtain ⟨r, n', page', hle, hrun⟩ := hm n page hids
  cases r with
  | error failure => exact ⟨.error failure, n', page', hle, fun file => (hrun file).bind_error⟩
  | ok a =>
    have hids' : ∀ id ∈ ids, id.index < maxPages ∧ id.index < n' := fun id hid =>
      ⟨(hids id hid).1, Nat.lt_of_lt_of_le (hids id hid).2 hle⟩
    obtain ⟨r, n'', page'', hle', hrun'⟩ := hf a n' page' hids'
    exact ⟨r, n'', page'', Nat.le_trans hle hle', fun file => (hrun file).bind (hrun' file)⟩

theorem mono {ids' : List PageId} (hm : Steady ids m) (h : ids ⊆ ids') : Steady ids' m :=
  fun n page hids => hm n page fun id hid => hids id (h hid)

/-- What is answered may be a function of how a steady step ended. -/
theorem answer {m' : PagerM β} {g : Except Failure α → Except Failure β} (hm : Steady ids m)
    (hrun : ∀ pager r after, m.run pager = outcome r after →
      m'.run pager = outcome (g r) after) : Steady ids m' := by
  intro n page hids
  obtain ⟨r, n', page', hle, hm⟩ := hm n page hids
  refine ⟨g r, n', page', hle, fun file pager hp hview => ?_⟩
  obtain ⟨after, hafter, hcoherent, hview'⟩ := hm file pager hp hview
  exact ⟨after, hrun pager r after hafter, hcoherent, hview'⟩

/-- Of the pager itself a steady step looks at the number of pages only. -/
theorem get_bind {g : Pager → PagerM β} (hsame : ∀ a b : Pager, a.numPages = b.numPages → g a = g b)
    (hg : ∀ pager, Steady ids (g pager)) : Steady ids (get >>= g) := by
  intro n page hids
  obtain ⟨r, n', page', hle, hrun⟩ := hg { Pager.ofImage #[] with numPages := n } n page hids
  refine ⟨r, n', page', hle, fun file => Leads.get_bind fun pager hpager => ?_⟩
  have hnum : pager.numPages = n := congrArg View.numPages hpager
  rw [hsame pager { Pager.ofImage #[] with numPages := n } hnum]
  exact hrun file

/-! ## Pages -/

/-- A page that was asked for is there afterwards. -/
theorem request_bind {g : Page → PagerM β} (hg : ∀ page, Steady (id :: ids) (g page)) :
    Steady ids (Pager.request id >>= g) := by
  intro n page hids
  by_cases hmax : id.index < maxPages
  · have hids' : ∀ other ∈ id :: ids,
        other.index < maxPages ∧ other.index < max n (id.index + 1) := by
      intro other hother
      rcases List.mem_cons.mp hother with rfl | hother
      · exact ⟨hmax, Nat.lt_of_lt_of_le (Nat.lt_succ_self _) (Nat.le_max_right _ _)⟩
      · exact (hids other hother).imp_right fun h => Nat.lt_of_lt_of_le h (Nat.le_max_left _ _)
    obtain ⟨r, n', page', hle, hrun⟩ := hg (page id) (max n (id.index + 1)) page hids'
    refine ⟨r, n', page', Nat.le_trans (Nat.le_max_left _ _) hle, fun file => ?_⟩
    exact (Pager.request_leads hmax ⟨file, n, page⟩).bind (hrun file)
  · refine ⟨.error (.error (.pageOutOfBounds id maxPages)), n, page, Nat.le_refl n, fun file => ?_⟩
    exact (Pager.request_refused (Nat.not_lt.mp hmax) ⟨file, n, page⟩).bind_error

theorem store (hid : id ∈ ids) (page : Page) : Steady ids (Pager.store id page) := by
  intro n pages hids
  obtain ⟨hmax, hlt⟩ := hids id hid
  exact ⟨.ok (), n, fun other => if other = id then page else pages other, Nat.le_refl n,
    fun file => Pager.store_leads (v := ⟨file, n, pages⟩) page hmax hlt⟩

end Steady

/-- A steady step ends alike on twins, and leaves twins. -/
theorem Pager.Twins.exists_run {a b : Pager} (h : Twins a b) {m : PagerM α} (hm : Steady [] m) :
    ∃ (r : Except Failure α) (a' b' : Pager), m.run a = outcome r a' ∧ m.run b = outcome r b' ∧
      Twins a' b' ∧ a'.file = a.file ∧ b'.file = b.file := by
  obtain ⟨r, n, page, -, hrun⟩ := hm a.numPages a.content fun _ hid => nomatch hid
  obtain ⟨a', hrun₁, hleft, hview₁⟩ := hrun a.file a h.left rfl
  have hb : b.view = ⟨b.file, a.numPages, a.content⟩ := by
    rw [h.numPages_eq, h.content_eq]
    rfl
  obtain ⟨b', hrun₂, hright, hview₂⟩ := hrun b.file b h.right hb
  refine ⟨r, a', b', hrun₁, hrun₂, ⟨hleft, hright, ?_, ?_⟩, congrArg View.file hview₁,
    congrArg View.file hview₂⟩
  · exact (congrArg View.numPages hview₁).trans (congrArg View.numPages hview₂).symm
  · exact (congrArg View.page hview₁).trans (congrArg View.page hview₂).symm

end RowStore
