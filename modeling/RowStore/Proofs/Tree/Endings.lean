/-
  RowStore/Proofs/Tree/Endings.lean
  =================================
  **How a step may end.**  In a damaged store a step can fail in many ways, and what is
  known of a pager before it does not say how it ends.  `Ends S m Q E` speaks of all ends at
  once: from a pager of `S` the step `m` comes to an answer as in `Q`, or to a failure as in
  `E`.  Most often `E` is `Final`, which says that nobody goes on after the failure.
-/
import RowStore.Proofs.Firm
import RowStore.Proofs.Tree.Access

namespace RowStore

variable {α β : Type}

/-- From a pager of `S` the step ends with an answer as in `Q`, or with a failure as in `E`. -/
def Ends (S : Pager → Prop) (m : PagerM α) (Q : α → Pager → Prop) (E : Failure → Pager → Prop) :
    Prop :=
  ∀ pager, S pager →
    match m.run pager with
    | .ok a after => Q a after
    | .error failure after => E failure after

/-- The pager looks as `φ` says. -/
def Lands (φ : View → Prop) (pager : Pager) : Prop := ∃ w : View, w.Shown pager ∧ φ w

/-- Nobody goes on after the failure. -/
def Final (failure : Failure) (_ : Pager) : Prop := failure.isRecoverable = false

namespace Ends

variable {S : Pager → Prop} {m : PagerM α} {f : α → PagerM β} {P Q : α → Pager → Prop}
variable {R : β → Pager → Prop} {E E' : Failure → Pager → Prop} {v w : View}

theorem pure {a : α} (h : ∀ pager, S pager → Q a pager) : Ends S (Pure.pure a) Q E := h

theorem bind (hm : Ends S m P E) (hf : ∀ a, Ends (P a) (f a) R E) : Ends S (m >>= f) R E := by
  intro pager hp
  have hfirst := hm pager hp
  cases hrun : m.run pager with
  | error failure after =>
    rw [hrun] at hfirst
    rw [bind_run_error hrun]
    exact hfirst
  | ok a after =>
    rw [hrun] at hfirst
    rw [bind_run hrun]
    exact hf a after hfirst

theorem get_bind {f : Pager → PagerM β} (hf : ∀ pager, S pager → Ends S (f pager) R E) :
    Ends S (get >>= f) R E :=
  fun pager hp => hf pager hp pager hp

theorem imp (hm : Ends S m P E) (hQ : ∀ a pager, P a pager → Q a pager) : Ends S m Q E := by
  intro pager hp
  have h := hm pager hp
  cases hrun : m.run pager with
  | error failure after =>
    rw [hrun] at h
    exact h
  | ok a after =>
    rw [hrun] at h
    exact hQ _ _ h

theorem imp_failure (hm : Ends S m Q E) (hE : ∀ failure pager, E failure pager → E' failure pager) :
    Ends S m Q E' := by
  intro pager hp
  have h := hm pager hp
  cases hrun : m.run pager with
  | error failure after =>
    rw [hrun] at h
    exact hE _ _ h
  | ok a after =>
    rw [hrun] at h
    exact h

theorem lands {φ : View → Prop} (h : ∀ w, φ w → Ends w.Shown m Q E) : Ends (Lands φ) m Q E :=
  fun pager ⟨w, hw, hφ⟩ => h w hφ pager hw

theorem fact {c : Prop} (h : c → Ends S m Q E) : Ends (fun pager => S pager ∧ c) m Q E :=
  fun pager ⟨hp, hc⟩ => h hc pager hp

theorem firm (hm : Firm m) : Ends S m (fun _ _ => True) Final := by
  intro pager _
  cases hrun : m.run pager with
  | error failure after => exact hm _ _ _ hrun
  | ok a after => trivial

theorem refuse {e : Error} (h : ∀ pager, S pager → E (.error e) pager) : Ends S (refuse e) Q E := h

theorem refuse_bind {e : Error} (h : ∀ pager, S pager → E (.error e) pager) :
    Ends S (RowStore.refuse e >>= f) R E := h

theorem lift {check : Except Failure α} (hcheck : FirmCheck check)
    (h : ∀ a, check = .ok a → ∀ pager, S pager → Q a pager) :
    Ends S (liftM check) Q Final := by
  intro pager hp
  cases check with
  | error failure => exact hcheck _ rfl
  | ok a => exact h a rfl pager hp

/-- A check that succeeds can be passed over. -/
theorem lift_bind {check : Except Failure α} {a : α} (hcheck : check = .ok a)
    (hf : Ends S (f a) R E) : Ends S (liftM check >>= f) R E := by
  subst hcheck
  exact bind (P := fun b pager => b = a ∧ S pager) (fun _ hp => ⟨rfl, hp⟩)
    fun b pager ⟨hb, hp⟩ => hb ▸ hf pager hp

theorem leads {a : α} (hm : Leads Pager.view m v (.ok a) w)
    (h : ∀ pager, w.Shown pager → Q a pager) : Ends v.Shown m Q E := by
  rintro pager ⟨hp, hview⟩
  obtain ⟨after, hrun, hafter, hw⟩ := hm pager hp hview
  rw [hrun]
  exact h after ⟨hafter, hw⟩

theorem refused {failure : Failure} (hm : Leads Pager.view m v (.error failure) w)
    (h : failure.isRecoverable = false) : Ends v.Shown m Q Final := by
  rintro pager ⟨hp, hview⟩
  obtain ⟨after, hrun, -, -⟩ := hm pager hp hview
  rw [hrun]
  exact h

end Ends

/-! ## Pages -/

namespace View

variable {v : View} {id : PageId}

theorem set_page_apply (v : View) (id other : PageId) (page : Page) :
    (v.set id page).page other = if other = id then page else v.page other := rfl

/-- The view with one more page, which shows what was behind the last one. -/
def more (v : View) : View := { v with numPages := v.numPages + 1 }

theorem numPages_more (v : View) : v.more.numPages = v.numPages + 1 := rfl

/-- There is such a page, and not by its number alone. -/
def Has (v : View) (id : PageId) : Prop := id.index < v.numPages ∧ id.index < maxPages

end View

namespace Pager

variable {v : View} {id : PageId}

theorem ends_request (v : View) (id : PageId) : Ends v.Shown (request id)
    (fun page pager => (v.reach id).Shown pager ∧ id.index < maxPages ∧ page = v.page id)
    Final := by
  by_cases hid : id.index < maxPages
  · exact .leads (request_leads hid v) fun pager hp => ⟨hp, hid, rfl⟩
  · exact .refused (request_refused (Nat.not_lt.mp hid) v) rfl

theorem ends_look {check : Page → Except Failure α} (hcheck : ∀ page, FirmCheck (check page))
    (v : View) (id : PageId) : Ends v.Shown (request id >>= fun page => liftM (check page))
      (fun a pager => (v.reach id).Shown pager ∧ id.index < maxPages ∧ check (v.page id) = .ok a)
      Final := by
  refine (ends_request v id).bind fun page => .fact fun ⟨hmax, hpage⟩ => ?_
  subst hpage
  exact .lift (hcheck _) fun a ha pager hp => ⟨hp, hmax, ha⟩

theorem ends_change {e : Edit pageSize α} (he : Firm e) (hid : v.Has id) :
    Ends v.Shown (change id (v.page id) e)
      (fun a => Lands fun w => ∃ page, e.run (v.page id) = .ok a page ∧ w = v.set id page)
      Final := by
  cases hrun : e.run (v.page id) with
  | error failure page =>
    intro pager _
    rw [change, hrun]
    exact he _ _ _ hrun
  | ok a page =>
    rw [change, hrun]
    exact .leads ((store_leads page hid.2 hid.1).bind (.pure a)) fun pager hp =>
      ⟨_, hp, page, rfl, rfl⟩

/-- The page that is taken was blank before, so that the pages look the same. -/
theorem ends_allocate (hlt : v.numPages < maxPages) : Ends v.Shown allocate
    (fun new pager => v.more.Shown pager ∧ new.index = v.numPages) Final := by
  rintro pager ⟨hp, hview⟩
  refine Ends.leads (allocate_leads hlt) ?_ pager ⟨hp, hview⟩
  have hindex : (PageId.ofNat v.numPages).index = v.numPages :=
    PageId.index_ofNat (Nat.lt_trans hlt (by decide))
  have hblank : v.page (PageId.ofNat v.numPages) = Bytes.zero := by
    rw [← hview]
    refine hp.content_of_le ?_
    rw [← hview] at hindex
    exact Nat.le_of_eq hindex.symm
  rw [← hblank]
  exact fun after hafter => ⟨(View.set_page v.more _) ▸ hafter, hindex⟩

end Pager
end RowStore
