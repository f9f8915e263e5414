/-
  RowStore/Proofs/Run.lean
  ========================
  **Running programs.**  A program over a buffer or a pager is an `EStateM` step.  These
  lemmas run the first statement of such a program when its result is known, and collect
  the results of a list of checks that all succeed.
-/
import Mathlib.Tactic.Common
import RowStore.Failure

namespace RowStore

variable {α β ε σ : Type}

theorem get_bind_run (f : σ → EStateM Failure σ α) (s : σ) :
    (get >>= f : EStateM Failure σ α).run s = (f s).run s := rfl

theorem bind_run {m : EStateM Failure σ α} {f : α → EStateM Failure σ β} {s t : σ} {a : α}
    (h : m.run s = .ok a t) : (m >>= f).run s = (f a).run t := by
  rw [EStateM.run_bind, h]

theorem bind_run_error {m : EStateM Failure σ α} {f : α → EStateM Failure σ β} {s t : σ}
    {failure : Failure} (h : m.run s = .error failure t) :
    (m >>= f).run s = .error failure t := by
  rw [EStateM.run_bind, h]

theorem exists_of_bind_run {m : EStateM Failure σ α} {f : α → EStateM Failure σ β} {s t : σ}
    {b : β} (h : (m >>= f).run s = .ok b t) :
    ∃ a middle, m.run s = .ok a middle ∧ (f a).run middle = .ok b t := by
  cases hm : m.run s with
  | error failure middle =>
    rw [bind_run_error hm] at h
    cases h
  | ok a middle =>
    rw [bind_run hm] at h
    exact ⟨a, middle, rfl, h⟩

theorem lift_bind_run {check : Except Failure α} {f : α → EStateM Failure σ β} {s : σ} {a : α}
    (h : check = .ok a) : (liftM check >>= f).run s = (f a).run s := by
  subst h
  exact bind_run rfl

theorem mapM_eq_ok {f : α → Except ε β} {g : α → β} {l : List α}
    (h : ∀ a ∈ l, f a = .ok (g a)) : l.mapM f = .ok (l.map g) := by
  induction l with
  | nil => rfl
  | cons a l ih =>
    rw [List.mapM_cons, h a (List.mem_cons_self), ih fun b hb => h b (List.mem_cons_of_mem a hb)]
    rfl

theorem exists_of_bind_eq_ok {x : Except ε α} {f : α → Except ε β} {b : β}
    (h : x >>= f = .ok b) : ∃ a, x = .ok a ∧ f a = .ok b := by
  cases x with
  | error e => cases h
  | ok a => exact ⟨a, rfl, h⟩

theorem mapM_ok {f : α → Except ε β} {g : α → β} {l : List α} {l' : List β}
    (h : ∀ a ∈ l, ∀ b, f a = .ok b → b = g a) (hl : l.mapM f = .ok l') : l' = l.map g := by
  induction l generalizing l' with
  | nil =>
    cases hl
    rfl
  | cons a l ih =>
    rw [List.mapM_cons] at hl
    obtain ⟨b, ha, hl⟩ := exists_of_bind_eq_ok hl
    obtain ⟨rest, hrest, hl⟩ := exists_of_bind_eq_ok hl
    cases hl
    rw [List.map_cons, h a List.mem_cons_self b ha,
      ih (fun c hc => h c (List.mem_cons_of_mem a hc)) hrest]

theorem map_range_eq {f : Nat → α} {l : List α} {n : Nat} (hn : n = l.length)
    (h : ∀ i (hi : i < l.length), f i = l[i]) : (List.range n).map f = l := by
  subst hn
  apply List.ext_getElem
  · rw [List.length_map, List.length_range]
  · intro i _ hi
    rw [List.getElem_map, List.getElem_range, h i hi]

end RowStore
