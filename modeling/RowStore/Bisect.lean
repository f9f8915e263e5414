/-
  RowStore/Bisect.lean
  ====================
  **Narrowing a range of positions.**  The place of a key among the cells of a node
  is found by halving a range `[lo, hi)`.  A probe says on which side of a position
  the sought place lies, or that it lies right there, which ends the search at once.
  Probing may fail, and then so does the search.

  Each step drops at least one position, so as many steps as the range is long are
  enough, whatever the probe answers.
-/
namespace RowStore

variable {ε : Type}

/-- Halves `[lo, hi)` at most `steps` times; the answer is the left end of what remains. -/
def bisectWithin (probe : Nat → Except ε Ordering) : Nat → Nat → Nat → Except ε Nat
  | 0, lo, _ => pure lo
  | steps + 1, lo, hi =>
    if lo = hi then pure lo
    else do
      let mid := (lo + hi) / 2
      match ← probe mid with
      | .eq => pure mid
      | .lt => bisectWithin probe steps lo mid
      | .gt => bisectWithin probe steps (mid + 1) hi

/-- The place in `[0, count]` that the probe leads to.  The probe answers `lt` for a
    position behind the sought place, `gt` for one before it. -/
def bisect (count : Nat) (probe : Nat → Except ε Ordering) : Except ε Nat :=
  bisectWithin probe count 0 count

/-- The answer lies in the range that the search started with. -/
theorem bisectWithin_mem {probe : Nat → Except ε Ordering} {steps lo hi i : Nat}
    (h : lo ≤ hi) (hi' : bisectWithin probe steps lo hi = .ok i) : lo ≤ i ∧ i ≤ hi := by
  induction steps generalizing lo hi with
  | zero => cases hi'; omega
  | succ steps ih =>
    rw [bisectWithin] at hi'
    split at hi'
    · cases hi'; omega
    · cases hp : probe ((lo + hi) / 2) with
      | error e => simp [hp, bind, Except.bind] at hi'
      | ok side =>
        cases side <;> simp only [hp, bind, Except.bind] at hi'
        · have := ih (by omega) hi'; omega
        · cases hi'; omega
        · have := ih (by omega) hi'; omega

theorem bisect_le {probe : Nat → Except ε Ordering} {count i : Nat}
    (h : bisect count probe = .ok i) : i ≤ count :=
  (bisectWithin_mem (Nat.zero_le count) h).2

end RowStore
