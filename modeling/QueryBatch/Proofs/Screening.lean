/-!
# Screening a list

A list is gone through from left to right, and refused at its first fault: an element that does
not go together with what stands before it. Main statements:

* `faultFree_or_firstFault`: a list has no fault, or a first one;
* `find?_of_firstFault`: a fault of an element by itself is found by looking for it;
* `foldlM_of_faultFree`: steps that only fail at a fault go through a list without faults;
* `foldlM_of_firstFault`: they give the error of the first fault.
-/

namespace QueryBatch

variable {α ε σ : Type} {P : List α → α → Prop}

/-- No element is at fault, given the elements before it. -/
def FaultFree (P : List α → α → Prop) (xs : List α) : Prop :=
  ∀ before x after, xs = before ++ x :: after → ¬ P before x

/-- `x` is the first element at fault, and `before` is what stands before it. -/
structure FirstFault (P : List α → α → Prop) (before : List α) (x : α) (xs : List α) : Prop where
  faultFree : FaultFree P before
  fault : P before x
  split : ∃ after, xs = before ++ x :: after

theorem FaultFree.nil : FaultFree P [] := by
  intro before x after h
  simp at h

theorem FaultFree.of_append {xs ys : List α} (h : FaultFree P (xs ++ ys)) : FaultFree P xs := by
  rintro before x after rfl
  exact h before x (after ++ ys) (by simp)

theorem FaultFree.concat {xs : List α} {x : α} (h : FaultFree P xs) (hx : ¬ P xs x) :
    FaultFree P (xs ++ [x]) := by
  intro before y after hsplit
  rcases List.eq_nil_or_concat after with rfl | ⟨rest, z, rfl⟩
  · obtain ⟨rfl, hy⟩ := List.append_inj' hsplit rfl
    obtain rfl : x = y := by simpa using hy
    exact hx
  · rw [List.concat_eq_append, ← List.cons_append, ← List.append_assoc] at hsplit
    obtain ⟨rfl, -⟩ := List.append_inj' hsplit rfl
    exact h before y rest rfl

/-- One more element is no fault exactly if it is none after all the others. -/
theorem faultFree_concat_iff {xs : List α} {x : α} :
    FaultFree P (xs ++ [x]) ↔ FaultFree P xs ∧ ¬ P xs x :=
  ⟨fun h => ⟨h.of_append, h xs x [] rfl⟩, fun h => h.1.concat h.2⟩

/-- A list without faults, or with a first one. -/
theorem faultFree_or_firstFault (P : List α → α → Prop) (xs : List α) :
    FaultFree P xs ∨ ∃ before x, FirstFault P before x xs := by
  have key : ∀ done, FaultFree P done →
      FaultFree P (done ++ xs) ∨ ∃ before x, FirstFault P before x (done ++ xs) := by
    induction xs with
    | nil => exact fun done h => .inl (by simpa using h)
    | cons x xs ih =>
      intro done h
      by_cases hx : P done x
      · exact .inr ⟨done, x, h, hx, xs, rfl⟩
      · simpa using ih (done ++ [x]) (h.concat hx)
  exact key [] .nil

/-- Where only the element itself counts, a list without faults is one whose elements are all
right. -/
theorem faultFree_iff_forall {p : α → Prop} {xs : List α} :
    FaultFree (fun _ x => p x) xs ↔ ∀ x ∈ xs, ¬ p x := by
  constructor
  · intro h x hx
    obtain ⟨before, after, hsplit⟩ := List.append_of_mem hx
    exact h before x after hsplit
  · rintro h before x after rfl
    exact h x (by simp)

theorem FirstFault.not_faultFree {before xs : List α} {x : α} (h : FirstFault P before x xs) :
    ¬ FaultFree P xs := by
  obtain ⟨after, hsplit⟩ := h.split
  exact fun hfree => hfree before x after hsplit h.fault

theorem FirstFault.mem {before xs : List α} {x : α} (h : FirstFault P before x xs) : x ∈ xs := by
  obtain ⟨after, rfl⟩ := h.split
  exact List.mem_append_right _ List.mem_cons_self

/-- Where only the element itself counts, the first fault is what is found when it is looked for. -/
theorem find?_of_firstFault {p : α → Prop} {test : α → Bool} {before xs : List α} {x : α}
    (htest : ∀ y, test y = true ↔ p y) (h : FirstFault (fun _ y => p y) before x xs) :
    xs.find? test = some x := by
  obtain ⟨after, hsplit⟩ := h.split
  refine List.find?_eq_some_iff_append.2 ⟨(htest x).2 h.fault, before, after, hsplit, ?_⟩
  intro y hy
  rw [Bool.not_eq_true', Bool.eq_false_iff, ne_eq, htest]
  exact faultFree_iff_forall.1 h.faultFree y hy

/-! ## Steps that may fail -/

@[simp] theorem ok_bind {β : Type} (a : α) (f : α → Except ε β) : (Except.ok a >>= f) = f a := rfl

@[simp] theorem error_bind {β : Type} (e : ε) (f : α → Except ε β) :
    (Except.error e >>= f) = .error e := rfl

/-- A step after another one succeeds exactly if both do. -/
theorem bind_eq_ok_iff {β : Type} {x : Except ε α} {f : α → Except ε β} {b : β} :
    (x >>= f) = .ok b ↔ ∃ a, x = .ok a ∧ f a = .ok b := by
  cases x with
  | error e => exact ⟨nofun, fun ⟨_, h, _⟩ => nomatch h⟩
  | ok a => exact ⟨fun h => ⟨a, rfl, h⟩, fun ⟨_, ha, h⟩ => Except.ok.inj ha ▸ h⟩

section Fold

variable {step : σ → α → Except ε σ} {state : List α → σ}

/-- The step after faultless elements adds an element that is not at fault. -/
def AddsFaultless (P : List α → α → Prop) (step : σ → α → Except ε σ) (state : List α → σ) : Prop :=
  ∀ done x, FaultFree P done → ¬ P done x → step (state done) x = .ok (state (done ++ [x]))

/-- Without a fault, the loop ends in the state of the whole list. -/
theorem foldlM_of_faultFree (hstep : AddsFaultless P step state) {xs : List α}
    (h : FaultFree P xs) : xs.foldlM step (state []) = .ok (state xs) := by
  have key : ∀ done, FaultFree P (done ++ xs) →
      xs.foldlM step (state done) = .ok (state (done ++ xs)) := by
    clear h
    induction xs with
    | nil => intro done _; rw [List.append_nil]; rfl
    | cons x xs ih =>
      intro done h
      have hx := h done x xs rfl
      rw [List.append_cons] at h ⊢
      rw [List.foldlM_cons, hstep done x h.of_append.of_append hx]
      exact ih (done ++ [x]) h
  exact key [] h

/-- The loop fails at the first fault, with the error of its step. -/
theorem foldlM_of_firstFault (hstep : AddsFaultless P step state) {before xs : List α} {x : α}
    {e : ε} (h : FirstFault P before x xs) (he : step (state before) x = .error e) :
    xs.foldlM step (state []) = .error e := by
  obtain ⟨after, rfl⟩ := h.split
  rw [List.foldlM_append, foldlM_of_faultFree hstep h.faultFree]
  show (x :: after).foldlM step (state before) = _
  rw [List.foldlM_cons, he]
  rfl

end Fold

end QueryBatch
