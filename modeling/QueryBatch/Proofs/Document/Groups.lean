import QueryBatch.Proofs.Document.Balance
import QueryBatch.Proofs.Document.Safety
import QueryBatch.Proofs.Document.Termination

/-!
# The group that is skipped

A group in braces ends with the first brace behind which as many have been closed as opened. Main
statements:

* `Production.counts_of_depthAfter`: what a token does to the number of open groups;
* `Production.leaves_closeBraces`: where a group ends in which further groups are open;
* `Production.leaves_skipBraces`: what is left behind a group, and that it ends with the source
  where its brace is never closed;
* `Production.countBraces?_append`: the counter before a token that is stepped over;
* `Production.skipsGroup`: skipping a group uses exactly its tokens, and its counter is never zero
  where a brace is closed.
-/

namespace QueryBatch

namespace Production

/-- How many groups in braces are opened among some tokens. -/
def opened (ts : List Token) : Nat := ts.countP (·.kind == .punctuator .braceOpen)

/-- How many groups in braces are closed among some tokens. -/
def closed (ts : List Token) : Nat := ts.countP (·.kind == .punctuator .braceClose)

/-! ## The shortest prefix with a property -/

/-- What is left behind the shortest prefix with a property; nothing, if no prefix has it. -/
inductive Leaves (p : List Token → Prop) (ts rest : List Token) : Prop
  | behind (group : List Token) (hsplit : ts = group ++ rest) (hgroup : p group)
    (hshortest : ∀ us, us <+: ts → p us → group.length ≤ us.length) : Leaves p ts rest
  | nowhere (hrest : rest = []) (hnone : ∀ us, us <+: ts → ¬ p us) : Leaves p ts rest

namespace Leaves

variable {p q : List Token → Prop} {t : Token} {ts rest : List Token}

theorem congr (h : ∀ us, p us ↔ q us) (hp : Leaves p ts rest) : Leaves q ts rest := by
  rwa [show q = p from funext fun us => propext (h us).symm]

theorem nil (h : ¬ p []) : Leaves p [] [] :=
  .nowhere rfl fun us hus => by rwa [List.prefix_nil.1 hus]

/-- The first token has the property by itself. -/
theorem head (hnil : ¬ p []) (h : p [t]) (ts : List Token) : Leaves p (t :: ts) ts := by
  refine .behind [t] rfl h fun us _ hp => ?_
  cases us with
  | nil => exact absurd hp hnil
  | cons u us => exact Nat.succ_le_succ (Nat.zero_le _)

/-- The first token is in the prefix, and the others have what the property asks for behind it. -/
theorem cons (hnil : ¬ p []) (h : Leaves (fun us => p (t :: us)) ts rest) :
    Leaves p (t :: ts) rest := by
  cases h with
  | behind group hsplit hgroup hshortest =>
    refine .behind (t :: group) (by rw [hsplit, List.cons_append]) hgroup fun us hus hp => ?_
    rcases List.prefix_cons_iff.1 hus with rfl | ⟨vs, rfl, hvs⟩
    · exact absurd hp hnil
    · exact Nat.succ_le_succ (hshortest vs hvs hp)
  | nowhere hrest hnone =>
    refine .nowhere hrest fun us hus hp => ?_
    rcases List.prefix_cons_iff.1 hus with rfl | ⟨vs, rfl, hvs⟩
    · exact hnil hp
    · exact hnone vs hvs hp

end Leaves

/-! ## Counting braces -/

section

variable {t : Token} (ts : List Token)

theorem counts_open (h : t.kind = .punctuator .braceOpen) :
    opened (t :: ts) = opened ts + 1 ∧ closed (t :: ts) = closed ts := by
  constructor
  · exact List.countP_cons_of_pos (by rw [h]; rfl)
  · exact List.countP_cons_of_neg (by rw [h]; decide)

theorem counts_close (h : t.kind = .punctuator .braceClose) :
    opened (t :: ts) = opened ts ∧ closed (t :: ts) = closed ts + 1 := by
  constructor
  · exact List.countP_cons_of_neg (by rw [h]; decide)
  · exact List.countP_cons_of_pos (by rw [h]; rfl)

theorem counts_plain (hopen : ¬ t.kind = .punctuator .braceOpen)
    (hclose : ¬ t.kind = .punctuator .braceClose) :
    opened (t :: ts) = opened ts ∧ closed (t :: ts) = closed ts :=
  ⟨List.countP_cons_of_neg (by simpa using hopen), List.countP_cons_of_neg (by simpa using hclose)⟩

theorem depthAfter_eq_none_iff {depth : Nat} {kind : Kind} :
    depthAfter depth kind = none ↔ depth = 0 ∧ kind = .punctuator .braceClose := by
  unfold depthAfter
  by_cases hopen : kind = .punctuator .braceOpen
  · simp [hopen]
  · by_cases hclose : kind = .punctuator .braceClose
    · cases depth <;> simp [hclose]
    · simp [hopen, hclose]

/-- A token inside the current group changes the number of open groups by what it opens or closes,
which is said here without subtraction. -/
theorem counts_of_depthAfter {depth inner : Nat} (h : depthAfter depth t.kind = some inner) :
    opened (t :: ts) + depth + closed ts = opened ts + inner + closed (t :: ts) := by
  unfold depthAfter at h
  by_cases hopen : t.kind = .punctuator .braceOpen
  · obtain ⟨ho, hc⟩ := counts_open ts hopen
    rw [if_pos hopen] at h
    obtain rfl := Option.some.inj h
    omega
  · rw [if_neg hopen] at h
    by_cases hclose : t.kind = .punctuator .braceClose
    · obtain ⟨ho, hc⟩ := counts_close ts hclose
      rw [if_pos hclose] at h
      cases depth with
      | zero => cases h
      | succ depth =>
        obtain rfl := Option.some.inj h
        omega
    · obtain ⟨ho, hc⟩ := counts_plain ts hopen hclose
      rw [if_neg hclose] at h
      obtain rfl := Option.some.inj h
      omega

end

/-- These tokens close the current group, inside which `depth` further groups were open. -/
def Ends (depth : Nat) (ts : List Token) : Prop := closed ts = opened ts + depth + 1

theorem not_ends_nil (depth : Nat) : ¬ Ends depth [] := by
  intro h
  simp [Ends, opened, closed] at h

/-- The current group is skipped up to the first brace that closes it. -/
theorem leaves_closeBraces (depth : Nat) (ts : List Token) :
    Leaves (Ends depth) ts (closeBraces depth ts) := by
  induction ts generalizing depth with
  | nil =>
    rw [closeBraces]
    exact .nil (not_ends_nil depth)
  | cons t ts ih =>
    rw [closeBraces_cons]
    cases hdepth : depthAfter depth t.kind with
    | none =>
      obtain ⟨rfl, hclose⟩ := depthAfter_eq_none_iff.1 hdepth
      obtain ⟨ho, hc⟩ := counts_close [] hclose
      refine .head (not_ends_nil 0) ?_ ts
      rw [Ends, ho, hc]
      rfl
    | some inner =>
      refine .cons (not_ends_nil depth) ((ih inner).congr fun us => ?_)
      have hcounts := counts_of_depthAfter us hdepth
      unfold Ends
      omega

/-- Some tokens in which as many braces are closed as opened. -/
def Level (ts : List Token) : Prop := ts ≠ [] ∧ opened ts = closed ts

theorem leaves_skipBraces {ts : List Token} (h : headKind ts = .punctuator .braceOpen) :
    Leaves Level ts (skipBraces ts) := by
  cases ts with
  | nil => cases h
  | cons t ts =>
    have hopen : t.kind = .punctuator .braceOpen := h
    rw [skipBraces, if_pos hopen]
    refine .cons (fun hlevel => hlevel.1 rfl) ((leaves_closeBraces 0 ts).congr fun us => ?_)
    obtain ⟨ho, hc⟩ := counts_open us hopen
    simp only [Ends, Level, ho, hc, ne_eq, reduceCtorEq, not_false_eq_true, true_and]
    omega

/-! ## The counter -/

/-- The counter counts the current group and those inside it. -/
theorem countBraces?_cons (depth : Nat) (t : Token) (ts : List Token) :
    countBraces? (depth + 1) (t :: ts) =
      match depthAfter depth t.kind with
      | none => some ts
      | some inner => countBraces? (inner + 1) ts := by
  rw [countBraces?_succ, closeBraces_cons]
  cases depthAfter depth t.kind with
  | none => rfl
  | some inner => exact (countBraces?_succ inner ts).symm

/-- The counter before a token that is stepped over in the current group: it counts this group, the
groups inside it that were open, and those opened since without being closed. -/
theorem countBraces?_append {depth : Nat} {before after : List Token} {t : Token}
    (h : closeBraces depth (before ++ t :: after) <:+ after) :
    closed before ≤ opened before + depth ∧
      countBraces? (depth + 1) (before ++ t :: after) =
        countBraces? (opened before + depth + 1 - closed before) (t :: after) := by
  induction before generalizing depth with
  | nil => exact ⟨Nat.zero_le _, congrArg (countBraces? · (t :: after)) (by simp [opened, closed])⟩
  | cons u before ih =>
    rw [List.cons_append, closeBraces_cons] at h
    rw [List.cons_append, countBraces?_cons]
    cases hdepth : depthAfter depth u.kind with
    | none =>
      -- The group would be closed here, before the token that is stepped over in it.
      rw [hdepth] at h
      have hlength := h.length_le
      rw [List.length_append, List.length_cons] at hlength
      omega
    | some inner =>
      rw [hdepth] at h
      obtain ⟨hle, hcount⟩ := ih h
      have hcounts := counts_of_depthAfter before hdepth
      exact ⟨by omega, hcount.trans (congrArg (countBraces? · (t :: after)) (by omega))⟩

theorem counter_of_split {before after : List Token} {t : Token}
    (hopen : headKind (before ++ t :: after) = .punctuator .braceOpen)
    (h : skipBraces (before ++ t :: after) <:+ after) :
    countBraces? 0 (before ++ t :: after) =
        countBraces? (opened before - closed before) (t :: after) ∧
      (t.kind = .punctuator .braceClose → 1 ≤ opened before - closed before) := by
  cases before with
  | nil =>
    refine ⟨rfl, fun hclose => ?_⟩
    have hkind : t.kind = .punctuator .braceOpen := hopen
    rw [hclose] at hkind
    cases hkind
  | cons o before =>
    have hkind : o.kind = .punctuator .braceOpen := hopen
    obtain ⟨ho, hc⟩ := counts_open before hkind
    rw [List.cons_append] at h ⊢
    rw [skipBraces, if_pos hkind] at h
    obtain ⟨hle, hcount⟩ := countBraces?_append h
    rw [countBraces?, if_pos hkind, hcount, ho, hc]
    exact ⟨rfl, fun _ => by omega⟩

/-! ## Skipping a group -/

/-- Skipping a group: before another token nothing happens, and otherwise the tokens are used up to
the first place where as many braces are closed as opened. Where a token is stepped over, the
counter is the number of groups that are open, of which a brace closes one. -/
structure SkipsGroup (ts : List Token) : Prop where
  elsewhere : headKind ts ≠ .punctuator .braceOpen → skip skipBraces ts = ⟨(), ts, []⟩
  group : headKind ts = .punctuator .braceOpen →
    ∃ rest, skip skipBraces ts = ⟨(), rest, []⟩ ∧ Leaves Level ts rest
  counts : headKind ts = .punctuator .braceOpen → countBraces? 0 ts = some (skipBraces ts)
  counter : ∀ before t after, headKind ts = .punctuator .braceOpen → ts = before ++ t :: after →
    skipBraces ts <:+ after →
      countBraces? 0 ts = countBraces? (opened before - closed before) (t :: after) ∧
        (t.kind = .punctuator .braceClose → 1 ≤ opened before - closed before)

/-- Skipping uses exactly one group. -/
theorem skipsGroup (ts : List Token) : SkipsGroup ts where
  elsewhere h := by rw [skip, skipBraces_of_ne h]
  group h := ⟨_, rfl, leaves_skipBraces h⟩
  counts := countBraces?_zero
  counter before t after hopen hsplit h := by
    subst hsplit
    exact counter_of_split hopen h

end Production

end QueryBatch
