import QueryBatch.Proofs.Document.Tree

/-!
# Balanced braces

Between the braces of a phrase the braces are balanced, so that a group is skipped up to the brace
that closes it. Main statements:

* `Balanced.append`, `Balanced.flatMap`, `Balanced.enclosed`: phrases put together are balanced if
  their parts are;
* `Balanced.closeBraces_append`: balanced tokens do not change how many groups are open;
* `Balanced.exists_group`: the first brace of balanced tokens opens a group, which is closed again;
* `skipBraces_enclosed`, `skipDefinition_append`: the group that is skipped.
-/

namespace QueryBatch

namespace Production

open Grammar

/-- Whether a token opens or closes a group in braces. -/
def isBrace (kind : Kind) : Bool :=
  kind == .punctuator .braceOpen || kind == .punctuator .braceClose

/-- Tokens in which each group in braces is closed that is opened, and no other. -/
inductive Balanced : List Token → Prop
  | nil : Balanced []
  | plain {t : Token} {ts : List Token} (ht : isBrace t.kind = false) (hts : Balanced ts) :
    Balanced (t :: ts)
  | group {o c : Token} {ts us : List Token} (ho : o.kind = .punctuator .braceOpen)
    (hts : Balanced ts) (hc : c.kind = .punctuator .braceClose) (hus : Balanced us) :
    Balanced (o :: (ts ++ c :: us))

theorem isBrace_of_isName {kind : Kind} (h : kind.isName = true) : isBrace kind = false := by
  cases kind <;> first | rfl | cases h

theorem ne_braceOpen_of_isBrace {kind : Kind} (h : isBrace kind = false) :
    kind ≠ .punctuator .braceOpen := by
  rintro rfl
  cases h

theorem isBrace_of_mark {t : Token} {m : Punctuator} (h : t.kind = .punctuator m)
    (hm : isBrace (.punctuator m) = false) : isBrace t.kind = false := by
  rwa [h]

/-! ## Skipping token by token -/

section

variable {t : Token} (depth : Nat) (ts : List Token)

theorem closeBraces_plain (h : isBrace t.kind = false) :
    closeBraces depth (t :: ts) = closeBraces depth ts := by
  simp only [isBrace, Bool.or_eq_false_iff, beq_eq_false_iff_ne] at h
  rw [closeBraces.eq_def]
  simp only [if_neg h.1, if_neg h.2]

theorem closeBraces_open (h : t.kind = .punctuator .braceOpen) :
    closeBraces depth (t :: ts) = closeBraces (depth + 1) ts := by
  rw [closeBraces.eq_def]
  simp only [if_pos h]

theorem closeBraces_close (h : t.kind = .punctuator .braceClose) :
    closeBraces 0 (t :: ts) = ts ∧ closeBraces (depth + 1) (t :: ts) = closeBraces depth ts := by
  have hopen : ¬ t.kind = .punctuator .braceOpen := by rw [h]; decide
  rw [closeBraces.eq_def, closeBraces.eq_def]
  simp only [if_neg hopen, if_pos h, and_self]

end

/-! ## Balanced phrases -/

namespace Balanced

variable {τ : Type} {ts us : List Token}

/-- Balanced phrases may stand one behind the other. -/
theorem append (hts : Balanced ts) (hus : Balanced us) : Balanced (ts ++ us) := by
  induction hts with
  | nil => exact hus
  | plain ht _ ih => exact .plain ht ih
  | @group o c ts vs ho hinner hc _ _ ih =>
    rw [List.cons_append, List.append_assoc, List.cons_append]
    exact .group ho hinner hc ih

/-- A phrase without braces is balanced. -/
theorem of_forall (h : ∀ t ∈ ts, isBrace t.kind = false) : Balanced ts := by
  induction ts with
  | nil => exact .nil
  | cons t ts ih =>
    exact .plain (h t List.mem_cons_self) (ih fun u hu => h u (List.mem_cons_of_mem _ hu))

theorem flatMap {leaves : τ → List Token} {trees : List τ}
    (h : ∀ t ∈ trees, Balanced (leaves t)) : Balanced (trees.flatMap leaves) := by
  induction trees with
  | nil => exact .nil
  | cons t trees ih =>
    exact (h t List.mem_cons_self).append (ih fun u hu => h u (List.mem_cons_of_mem _ hu))

theorem perhaps {leaves : τ → List Token} {tree : Option τ}
    (h : ∀ t ∈ tree, Balanced (leaves t)) : Balanced (Grammar.perhaps leaves tree) := by
  cases tree with
  | none => exact .nil
  | some t => exact h t rfl

/-- Items between two punctuators, which are braces or neither of them is one. -/
theorem enclosed {m n : Punctuator} {e : Enclosed m n τ} {leaves : τ → List Token}
    (hmarks : m = .braceOpen ∧ n = .braceClose ∨
      isBrace (.punctuator m) = false ∧ isBrace (.punctuator n) = false)
    (h : ∀ t ∈ e.items, Balanced (leaves t)) : Balanced (e.tokens leaves) := by
  rcases hmarks with ⟨rfl, rfl⟩ | ⟨hm, hn⟩
  · exact .group e.opening.2 (flatMap h) e.closing.2 .nil
  · refine .plain (isBrace_of_mark e.opening.2 hm) ((flatMap h).append ?_)
    exact .plain (isBrace_of_mark e.closing.2 hn) .nil

/-! ## Skipping -/

/-- Balanced tokens leave the counter as it was, by induction on how they are put together. -/
theorem closeBraces_append (h : Balanced ts) (depth : Nat) (rest : List Token) :
    closeBraces depth (ts ++ rest) = closeBraces depth rest := by
  induction h generalizing depth rest with
  | nil => rfl
  | plain ht _ ih => rw [List.cons_append, closeBraces_plain _ _ ht, ih]
  | group ho _ hc _ ih ih' =>
    rw [List.cons_append, List.append_assoc, List.cons_append, closeBraces_open _ _ ho, ih,
      (closeBraces_close depth _ hc).2, ih']

/-- Either no brace opens a group, or the first one does, which is closed again. -/
theorem exists_group (h : Balanced ts) :
    (∀ t ∈ ts, t.kind ≠ .punctuator .braceOpen) ∨
      ∃ before o inner c after, ts = before ++ o :: (inner ++ c :: after) ∧
        (∀ t ∈ before, t.kind ≠ .punctuator .braceOpen) ∧ o.kind = .punctuator .braceOpen ∧
        Balanced inner ∧ c.kind = .punctuator .braceClose := by
  induction h with
  | nil => exact .inl fun t ht => absurd ht List.not_mem_nil
  | @plain t ts ht _ ih =>
    have hopen := ne_braceOpen_of_isBrace ht
    rcases ih with hnone | ⟨before, o, inner, c, after, rfl, hbefore, hgroup⟩
    · exact .inl (List.forall_mem_cons.2 ⟨hopen, hnone⟩)
    · exact .inr ⟨t :: before, o, inner, c, after, rfl, List.forall_mem_cons.2 ⟨hopen, hbefore⟩,
        hgroup⟩
  | @group o c ts us ho hinner hc _ _ _ =>
    exact .inr ⟨[], o, ts, c, us, rfl, fun t ht => absurd ht List.not_mem_nil, ho, hinner, hc⟩

end Balanced

variable {τ : Type}

/-- A group is skipped up to its own closing brace. -/
theorem skipBraces_group {o c : Token} {ts : List Token} (ho : o.kind = .punctuator .braceOpen)
    (hts : Balanced ts) (hc : c.kind = .punctuator .braceClose) (rest : List Token) :
    skipBraces (o :: (ts ++ c :: rest)) = rest := by
  rw [skipBraces, if_pos ho, hts.closeBraces_append, (closeBraces_close 0 rest hc).1]

theorem skipBraces_enclosed {e : Enclosed .braceOpen .braceClose τ} {leaves : τ → List Token}
    (h : ∀ t ∈ e.items, Balanced (leaves t)) (rest : List Token) :
    skipBraces (e.tokens leaves ++ rest) = rest := by
  rw [Enclosed.tokens, List.cons_append, List.append_assoc, List.singleton_append,
    skipBraces_group e.opening.2 (Balanced.flatMap h) e.closing.2]

theorem skipBraces_of_ne {ts : List Token} (h : headKind ts ≠ .punctuator .braceOpen) :
    skipBraces ts = ts := by
  cases ts with
  | nil => rfl
  | cons t ts => exact if_neg h

/-- The next group is looked for behind the tokens that open none. -/
theorem skipDefinition_append {ts : List Token} (h : ∀ t ∈ ts, t.kind ≠ .punctuator .braceOpen)
    {rest : List Token} (hrest : headKind rest = .punctuator .braceOpen) :
    skipDefinition (ts ++ rest) = skipBraces rest := by
  have hdrop : rest.dropWhile (fun t => t.kind != .punctuator .braceOpen) = rest := by
    cases rest with
    | nil => rfl
    | cons t rest => exact List.dropWhile_cons_of_neg (by simpa [headKind] using hrest)
  rw [skipDefinition, List.dropWhile_append_of_pos fun t ht => bne_iff_ne.2 (h t ht), hdrop]

end Production

end QueryBatch
