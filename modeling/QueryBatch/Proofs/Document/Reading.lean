import QueryBatch.Proofs.Document.Grammar

/-!
# Productions step by step

Main statements:

* `Production.bind_of_eq`: after a production that reports nothing, the next one goes on with what
  it left;
* `Production.iterate_of_each`: a loop reads phrases up to a token where to stop;
* `Production.raises_bind`, `Production.raises_iterate`: productions in sequence and loops raise the
  issues of their parts in order.
-/

namespace QueryBatch

/-- A reading gives a value, leaves some tokens and raises some issues. -/
structure Reading.Raises {α : Type} (r : Reading α) (a : α) (rest : List Token)
    (issues : List Issue) : Prop where
  value : r.value = a
  rest : r.rest = rest
  issues : r.reports.map (·.issue) = issues

namespace Production

open Grammar

variable {α β : Type}

/-! ## Single steps -/

/-- Behind a production that reports nothing, the next one starts with what is left. -/
theorem bind_of_eq {p : Production α} {ts us : List Token} {a : α} (h : p ts = ⟨a, us, []⟩)
    (f : α → Production β) : (p >>= f) ts = f a us := by
  rw [bind_apply, h]
  rfl

theorem peek_bind (f : Kind → Production β) (ts : List Token) :
    (peek >>= f) ts = f (headKind ts) ts := rfl

theorem current_bind (f : Option Token → Production β) (ts : List Token) :
    (current >>= f) ts = f ts.head? ts := rfl

theorem here_bind (f : Option Span → Production β) (ts : List Token) :
    (here >>= f) ts = f (headSpan ts) ts := rfl

theorem advance_bind (f : Unit → Production β) (ts : List Token) :
    (advance >>= f) ts = f () ts.tail := rfl

theorem seqRight_apply (p : Production α) (q : Production β) (ts : List Token) :
    (p *> q) ts = (p >>= fun _ => q) ts := by
  rw [seqRight_eq_bind]

theorem map_of_eq {p : Production α} {ts us : List Token} {a : α} (h : p ts = ⟨a, us, []⟩)
    (f : α → β) : (f <$> p) ts = ⟨f a, us, []⟩ := by
  rw [map_eq_pure_bind, bind_of_eq h]
  rfl

/-- A word that may be a name is taken, whatever keyword it is. -/
theorem name_apply {t : Token} (h : t.kind.isName = true) (ts : List Token) :
    name (t :: ts) = ⟨t.text, ts, []⟩ := by
  simp only [name, current_bind, List.head?_cons, h, if_true, seqRight_apply, advance_bind]
  rfl

theorem name_bind {t : Token} (h : t.kind.isName = true) (f : String → Production β)
    (ts : List Token) : (name >>= f) (t :: ts) = f t.text ts := bind_of_eq (name_apply h ts) f

/-- A token that is expected is stepped over without a report. -/
theorem expect_bind {t : Token} {kind : Kind} (h : t.kind = kind) (f : Unit → Production β)
    (ts : List Token) : (expect kind >>= f) (t :: ts) = f () ts := by
  refine bind_of_eq ?_ f
  simp only [expect, peek_bind, headKind, h, if_true]
  rfl

/-- The nesting of a phrase is at most its number of tokens. -/
theorem nested_apply {p : Nat → Production α} {ts rest : List Token} {r : Reading α}
    (h : ∀ depth, ts.length ≤ depth → p depth (ts ++ rest) = r) : nested p (ts ++ rest) = r := by
  refine h _ ?_
  rw [List.length_append]
  omega

/-! ## Loops -/

/-- A loop reads phrases one after the other. The phrases start with tokens at which the loop does
not stop. A step may depend on what was kept, and on the kind of the token behind its phrase. -/
theorem iterate_of_each {R : List Token → α → Prop} {stop : Kind → Bool} (ok : Kind → Bool)
    {step : List α → Production (List α)} {fits : List α → α → Prop} {n : Nat}
    (hstart : ∀ ts a, R ts a → StartsWith (fun kind => stop kind = false ∧ ok kind = true) ts)
    (hstep : ∀ kept ts a rest, R ts a → ts.length ≤ n → fits kept a →
      ok (headKind rest) = true → step kept (ts ++ rest) = ⟨kept ++ [a], rest, []⟩)
    {ts : List Token} {as : List α} (h : Each R ts as) (hlen : ts.length ≤ n) {rest : List Token}
    (hstop : rest = [] ∨ stop (headKind rest) = true) (hok : ok (headKind rest) = true) :
    ∀ kept, (∀ before a after, as = before ++ a :: after → fits (kept ++ before) a) →
      iterate stop step kept (ts ++ rest) = ⟨kept ++ as, rest, []⟩ := by
  induction h with
  | nil =>
    intro kept _
    rw [List.nil_append, List.append_nil]
    cases rest with
    | nil => exact iterate_nil stop step kept
    | cons t rest =>
      have hend := hstop.resolve_left (List.cons_ne_nil t rest)
      exact iterate_of_stop hend step kept rest
  | @cons ts us a as ha has ih =>
    intro kept hfits
    rw [List.length_append] at hlen
    obtain ⟨t, more, rfl, hgo, -⟩ := hstart ts a ha
    -- What stands behind a phrase is the next phrase, or else what the loop stops at.
    have hnext : ok (headKind (us ++ rest)) = true := by
      cases has with
      | nil => exact hok
      | cons hb _ =>
        rw [List.append_assoc]
        exact ((hstart _ _ hb).headKind _).2
    have hread := hstep kept (t :: more) a (us ++ rest) ha (by omega)
      (by simpa using hfits [] a as rfl) hnext
    rw [List.cons_append] at hread
    have hshort : (us ++ rest).length ≤ (more ++ (us ++ rest)).length :=
      (List.sublist_append_right more (us ++ rest)).length_le
    have hrest := ih (by omega) (kept ++ [a]) fun before b after hsplit => by
      simpa using hfits (a :: before) b after (by rw [hsplit, List.cons_append])
    rw [List.append_assoc, List.cons_append, iterate_of_step hgo (by rw [hread]; exact hshort),
      hread, hrest, List.append_assoc]
    rfl

/-- A loop that collects items reads any list of them, if each is read in front of any rest. -/
theorem many_of_each {R : List Token → α → Prop} {stop : Kind → Bool} (ok : Kind → Bool)
    {item : Production α} (n : Nat)
    (hstart : ∀ ts a, R ts a → StartsWith (fun kind => stop kind = false ∧ ok kind = true) ts)
    (hitem : ∀ ts a rest, R ts a → ts.length ≤ n → ok (headKind rest) = true →
      item (ts ++ rest) = ⟨a, rest, []⟩)
    {ts : List Token} {as : List α} (h : Each R ts as) (hlen : ts.length ≤ n) {rest : List Token}
    (hstop : rest = [] ∨ stop (headKind rest) = true) (hok : ok (headKind rest) = true) :
    many stop item (ts ++ rest) = ⟨as, rest, []⟩ := by
  have hstep : ∀ kept ts a rest, R ts a → ts.length ≤ n → True → ok (headKind rest) = true →
      (fun kept => do return kept ++ [← item] : List α → Production (List α)) kept (ts ++ rest) =
        ⟨kept ++ [a], rest, []⟩ := by
    intro kept ts a rest ha hn _ hkind
    simp only [bind_of_eq (hitem ts a rest ha hn hkind)]
    rfl
  exact iterate_of_each ok hstart hstep h hlen hstop hok [] fun _ _ _ _ => trivial

/-! ## Issues -/

theorem raises_of_eq {r : Reading α} {a : α} {rest : List Token} (h : r = ⟨a, rest, []⟩) :
    r.Raises a rest [] := by
  subst h
  exact ⟨rfl, rfl, rfl⟩

theorem raises_reportHere (issues : List Issue) (ts : List Token) :
    (reportHere issues ts).Raises () ts issues :=
  ⟨rfl, rfl, List.map_map.trans (List.map_id' issues)⟩

/-- Issues are raised in the order of the productions. -/
theorem raises_bind {p : Production α} {f : α → Production β} {ts us vs : List Token} {a : α}
    {b : β} {is js : List Issue} (hp : (p ts).Raises a us is) (hf : (f a us).Raises b vs js) :
    ((p >>= f) ts).Raises b vs (is ++ js) := by
  obtain ⟨rfl, rfl, rfl⟩ := hp
  obtain ⟨rfl, rfl, rfl⟩ := hf
  exact ⟨rfl, rfl, List.map_append⟩

/-- A production that reports nothing adds no issue. -/
theorem raises_bind_of_eq {p : Production α} {f : α → Production β} {ts us vs : List Token} {a : α}
    {b : β} {is : List Issue} (hp : (p ts).Raises a us is) (hf : f a us = ⟨b, vs, []⟩) :
    ((p >>= f) ts).Raises b vs is := by
  have h := raises_bind hp (raises_of_eq hf)
  rwa [List.append_nil] at h

theorem raises_map {p : Production α} {ts us : List Token} {a : α} {is : List Issue}
    (h : (p ts).Raises a us is) (f : α → β) : ((f <$> p) ts).Raises (f a) us is := by
  rw [map_eq_pure_bind]
  exact raises_bind_of_eq h rfl

/-- A loop over phrases, each of which may be kept or not, and raises issues of its own. The phrases
start with tokens at which the loop does not stop, and of a kind that may stand behind a phrase. -/
theorem raises_iterate {τ : Type} {leaves : τ → List Token} {value : τ → Option α}
    {issues : τ → List Issue} {stop : Kind → Bool} (ok : Kind → Bool)
    {step : List α → Production (List α)} {trees : List τ}
    (hstart : ∀ t ∈ trees, StartsWith (fun kind => stop kind = false ∧ ok kind = true) (leaves t))
    (hstep : ∀ t ∈ trees, ∀ kept rest, ok (headKind rest) = true →
      (step kept (leaves t ++ rest)).Raises (kept ++ (value t).toList) rest (issues t))
    {rest : List Token} (hstop : rest = [] ∨ stop (headKind rest) = true)
    (hok : ok (headKind rest) = true) (kept : List α) :
    (iterate stop step kept (trees.flatMap leaves ++ rest)).Raises
      (kept ++ trees.filterMap value) rest (trees.flatMap issues) := by
  induction trees generalizing kept with
  | nil =>
    rw [List.flatMap_nil, List.nil_append, List.filterMap_nil, List.append_nil, List.flatMap_nil]
    cases rest with
    | nil => exact raises_of_eq (iterate_nil stop step kept)
    | cons t rest =>
      have hend := hstop.resolve_left (List.cons_ne_nil t rest)
      exact raises_of_eq (iterate_of_stop hend step kept rest)
  | cons tree trees ih =>
    obtain ⟨hhead, hmore⟩ := List.forall_mem_cons.1 hstart
    obtain ⟨hread, hreads⟩ := List.forall_mem_cons.1 hstep
    obtain ⟨t, more, hleaves, hgo, -⟩ := hhead
    have hnext : ok (headKind (trees.flatMap leaves ++ rest)) = true := by
      cases trees with
      | nil => exact hok
      | cons other _ =>
        rw [List.flatMap_cons, List.append_assoc]
        exact ((hmore other List.mem_cons_self).headKind _).2
    have hfirst := hread kept (trees.flatMap leaves ++ rest) hnext
    have hrest := ih hmore hreads (kept ++ (value tree).toList)
    rw [hleaves, List.cons_append] at hfirst
    have hshort : (trees.flatMap leaves ++ rest).length ≤
        (more ++ (trees.flatMap leaves ++ rest)).length :=
      (List.sublist_append_right more _).length_le
    have hkept : kept ++ (tree :: trees).filterMap value =
        kept ++ (value tree).toList ++ trees.filterMap value := by
      rw [List.filterMap_cons, List.append_assoc]
      cases value tree <;> rfl
    rw [List.flatMap_cons, List.append_assoc, hleaves, List.cons_append,
      iterate_of_step hgo (by rw [hfirst.rest]; exact hshort), hfirst.value, hfirst.rest, hkept,
      List.flatMap_cons]
    exact ⟨hrest.value, hrest.rest, by rw [List.map_append, hfirst.issues, hrest.issues]⟩

end Production

end QueryBatch
