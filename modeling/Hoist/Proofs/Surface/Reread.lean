import Hoist.Proofs.Surface.AlikeTrees
import Hoist.Proofs.Surface.Framed
import Hoist.Proofs.Surface.SteadyRules

/-!
# Tokens that are read again

What a rule has read from some tokens, it reads from the same lexemes again, wherever they stand and
whatever stands behind them, as long as it ends there. So every expression is an item of a list on the
tokens it was read from, and items with commas behind them are the elements of a tuple.
-/

namespace Hoist.Surface

open Grammar

/-- What a token says is told by its kind and its text. -/
theorem lexemes_eq_of_forms {s s' : List Token} (h : s.map Token.form = s'.map Token.form) :
    lexemes s = lexemes s' := by
  have hform (s : List Token) : lexemes s = (s.map Token.form).map fun p =>
      ⟨p.1, if p.1.isLayout then [] else p.2⟩ := by
    simp only [lexemes, List.map_map]
    rfl
  rw [hform, hform, h]

theorem forms_eq_of_lexemes {s s' : List Token} (hs : ∀ t ∈ s, t.kind.isLayout = false)
    (h : lexemes s' = lexemes s) : s'.map Token.form = s.map Token.form := by
  induction s generalizing s' with
  | nil => rw [List.map_eq_nil_iff.1 h]
  | cons t s ih =>
    obtain ⟨t', s', rfl, ht, hrest⟩ := List.map_eq_cons_iff.1 h
    have hk := hs t List.mem_cons_self
    have hform : t'.form = t.form :=
      Prod.ext (congrArg Lexeme.kind ht) ((Token.text_eq ht hk).trans (if_neg (by simp [hk])))
    rw [List.map_cons, List.map_cons, hform, ih (fun u hu => hs u (List.mem_cons_of_mem _ hu)) hrest]

section

variable {α β : Type} {view : α → β} {r r' : Reader α} {pre opens ends : Kind → Prop} {n l p : Nat}
  {taken s rest : List Token} {a : α} {e : Expr}

/-- What one reader has read, a steady one reads again from the same lexemes. -/
theorem Steady.yields (h : Steady pre n l opens ends r r') (halike : Alike view r' r')
    (hpre : pre (firstKind (s ++ rest)))
    (hr : r ⟨taken, s ++ rest⟩ = .ok (a, ⟨s.reverse ++ taken, rest⟩))
    (hs : ∀ t ∈ s, t.kind.isLayout = false) {x : Lexeme} {ls : List Lexeme} (hx : ends x.kind)
    (hlen : (lexemes s ++ x :: ls).length ≤ n) :
    Yields view r' (view a) (lexemes s ++ x :: ls) (x :: ls) := by
  obtain ⟨ts, rest', -, hc, -, -, hagain⟩ := h _ _ _ _ hpre hr
  obtain rfl : s = ts := by simpa using congrArg Cursor.taken hc
  intro c hc
  obtain ⟨u, v, hrest, hu, hv⟩ := List.map_eq_append_iff.1 hc
  obtain ⟨t, v, rfl, rfl, rfl⟩ := List.map_eq_cons_iff.1 hv
  have hlength : (s ++ t :: v).length ≤ n := by simpa using hlen
  have hrun := hagain t v hx hlength
  have hforms : Cursor.forms ⟨taken, s ++ t :: v⟩ = c.forms := by
    rw [Cursor.forms, Cursor.forms, hrest, List.map_append, List.map_append,
      forms_eq_of_lexemes hs hu]
  have hagree := halike _ c hforms
  rw [hrun] at hagree
  generalize hres : r' c = res at hagree
  cases hagree with
  | results hview =>
    rename_i p
    exact ⟨p.1, p.2, hres, (congrArg Prod.fst hview).symm,
      (lexemes_eq_of_forms (congrArg Prod.snd hview)).symm⟩

/-- Where a reader starts and how much it takes at least. -/
theorem Steady.front (h : Steady pre n l opens ends r r') (hpre : pre (firstKind (s ++ rest)))
    (hr : r ⟨taken, s ++ rest⟩ = .ok (a, ⟨s.reverse ++ taken, rest⟩)) :
    l ≤ s.length ∧ ∀ t ∈ s.head?, opens t.kind := by
  obtain ⟨ts, rest', -, hc, hlength, hfirst, -⟩ := h _ _ _ _ hpre hr
  obtain rfl : s = ts := by simpa using congrArg Cursor.taken hc
  exact ⟨hlength, hfirst⟩

theorem binaryAt_alike {g : Grammar} (hg : g.Unplaced) :
    ∀ k, Alike Expr.unplaced (binaryAt g k) (binaryAt g k)
  | 0 => factorRule_alike hg
  | k + 1 => binaryLevel_alike _ (binaryAt_alike hg k)

theorem ruleAt_alike {g : Grammar} (hg : g.Unplaced) :
    ∀ {p : Nat}, p ≤ 14 → Alike Expr.unplaced (ruleAt g p) (ruleAt g p)
  | 0, _ => atom_alike hg
  | 1, _ => atomExpr_alike hg
  | 2, _ => power_alike hg
  | 3, _ => binaryAt_alike hg 0
  | 4, _ => binaryAt_alike hg 1
  | 5, _ => binaryAt_alike hg 2
  | 6, _ => binaryAt_alike hg 3
  | 7, _ => binaryAt_alike hg 4
  | 8, _ => binaryAt_alike hg 5
  | 9, _ => binaryAt_alike hg 6
  | 10, _ => comparison_alike hg
  | 11, _ => notRule_alike hg
  | 12, _ => connective_alike _ _ (notRule_alike hg)
  | 13, _ => orRule_alike hg
  | 14, _ => testRule_alike hg

/-- What some rule reads is an item of a list. -/
theorem Itemed.of_rule {r : Reader Expr} (hp : p ≤ 14)
    (h : ∀ m, Steady anyKind (m + 1) 1 (OpensAt p) (EndsAt p) r (ruleAt (level m) p))
    (hr : r ⟨taken, s ++ rest⟩ = .ok (e, ⟨s.reverse ++ taken, rest⟩))
    (hs : ∀ t ∈ s, t.kind.isLayout = false) : Itemed s e := by
  obtain ⟨hlength, hopens⟩ := (h 0).front trivial hr
  obtain ⟨t, s', rfl⟩ := List.exists_cons_of_ne_nil (List.length_pos_iff.1 hlength)
  have hentry : entry t.kind ≤ p := hopens t rfl
  intro n
  refine ⟨startsItem_of (startsExpression_of_entry (hentry.trans (by omega))), fun ls hends hlen => ?_⟩
  obtain ⟨m, rfl⟩ : ∃ m, n = m + 1 := ⟨n - 1, by
    rw [lexemes_cons, List.cons_append, List.length_cons] at hlen
    omega⟩
  obtain ⟨x, ls, rfl⟩ : ∃ x ls', ls = x :: ls' := by
    cases ls with
    | nil =>
      obtain ⟨m, hm, -⟩ := hends
      cases hm
    | cons x ls => exact ⟨x, ls, rfl⟩
  refine testOrStar_plain ?_ ?_
  · rintro (hstar : t.kind = _)
    rw [hstar] at hentry
    exact absurd (hentry.trans hp) (by decide)
  · exact lift_rules hp (Nat.le_refl _) ((h m).yields (ruleAt_alike (level_unplaced m) hp) trivial hr hs
      (hends.stops.mono hp) hlen) hends.stops hentry

/-- What is read as an item is an item of a list. -/
theorem Itemed.of_item {r : Reader Expr} (h : ∀ n, Steady anyKind n 1 OpensItem (EndsAt 14) r
      (testOrStarWith (level n).test (level n)))
    (hr : r ⟨taken, s ++ rest⟩ = .ok (e, ⟨s.reverse ++ taken, rest⟩))
    (hs : ∀ t ∈ s, t.kind.isLayout = false) : Itemed s e := by
  obtain ⟨hlength, hopens⟩ := (h 0).front trivial hr
  obtain ⟨t, s', rfl⟩ := List.exists_cons_of_ne_nil (List.length_pos_iff.1 hlength)
  intro n
  refine ⟨startsItem_of (hopens t rfl), fun ls hends hlen => ?_⟩
  obtain ⟨x, ls, rfl⟩ : ∃ x ls', ls = x :: ls' := by
    cases ls with
    | nil =>
      obtain ⟨m, hm, -⟩ := hends
      cases hm
    | cons x ls => exact ⟨x, ls, rfl⟩
  exact (h n).yields (testOrStar_alike (level_unplaced n).test (level_unplaced n)) trivial hr hs
    hends.stops hlen

end

/-- Items with commas behind them, the last of which may be missing; the last item has none just if
there is none at all, or nothing says otherwise. -/
inductive Series {α : Type} (item : List Token → α → Prop) : List Token → List α → Bool → Prop
  | nil : Series item [] [] false
  | one {s a} (h : item s a) : Series item s [a] false
  | cons {s a t ss as b} (h : item s a) (ht : t.kind = .mark .comma) (hrest : Series item ss as b) :
      Series item (s ++ t :: ss) (a :: as) true

/-- Items behind a first one, each behind a comma; the last comma may stand alone. -/
inductive Tail {α : Type} (item : List Token → α → Prop) : List Token → List α → Prop
  | nil : Tail item [] []
  | comma {t} (ht : t.kind = .mark .comma) : Tail item [t] []
  | cons {t s a ss as} (ht : t.kind = .mark .comma) (h : item s a) (hrest : Tail item ss as) :
      Tail item (t :: (s ++ ss)) (a :: as)

namespace Series

variable {α : Type} {item item' : List Token → α → Prop} {s ss : List Token} {a : α} {as : List α}
  {b : Bool}

theorem imp (h : Series item s as b) (himp : ∀ s, ∀ a ∈ as, item s a → item' s a) :
    Series item' s as b := by
  induction h with
  | nil => exact .nil
  | one h => exact .one (himp _ _ List.mem_cons_self h)
  | cons h ht hrest ih =>
    exact .cons (himp _ _ List.mem_cons_self h) ht
      (ih fun s a ha => himp s a (List.mem_cons_of_mem _ ha))

theorem of_tail (h : item s a) (htail : Tail item ss as) :
    ∃ b, Series item (s ++ ss) (a :: as) b ∧ (ss ≠ [] → b = true) := by
  induction htail generalizing s a with
  | nil => exact ⟨false, by simpa using .one h, fun h => absurd rfl h⟩
  | comma ht => exact ⟨true, .cons h ht .nil, fun _ => rfl⟩
  | cons ht h' hrest ih =>
    obtain ⟨b, hb, -⟩ := ih h'
    exact ⟨true, .cons h ht hb, fun _ => rfl⟩

theorem clean (h : Series item s as b) (hitem : ∀ s a, item s a → Clean s) : Clean s := by
  induction h with
  | nil => exact .nil
  | one h => exact hitem _ _ h
  | cons h ht hrest ih => exact (hitem _ _ h).append ((Clean.of_kind ht rfl rfl).append ih)

theorem holds (h : Series item s as b) (nodes : α → List Part)
    (hitem : ∀ s a, item s a → Holds Tells s (nodes a)) : Holds Tells s (as.flatMap nodes) := by
  induction h with
  | nil => exact .none _
  | one h => simpa using hitem _ _ h
  | @cons s a t ss as b h ht hrest ih =>
    rw [List.flatMap_cons]
    exact (hitem _ _ h).append (ih.append_left [t])

/-- The loop over elements reads items again. -/
theorem reads {item : List Token → Expr → Prop} {s : List Token} {es : List Expr} {b : Bool}
    {read : Reader Expr} {n : Nat} {m : Mark} {rest : List Lexeme} (h : Series item s es b)
    (hitem : ∀ s e, item s e → Item Expr.unplaced read EndsItem n e.unplaced (lexemes s))
    (hm : m.isClosing = true) {turns : Nat} (hlen : (lexemes s ++ .mark m :: rest).length ≤ n)
    (hturns : (lexemes s ++ .mark m :: rest).length ≤ turns) :
    Reads (itemLoop read (.mark m) turns) (lexemes s ++ .mark m :: rest) fun es' ls =>
      es'.1.map Expr.unplaced = es.map Expr.unplaced ∧ es'.2 = b ∧ ls = .mark m :: rest := by
  have hne : Kind.mark .comma ≠ .mark m := by rintro ⟨⟩; cases hm
  obtain ⟨turns, rfl⟩ : ∃ k, turns = k + 1 := ⟨turns - 1, by
    rw [List.length_append, List.length_cons] at hturns
    omega⟩
  induction h generalizing turns with
  | nil => exact .found rfl (.pure ⟨rfl, rfl, rfl⟩)
  | one h =>
    have hitem := hitem _ _ h
    refine .missed (hitem.next_ne (startsItem_closing hm)) ?_
    exact (hitem.reads _ (endsItem_closing hm _) hlen).bind fun e he =>
      .found rfl (.pure ⟨by simp [he], rfl, rfl⟩)
  | @cons s e t ss es b h ht hrest ih =>
    have hitem := hitem _ _ h
    have hcomma : t.lexeme.kind = .mark .comma := ht
    rw [lexemes_append, lexemes_cons, List.append_assoc, List.cons_append] at hlen hturns ⊢
    refine .missed (hitem.next_ne (startsItem_closing hm)) ?_
    refine (hitem.reads (t.lexeme :: (lexemes ss ++ .mark m :: rest)) ⟨.comma, hcomma, .inl rfl⟩
      hlen).bind fun e' he => ?_
    rw [List.length_append, List.length_cons] at hlen hturns
    obtain ⟨turns, rfl⟩ : ∃ k, turns = k + 1 := ⟨turns - 1, by
      rw [List.length_append, List.length_cons] at hturns
      omega⟩
    refine .missed (by rw [nextKind_cons, hcomma]; exact hne) (.expect hcomma (by simp) fun t _ => ?_)
    refine (ih (by omega) turns (by omega)).bind ?_
    rintro ⟨es', comma⟩ _ ⟨hes, -, rfl⟩
    exact .pure ⟨by simp [he, hes], rfl, rfl⟩

/-- Items with a comma are the elements of a tuple between parentheses. -/
theorem wraps {item : List Token → Expr → Prop} {s : List Token} {es : List Expr}
    (h : Series item s es true) (hitem : ∀ s e, item s e → Itemed s e) (span : Span) :
    Wraps (lexemes s) (.tuple span es) := by
  intro n rest hlen
  have hloop := h.reads (fun s e he => hitem s e he n) (m := .parenClose) rfl hlen (Nat.le_succ _)
  have hfirst : nextKind (lexemes s ++ .mark .parenClose :: rest) ≠ .word .yield_ := by
    cases h with
    | cons h ht hrest =>
      rw [lexemes_append, List.append_assoc]
      exact (hitem _ _ h n).next_ne rfl
  rw [wrapped, List.cons_append, List.append_assoc, List.singleton_append]
  refine .pop (by simp) fun t _ => .missed hfirst ?_
  rw [elements, bind_assoc]
  refine .remaining ?_
  rw [elementLoop_eq]
  refine hloop.bind ?_
  rintro ⟨es', comma⟩ _ ⟨hes, rfl, rfl⟩
  refine .expect rfl (by simp) fun t _ => ?_
  split
  · rename_i hcomma
    cases hcomma
  · exact .pure ⟨by simp [Expr.unplaced, hes], rfl⟩

end Series

end Hoist.Surface
