import Hoist.Proofs.Surface.Separated

/-!
# Atoms and parentheses

Names, constants and tuples are read back, and so is every expression in parentheses. An expression is
read in all positions once the rule of its own looseness reads it (`Readable.of_own`): in looser
positions the rules pass it on, and in tighter ones it stands in parentheses.
-/

namespace Hoist.Surface

open Grammar

section

variable {bare : Bool} {g : Grammar} {e : Expr} {b : Expr} {bs : List Expr} {n p : Nat} {x : Lexeme}
  {ls rest : List Lexeme} {lss : List (List Lexeme)} {ends : List Lexeme → Prop}
  {post : Expr → List Lexeme → Prop}

theorem testOrStar_plain {test : Reader Expr} (hls : nextKind ls ≠ .mark .star)
    (h : Yields Expr.unplaced test b ls rest) : Yields Expr.unplaced (testOrStarWith test g) b ls rest :=
  .other hls h

/-- What `test` reads is an item. -/
theorem Item.of_test (hfront : Fronted 14 ls) (hends : ∀ rest, ends rest → Stops 14 rest)
    (htest : ∀ rest, Stops 14 rest → (ls ++ rest).length ≤ n →
      Yields Expr.unplaced g.test b (ls ++ rest) rest) :
    Item Expr.unplaced (testOrStarWith g.test g) ends n b ls where
  starts := startsItem_of (startsExpression_of_entry (Nat.le_trans hfront.entry (by decide)))
  reads rest hstops hlen := by
    obtain ⟨x, ls, rfl⟩ := List.exists_cons_of_ne_nil (hfront.ne_nil (by decide))
    exact testOrStar_plain (ne_of_entry hfront.entry (by decide)) (htest rest (hends rest hstops) hlen)

/-- One item in parentheses is the item. -/
theorem parenthesised_one (hitem : Item Expr.unplaced (testOrStarWith g.test g) EndsItem n b ls)
    (hlen : (ls ++ .mark .parenClose :: rest).length ≤ n) :
    Yields Expr.unplaced (parenthesised g) b (wrapped ls ++ rest) rest := by
  have hloop := itemLoop_reads rest (.cons hitem .nil) (m := .parenClose) rfl hlen (Nat.le_succ _)
  rw [wrapped, List.cons_append, List.append_assoc, List.singleton_append]
  refine .pop (by simp) fun t _ => .missed (hitem.next_ne rfl) ?_
  rw [elements, bind_assoc]
  refine .remaining ?_
  rw [elementLoop_eq]
  refine hloop.bind ?_
  rintro ⟨es, comma⟩ _ ⟨hes, rfl, rfl⟩
  obtain ⟨a, rfl, ha⟩ := List.map_eq_singleton_iff.1 hes
  exact .expect rfl (by simp) fun t _ => .pure ⟨ha, rfl⟩

/-- Items in parentheses, with the commas of a tuple, are the elements of a tuple. -/
theorem parenthesised_listed (rest : List Lexeme)
    (h : List.Forall₂ (Item Expr.unplaced (testOrStarWith g.test g) EndsItem n) bs lss)
    (hne : bs ≠ []) (hlen : (listed lss ++ .mark .parenClose :: rest).length ≤ n) :
    Yields Expr.unplaced (parenthesised g) (.tuple default bs) (wrapped (listed lss) ++ rest) rest := by
  have hloop := itemLoop_listed rest h hne (m := .parenClose) rfl hlen (Nat.le_succ _)
  rw [wrapped, List.cons_append, List.append_assoc, List.singleton_append]
  have hfirst : nextKind (listed lss ++ .mark .parenClose :: rest) ≠ .word .yield_ := by
    rcases h with _ | ⟨hitem, _ | ⟨hnext, h⟩⟩
    · exact absurd rfl hne
    · rw [listed, List.append_assoc]
      exact hitem.next_ne rfl
    · rw [listed_cons_cons, List.append_assoc]
      exact hitem.next_ne rfl
  refine .pop (by simp) fun t _ => .missed hfirst ?_
  rw [elements, bind_assoc]
  refine .remaining ?_
  rw [elementLoop_eq]
  refine hloop.bind ?_
  rintro ⟨es, comma⟩ _ ⟨hes, rfl, rfl⟩
  refine .expect rfl (by simp) fun t _ => ?_
  split
  · rename_i hcomma
    cases hcomma
  · exact .pure ⟨by simp [Expr.unplaced, hes], rfl⟩

/-- Parentheses around nothing are the empty tuple. -/
theorem parenthesised_none :
    Yields Expr.unplaced (parenthesised g) (.tuple default []) (wrapped [] ++ rest) rest := by
  have hnone : List.Forall₂ (Item Expr.unplaced (testOrStarWith g.test g) EndsItem
      (rest.length + 1)) [] [] := .nil
  have hloop := itemLoop_reads rest hnone (m := .parenClose) rfl (Nat.le_refl _) (Nat.le_succ _)
  refine .pop (by simp) fun t _ => .missed (by simp) ?_
  rw [elements, bind_assoc]
  refine .remaining ?_
  rw [elementLoop_eq]
  refine hloop.bind ?_
  rintro ⟨es, comma⟩ _ ⟨hes, rfl, rfl⟩
  obtain rfl := List.map_eq_nil_iff.1 hes
  exact .expect rfl (by simp) fun t _ => .pure ⟨rfl, rfl⟩

theorem atom_parenOpen (h : Reads (parenthesised g) (.mark .parenOpen :: ls) post) :
    Reads (atom g) (.mark .parenOpen :: ls) post := by
  refine .next fun t ht => ?_
  have hk : t.kind = .mark .parenOpen := congrArg Lexeme.kind ht
  rw [hk]
  exact h

theorem atom_bracketOpen (h : Reads (bracketed g) (.mark .bracketOpen :: ls) post) :
    Reads (atom g) (.mark .bracketOpen :: ls) post := by
  refine .next fun t ht => ?_
  have hk : t.kind = .mark .bracketOpen := congrArg Lexeme.kind ht
  rw [hk]
  exact h

theorem atom_braceOpen (h : Reads (braced g) (.mark .braceOpen :: ls) post) :
    Reads (atom g) (.mark .braceOpen :: ls) post := by
  refine .next fun t ht => ?_
  have hk : t.kind = .mark .braceOpen := congrArg Lexeme.kind ht
  rw [hk]
  exact h

/-- An expression that is read in every position is also read as an operand, where it has to be. -/
theorem Readable.of_reads (hfront : Fronted e.looseness (e.body bare 14))
    (hreads : ∀ n p rest, p ≤ 14 → Stops p rest → (e.write bare p ++ rest).length ≤ n + 1 →
      Yields Expr.unplaced (ruleAt (.level n) p) e.unplaced (e.write bare p ++ rest) rest)
    (hleads : IsLoop e.looseness → ∀ n rest, Stops (e.looseness - 1) rest →
      (e.body bare 14 ++ rest).length ≤ n + 1 →
        Leads (.level n) e.looseness e (e.body bare 14 ++ rest) rest) : Readable bare e := by
  refine ⟨fun p => fronted_within hfront, hreads, fun n p rest hp hstops hlen => ?_⟩
  by_cases hown : p = e.looseness
  · subst hown
    rw [Expr.write_of_le (Nat.le_refl _)] at hlen ⊢
    exact hleads hp n rest hstops hlen
  · have hsame : e.write bare p = e.write bare (p - 1) := by
      unfold IsLoop at hp
      unfold Expr.write within
      congr 1
      simp only [eq_iff_iff]
      omega
    rw [hsame] at hlen ⊢
    refine leads_of_yields hp (hreads n (p - 1) rest ?_ hstops hlen)
    unfold IsLoop at hp
    omega

/-- The form of an expression is read back in every position when its parts are put together by the rule
of its own looseness, or by the loop of that rule. -/
theorem Readable.of_own (hfront : Fronted e.looseness (e.body bare 14)) (hloose : e.looseness ≤ 14)
    (own : ∀ n rest, Stops e.looseness rest → (e.body bare 14 ++ rest).length ≤ n + 1 →
      Yields Expr.unplaced (ruleAt (.level n) e.looseness) e.unplaced (e.body bare 14 ++ rest) rest)
    (hleads : IsLoop e.looseness → ∀ n rest, Stops (e.looseness - 1) rest →
      (e.body bare 14 ++ rest).length ≤ n + 1 →
        Leads (.level n) e.looseness e (e.body bare 14 ++ rest) rest) : Readable bare e := by
  -- Without parentheses the rules up to the position only pass on what the rule of the looseness reads.
  have hbody : ∀ n p rest, e.looseness ≤ p → p ≤ 14 → Stops p rest →
      (e.body bare 14 ++ rest).length ≤ n + 1 →
        Yields Expr.unplaced (ruleAt (.level n) p) e.unplaced (e.body bare 14 ++ rest) rest :=
    fun n p rest hle hp hstops hlen => lift_rules hle hp (own n rest (hstops.mono hle) hlen) hstops
      (hfront.entry_append (by omega))
  refine .of_reads hfront (fun n p rest hp hstops hlen => ?_) hleads
  by_cases hlt : p < e.looseness
  · rw [Expr.write_of_lt hlt] at hlen ⊢
    rw [wrapped, List.cons_append, List.append_assoc, List.singleton_append, List.length_cons] at hlen
    have hitem : Item Expr.unplaced (testOrStarWith (level n).test (level n)) EndsItem n e.unplaced
        (e.body bare 14) := by
      refine .of_test (hfront.mono hloose) (fun _ => EndsItem.stops) fun rest hstops hlen => ?_
      obtain ⟨n, rfl⟩ : ∃ m, n = m + 1 := ⟨n - 1, by
        have := List.length_pos_iff.2 (hfront.ne_nil (by omega))
        rw [List.length_append] at hlen
        omega⟩
      exact hbody n 14 rest hloose (Nat.le_refl _) hstops hlen
    exact lift_rules (Nat.zero_le p) hp (atom_parenOpen (parenthesised_one hitem (by omega))) hstops
      (Nat.zero_le _)
  · rw [Expr.write_of_le (Nat.le_of_not_lt hlt)] at hlen ⊢
    exact hbody n p rest (Nat.le_of_not_lt hlt) hp hstops hlen

/-- An expression that an atom reads. -/
theorem Readable.of_atom (hfront : Fronted 0 (e.body bare 14)) (hloose : e.looseness = 0)
    (own : ∀ n rest, Stops 0 rest → (e.body bare 14 ++ rest).length ≤ n + 1 →
      Yields Expr.unplaced (atom (.level n)) e.unplaced (e.body bare 14 ++ rest) rest) :
    Readable bare e :=
  .of_own (by rwa [hloose]) (by omega) (by rwa [hloose]) fun hloop => by
    unfold IsLoop at hloop
    omega

theorem Readable.name {s : Span} {id : String} (h : Plain (.name s id)) : Readable bare (.name s id) := by
  refine .of_atom (h.fronted 14) rfl fun n rest hstops hlen => ?_
  refine .next fun t ht => ?_
  have hk : t.kind = .identifier := congrArg Lexeme.kind ht
  have htext : t.text = id.toList := Token.text_eq ht rfl
  rw [hk]
  exact .pop (by simp) fun _ _ => .pure ⟨by simp [Expr.unplaced, htext], rfl⟩

/-- A string behind which no other one stands is read as it is. -/
theorem stringLoop_one {turns : Nat} {s : String} (hstops : Stops 0 rest) :
    Yields id (stringLoop (turns + 1)) s.toList (.literal (.string s) :: rest) rest := by
  refine .same rfl (.pop (by simp [Lexeme.literalKind]) fun t ht => .lift (stringValue_literal ht) ?_)
  have hnext : Yields id (stringLoop turns) [] rest rest := by
    cases turns with
    | zero => exact .pure ⟨rfl, rfl⟩
    | succ turns => exact .other (hstops.ne (by decide)) (.pure ⟨rfl, rfl⟩)
  exact hnext.bind fun others hothers => .pure ⟨by simpa using hothers, rfl⟩

theorem Readable.constant {s : Span} {v : Literal} (h : IsPlainLiteral v) :
    Readable bare (.constant s v) := by
  refine .of_atom (Plain.fronted (.constant h) 14) rfl fun n rest hstops hlen => ?_
  refine .next fun t ht => ?_
  have hk : t.kind = Lexeme.literalKind v := congrArg Lexeme.kind ht
  rw [hk]
  cases v with
  | none => exact .pop (by simp [Lexeme.literalKind]) fun _ _ => .pure ⟨rfl, rfl⟩
  | bool b =>
    cases b
    · exact .pop (by simp [Lexeme.literalKind]) fun _ _ => .pure ⟨rfl, rfl⟩
    · exact .pop (by simp [Lexeme.literalKind]) fun _ _ => .pure ⟨rfl, rfl⟩
  | int i =>
    exact .pop (by simp [Lexeme.literalKind]) fun _ _ =>
      .lift (numberValue_literal h ht) (.pure ⟨rfl, rfl⟩)
  | double x => exact h.elim
  | string s =>
    refine .remaining ((stringLoop_one hstops).bind fun cs hcs => .spanFrom fun span => .pure ⟨?_, rfl⟩)
    obtain rfl : cs = s.toList := hcs
    simp [Expr.unplaced]

/-- The elements of a display are items. -/
theorem Readable.item (h : Readable bare e) (hends : ∀ rest, ends rest → Stops 14 rest) :
    Item Expr.unplaced (testOrStarWith (level n).test (level n)) ends n e.unplaced (e.write bare 14) :=
  .of_test (h.fronted 14) hends fun _ hstops hlen => h.test hstops hlen

theorem Readable.items {es : List Expr} (h : ∀ e ∈ es, Readable bare e)
    (hends : ∀ rest, ends rest → Stops 14 rest) :
    List.Forall₂ (Item Expr.unplaced (testOrStarWith (level n).test (level n)) ends n)
      (es.map Expr.unplaced) (es.map (Expr.write bare 14)) := by
  induction es with
  | nil => exact .nil
  | cons e es ih =>
    exact .cons ((h e List.mem_cons_self).item hends) (ih fun e' he' => h e' (List.mem_cons_of_mem _ he'))

theorem Readable.tuple {s : Span} {es : List Expr} (h : Plain (.tuple s es))
    (hes : ∀ e ∈ es, Readable bare e) : Readable bare (.tuple s es) := by
  cases es with
  | nil =>
    exact .of_atom (h.fronted 14) rfl fun n rest hstops hlen => atom_parenOpen parenthesised_none
  | cons e es =>
    have hloose : (Expr.tuple s (e :: es)).looseness = 15 := rfl
    have hform : ∀ p ≤ 14, (Expr.tuple s (e :: es)).write bare p =
        wrapped (listed ((e :: es).map (Expr.write bare 14))) := by
      intro p hp
      rw [Expr.write_of_lt (by omega), Expr.body, pieces_eq]
    refine .of_reads (h.fronted 14) (fun n p rest hp hstops hlen => ?_) fun hloop => ?_
    · rw [hform p hp] at hlen ⊢
      rw [wrapped, List.cons_append, List.append_assoc, List.singleton_append, List.length_cons] at hlen
      have hitems := items (n := n) hes fun _ => EndsItem.stops
      have hatom := parenthesised_listed rest hitems (by simp) (by omega)
      rw [Expr.unplaced, exprsUnplaced_eq]
      exact lift_rules (Nat.zero_le p) hp (atom_parenOpen hatom) hstops (Nat.zero_le _)
    · unfold IsLoop at hloop
      omega

end

end Hoist.Surface
