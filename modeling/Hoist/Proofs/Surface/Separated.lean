import Hoist.Proofs.Surface.Readable

/-!
# Lists of items

Several rules of the grammar read items with commas between them up to a closing bracket. They are
instances of one loop, and that loop reads what `commas` and `listed` write.
-/

namespace Hoist.Surface

open Grammar

variable {α β : Type} {view : α → β} {item : Reader α} {ends : List Lexeme → Prop}
  {n p turns : Nat} {b : β} {bs : List β} {ls rest : List Lexeme}
  {lss : List (List Lexeme)} {m : Mark} {g : Grammar}

/-- Items with commas between them up to a closing token, which stays, and whether there was a comma. -/
def itemLoop (item : Reader α) (close : Kind) : Nat → Reader (List α × Bool)
  | 0 => return ([], false)
  | turns + 1 => do
    if (← Reader.peek) == close then return ([], false)
    let a ← item
    if (← Reader.peek) == close then return ([a], false)
    let _ ← Reader.expect (.mark .comma)
    let (as, _) ← itemLoop item close turns
    return (a :: as, true)

theorem elementLoop_eq (g : Grammar) (close : Kind) (turns : Nat) :
    elementLoop g close turns = itemLoop (testOrStarWith g.test g) close turns := by
  induction turns with
  | zero => rfl
  | succ turns ih => simp only [elementLoop, itemLoop, ih]

theorem argumentLoop_eq (g : Grammar) (turns : Nat) :
    argumentLoop g turns = Prod.fst <$> itemLoop (oneArgument g) (.mark .parenClose) turns := by
  induction turns with
  | zero => rfl
  | succ turns ih =>
    simp only [argumentLoop, itemLoop, ih, map_bind, apply_ite (Prod.fst <$> ·), map_pure,
      bind_map_left]

/-- One entry of a dict display. -/
def oneEntry (g : Grammar) : Reader (Expr × Expr) := do
  let key ← g.test
  let _ ← Reader.expect (.mark .colon)
  let value ← g.test
  return (key, value)

theorem entryLoop_eq (g : Grammar) (turns : Nat) :
    entryLoop g turns = Prod.fst <$> itemLoop (oneEntry g) (.mark .braceClose) turns := by
  induction turns with
  | zero => rfl
  | succ turns ih =>
    simp only [entryLoop, itemLoop, oneEntry, ih, map_bind, apply_ite (Prod.fst <$> ·), map_pure,
      bind_map_left, bind_assoc, pure_bind]

/-- Whether an item may start with a token of a kind. -/
def startsItem (k : Kind) : Bool :=
  startsExpression k || k == .mark .doubleStar || k == .mark .colon

theorem startsItem_of {k : Kind} (h : startsExpression k = true) : startsItem k = true := by
  rw [startsItem, h]
  rfl

/-- With some lexemes before it a reader takes them as an item, where it ends before the rest. -/
structure Item (view : α → β) (item : Reader α) (ends : List Lexeme → Prop) (n : Nat) (b : β)
    (ls : List Lexeme) : Prop where
  starts : startsItem (nextKind ls) = true
  reads : ∀ rest, ends rest → (ls ++ rest).length ≤ n → Yields view item b (ls ++ rest) rest

/-- A comma or a closing bracket stands behind an item. -/
def EndsItem (ls : List Lexeme) : Prop :=
  ∃ m : Mark, nextKind ls = .mark m ∧ (m = .comma ∨ m.isClosing = true)

theorem EndsItem.stops (h : EndsItem ls) : Stops 14 ls := by
  obtain ⟨m, hls, hm⟩ := h
  rw [Stops, hls]
  rcases hm with rfl | hm
  · decide
  · cases m <;> first | decide | cases hm

theorem EndsItem.not_equal (h : EndsItem ls) : nextKind ls ≠ .mark .equal := by
  obtain ⟨m, hls, hm⟩ := h
  rw [hls]
  rintro ⟨⟩
  rcases hm with hm | hm <;> cases hm

theorem endsItem_comma (ls : List Lexeme) : EndsItem (.mark .comma :: ls) := ⟨_, rfl, .inl rfl⟩

theorem endsItem_closing (hm : m.isClosing = true) (ls : List Lexeme) : EndsItem (.mark m :: ls) :=
  ⟨_, rfl, .inr hm⟩

theorem Item.nextKind_append (h : Item view item ends n b ls) : nextKind (ls ++ rest) = nextKind ls := by
  cases ls with
  | nil => cases h.starts
  | cons x ls => rfl

theorem Item.next_ne (h : Item view item ends n b ls) {k : Kind} (hk : startsItem k = false) :
    nextKind (ls ++ rest) ≠ k := by
  rintro rfl
  rw [h.nextKind_append] at hk
  exact absurd h.starts (by simp [hk])

theorem startsItem_closing (hm : m.isClosing = true) : startsItem (.mark m) = false := by
  cases m <;> first | rfl | cases hm

/-- The loop reads items with commas between them. -/
theorem itemLoop_reads (rest : List Lexeme) (h : List.Forall₂ (Item view item EndsItem n) bs lss)
    (hm : m.isClosing = true)
    (hlen : (commas lss ++ .mark m :: rest).length ≤ n)
    (hturns : (commas lss ++ .mark m :: rest).length ≤ turns) :
    Reads (itemLoop item (.mark m) turns) (commas lss ++ .mark m :: rest) fun as ls =>
      as.1.map view = bs ∧ as.2 = decide (2 ≤ bs.length) ∧ ls = .mark m :: rest := by
  have hne : Kind.mark .comma ≠ .mark m := by rintro ⟨⟩; cases hm
  obtain ⟨turns, rfl⟩ : ∃ k, turns = k + 1 := ⟨turns - 1, by
    rw [List.length_append, List.length_cons] at hturns
    omega⟩
  induction h generalizing turns with
  | nil => exact .found rfl (.pure ⟨rfl, rfl, rfl⟩)
  | cons hitem hitems ih =>
    cases hitems with
    | nil =>
      refine .missed (hitem.next_ne (startsItem_closing hm)) ?_
      exact (hitem.reads _ (endsItem_closing hm _) hlen).bind fun a ha =>
        .found rfl (.pure ⟨by simp [ha], rfl, rfl⟩)
    | cons hnext hitems =>
      rw [commas, List.append_assoc, List.cons_append] at hlen hturns ⊢
      refine .missed (hitem.next_ne (startsItem_closing hm)) ?_
      refine (hitem.reads _ (endsItem_comma _) hlen).bind fun a ha => ?_
      rw [List.length_append, List.length_cons] at hlen hturns
      obtain ⟨turns, rfl⟩ : ∃ k, turns = k + 1 := ⟨turns - 1, by
        rw [List.length_append, List.length_cons] at hturns
        omega⟩
      refine .missed hne (.expect rfl (by simp) fun t _ => ?_)
      refine (ih (by omega) turns (by omega)).bind ?_
      rintro ⟨as, comma⟩ _ ⟨has, -, rfl⟩
      exact .pure ⟨by simp [ha, has], by simp, rfl⟩

/-- The loop reads the elements of a tuple, and sees a comma. -/
theorem itemLoop_listed (rest : List Lexeme) (h : List.Forall₂ (Item view item EndsItem n) bs lss)
    (hbs : bs ≠ []) (hm : m.isClosing = true) (hlen : (listed lss ++ .mark m :: rest).length ≤ n)
    (hturns : (listed lss ++ .mark m :: rest).length ≤ turns) :
    Reads (itemLoop item (.mark m) turns) (listed lss ++ .mark m :: rest) fun as ls =>
      as.1.map view = bs ∧ as.2 = true ∧ ls = .mark m :: rest := by
  have hne : Kind.mark .comma ≠ .mark m := by rintro ⟨⟩; cases hm
  cases h with
  | nil => exact absurd rfl hbs
  | cons hitem hitems =>
    cases hitems with
    | nil =>
      rw [listed, List.append_assoc, List.cons_append, List.nil_append] at hlen hturns ⊢
      obtain ⟨turns, rfl⟩ : ∃ k, turns = k + 2 := ⟨turns - 2, by
        simp only [List.length_append, List.length_cons] at hturns
        omega⟩
      refine .missed (hitem.next_ne (startsItem_closing hm)) ?_
      refine (hitem.reads _ (endsItem_comma _) hlen).bind fun a ha => ?_
      refine .missed hne (.expect rfl (by simp) fun t _ => ?_)
      have hnone : Yields id (itemLoop item (.mark m) (turns + 1)) ([], false) (.mark m :: rest)
          (.mark m :: rest) := .found rfl (.pure ⟨rfl, rfl⟩)
      refine hnone.bind ?_
      rintro _ rfl
      exact .pure ⟨by simp [ha], rfl, rfl⟩
    | cons hnext hitems =>
      refine (itemLoop_reads rest (.cons hitem (.cons hnext hitems)) hm hlen hturns).mono ?_
      rintro as ls ⟨has, hcomma, hls⟩
      exact ⟨has, by simpa using hcomma, hls⟩

/-- Items behind a first one, each behind a comma; a comma may stand alone before some kinds. -/
def tailLoop (item : Reader α) (stop : Kind → Bool) : Nat → Reader (List α)
  | 0 => return []
  | turns + 1 => do
    if (← Reader.peek) != .mark .comma then return []
    let _ ← Reader.pop
    if stop (← Reader.peek) then return []
    let a ← item
    return a :: (← tailLoop item stop turns)

theorem targetLoop_eq (g : Grammar) (turns : Nat) :
    targetLoop g turns = tailLoop g.bitOr (· == .word .in_) turns := by
  induction turns with
  | zero => rfl
  | succ turns ih => simp only [targetLoop, tailLoop, ih]

theorem testListLoop_eq (g : Grammar) (turns : Nat) :
    testListLoop g turns = tailLoop (testOrStarWith g.test g) (fun k => !startsExpression k) turns := by
  induction turns with
  | zero => rfl
  | succ turns ih => simp only [testListLoop, tailLoop, ih]

theorem ends_behind (hcomma : ∀ ls, ends (.mark .comma :: ls)) (hrest : ends rest) :
    ends (lss.flatMap (.mark .comma :: ·) ++ rest) := by
  cases lss with
  | nil => exact hrest
  | cons ls lss => exact hcomma _

/-- The loop reads items that each stand behind a comma. -/
theorem tailLoop_reads (stop : Kind → Bool) (rest : List Lexeme)
    (h : List.Forall₂ (Item view item ends n) bs lss) (hcomma : ∀ ls, ends (.mark .comma :: ls))
    (hstop : ∀ ls ∈ lss, stop (nextKind ls) = false) (hrest : ends rest)
    (hnext : nextKind rest ≠ .mark .comma)
    (hlen : (lss.flatMap (.mark .comma :: ·) ++ rest).length ≤ n)
    (hturns : (lss.flatMap (.mark .comma :: ·) ++ rest).length ≤ turns) :
    Yields (List.map view) (tailLoop item stop turns) bs (lss.flatMap (.mark .comma :: ·) ++ rest)
      rest := by
  induction h generalizing turns with
  | nil =>
    cases turns with
    | zero => exact .pure ⟨rfl, rfl⟩
    | succ turns => exact .other hnext (.pure ⟨rfl, rfl⟩)
  | @cons b ls bs lss hitem hitems ih =>
    rw [List.flatMap_cons, List.append_assoc, List.cons_append] at hlen hturns ⊢
    rw [List.length_cons] at hlen hturns
    obtain ⟨turns, rfl⟩ : ∃ k, turns = k + 1 := ⟨turns - 1, by omega⟩
    refine .same rfl (.pop (by simp) fun t _ => .peek ?_)
    rw [hitem.nextKind_append, hstop ls List.mem_cons_self, if_neg (by decide)]
    refine (hitem.reads _ (ends_behind hcomma hrest) (by omega)).bind fun a ha => ?_
    rw [List.length_append] at hlen hturns
    exact (ih (fun ls hls => hstop ls (List.mem_cons_of_mem _ hls)) (by omega) (by omega)).bind
      fun as has => .pure ⟨by simp [ha, has], rfl⟩

theorem behind_append (lss : List (List Lexeme)) (rest : List Lexeme) :
    ∃ ls, behind lss ++ rest = .mark .comma :: ls := by
  cases lss <;> exact ⟨_, rfl⟩

/-- The loop reads what stands behind the first element of a tuple. -/
theorem tailLoop_behind (stop : Kind → Bool) (rest : List Lexeme)
    (h : List.Forall₂ (Item view item ends n) bs lss) (hcomma : ∀ ls, ends (.mark .comma :: ls))
    (hstop : ∀ ls ∈ lss, stop (nextKind ls) = false) (hrest : ends rest)
    (hnext : nextKind rest ≠ .mark .comma) (hend : stop (nextKind rest) = true)
    (hlen : (behind lss ++ rest).length ≤ n) (hturns : (behind lss ++ rest).length ≤ turns) :
    Yields (List.map view) (tailLoop item stop turns) bs (behind lss ++ rest) rest := by
  cases h with
  | nil =>
    rw [behind, List.singleton_append] at hturns ⊢
    rw [List.length_cons] at hturns
    obtain ⟨turns, rfl⟩ : ∃ k, turns = k + 1 := ⟨turns - 1, by omega⟩
    refine .same rfl (.pop (by simp) fun t _ => .peek ?_)
    rw [hend, if_pos rfl]
    exact .pure ⟨rfl, rfl⟩
  | cons hitem hitems =>
    exact tailLoop_reads stop rest (.cons hitem hitems) hcomma hstop hrest hnext hlen hturns

end Hoist.Surface
