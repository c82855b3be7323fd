import Hoist.Proofs.Surface.Atoms

/-!
# Displays

Lists, dicts and list comprehensions are read back. The targets of a loop are a list that ends before
`in`, so their elements admit no comparison.
-/

namespace Hoist.Surface

open Grammar

/-- The elements of a tuple. -/
def Expr.elems : Expr → List Expr
  | .tuple _ es => es
  | _ => []

section

variable {bare : Bool} {e : Expr} {es : List Expr} {n p turns : Nat} {s : Span} {rest : List Lexeme}

theorem Readable.list (h : Plain (.list s es)) (hes : ∀ e ∈ es, Readable bare e) :
    Readable bare (.list s es) := by
  refine .of_atom (h.fronted 14) rfl fun n rest hstops hlen => ?_
  rw [Expr.body, pieces_eq, List.cons_append, List.append_assoc, List.singleton_append] at hlen ⊢
  rw [List.length_cons] at hlen
  refine atom_bracketOpen (.pop (by simp) fun t _ => ?_)
  cases es with
  | nil => exact .found rfl (.expect rfl (by simp) fun t _ => .pure ⟨rfl, rfl⟩)
  | cons e es =>
    have hitem := (hes e List.mem_cons_self).item (n := n) fun _ => EndsItem.stops
    cases es with
    | nil =>
      refine .missed (hitem.next_ne rfl) ?_
      refine (hitem.reads _ (endsItem_closing rfl _) (by simpa [commas] using hlen)).bind fun a ha => ?_
      exact .missed (by simp) (.found rfl (.expect rfl (by simp) fun t _ =>
        .pure ⟨by simp [Expr.unplaced, ha], rfl⟩))
    | cons e' es =>
      have hitems := Readable.items (n := n) (fun x hx => hes x (List.mem_cons_of_mem _ hx))
        fun _ => EndsItem.stops
      rw [List.map_cons, List.map_cons, commas, List.append_assoc, List.cons_append] at hlen ⊢
      refine .missed (hitem.next_ne rfl) ?_
      refine (hitem.reads _ (endsItem_comma _) (by omega)).bind fun a ha => ?_
      refine .missed (by simp) (.missed (by simp) (.expect rfl (by simp) fun t _ => ?_))
      rw [elements, bind_assoc]
      refine .remaining ?_
      rw [elementLoop_eq]
      rw [List.length_append, List.length_cons] at hlen
      refine (itemLoop_reads rest hitems (m := .bracketClose) rfl ?_ (Nat.le_succ _)).bind ?_
      · rw [List.map_cons]
        omega
      rintro ⟨as, comma⟩ _ ⟨has, -, rfl⟩
      exact .expect rfl (by simp) fun t _ => .pure ⟨by simpa [Expr.unplaced, ha] using has, rfl⟩

/-- The entries of a dict display are items. -/
theorem Readable.entry {k v : Expr} (hk : Readable bare k) (hv : Readable bare v) :
    Item (Prod.map Expr.unplaced Expr.unplaced) (oneEntry (level n)) EndsItem n
      (k.unplaced, v.unplaced) (entryForm bare (k, v)) where
  starts := by
    obtain ⟨x, ls, hls⟩ := List.exists_cons_of_ne_nil (hk.write_ne_nil (p := 14) (by decide))
    have hstarts := hk.starts (p := 14) (by decide)
    rw [hls] at hstarts
    rw [entryForm, hls]
    exact startsItem_of hstarts
  reads rest hends hlen := by
    rw [entryForm, List.append_assoc, List.cons_append] at hlen ⊢
    refine (hk.test (stops_cons (by decide)) hlen).bind fun a ha => .expect rfl (by simp) fun t _ => ?_
    have hvalue : (v.write bare 14 ++ rest).length ≤ n := by
      rw [List.length_append, List.length_cons] at hlen
      exact Nat.le_of_succ_le (Nat.le_trans (Nat.le_add_left _ _) hlen)
    exact (hv.test hends.stops hvalue).bind fun b hb => .pure ⟨by simp [ha, hb], rfl⟩

theorem Readable.entries {entries : List (Expr × Expr)} (hk : ∀ p ∈ entries, Readable bare p.1)
    (hv : ∀ p ∈ entries, Readable bare p.2) :
    List.Forall₂ (Item (Prod.map Expr.unplaced Expr.unplaced) (oneEntry (level n)) EndsItem n)
      (entries.map (Prod.map Expr.unplaced Expr.unplaced)) (entries.map (entryForm bare)) := by
  induction entries with
  | nil => exact .nil
  | cons p entries ih =>
    exact .cons ((hk p List.mem_cons_self).entry (hv p List.mem_cons_self))
      (ih (fun q hq => hk q (List.mem_cons_of_mem _ hq)) fun q hq => hv q (List.mem_cons_of_mem _ hq))

theorem Readable.dict {entries : List (Expr × Expr)} (h : Plain (.dict s entries))
    (hk : ∀ p ∈ entries, Readable bare p.1) (hv : ∀ p ∈ entries, Readable bare p.2) :
    Readable bare (.dict s entries) := by
  refine .of_atom (h.fronted 14) rfl fun n rest hstops hlen => ?_
  rw [Expr.body, entryPieces_eq, List.cons_append, List.append_assoc, List.singleton_append] at hlen ⊢
  rw [List.length_cons] at hlen
  have hloop := itemLoop_reads rest (Readable.entries (n := n) hk hv) (m := .braceClose) rfl (by omega)
    (Nat.le_succ _)
  refine atom_braceOpen (.pop (by simp) fun t _ => .remaining ?_)
  rw [entryLoop_eq, bind_map_left]
  refine hloop.bind ?_
  rintro ⟨as, comma⟩ _ ⟨has, -, rfl⟩
  exact .expect rfl (by simp) fun t _ => .pure ⟨by simpa [Expr.unplaced] using has, rfl⟩

/-- The conditions of a loop are read up to something else. -/
theorem conditionLoop_reads (hes : ∀ e ∈ es, Readable bare e) (hstops : Stops 14 rest)
    (hlen : (conditionForms bare es ++ rest).length ≤ n)
    (hturns : (conditionForms bare es ++ rest).length ≤ turns) :
    Yields (List.map Expr.unplaced) (conditionLoop (level n) turns) (es.map Expr.unplaced)
      (conditionForms bare es ++ rest) rest := by
  induction es generalizing turns with
  | nil =>
    cases turns with
    | zero => exact .pure ⟨rfl, rfl⟩
    | succ turns => exact .other (hstops.ne (by decide)) (.pure ⟨rfl, rfl⟩)
  | cons e es ih =>
    rw [conditionForms, List.cons_append, List.append_assoc] at hlen hturns ⊢
    rw [List.length_cons] at hlen hturns
    obtain ⟨turns, rfl⟩ : ∃ k, turns = k + 1 := ⟨turns - 1, by omega⟩
    have hnext : Stops 13 (conditionForms bare es ++ rest) := by
      cases es with
      | nil => exact hstops.mono (by decide)
      | cons e' es => exact stops_cons (by decide)
    refine .same rfl (.pop (by simp) fun t _ => ?_)
    refine ((hes e List.mem_cons_self).orTest hnext (Nat.le_of_succ_le hlen)).bind fun a ha => ?_
    change (e.write bare 13 ++ (conditionForms bare es ++ rest)).length + 1 ≤ _ at hlen hturns
    rw [List.length_append] at hlen hturns
    refine (ih (fun e' he' => hes e' (List.mem_cons_of_mem _ he')) (by omega) (by omega)).bind
      fun as has => .pure ⟨by simp [ha, has], rfl⟩

end

/-- The form of an expression is read back, and so are the elements of a tuple. -/
structure Legible (bare : Bool) (e : Expr) : Prop where
  whole : Readable bare e
  elems : ∀ x ∈ e.elems, Readable bare x

section

variable {bare : Bool} {e : Expr} {es : List Expr} {n p turns : Nat} {s : Span} {rest : List Lexeme}

/-- The targets of a loop are items. -/
theorem Readable.target (h : Readable bare e) :
    Item Expr.unplaced (level n).bitOr (Stops 9) n e.unplaced (e.write bare 9) where
  starts := startsItem_of (h.starts (by decide))
  reads _ hstops hlen := h.bitOr hstops hlen

theorem Readable.targets {es : List Expr} (h : ∀ e ∈ es, Readable bare e) :
    List.Forall₂ (Item Expr.unplaced (level n).bitOr (Stops 9) n) (es.map Expr.unplaced)
      (es.map (Expr.write bare 9)) := by
  induction es with
  | nil => exact .nil
  | cons e es ih =>
    exact .cons (h e List.mem_cons_self).target (ih fun e' he' => h e' (List.mem_cons_of_mem _ he'))

/-- The targets of a loop are read up to `in`. -/
theorem Legible.targetList (h : Legible bare e)
    (hlen : (e.writeList bare 9 ++ .word .in_ :: rest).length ≤ n) :
    Yields Expr.unplaced (targetListWith (level n).bitOr (level n)) e.unplaced
      (e.writeList bare 9 ++ .word .in_ :: rest) (.word .in_ :: rest) := by
  refine .start fun start => ?_
  rcases e.writeList_cases bare 9 with hform | ⟨s, x, es, rfl, hform⟩ <;> rw [hform] at hlen ⊢
  · refine (h.whole.bitOr (stops_cons (by decide)) hlen).bind fun a ha => ?_
    exact .other (by simp) (.pure ⟨ha, rfl⟩)
  · have hx := h.elems x List.mem_cons_self
    have hes := Readable.targets (n := n) fun e he => h.elems e (List.mem_cons_of_mem _ he)
    rw [List.map_cons, listed_cons, List.append_assoc] at hlen ⊢
    have hstop : ∀ ls ∈ es.map (Expr.write bare 9), (nextKind ls == .word .in_) = false := by
      intro ls hls
      obtain ⟨e, he, rfl⟩ := List.mem_map.1 hls
      have hstarts := (h.elems e (List.mem_cons_of_mem _ he)).starts (p := 9) (by decide)
      rw [beq_eq_false_iff_ne]
      intro hin
      rw [hin] at hstarts
      cases hstarts
    have hloop := tailLoop_behind (· == .word .in_) (.word .in_ :: rest) hes
      (fun _ => stops_cons (by decide)) hstop (stops_cons (by decide)) (by simp) (by simp)
      (by rw [List.length_append] at hlen; omega)
      (Nat.le_refl _)
    obtain ⟨ls, hls⟩ := behind_append (es.map (Expr.write bare 9)) (.word .in_ :: rest)
    rw [hls] at hlen hloop ⊢
    refine (hx.bitOr (stops_cons (by decide)) hlen).bind fun a ha => .same rfl (.remaining ?_)
    rw [targetLoop_eq]
    exact hloop.bind fun as has => .spanFrom fun _ => .pure ⟨by simp [Expr.unplaced, ha, has], rfl⟩

/-- The loops of a comprehension are read up to the closing bracket. -/
theorem generatorLoop_reads {gs : List (Generator Expr)} (ht : ∀ g ∈ gs, Legible bare g.target)
    (hi : ∀ g ∈ gs, Readable bare g.iter) (hc : ∀ g ∈ gs, ∀ c ∈ g.conditions, Readable bare c)
    (hlen : (generatorForms bare gs ++ .mark .bracketClose :: rest).length ≤ n)
    (hturns : (generatorForms bare gs ++ .mark .bracketClose :: rest).length ≤ turns) :
    Yields (List.map Generator.unplaced) (generatorLoop (level n) turns) (gs.map Generator.unplaced)
      (generatorForms bare gs ++ .mark .bracketClose :: rest) (.mark .bracketClose :: rest) := by
  induction gs generalizing turns with
  | nil =>
    cases turns with
    | zero => exact .pure ⟨rfl, rfl⟩
    | succ turns => exact .other (by simp [generatorForms]) (.pure ⟨rfl, rfl⟩)
  | cons g gs ih =>
    have hform : generatorForms bare (g :: gs) ++ .mark .bracketClose :: rest =
        .word .for_ :: (g.target.writeList bare 9 ++ .word .in_ :: (g.iter.write bare 13 ++
          (conditionForms bare g.conditions ++
            (generatorForms bare gs ++ .mark .bracketClose :: rest)))) := by
      simp [generatorForms, Expr.writeList, Expr.write]
    rw [hform] at hlen hturns ⊢
    simp only [List.length_cons, List.length_append] at hlen hturns
    obtain ⟨turns, rfl⟩ : ∃ k, turns = k + 1 := ⟨turns - 1, by omega⟩
    have hnext : Stops 14 (generatorForms bare gs ++ .mark .bracketClose :: rest) := by
      cases gs <;> exact stops_cons (by decide)
    have hconditions : Stops 13 (conditionForms bare g.conditions ++
        (generatorForms bare gs ++ .mark .bracketClose :: rest)) := by
      cases g.conditions with
      | nil => exact hnext.mono (by decide)
      | cons c cs => exact stops_cons (by decide)
    refine .same rfl (.pop (by simp) fun t _ => ?_)
    refine ((ht g List.mem_cons_self).targetList ?_).bind fun target htarget => ?_
    · simp only [List.length_cons, List.length_append]
      omega
    refine .expect rfl (by simp) fun t _ => ?_
    refine ((hi g List.mem_cons_self).orTest hconditions ?_).bind fun iter hiter => .remaining ?_
    · simp only [List.length_cons, List.length_append]
      omega
    refine (conditionLoop_reads (hc g List.mem_cons_self) hnext ?_ (Nat.le_refl _)).bind
      fun conditions hcs => ?_
    · simp only [List.length_cons, List.length_append]
      omega
    refine (ih (fun g' hg' => ht g' (List.mem_cons_of_mem _ hg'))
      (fun g' hg' => hi g' (List.mem_cons_of_mem _ hg'))
      (fun g' hg' => hc g' (List.mem_cons_of_mem _ hg')) ?_ ?_).bind
      fun generators hgs => .pure ⟨by simp [Generator.unplaced, htarget, hiter, hcs, hgs], rfl⟩
    all_goals
      simp only [List.length_cons, List.length_append]
      omega

theorem Readable.listComp {gs : List (Generator Expr)} (h : Plain (.listComp s e gs))
    (he : Readable bare e) (hne : gs ≠ []) (ht : ∀ g ∈ gs, Legible bare g.target)
    (hi : ∀ g ∈ gs, Readable bare g.iter) (hc : ∀ g ∈ gs, ∀ c ∈ g.conditions, Readable bare c) :
    Readable bare (.listComp s e gs) := by
  refine .of_atom (h.fronted 14) rfl fun n rest hstops hlen => ?_
  have hform : (Expr.listComp s e gs).body bare 14 ++ rest = .mark .bracketOpen ::
      (e.write bare 14 ++ (generatorForms bare gs ++ .mark .bracketClose :: rest)) := by
    simp [Expr.body, Expr.write]
  have hfor : nextKind (generatorForms bare gs ++ .mark .bracketClose :: rest) = .word .for_ := by
    obtain ⟨g, gs, rfl⟩ := List.exists_cons_of_ne_nil hne
    rfl
  rw [hform] at hlen ⊢
  simp only [List.length_cons, List.length_append] at hlen
  have hitem := he.item (n := n) fun _ => id
  refine atom_bracketOpen (.pop (by simp) fun t _ => .missed (hitem.next_ne rfl) ?_)
  refine (hitem.reads _ (by rw [Stops, hfor]; decide) ?_).bind fun a ha => ?_
  · simp only [List.length_cons, List.length_append]
    omega
  refine .found hfor (.remaining ?_)
  refine (generatorLoop_reads ht hi hc ?_ (Nat.le_refl _)).bind fun generators hgs => ?_
  · simp only [List.length_cons, List.length_append]
    omega
  exact .expect rfl (by simp) fun t _ => .pure ⟨by simp [Expr.unplaced, ha, hgs], rfl⟩

end

end Hoist.Surface
