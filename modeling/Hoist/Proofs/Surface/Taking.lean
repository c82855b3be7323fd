import Hoist.Proofs.Surface.Parts
import Hoist.Proofs.Surface.SteadyRules

/-!
# Which tokens a reader takes

`Takes` says what a reader has made of the tokens that were taken since some place, those taken before it
included. There is one rule for each operation of cursors: what a reader looks at stays, what it pops is
added to the tokens, and what another reader takes on its way is added in one piece.
-/

namespace Hoist.Surface

/-- A token with the text of its mark, if it is one. -/
def Token.Spelled (t : Token) : Prop := ∀ m, t.kind = .mark m → t.text = m.spelling.toList

/-- Any token. -/
def anyToken (_ : Token) : Prop := True

/-- Behind the tokens `seen`, at a token of which `pre` holds, what the reader returns and all tokens
taken by then, `seen` included, are as `good` tells. -/
def Takes {α : Type} (seen : List Token) (pre : Token → Prop) (r : Reader α)
    (good : List Token → α → Prop) : Prop :=
  ∀ taken ahead a c, (∀ t ∈ ahead, t.Spelled) → pre (Cursor.head ⟨seen.reverse ++ taken, ahead⟩) →
    r ⟨seen.reverse ++ taken, ahead⟩ = .ok (a, c) →
      ∃ ts rest, ahead = ts ++ rest ∧ c = ⟨(seen ++ ts).reverse ++ taken, rest⟩ ∧ good (seen ++ ts) a

namespace Takes

variable {α β : Type} {seen : List Token} {pre pre' : Token → Prop} {r s t : Reader α}
  {good good' : List Token → α → Prop} {after : List Token → β → Prop} {f : α → Reader β} {k : Kind}

theorem imp (h : Takes seen pre r good) (hgood : ∀ s a, good s a → good' s a) :
    Takes seen pre r good' := by
  intro taken ahead a c hspelled hpre hr
  obtain ⟨ts, rest, hahead, hc, ha⟩ := h taken ahead a c hspelled hpre hr
  exact ⟨ts, rest, hahead, hc, hgood _ _ ha⟩

theorem pre_imp (h : Takes seen pre r good) (hpre : ∀ t, pre' t → pre t) : Takes seen pre' r good :=
  fun taken ahead a c hspelled hp hr => h taken ahead a c hspelled (hpre _ hp) hr

theorem never (hpre : ∀ t, ¬ pre t) : Takes seen pre r good :=
  fun _ _ _ _ _ hp => (hpre _ hp).elim

/-- A reader that runs in the same way takes the same. -/
theorem of_run (h : Takes seen pre r good) (hrun : ∀ c, s c = r c) : Takes seen pre s good :=
  fun taken ahead a c hspelled hp hr => h taken ahead a c hspelled hp ((hrun _).symm.trans hr)

theorem pure {a : α} (h : good seen a) : Takes seen pre (Pure.pure a) good := by
  rintro taken ahead _ _ _ _ ⟨⟩
  exact ⟨[], ahead, rfl, by simp, by simpa using h⟩

theorem unexpected {note : String} : Takes seen pre (Reader.unexpected note) good := by
  rintro taken ahead a c _ _ ⟨⟩

theorem refused {note : String} : Takes seen pre (Reader.unexpected note >>= f) after := by
  rintro taken ahead a c _ _ ⟨⟩

theorem ite {p : Prop} [Decidable p] (h : Takes seen pre s good) (h' : Takes seen pre t good) :
    Takes seen pre (if p then s else t) good := by
  split
  · exact h
  · exact h'

/-- A reader goes on where another one has got to with the same tokens. -/
theorem chain (h : Takes seen pre r good) (hf : ∀ s a, good s a → Takes s anyToken (f a) after) :
    Takes seen pre (r >>= f) after := by
  intro taken ahead b c hspelled hpre hr
  obtain ⟨⟨a, c₁⟩, hr, hrest⟩ := bind_eq_ok.1 hr
  obtain ⟨ts, rest, rfl, rfl, ha⟩ := h taken ahead a c₁ hspelled hpre hr
  obtain ⟨us, rest, rfl, rfl, hb⟩ := hf _ a ha taken rest b c
    (fun t ht => hspelled t (List.mem_append_right _ ht)) trivial hrest
  exact ⟨ts ++ us, rest, by simp, by simp, by simpa using hb⟩

/-- The tokens that another reader takes start with the one at which it starts. -/
theorem bind_head (h : Takes [] pre r good)
    (hf : ∀ s a, good s a → (∀ u ∈ s.head?, pre u) → Takes (seen ++ s) anyToken (f a) after) :
    Takes seen pre (r >>= f) after := by
  intro taken ahead b c hspelled hpre hr
  obtain ⟨⟨a, c₁⟩, hr, hrest⟩ := bind_eq_ok.1 hr
  obtain ⟨ts, rest, rfl, rfl, ha⟩ := h (seen.reverse ++ taken) ahead a c₁ hspelled hpre hr
  have hhead : ∀ u ∈ ts.head?, pre u := by
    intro u hu
    obtain ⟨ts, rfl⟩ := List.head?_eq_some_iff.1 hu
    exact hpre
  have hrest : f a ⟨(seen ++ ts).reverse ++ taken, rest⟩ = .ok (b, c) := by
    simpa using hrest
  obtain ⟨us, rest, rfl, rfl, hb⟩ := hf ts a ha hhead taken rest b c
    (fun t ht => hspelled t (List.mem_append_right _ ht)) trivial hrest
  exact ⟨ts ++ us, rest, by simp, by simp, by simpa using hb⟩

/-- The tokens that another reader takes are added in one piece. -/
theorem bind (h : Takes [] pre r good)
    (hf : ∀ s a, good s a → Takes (seen ++ s) anyToken (f a) after) : Takes seen pre (r >>= f) after :=
  h.bind_head fun s a ha _ => hf s a ha

/-- A reader that goes on behind some tokens. -/
theorem behind (h : Takes [] pre r good) (hgood : ∀ s a, good s a → good' (seen ++ s) a) :
    Takes seen pre r good' := by
  rw [← bind_pure r]
  exact .bind h fun s a ha => .pure (hgood s a ha)

theorem map {g : α → β} (h : Takes seen pre r good) (hg : ∀ s a, good s a → after s (g a)) :
    Takes seen pre (g <$> r) after := by
  rw [map_eq_pure_bind]
  exact h.chain fun s a ha => pure (hg s a ha)

section Steps

variable {f : Token → Reader β} {s t : Reader β}

/-- A token that is no end of the input is taken. -/
theorem pop (hpre : ∀ t, pre t → t.kind ≠ .endOfInput)
    (hf : ∀ t, pre t → t.Spelled → Takes (seen ++ [t]) anyToken (f t) after) :
    Takes seen pre (Reader.pop >>= f) after := by
  intro taken ahead b c hspelled hp hr
  cases ahead with
  | nil => exact absurd rfl (hpre _ hp)
  | cons t ahead =>
    have ht : t.kind ≠ .endOfInput := hpre _ hp
    have hrun : f t ⟨(seen ++ [t]).reverse ++ taken, ahead⟩ = .ok (b, c) := by
      rw [List.reverse_append, List.reverse_singleton, List.singleton_append, List.cons_append,
        ← Cursor.advance_cons ht]
      exact hr
    obtain ⟨ts, rest, rfl, rfl, hb⟩ := hf t hp (hspelled t List.mem_cons_self) taken _ b c
      (fun u hu => hspelled u (List.mem_cons_of_mem _ hu)) trivial hrun
    exact ⟨t :: ts, rest, rfl, by simp, by simpa using hb⟩

theorem popped (hk : k ≠ .endOfInput)
    (hf : ∀ t, pre t → t.kind = k → t.Spelled → Takes (seen ++ [t]) anyToken (f t) after) :
    Takes seen (fun t => pre t ∧ t.kind = k) (Reader.pop >>= f) after :=
  pop (fun _ ht => ht.2 ▸ hk) fun t ht hspelled => hf t ht.1 ht.2 hspelled

/-- A token that is taken if it is not the end of the input, and of no use. -/
theorem skip {r : Reader β} (h : ∀ t, Takes (seen ++ [t]) anyToken r after)
    (h' : Takes seen anyToken r after) : Takes seen pre (Reader.pop >>= fun _ => r) after := by
  intro taken ahead b c hspelled _ hr
  cases ahead with
  | nil => exact h' taken [] b c hspelled trivial hr
  | cons t ahead =>
    by_cases ht : t.kind = .endOfInput
    · refine h' taken _ b c hspelled trivial (Eq.trans ?_ hr)
      change r _ = r (Cursor.advance _)
      rw [Cursor.advance]
      simp [ht]
    · have hrun : r ⟨(seen ++ [t]).reverse ++ taken, ahead⟩ = .ok (b, c) := by
        rw [List.reverse_append, List.reverse_singleton, List.singleton_append, List.cons_append,
          ← Cursor.advance_cons ht]
        exact hr
      obtain ⟨ts, rest, rfl, rfl, hb⟩ := h t taken _ b c
        (fun u hu => hspelled u (List.mem_cons_of_mem _ hu)) trivial hrun
      exact ⟨t :: ts, rest, rfl, by simp, by simpa using hb⟩

theorem next (hf : ∀ u, pre u → Takes seen (· = u) (f u) after) :
    Takes seen pre (Reader.next >>= f) after :=
  fun taken ahead b c hspelled hpre hr => hf _ hpre taken ahead b c hspelled rfl hr

theorem start {f : Nat → Reader β} (hf : ∀ u, pre u → Takes seen (· = u) (f u.start) after) :
    Takes seen pre (Reader.start >>= f) after :=
  fun taken ahead b c hspelled hpre hr => hf _ hpre taken ahead b c hspelled rfl hr

theorem peek {f : Kind → Reader β} (hf : ∀ k, Takes seen (fun t => pre t ∧ t.kind = k) (f k) after) :
    Takes seen pre (Reader.peek >>= f) after :=
  fun taken ahead b c hspelled hpre hr => hf _ taken ahead b c hspelled ⟨hpre, rfl⟩ hr

theorem choose {p : Kind → Bool} (hs : Takes seen pre s after) (ht : Takes seen pre t after) :
    Takes seen pre (Reader.peek >>= fun k => if p k = true then s else t) after :=
  peek fun _ => .ite (hs.pre_imp fun _ => And.left) (ht.pre_imp fun _ => And.left)

/-- What is read unless a token of a kind comes next, and otherwise. -/
theorem against (hs : Takes seen (fun t => pre t ∧ t.kind ≠ k) s after)
    (ht : Takes seen (fun t => pre t ∧ t.kind = k) t after) :
    Takes seen pre (Reader.peek >>= fun k' => if (k' != k) = true then s else t) after := by
  refine peek fun k' => ?_
  split
  · rename_i hk
    exact hs.pre_imp fun t ht => ⟨ht.1, by simpa [ht.2] using hk⟩
  · rename_i hk
    obtain rfl : k' = k := by simpa using hk
    exact ht

/-- What is read if a token of a kind comes next, and otherwise. -/
theorem when (ht : Takes seen (fun t => pre t ∧ t.kind = k) t after)
    (hs : Takes seen (fun t => pre t ∧ t.kind ≠ k) s after) :
    Takes seen pre (Reader.peek >>= fun k' => if (k' == k) = true then t else s) after := by
  refine peek fun k' => ?_
  split
  · rename_i hk
    obtain rfl : k' = k := by simpa using hk
    exact ht
  · rename_i hk
    exact hs.pre_imp fun t ht => ⟨ht.1, by simpa [ht.2] using hk⟩

theorem require {f : Unit → Reader β}
    (hf : Takes seen (fun t => pre t ∧ t.kind = k) (f ()) after) :
    Takes seen pre (Reader.require k >>= f) after := by
  intro taken ahead b c hspelled hpre hr
  obtain ⟨p, hrequire, hrun⟩ := bind_eq_ok.1 hr
  rw [Heeds.require_run] at hrequire
  split at hrequire
  · rename_i hk
    cases hrequire
    exact hf taken ahead b c hspelled ⟨hpre, hk⟩ hrun
  · cases hrequire

theorem expect (hk : k ≠ .endOfInput)
    (hf : ∀ t, pre t → t.kind = k → t.Spelled → Takes (seen ++ [t]) anyToken (f t) after) :
    Takes seen pre (Reader.expect k >>= f) after := by
  rw [Reader.expect, bind_assoc]
  exact require (popped hk hf)

theorem remaining {f : Nat → Reader β} (hf : ∀ n, Takes seen pre (f n) after) :
    Takes seen pre (Reader.remaining >>= f) after :=
  fun taken ahead b c hspelled hpre hr => hf ahead.length taken ahead b c hspelled hpre hr

/-- Where a token is left, so is a turn. -/
theorem remaining_succ {f : Nat → Reader β} (hpre : ∀ t, pre t → t.kind ≠ .endOfInput)
    (hf : ∀ n, Takes seen pre (f (n + 1)) after) : Takes seen pre (Reader.remaining >>= f) after := by
  intro taken ahead b c hspelled hp hr
  cases ahead with
  | nil => exact absurd rfl (hpre _ hp)
  | cons t ahead => exact hf ahead.length taken (t :: ahead) b c hspelled hp hr

theorem lift {x : Except Fault α} {f : α → Reader β} (hf : ∀ a, Takes seen pre (f a) after) :
    Takes seen pre ((liftM x : Reader α) >>= f) after := by
  intro taken ahead b c hspelled hpre hr
  cases x with
  | error e => cases hr
  | ok a => exact hf a taken ahead b c hspelled hpre hr

/-- The end of the last token that is no layout is the end of the last one among the tokens seen. -/
theorem spanFrom {n : Nat} {f : Span → Reader β} (hseen : ∃ t ∈ seen, t.kind.isLayout = false)
    (hf : ∀ stop, StopsAt seen stop → Takes seen pre (f ⟨n, stop⟩) after) :
    Takes seen pre (Grammar.spanFrom n >>= f) after := by
  intro taken ahead b c hspelled hpre hr
  obtain ⟨u, hu⟩ : ∃ u, seen.reverse.find? (fun t => !t.kind.isLayout) = some u := by
    rw [← Option.isSome_iff_exists, List.find?_isSome]
    simpa using hseen
  obtain ⟨hk, before, after', hsplit, hbefore⟩ := List.find?_eq_some_iff_append.1 hu
  have hstop : StopsAt seen u.stop := by
    refine ⟨after'.reverse, u, before.reverse, ?_, by simpa using hk, ?_, rfl⟩
    · have := congrArg List.reverse hsplit
      simpa using this
    · simpa using hbefore
  have hlast : Cursor.lastEnd ⟨seen.reverse ++ taken, ahead⟩ = u.stop := by
    simp only [Cursor.lastEnd, List.find?_append, hu, Option.some_or]
  refine hf u.stop hstop taken ahead b c hspelled hpre ?_
  rw [← hlast]
  exact hr

/-- Two tokens that are taken at once, or not at all. -/
theorem pairOr {k₂ : Kind} (hk : k ≠ .endOfInput) (hk₂ : k₂ ≠ .endOfInput) (hne : k ≠ k₂)
    (hf : ∀ t u, t.kind = k → u.kind = k₂ → Takes (seen ++ [t, u]) anyToken (f t) after)
    (hs : Takes seen pre s after) : Takes seen pre (Grammar.pairOr k k₂ f s) after := by
  intro taken ahead b c hspelled hp hr
  by_cases hpair : (Cursor.head ⟨seen.reverse ++ taken, ahead⟩).kind = k ∧
      Cursor.secondKind ⟨seen.reverse ++ taken, ahead⟩ = k₂
  · match ahead with
    | [] => exact absurd hpair.1.symm hk
    | [t] => exact absurd (hpair.1.symm.trans hpair.2) hne
    | t :: u :: ahead =>
      obtain ⟨rfl, rfl⟩ : t.kind = k ∧ u.kind = k₂ := hpair
      rw [Grammar.pairOr_pair hk hk₂] at hr
      have hrun : f t ⟨(seen ++ [t, u]).reverse ++ taken, ahead⟩ = .ok (b, c) := by
        simpa using hr
      obtain ⟨ts, rest, rfl, rfl, hb⟩ := hf t u rfl rfl taken _ b c
        (fun v hv => hspelled v (List.mem_cons_of_mem _ (List.mem_cons_of_mem _ hv))) trivial hrun
      exact ⟨t :: u :: ts, rest, rfl, by simp, by simpa using hb⟩
  · rw [Grammar.pairOr_other hpair] at hr
    exact hs taken ahead b c hspelled hp hr

/-- The operator of a comparison is taken, with one token or two, or nothing is. -/
theorem comparing {f : Operator → Reader β}
    (hf : ∀ op ts, ts ≠ [] → (∀ t ∈ ts, reach t.kind = 10) →
      Takes (seen ++ ts) anyToken (f op) after)
    (hs : Takes seen pre s after) : Takes seen pre (Grammar.comparing f s) after := by
  intro taken ahead b c hspelled hp hr
  cases hcmp : Grammar.comparison? ⟨seen.reverse ++ taken, ahead⟩ with
  | none =>
    rw [Grammar.comparing_none hcmp] at hr
    exact hs taken ahead b c hspelled hp hr
  | some p =>
    obtain ⟨op, width⟩ := p
    obtain ⟨hend, hreach, hwidth⟩ := Grammar.comparison_width hcmp
    rcases ahead with _ | ⟨t, ahead⟩
    · exact absurd rfl hend
    have ht : t.kind ≠ .endOfInput := hend
    have hten : reach t.kind = 10 := hreach
    obtain rfl | ⟨rfl, hreach₂, hne⟩ := hwidth
    · rw [Grammar.comparing_one hcmp, Cursor.advance_cons ht] at hr
      have hrun : f op ⟨(seen ++ [t]).reverse ++ taken, ahead⟩ = .ok (b, c) := by simpa using hr
      obtain ⟨ts, rest, rfl, rfl, hb⟩ := hf op [t] (by simp) (by simpa using hten) taken _ b c
        (fun v hv => hspelled v (List.mem_cons_of_mem _ hv)) trivial hrun
      exact ⟨t :: ts, rest, rfl, by simp, by simpa using hb⟩
    · rcases ahead with _ | ⟨u, ahead⟩
      · exact absurd rfl hne
      have huten : reach u.kind = 10 := hreach₂
      have hu : u.kind ≠ .endOfInput := by
        rintro hu
        rw [hu] at huten
        cases huten
      rw [Grammar.comparing_two hcmp, Cursor.advance_cons ht, Cursor.advance_cons hu] at hr
      have hrun : f op ⟨(seen ++ [t, u]).reverse ++ taken, ahead⟩ = .ok (b, c) := by simpa using hr
      obtain ⟨ts, rest, rfl, rfl, hb⟩ := hf op [t, u] (by simp) (by simp [hten, huten]) taken _ b c
        (fun v hv => hspelled v (List.mem_cons_of_mem _ (List.mem_cons_of_mem _ hv))) trivial hrun
      exact ⟨t :: u :: ts, rest, rfl, by simp, by simpa using hb⟩

end Steps

end Takes

end Hoist.Surface
