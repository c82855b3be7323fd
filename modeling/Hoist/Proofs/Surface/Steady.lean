import Hoist.Proofs.Surface.Heeding

/-!
# Readers that do the same in front of something else

A reader knows of the tokens behind those it takes at most the kind of the first of them. So it takes
the same tokens, with the same result, whenever something stands behind them at which it ends as well.
`Steady` says this of two readers of one shape, which differ only in the number of their levels and
turns; there is one rule for each operation of cursors.
-/

namespace Hoist.Surface

/-- The kind of the first of some tokens. -/
def firstKind : List Token → Kind
  | [] => .endOfInput
  | t :: _ => t.kind

/-- Every kind. -/
def anyKind (_ : Kind) : Prop := True

/-- At a token that `pre` admits, whatever `r` takes starts as `opens` tells and has at least `least`
tokens; and `r'` takes it as well, in front of every token that `ends` admits, if no more than `n`
tokens are left there. -/
def Steady {α : Type} (pre : Kind → Prop) (n least : Nat) (opens ends : Kind → Prop)
    (r r' : Reader α) : Prop :=
  ∀ taken ahead a c, pre (firstKind ahead) → r ⟨taken, ahead⟩ = .ok (a, c) →
    ∃ ts rest, ahead = ts ++ rest ∧ c = ⟨ts.reverse ++ taken, rest⟩ ∧ least ≤ ts.length ∧
      (∀ t ∈ ts.head?, opens t.kind) ∧
      ∀ t rest', ends t.kind → (ts ++ t :: rest').length ≤ n →
        r' ⟨taken, ts ++ t :: rest'⟩ = .ok (a, ⟨ts.reverse ++ taken, t :: rest'⟩)

/-- Two readers that go on alike from wherever a first one gets to. -/
theorem bind_congr_run {α β : Type} {r : Reader α} {f f' : α → Reader β} {c : Cursor}
    (h : ∀ a c', r c = .ok (a, c') → f a c' = f' a c') : (r >>= f) c = (r >>= f') c := by
  change (r c >>= fun p => f p.1 p.2) = (r c >>= fun p => f' p.1 p.2)
  cases hr : r c with
  | error _ => rfl
  | ok p => exact h p.1 p.2 hr

namespace Cursor

theorem rest_advance (c : Cursor) : c.advance.rest.length ≤ c.rest.length := by
  unfold advance
  split
  · exact Nat.le_refl _
  · rename_i t rest hrest
    rw [hrest]
    split
    · rw [hrest]
    · exact Nat.le_succ _

theorem firstKind_rest (c : Cursor) : c.head.kind = firstKind c.rest := by
  obtain ⟨taken, rest⟩ := c
  cases rest <;> rfl

theorem advance_cons {taken rest : List Token} {t : Token} (h : t.kind ≠ .endOfInput) :
    advance ⟨taken, t :: rest⟩ = ⟨t :: taken, rest⟩ := by
  simp [advance, h]

end Cursor

namespace Steady

variable {α β : Type} {pre pre' opens opens' o ends ends' ends₁ : Kind → Prop}
  {n n' least least' l : Nat} {r r' r'' : Reader α} {f f' : α → Reader β} {k : Kind}

theorem mono (h : Steady pre n least opens ends r r') (hn : n' ≤ n) (hleast : least' ≤ least)
    (hpre : ∀ k, pre' k → pre k) (hopens : ∀ k, opens k → opens' k) (hends : ∀ k, ends' k → ends k) :
    Steady pre' n' least' opens' ends' r r' := by
  intro taken ahead a c hp hr
  obtain ⟨ts, rest, hahead, hc, hlength, hfirst, hagain⟩ := h taken ahead a c (hpre _ hp) hr
  exact ⟨ts, rest, hahead, hc, hleast.trans hlength, fun t ht => hopens _ (hfirst t ht),
    fun t rest' ht hlen => hagain t rest' (hends _ ht) (hlen.trans hn)⟩

theorem bound {m : Nat} (h : Steady pre n least opens ends r r') (hn : m ≤ n) :
    Steady pre m least opens ends r r' :=
  h.mono hn (Nat.le_refl _) (fun _ => id) (fun _ => id) fun _ => id

theorem ends_imp (h : Steady pre n least opens ends r r') (hends : ∀ k, ends' k → ends k) :
    Steady pre n least opens ends' r r' :=
  h.mono (Nat.le_refl _) (Nat.le_refl _) (fun _ => id) (fun _ => id) hends

theorem opens_imp (h : Steady pre n least opens ends r r') (hopens : ∀ k, opens k → opens' k) :
    Steady pre n least opens' ends r r' :=
  h.mono (Nat.le_refl _) (Nat.le_refl _) (fun _ => id) hopens fun _ => id

theorem pre_imp (h : Steady pre n least opens ends r r') (hpre : ∀ k, pre' k → pre k) :
    Steady pre' n least opens ends r r' :=
  h.mono (Nat.le_refl _) (Nat.le_refl _) hpre (fun _ => id) fun _ => id

theorem everywhere (h : Steady anyKind n least opens ends r r') : Steady pre n least opens ends r r' :=
  h.pre_imp fun _ _ => trivial

/-- Nothing is said of a place where no tokens are left. -/
theorem vacuous (h : Steady pre n least opens ends r r') : Steady pre 0 least opens ends r r'' := by
  intro taken ahead a c hp hr
  obtain ⟨ts, rest, hahead, hc, hlength, hfirst, -⟩ := h taken ahead a c hp hr
  refine ⟨ts, rest, hahead, hc, hlength, hfirst, fun t rest' _ hlen => ?_⟩
  simp at hlen

theorem never (h : ∀ k, ¬ pre k) : Steady pre n least opens ends r r' :=
  fun _ _ _ _ hp => (h _ hp).elim

/-- A loop with as many turns as tokens are left has a turn left as long as there is a token. -/
theorem turn {f : Nat → Reader α} {turns : Nat}
    (h : ∀ turns, n ≤ turns + 1 → Steady pre n least opens ends r (f (turns + 1)))
    (hn : n ≤ turns) : Steady pre n least opens ends r (f turns) := by
  cases turns with
  | zero =>
    obtain rfl := Nat.le_zero.1 hn
    exact (h 0 (Nat.zero_le _)).vacuous
  | succ turns => exact h turns hn

/-- A reader that takes a token leaves fewer. -/
theorem consumes (h : Steady anyKind n 1 opens ends r r') {a : α} {c c' : Cursor}
    (hr : r c = .ok (a, c')) : c'.rest.length < c.rest.length := by
  obtain ⟨taken, ahead⟩ := c
  obtain ⟨ts, rest, rfl, rfl, hlength, -⟩ := h taken ahead a c' trivial hr
  rw [List.length_append]
  exact Nat.lt_add_of_pos_left hlength

/-- A reader that runs in the same way is as steady. -/
theorem of_run {r₀ : Reader α} (h : Steady pre n least opens ends r r') (hrun : ∀ c, r₀ c = r c) :
    Steady pre n least opens ends r₀ r' :=
  fun taken ahead a c hp hr => h taken ahead a c hp ((hrun _).symm.trans hr)

theorem pure {a : α} : Steady pre n 0 opens ends (Pure.pure a) (Pure.pure a) := by
  rintro taken ahead _ _ _ ⟨⟩
  exact ⟨[], ahead, rfl, rfl, Nat.le_refl _, by simp, fun _ _ _ _ => rfl⟩

theorem unexpected {note : String} : Steady pre n least opens ends (Reader.unexpected note) r' := by
  rintro taken ahead a c _ ⟨⟩

theorem refused {note : String} :
    Steady pre n least opens ends (Reader.unexpected note >>= f) (Reader.unexpected note >>= f') := by
  rintro taken ahead a c _ ⟨⟩

theorem ite {p : Prop} [Decidable p] {s s' : Reader α} (h : Steady pre n least opens ends r r')
    (hs : Steady pre n least opens ends s s') :
    Steady pre n least opens ends (if p then r else s) (if p then r' else s') := by
  split
  · exact h
  · exact hs

theorem begins (h : Steady pre n least opens ends r r') : Steady pre n least anyKind ends r r' :=
  h.opens_imp fun _ _ => trivial

/-- What stands behind the first of two readers is what the second one takes, or what ends both. -/
theorem bind_of (h : Steady pre n least opens ends₁ r r')
    (hf : ∀ a, Steady anyKind n' l o ends (f a) (f' a)) (hn : n ≤ n' + least)
    (hopens : ∀ k, o k → ends₁ k) (hends : l = 0 → ∀ k, ends k → ends₁ k)
    (hfirst : least = 0 → ∀ k, o k → opens k) :
    Steady pre n (least + l) opens ends (r >>= f) (r' >>= f') := by
  intro taken ahead b c hp hr
  obtain ⟨⟨a, c₁⟩, hr, hrest⟩ := bind_eq_ok.1 hr
  obtain ⟨ts, rest, rfl, rfl, hlength, hts, hagain⟩ := h taken ahead a c₁ hp hr
  obtain ⟨us, rest, rfl, rfl, hlength₂, hus, hagain₂⟩ := hf a _ _ _ _ trivial hrest
  refine ⟨ts ++ us, rest, by simp, by simp, by simp only [List.length_append]; omega, ?_, ?_⟩
  · intro t ht
    cases ts with
    | nil => exact hfirst (Nat.le_zero.1 hlength) _ (hus t ht)
    | cons u ts => exact hts t ht
  · intro t rest' ht hlen
    rw [List.append_assoc] at hlen ⊢
    have hgo : r' ⟨taken, ts ++ (us ++ t :: rest')⟩ =
        .ok (a, ⟨ts.reverse ++ taken, us ++ t :: rest'⟩) := by
      cases us with
      | nil => exact hagain t rest' (hends (Nat.le_zero.1 hlength₂) _ ht) hlen
      | cons u us => exact hagain u _ (hopens _ (hus u rfl)) hlen
    rw [List.length_append] at hlen
    refine bind_eq_ok.2 ⟨_, hgo, ?_⟩
    exact (hagain₂ t rest' ht (by omega)).trans (by simp)

/-- Behind what the first reader takes fewer tokens are left. -/
theorem bind (h : Steady pre n 1 opens ends₁ r r')
    (hf : ∀ a, Steady anyKind (n - 1) l ends₁ ends (f a) (f' a))
    (hends : l = 0 → ∀ k, ends k → ends₁ k) :
    Steady pre n 1 opens ends (r >>= f) (r' >>= f') :=
  (h.bind_of hf (by omega) (fun _ => id) hends nofun).mono (Nat.le_refl _)
    (Nat.le_add_right _ _) (fun _ => id) (fun _ => id) fun _ => id

/-- The first reader may take nothing. -/
theorem bind_empty (h : Steady pre n 0 opens ends₁ r r')
    (hf : ∀ a, Steady anyKind n l (fun k => opens k ∧ ends₁ k) ends (f a) (f' a))
    (hends : l = 0 → ∀ k, ends k → ends₁ k) :
    Steady pre n l opens ends (r >>= f) (r' >>= f') :=
  (h.bind_of hf (Nat.le_refl _) (fun _ => And.right) hends fun _ _ => And.left).mono (Nat.le_refl _)
    (by omega) (fun _ => id) (fun _ => id) fun _ => id

theorem map {g : α → β} (h : Steady pre n least opens ends r r') :
    Steady pre n least opens ends (g <$> r) (g <$> r') := by
  rw [map_eq_pure_bind, map_eq_pure_bind]
  exact h.bind_of (l := 0) (o := fun _ => False) (fun _ => .pure) (Nat.le_add_right _ _) nofun
    (fun _ _ => id) nofun

section Steps

variable {f f' : Token → Reader β} {f₁ f₁' : α → Reader β} {s s' t t' : Reader β}

/-- Behind a token that is taken fewer tokens are left. -/
theorem pop (hpre : ∀ k, pre k → k ≠ .endOfInput ∧ opens k)
    (hf : ∀ t : Token, pre t.kind → Steady anyKind (n - 1) l anyKind ends (f t) (f' t)) :
    Steady pre n 1 opens ends (Reader.pop >>= f) (Reader.pop >>= f') := by
  intro taken ahead b c hp hr
  cases ahead with
  | nil => exact absurd rfl (hpre _ hp).1
  | cons t rest =>
    -- the continuation is steady for the token that is taken, whose kind `pre` admits
    have hadvance {rest : List Token} : Cursor.advance ⟨taken, t :: rest⟩ = ⟨t :: taken, rest⟩ :=
      Cursor.advance_cons (hpre _ hp).1
    have hrun : f t ⟨t :: taken, rest⟩ = .ok (b, c) := by
      rw [← hadvance]
      exact hr
    obtain ⟨us, rest, rfl, rfl, -, -, hagain⟩ := hf t hp _ _ _ _ trivial hrun
    refine ⟨t :: us, rest, rfl, by simp, by simp, ?_, fun u rest' hu hlen => ?_⟩
    · rintro _ ⟨⟩
      exact (hpre _ hp).2
    · have hagain := hagain u rest' hu (by
        rw [List.cons_append, List.length_cons] at hlen
        omega)
      rw [← hadvance] at hagain
      exact hagain.trans (by simp)

theorem popped (hk : k ≠ .endOfInput) (hopens : opens k)
    (hf : ∀ t : Token, t.kind = k → Steady anyKind (n - 1) l anyKind ends (f t) (f' t)) :
    Steady (· = k) n 1 opens ends (Reader.pop >>= f) (Reader.pop >>= f') :=
  pop (by rintro _ rfl; exact ⟨hk, hopens⟩) hf

/-- A look at the next token, which is the first of those that are taken, or else one at which the
reader ends. -/
theorem peek {f f' : Kind → Reader β}
    (h : ∀ k, pre k → ∃ l, least ≤ l ∧ Steady (· = k) n l opens ends (f k) (f' k) ∧
      (l = 0 → ∀ k', ends k' → f' k' = f' k)) :
    Steady pre n least opens ends (Reader.peek >>= f) (Reader.peek >>= f') := by
  intro taken ahead b c hp hr
  obtain ⟨l, hl, hsteady, hends⟩ := h _ hp
  have hrun : f (firstKind ahead) ⟨taken, ahead⟩ = .ok (b, c) := by
    rw [← Cursor.firstKind_rest ⟨taken, ahead⟩]
    exact hr
  obtain ⟨ts, rest, rfl, rfl, hlength, hfirst, hagain⟩ := hsteady _ _ _ _ rfl hrun
  refine ⟨ts, rest, rfl, rfl, hl.trans hlength, hfirst, fun u rest' hu hlen => ?_⟩
  have hagain := hagain u rest' hu hlen
  cases ts with
  | nil =>
    rw [← hends (Nat.le_zero.1 hlength) u.kind hu] at hagain
    exact hagain
  | cons v ts => exact hagain

/-- A loop that is out of turns, and one that sees that it ends. -/
theorem pure_peek {a : β} {f' : Kind → Reader β} (h : ∀ k, ends k → f' k = Pure.pure a) :
    Steady pre n 0 opens ends (Pure.pure a) (Reader.peek >>= f') := by
  rintro taken ahead _ _ _ ⟨⟩
  refine ⟨[], ahead, rfl, rfl, Nat.le_refl _, by simp, fun t rest' ht _ => ?_⟩
  exact congrArg (fun r : Reader β => r ⟨taken, t :: rest'⟩) (h t.kind ht)

theorem pure_against {a : β} (hends : ∀ k', ends k' → k' ≠ k) :
    Steady pre n 0 opens ends (Pure.pure a)
      (Reader.peek >>= fun k' => if (k' != k) = true then Pure.pure a else t') :=
  pure_peek fun k' hk' => if_pos (bne_iff_ne.2 (hends k' hk'))

theorem pure_upTo {a : β} : Steady pre n 0 opens (· = k) (Pure.pure a)
    (Reader.peek >>= fun k' => if (k' == k) = true then Pure.pure a else s') :=
  pure_peek fun _ hk' => if_pos (beq_iff_eq.2 hk')

/-- A choice by the next kind. A branch that may take nothing is the one for the kinds at which the
reader ends. -/
theorem choose {p : Kind → Bool} {l' : Nat}
    (ht : Steady (fun k' => pre k' ∧ p k' = true) n l opens ends t t')
    (hs : Steady (fun k' => pre k' ∧ p k' = false) n l' opens ends s s')
    (hl : least ≤ l) (hl' : least ≤ l') (hends : l = 0 → ∀ k', ends k' → p k' = true)
    (hends' : l' = 0 → ∀ k', ends k' → p k' = false) :
    Steady pre n least opens ends (Reader.peek >>= fun k' => if p k' = true then t else s)
      (Reader.peek >>= fun k' => if p k' = true then t' else s') := by
  refine peek fun k' hk' => ?_
  cases hp : p k' with
  | true =>
    exact ⟨l, hl, ht.pre_imp (by rintro _ rfl; exact ⟨hk', hp⟩),
      fun h k'' hk'' => by rw [hends h k'' hk'']⟩
  | false =>
    exact ⟨l', hl', hs.pre_imp (by rintro _ rfl; exact ⟨hk', hp⟩),
      fun h k'' hk'' => by rw [hends' h k'' hk'']⟩

/-- What is read unless a token of a kind comes next, and otherwise. -/
theorem against (hs : Steady (fun k' => pre k' ∧ k' ≠ k) n least opens ends s s')
    (ht : Steady (· = k) n 1 opens ends t t') (hleast : least ≤ 1)
    (hends : least = 0 → ∀ k', ends k' → k' ≠ k) :
    Steady pre n least opens ends
      (Reader.peek >>= fun k' => if (k' != k) = true then s else t)
      (Reader.peek >>= fun k' => if (k' != k) = true then s' else t') :=
  choose (hs.pre_imp fun _ h => ⟨h.1, by simpa using h.2⟩) (ht.pre_imp fun _ h => by simpa using h.2)
    (Nat.le_refl _) hleast (fun h k' hk' => by simpa using hends h k' hk') nofun

/-- What is read if a token of a kind comes next, and otherwise. -/
theorem when (ht : Steady (· = k) n 1 opens ends t t')
    (hs : Steady (fun k' => pre k' ∧ k' ≠ k) n least opens ends s s') (hleast : least ≤ 1)
    (hends : least = 0 → ∀ k', ends k' → k' ≠ k) :
    Steady pre n least opens ends
      (Reader.peek >>= fun k' => if (k' == k) = true then t else s)
      (Reader.peek >>= fun k' => if (k' == k) = true then t' else s') :=
  choose (ht.pre_imp fun _ h => by simpa using h.2) (hs.pre_imp fun _ h => ⟨h.1, by simpa using h.2⟩)
    hleast (Nat.le_refl _) nofun fun h k' hk' => by simpa using hends h k' hk'

/-- What is read at a closing token, at which the reader ends, and otherwise. -/
theorem upTo (ht : Steady (· = k) n 0 opens (· = k) t t')
    (hs : Steady (fun k' => pre k' ∧ k' ≠ k) n 1 opens (· = k) s s') :
    Steady pre n 0 opens (· = k)
      (Reader.peek >>= fun k' => if (k' == k) = true then t else s)
      (Reader.peek >>= fun k' => if (k' == k) = true then t' else s') :=
  choose (ht.pre_imp fun _ h => by simpa using h.2) (hs.pre_imp fun _ h => ⟨h.1, by simpa using h.2⟩)
    (Nat.le_refl _) (Nat.zero_le _) (by rintro - _ rfl; simp) nofun

theorem next (h : ∀ u : Token, pre u.kind → Steady (· = u.kind) n (least + 1) opens ends (f u) (f' u)) :
    Steady pre n (least + 1) opens ends (Reader.next >>= f) (Reader.next >>= f') := by
  intro taken ahead b c hp hr
  have hkind := Cursor.firstKind_rest ⟨taken, ahead⟩
  obtain ⟨ts, rest, rfl, rfl, hlength, hfirst, hagain⟩ :=
    h _ (by rwa [hkind]) _ _ _ _ hkind.symm hr
  refine ⟨ts, rest, rfl, rfl, hlength, hfirst, fun u rest' hu hlen => ?_⟩
  cases ts with
  | nil => exact absurd hlength (by simp)
  | cons v ts => exact hagain u rest' hu hlen

theorem start {f f' : Nat → Reader β}
    (h : ∀ m, Steady pre n (least + 1) opens ends (f m) (f' m)) :
    Steady pre n (least + 1) opens ends (Reader.start >>= f) (Reader.start >>= f') :=
  next fun u hu => (h u.start).pre_imp (by rintro _ rfl; exact hu)

/-- A loop has as many turns as tokens are left, in both runs. -/
theorem remaining_of {f f' : Nat → Reader β} {q : Nat → Prop}
    (hpre : ∀ ahead, pre (firstKind ahead) → q ahead.length)
    (h : ∀ m turns turns', m ≤ n → m ≤ turns' → q turns →
      Steady pre m least opens ends (f turns) (f' turns')) :
    Steady pre n least opens ends (Reader.remaining >>= f) (Reader.remaining >>= f') := by
  intro taken ahead b c hp hr
  obtain ⟨ts, rest, rfl, rfl, hlength, hfirst, -⟩ :=
    h 0 ahead.length 0 (Nat.zero_le _) (Nat.le_refl _) (hpre _ hp) _ _ _ _ hp hr
  refine ⟨ts, rest, rfl, rfl, hlength, hfirst, fun u rest' hu hlen => ?_⟩
  obtain ⟨ts', rest'', -, hc, -, -, hagain⟩ :=
    h _ (ts ++ rest).length _ hlen (Nat.le_refl _) (hpre _ hp) _ _ _ _ hp hr
  obtain rfl : ts = ts' := by
    simpa using congrArg Cursor.taken hc
  exact hagain u rest' hu (Nat.le_refl _)

theorem remaining {f f' : Nat → Reader β}
    (h : ∀ m turns turns', m ≤ n → m ≤ turns' → Steady pre m least opens ends (f turns) (f' turns')) :
    Steady pre n least opens ends (Reader.remaining >>= f) (Reader.remaining >>= f') :=
  remaining_of (q := fun _ => True) (fun _ _ => trivial) fun m turns turns' hm hturns _ =>
    h m turns turns' hm hturns

/-- A loop with a number of turns of its own, and one with as many turns as tokens are left. -/
theorem remaining_right {f' : Nat → Reader α}
    (h : ∀ m turns, m ≤ n → m ≤ turns → Steady pre m least opens ends r (f' turns)) :
    Steady pre n least opens ends r (Reader.remaining >>= f') := by
  intro taken ahead b c hp hr
  obtain ⟨ts, rest, rfl, rfl, hlength, hfirst, -⟩ :=
    h 0 0 (Nat.zero_le _) (Nat.le_refl _) _ _ _ _ hp hr
  refine ⟨ts, rest, rfl, rfl, hlength, hfirst, fun u rest' hu hlen => ?_⟩
  obtain ⟨ts', rest'', -, hc, -, -, hagain⟩ := h _ _ hlen (Nat.le_refl _) _ _ _ _ hp hr
  obtain rfl : ts = ts' := by
    simpa using congrArg Cursor.taken hc
  exact hagain u rest' hu (Nat.le_refl _)

/-- Where a token is left, so is a turn. -/
theorem remaining_succ {f f' : Nat → Reader β} (hpre : ∀ k, pre k → k ≠ .endOfInput)
    (h : ∀ m turns turns', m ≤ n → m ≤ turns' →
      Steady pre m least opens ends (f (turns + 1)) (f' turns')) :
    Steady pre n least opens ends (Reader.remaining >>= f) (Reader.remaining >>= f') := by
  refine remaining_of (q := (0 < ·)) (fun ahead hp => List.length_pos_iff.2 ?_)
    fun m turns turns' hm hturns hpos => ?_
  · rintro rfl
    exact hpre _ hp rfl
  · obtain ⟨turns, rfl⟩ : ∃ k, turns = k + 1 := ⟨turns - 1, by omega⟩
    exact h m turns turns' hm hturns

theorem spanFrom {m : Nat} {f f' : Span → Reader β}
    (h : ∀ s, Steady pre n least opens ends (f s) (f' s)) :
    Steady pre n least opens ends (Grammar.spanFrom m >>= f) (Grammar.spanFrom m >>= f') :=
  fun taken ahead b c hp hr =>
    h ⟨m, Cursor.lastEnd ⟨taken, ahead⟩⟩ taken ahead b c hp hr

theorem lift {x : Except Fault α} (h : ∀ a, Steady pre n least opens ends (f₁ a) (f₁' a)) :
    Steady pre n least opens ends ((liftM x : Reader α) >>= f₁) ((liftM x : Reader α) >>= f₁') := by
  intro taken ahead b c hp hr
  cases x with
  | error e => cases hr
  | ok a => exact h a taken ahead b c hp hr

theorem require {f f' : Unit → Reader β} (hf : pre k → Steady (· = k) n least opens ends (f ()) (f' ()))
    (hends : least = 0 → ∀ k', ends k' → k' = k) :
    Steady pre n least opens ends (Reader.require k >>= f) (Reader.require k >>= f') := by
  intro taken ahead b c hp hr
  obtain ⟨p, hrequire, hrun⟩ := bind_eq_ok.1 hr
  rw [Heeds.require_run, Cursor.firstKind_rest] at hrequire
  split at hrequire
  · rename_i hk
    cases hrequire
    obtain ⟨ts, rest, rfl, rfl, hlength, hfirst, hagain⟩ := hf (hk ▸ hp) _ _ _ _ hk hrun
    refine ⟨ts, rest, rfl, rfl, hlength, hfirst, fun u rest' hu hlen => ?_⟩
    refine bind_eq_ok.2 ⟨((), ⟨taken, ts ++ u :: rest'⟩), ?_, hagain u rest' hu hlen⟩
    have hkind : firstKind (ts ++ u :: rest') = k := by
      cases ts with
      | nil => exact hends (Nat.le_zero.1 hlength) _ hu
      | cons v ts => exact hk
    rw [Heeds.require_run, Cursor.firstKind_rest, if_pos hkind]
  · cases hrequire

theorem expect (hk : k ≠ .endOfInput) (hopens : opens k)
    (hf : ∀ t : Token, t.kind = k → Steady anyKind (n - 1) l anyKind ends (f t) (f' t)) :
    Steady pre n 1 opens ends (Reader.expect k >>= f) (Reader.expect k >>= f') := by
  rw [Reader.expect, bind_assoc, bind_assoc]
  exact require (fun _ => popped hk hopens hf) nofun

end Steps

end Steady

end Hoist.Surface
