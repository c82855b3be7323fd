import Hoist.Proofs.Surface.Lexemes
import Hoist.Surface.Grammar.Expression

/-!
# What readers do with the lexemes before them

A reader decides by the lexemes that it has before it; the places of the tokens get only into the spans
of what it reads. `Reads r ls post` says that, with the lexemes `ls` before it, the reader `r` succeeds,
and that `post` holds of its result and of the lexemes it leaves. There is one rule for each operation of
cursors, so the steps of a reader are gone through one after the other.
-/

namespace Hoist.Surface

/-- The lexemes still to be read. -/
def Cursor.ahead (c : Cursor) : List Lexeme := c.rest.map Token.lexeme

/-- A reader succeeds on some lexemes, with a result and a rest of which `post` holds. -/
def Reads {α : Type} (r : Reader α) (ls : List Lexeme) (post : α → List Lexeme → Prop) : Prop :=
  ∀ c : Cursor, c.ahead = ls → ∃ a c', r.run c = .ok (a, c') ∧ post a c'.ahead

/-- A reader takes lexemes up to a rest, and its result looks like `b`. -/
def Yields {α β : Type} (view : α → β) (r : Reader α) (b : β) (ls rest : List Lexeme) : Prop :=
  Reads r ls fun a ls' => view a = b ∧ ls' = rest

variable {α β γ : Type} {r : Reader α} {f : α → Reader β} {ls rest : List Lexeme} {x : Lexeme}
  {post : α → List Lexeme → Prop} {post' : β → List Lexeme → Prop} {c : Cursor}

theorem Cursor.kind_head (h : c.ahead = ls) : c.head.kind = nextKind ls := by
  subst h
  obtain ⟨taken, rest⟩ := c
  cases rest <;> rfl

theorem Cursor.kind_second (h : c.ahead = ls) : c.secondKind = Surface.secondKind ls := by
  subst h
  obtain ⟨taken, rest⟩ := c
  rcases rest with _ | ⟨t, _ | ⟨t', rest⟩⟩ <;> rfl

theorem Cursor.lexeme_head (h : c.ahead = x :: ls) : c.head.lexeme = x := by
  obtain ⟨t, rest, hrest, ht, -⟩ := List.map_eq_cons_iff.1 h
  simp [head, hrest, ht]

theorem Cursor.ahead_advance (h : c.ahead = x :: ls) (hx : x.kind ≠ .endOfInput) :
    c.advance.ahead = ls := by
  obtain ⟨t, rest, hrest, rfl, hls⟩ := List.map_eq_cons_iff.1 h
  have ht : (t.kind == .endOfInput) = false := beq_eq_false_iff_ne.2 hx
  simp [advance, hrest, ahead, ht, hls]

theorem Cursor.kind_head_placed (ls : List Lexeme) :
    (Cursor.ofTokens (placed 0 ls)).head.kind = nextKind ls := by
  cases ls <;> rfl

theorem Cursor.kind_second_placed (ls : List Lexeme) :
    (Cursor.ofTokens (placed 0 ls)).secondKind = Surface.secondKind ls := by
  rcases ls with _ | ⟨x, _ | ⟨y, ls⟩⟩ <;> rfl

/-- The comparison that starts with the next lexeme does not depend on where it stands. -/
theorem Cursor.comparison_eq (h : c.ahead = ls) :
    Grammar.comparison? c = Grammar.comparison? (.ofTokens (placed 0 ls)) := by
  unfold Grammar.comparison?
  rw [kind_head h, kind_head_placed, kind_second h, kind_second_placed]

namespace Reads

theorem mono (h : Reads r ls post) {post' : α → List Lexeme → Prop}
    (hpost : ∀ a ls', post a ls' → post' a ls') : Reads r ls post' := by
  intro c hc
  obtain ⟨a, c', hrun, ha⟩ := h c hc
  exact ⟨a, c', hrun, hpost _ _ ha⟩

theorem bind (h : Reads r ls post) (hf : ∀ a ls', post a ls' → Reads (f a) ls' post') :
    Reads (r >>= f) ls post' := by
  intro c hc
  obtain ⟨a, c', hrun, ha⟩ := h c hc
  obtain ⟨b, c'', hrun', hb⟩ := hf a _ ha c' rfl
  exact ⟨b, c'', by rw [StateT.run_bind, hrun]; exact hrun', hb⟩

theorem pure {a : α} (h : post a ls) : Reads (Pure.pure a : Reader α) ls post := by
  rintro c rfl
  exact ⟨a, c, rfl, h⟩

/-- Readers that do the same at every cursor before some lexemes read the same. -/
theorem of_run_eq {r' : Reader α} (h : Reads r' ls post)
    (heq : ∀ c : Cursor, c.ahead = ls → r.run c = r'.run c) : Reads r ls post := by
  intro c hc
  rw [heq c hc]
  exact h c hc

variable {f : Kind → Reader β} in
theorem peek (h : Reads (f (nextKind ls)) ls post') : Reads (Reader.peek >>= f) ls post' :=
  h.of_run_eq fun c hc => by rw [← Cursor.kind_head hc]; rfl

variable {f : Kind → Reader β} in
theorem peekSecond (h : Reads (f (secondKind ls)) ls post') :
    Reads (Reader.peekSecond >>= f) ls post' :=
  h.of_run_eq fun c hc => by rw [← Cursor.kind_second hc]; rfl

variable {f : Nat → Reader β} in
theorem remaining (h : Reads (f ls.length) ls post') : Reads (Reader.remaining >>= f) ls post' :=
  h.of_run_eq fun c hc => by rw [← hc, Cursor.ahead, List.length_map]; rfl

variable {f : Nat → Reader β} in
theorem start (h : ∀ n, Reads (f n) ls post') : Reads (Reader.start >>= f) ls post' :=
  fun c hc => h c.head.start c hc

variable {f : Span → Reader β} in
theorem spanFrom {n : Nat} (h : ∀ s, Reads (f s) ls post') :
    Reads (Grammar.spanFrom n >>= f) ls post' :=
  fun c hc => h ⟨n, c.lastEnd⟩ c hc

variable {f : Token → Reader β} in
theorem next (h : ∀ t, t.lexeme = x → Reads (f t) (x :: ls) post') :
    Reads (Reader.next >>= f) (x :: ls) post' :=
  fun c hc => h c.head (Cursor.lexeme_head hc) c hc

variable {f : Token → Reader β} in
theorem pop (hx : x.kind ≠ .endOfInput) (h : ∀ t, t.lexeme = x → Reads (f t) ls post') :
    Reads (Reader.pop >>= f) (x :: ls) post' :=
  fun c hc => h c.head (Cursor.lexeme_head hc) c.advance (Cursor.ahead_advance hc hx)

variable {f : Unit → Reader β} in
theorem require {k : Kind} (hk : nextKind ls = k) (h : Reads (f ()) ls post') :
    Reads (Reader.require k >>= f) ls post' := by
  refine h.of_run_eq fun c hc => ?_
  have hrun : (Reader.require k).run c = .ok ((), c) := by
    show StateT.run (if c.head.kind != k then _ else _) c = _
    rw [Cursor.kind_head hc, hk, if_neg (by simp)]
    rfl
  rw [StateT.run_bind, hrun]
  rfl

variable {f : Token → Reader β} in
theorem expect {k : Kind} (hk : x.kind = k) (hx : k ≠ .endOfInput)
    (h : ∀ t, t.lexeme = x → Reads (f t) ls post') :
    Reads (Reader.expect k >>= f) (x :: ls) post' := by
  rw [Reader.expect, bind_assoc]
  exact .require hk (.pop (hk ▸ hx) h)

section Choices

variable {k : Kind} {a b : Reader β}

/-- A choice by the next kind, which is another one. -/
theorem other (hk : nextKind ls ≠ k) (h : Reads a ls post') :
    Reads (Reader.peek >>= fun k' => if (k' != k) = true then a else b) ls post' :=
  .peek (by rwa [if_pos (bne_iff_ne.2 hk)])

/-- A choice by the next kind, which is the same. -/
theorem same (hk : nextKind ls = k) (h : Reads b ls post') :
    Reads (Reader.peek >>= fun k' => if (k' != k) = true then a else b) ls post' :=
  .peek (by rwa [if_neg (by simp [hk])])

/-- A choice for the next kind. -/
theorem found (hk : nextKind ls = k) (h : Reads a ls post') :
    Reads (Reader.peek >>= fun k' => if (k' == k) = true then a else b) ls post' :=
  .peek (by rwa [if_pos (beq_iff_eq.2 hk)])

/-- A choice against the next kind. -/
theorem missed (hk : nextKind ls ≠ k) (h : Reads b ls post') :
    Reads (Reader.peek >>= fun k' => if (k' == k) = true then a else b) ls post' :=
  .peek (by rwa [if_neg (by simpa using hk)])

end Choices

/-- A value that is already there, or not. -/
theorem lift {v : Except Fault α} {a : α} (hv : v = .ok a) (h : Reads (f a) ls post') :
    Reads ((liftM v : Reader α) >>= f) ls post' := by
  subst hv
  exact h

theorem get {f : Cursor → Reader β} (h : ∀ c : Cursor, c.ahead = ls → Reads (f c) ls post') :
    Reads (MonadState.get >>= f) ls post' :=
  fun c hc => h c hc c hc

end Reads

/-- A reader that yields a value is one step of a longer reader. -/
theorem Yields.bind {view : α → γ} {b : γ} (h : Yields view r b ls rest)
    (hf : ∀ a, view a = b → Reads (f a) rest post') : Reads (r >>= f) ls post' :=
  Reads.bind h fun a _ ⟨ha, hls'⟩ => hls' ▸ hf a ha

end Hoist.Surface
