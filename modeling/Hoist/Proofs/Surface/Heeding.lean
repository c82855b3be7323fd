import Hoist.Proofs.Surface.Pieces
import Hoist.Proofs.Surface.Accepted
import Hoist.Proofs.TokenLayout
import Hoist.Surface.Grammar.Expression

/-!
# Readers among the tokens of a text

Readers look at the next token and take it, so all that they know of the text comes from its tokens.
The end of the input stays in front of them: there is always a next token, and whatever a reader
refuses is a piece of the text.
-/

namespace Hoist.Surface

/-- A cursor among the tokens of a text, before the end of the input. -/
structure Cursor.OfText (text : List Char) (c : Cursor) : Prop where
  rest : ∀ t ∈ c.rest, t.OfText text
  ended : ∃ inner last, c.rest = inner ++ [last] ∧ last.kind = .endOfInput

namespace Cursor.OfText

variable {text : List Char} {c : Cursor}

theorem rest_ne_nil (h : c.OfText text) : c.rest ≠ [] := by
  obtain ⟨inner, last, hrest, -⟩ := h.ended
  simp [hrest]

theorem head (h : c.OfText text) : c.head.OfText text := by
  obtain ⟨t, rest, hc⟩ := List.exists_cons_of_ne_nil h.rest_ne_nil
  rw [Cursor.head, hc]
  exact h.rest t (by simp [hc])

/-- The end of the input is never taken. -/
theorem advance (h : c.OfText text) : c.advance.OfText text := by
  unfold Cursor.advance
  split
  · exact h
  · rename_i t rest hc
    split
    · exact h
    · rename_i hkind
      obtain ⟨inner, last, hrest, hlast⟩ := h.ended
      refine ⟨fun x hx => h.rest x (hc ▸ List.mem_cons_of_mem _ hx), ?_⟩
      cases inner with
      | nil =>
        rw [hc, List.nil_append] at hrest
        obtain ⟨rfl, -⟩ := List.cons.inj hrest
        simp [hlast] at hkind
      | cons d inner =>
        rw [hc, List.cons_append] at hrest
        exact ⟨inner, last, (List.cons.inj hrest).2, hlast⟩

theorem advance_iterate (h : c.OfText text) (n : Nat) : (Cursor.advance^[n] c).OfText text := by
  induction n with
  | zero => exact h
  | succ n ih =>
    rw [Function.iterate_succ_apply']
    exact ih.advance

theorem of_tokenize {tokens : List Token} (h : tokenize text = .ok tokens) :
    (Cursor.ofTokens tokens).OfText text where
  rest := (tokenize_settles text).ok tokens h
  ended := by
    obtain ⟨inner, hinner, -⟩ := (tokenize_wellLaid h).ended
    obtain ⟨front, back, htokens, -, hback⟩ := List.map_eq_append_iff.1 hinner
    obtain ⟨last, rfl, hlast⟩ := List.map_eq_singleton_iff.1 hback
    exact ⟨front, last, htokens, hlast⟩

end Cursor.OfText

/-- A reader that moves on among the tokens of a text: it finds what `good` tells, or blames a piece of
the text. -/
def Heeds {α : Type} (text : List Char) (r : Reader α) (good : α → Prop) : Prop :=
  ∀ c : Cursor, c.OfText text →
    Settles (r c) (Fault.OfText text) fun p => good p.1 ∧ p.2.OfText text

namespace Heeds

variable {α β : Type} {text : List Char} {r : Reader α} {f : α → Reader β} {good good' : α → Prop}
  {after : β → Prop}

theorem imp (h : Heeds text r good) (hgood : ∀ a, good a → good' a) : Heeds text r good' :=
  fun c hc => (h c hc).imp fun _ hp => ⟨hgood _ hp.1, hp.2⟩

theorem any (h : Heeds text r good) : Heeds text r fun _ => True := h.imp fun _ _ => trivial

theorem pure {a : α} (h : good a) : Heeds text (Pure.pure a) good := fun _ hc => .of_ok ⟨h, hc⟩

theorem bind (h : Heeds text r good) (hf : ∀ a, good a → Heeds text (f a) after) :
    Heeds text (r >>= f) after :=
  fun c hc => (h c hc).bind fun p hp => hf p.1 hp.1 p.2 hp.2

theorem ite {p : Prop} [Decidable p] {r' : Reader α} (h : Heeds text r good)
    (h' : Heeds text r' good) : Heeds text (if p then r else r') good := by
  split
  · exact h
  · exact h'

theorem lift {x : Except Fault α} (h : Settles x (Fault.OfText text) good) :
    Heeds text (liftM x) good :=
  fun _ hc => h.bind fun _ ha => .of_ok ⟨ha, hc⟩

theorem cursor {f : Cursor → Reader β} (hf : ∀ c, Heeds text (f c) after) :
    Heeds text (get >>= f) after :=
  fun c hc => hf c c hc

theorem next {f : Token → Reader β}
    (hf : ∀ t, t.OfText text → Heeds text (f t) after) : Heeds text (Reader.next >>= f) after :=
  fun c hc => hf c.head hc.head c hc

theorem peek {f : Kind → Reader β} (hf : ∀ k, Heeds text (f k) after) :
    Heeds text (Reader.peek >>= f) after :=
  fun c hc => hf c.head.kind c hc

theorem peekSecond {f : Kind → Reader β} (hf : ∀ k, Heeds text (f k) after) :
    Heeds text (Reader.peekSecond >>= f) after :=
  fun c hc => hf c.secondKind c hc

theorem pop {f : Token → Reader β}
    (hf : ∀ t, t.OfText text → Heeds text (f t) after) : Heeds text (Reader.pop >>= f) after :=
  fun c hc => hf c.head hc.head c.advance hc.advance

/-- A token that is taken if it is of some kind. -/
theorem taken {k : Kind} {f : Token → Reader β} {r' : Reader β} (h : Heeds text r' after)
    (hf : ∀ t, t.OfText text → t.kind = k → Heeds text (f t) after) :
    Heeds text (do if (← Reader.peek) != k then r' else Reader.pop >>= f) after := by
  intro c hc
  change Settles ((if (c.head.kind != k) = true then r' else Reader.pop >>= f) c) _ _
  split
  · exact h c hc
  · rename_i hk
    exact hf c.head hc.head (by simpa using hk) c.advance hc.advance

theorem unexpected {note : String} : Heeds text (Reader.unexpected note) good :=
  fun _ hc => .of_error ⟨hc.head.occurs, fun h => by cases h⟩

theorem refused {note : String} : Heeds text (Reader.unexpected note >>= f) after :=
  (unexpected : Heeds text _ fun _ => False).bind fun _ h => h.elim

theorem require_run (kind : Kind) (c : Cursor) : Reader.require kind c =
    if c.head.kind = kind then .ok ((), c)
    else .error ⟨.expected kind, c.head.start, c.head.text⟩ := by
  change (if (c.head.kind != kind) = true then
    (throw ⟨.expected kind, c.head.start, c.head.text⟩ : Reader Unit) else Pure.pure ()) c = _
  by_cases hk : c.head.kind = kind
  · rw [if_neg (by simpa using hk), if_pos hk]
    rfl
  · rw [if_pos (by simpa using hk), if_neg hk]
    rfl

theorem require {kind : Kind} {f : Unit → Reader β} (hf : Heeds text (f ()) after) :
    Heeds text (Reader.require kind >>= f) after := by
  have hrequire : Heeds text (Reader.require kind) fun _ => True := fun c hc => by
    rw [require_run]
    split
    · exact .of_ok ⟨trivial, hc⟩
    · exact .of_error ⟨hc.head.occurs, fun h => by cases h⟩
  exact hrequire.bind fun _ _ => hf

theorem expect {kind : Kind} {f : Token → Reader β}
    (hf : ∀ t, t.OfText text → t.kind = kind → Heeds text (f t) after) :
    Heeds text (Reader.expect kind >>= f) after := by
  have hexpect : Heeds text (Reader.expect kind) fun t => t.OfText text ∧ t.kind = kind :=
    fun c hc => by
      change Settles (Reader.require kind c >>= fun p => Reader.pop p.2) _ _
      rw [require_run]
      split
      · rename_i hk
        exact .of_ok ⟨⟨hc.head, hk⟩, hc.advance⟩
      · exact .of_error ⟨hc.head.occurs, fun h => by cases h⟩
  exact hexpect.bind fun t ht => hf t ht.1 ht.2

theorem start {f : Nat → Reader β} (hf : ∀ n ≤ text.length, Heeds text (f n) after) :
    Heeds text (Reader.start >>= f) after :=
  fun c hc => hf c.head.start hc.head.occurs.le c hc

theorem remaining {f : Nat → Reader β} (hf : ∀ n, Heeds text (f n) after) :
    Heeds text (Reader.remaining >>= f) after :=
  fun c hc => hf c.rest.length c hc

theorem spanFrom {n : Nat} {f : Span → Reader β} (hf : ∀ s : Span, s.start = n → Heeds text (f s) after) :
    Heeds text (Grammar.spanFrom n >>= f) after :=
  fun c hc => hf ⟨n, c.lastEnd⟩ rfl c hc

end Heeds

end Hoist.Surface
