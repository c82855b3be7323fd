import Hoist.Proofs.Lowering.Refusals

/-!
# How a unit may end

Whatever its text is, a unit over a table of its own ends in one of three ways: with its function
lowered, with a fault that blames a piece of the text, or with a failure that shows a place of the text.
What the front end relies on along the way holds of every text: open brackets are opening ones, there is
always a token to look at, and no escape is cut off by the end of its string.
-/

namespace Hoist.Lowering

open Hoist.Flat (Symbol Source)
open Hoist.Surface (Token Cursor Fault)

/-- What the readers rely on without a check of their own. -/
structure Guarded (text : List Char) : Prop where
  /-- Every bracket that is open behind some tokens has a partner that closes it. -/
  brackets : ∀ tokens opened : List Token,
    tokens.foldlM Surface.Lexer.matchBracket [] = .ok opened →
    ∀ b ∈ opened, ∃ o c, b.kind = .mark o ∧ o.closing? = some c
  /-- However far a cursor has moved on, there is a next token, and it is a piece of the text. -/
  next : ∀ tokens, Surface.tokenize text = .ok tokens →
    ∀ n, ∃ t rest, (Cursor.advance^[n] (.ofTokens tokens)).rest = t :: rest ∧ t.OfText text
  /-- Between the quotes of a string token every backslash has its character. -/
  escapes : ∀ tokens, Surface.tokenize text = .ok tokens → ∀ t ∈ tokens, t.kind = .string →
    Surface.escapesWhole (Surface.inQuotes t.text) = true

/-- The ways in which a unit over a source may end. -/
inductive Documented (source : Source) : Except UnitError Symbol → Prop
  | lowered {entry} : Documented source (.ok entry)
  /-- The text cannot be read, and the fault is about a piece of it. -/
  | unreadable {fault : Fault} (piece : fault.OfText source.text) :
      Documented source (.error (.unreadable fault))
  /-- Something in the text is refused, and the failure shows its place. -/
  | refused {failure : Failure} (place : failure.Located source) :
      Documented source (.error (.failed failure))

theorem opened_brackets {tokens opened opened' : List Token}
    (hopened : ∀ b ∈ opened, ∃ o c, b.kind = .mark o ∧ o.closing? = some c)
    (h : tokens.foldlM Surface.Lexer.matchBracket opened = .ok opened') :
    ∀ b ∈ opened', ∃ o c, b.kind = .mark o ∧ o.closing? = some c := by
  induction tokens generalizing opened with
  | nil =>
    cases h
    exact hopened
  | cons t tokens ih =>
    rw [List.foldlM_cons] at h
    obtain ⟨between, hbetween, h⟩ := Surface.bind_eq_ok.1 h
    refine ih ?_ h
    rcases Surface.Lexer.matchBracket_spec hbetween with
      ⟨-, rfl⟩ | ⟨o, c, ht, hc, rfl⟩ | ⟨opening, o, c, rfl, -⟩
    · exact hopened
    · exact List.forall_mem_cons.2 ⟨⟨o, c, ht, hc⟩, hopened⟩
    · exact (List.forall_mem_cons.1 hopened).2

theorem guarded (text : List Char) : Guarded text where
  brackets _ _ h := opened_brackets (fun _ hb => by cases hb) h
  next tokens h n := by
    have hc := (Cursor.OfText.of_tokenize h).advance_iterate n
    obtain ⟨t, rest, hrest⟩ := List.exists_cons_of_ne_nil hc.rest_ne_nil
    exact ⟨t, rest, hrest, hc.rest t (by simp [hrest])⟩
  escapes tokens h t ht hk := (((Surface.tokenize_settles text).ok tokens h t ht).string hk).2

theorem lowerModule_documented {source : Source} {opts : Options} {m : Surface.Module}
    (hx : opts.expansions = []) (ht : opts.table = .empty) (hspan : m.span.start ≤ source.text.length)
    (hbody : ∀ st ∈ m.body, st.Placed source.text.length) (log : String) :
    Documented source (lowerModule m source opts log).result := by
  have hlands : Lands source
      (Lower.lowerEntry ⟨source, opts.expansions, opts.verbose⟩ m) (rootState opts log) fun _ => True :=
    lowerEntry_lands hx (rootState_root log ht) hspan hbody
  obtain ⟨entry, t, -, hm⟩ | ⟨e, t, hr, hm⟩ := lowerModule_cases m source opts log
  · rw [hm]
    exact .lowered
  · rw [hm]
    exact .refused (hlands.of_error hr)

/-- A unit ends in a documented way, and what its readers rely on holds of its text. -/
theorem lowerSource_documented (source : Source) (verbose : Bool) :
    Documented source (lowerSource source { verbose := verbose }).result ∧ Guarded source.text := by
  refine ⟨?_, guarded source.text⟩
  have hread := Surface.readModule_settles source.text
  unfold lowerSource
  cases hm : Surface.readModule source.text with
  | error fault => exact .unreadable (hread.error fault hm)
  | ok m =>
    obtain ⟨hspan, hbody⟩ := hread.ok m hm
    exact lowerModule_documented rfl rfl hspan hbody _

end Hoist.Lowering
