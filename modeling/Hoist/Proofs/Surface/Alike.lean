import Hoist.Proofs.Surface.Heeding
import Hoist.Proofs.Surface.Unplaced

/-!
# Runs that look alike

Two runs agree when both stop with a fault, or both succeed with results that look the same. Readers are
alike when they agree at every two cursors before the same tokens, and leave the same tokens behind: what
they read does not depend on where the tokens stand. There is one rule for each operation of
cursors, so two readers of one shape are gone through side by side.
-/

namespace Hoist.Surface

/-- Two runs that both fail, or both succeed with results that look the same. -/
inductive Agree {α β : Type} (view : α → β) : Except Fault α → Except Fault α → Prop
  | faults {f f'} : Agree view (.error f) (.error f')
  | results {a a'} (h : view a = view a') : Agree view (.ok a) (.ok a')

section Agree

variable {α β γ δ : Type} {view : α → β} {x x' : Except Fault α}

theorem Agree.bind {after : γ → δ} {f f' : α → Except Fault γ} (h : Agree view x x')
    (hf : ∀ a a', view a = view a' → Agree after (f a) (f' a')) :
    Agree after (x >>= f) (x' >>= f') := by
  cases h with
  | faults => exact .faults
  | results h => exact hf _ _ h

theorem Agree.ite {p : Prop} [Decidable p] {y y' : Except Fault α} (h : Agree view x x')
    (hy : Agree view y y') : Agree view (if p then x else y) (if p then x' else y') := by
  split
  · exact h
  · exact hy

/-- Of two runs that agree, one gives a result that looks like `b` just if the other does. -/
theorem Agree.ok_iff {b : β} (h : Agree view x x') :
    (∃ a', x' = .ok a' ∧ view a' = b) ↔ ∃ a, x = .ok a ∧ view a = b := by
  cases h with
  | faults => simp
  | results h => simp [h]

end Agree

/-- What a token is, wherever it stands: its kind and its text. -/
def Token.form (t : Token) : Kind × List Char := (t.kind, t.text)

theorem Token.eq_of_form {t t' : Token} (h : t.form = t'.form) : t' = { t with start := t'.start } := by
  obtain ⟨kind, start, text⟩ := t
  obtain ⟨kind', start', text'⟩ := t'
  cases h
  rfl

namespace Cursor

variable {c c' : Cursor}

/-- The tokens still to be read, wherever they stand. -/
def forms (c : Cursor) : List (Kind × List Char) := c.rest.map Token.form

theorem head_form (h : c.forms = c'.forms) : c.head.form = c'.head.form := by
  obtain ⟨taken, rest⟩ := c
  obtain ⟨taken', rest'⟩ := c'
  cases rest with
  | nil =>
    obtain rfl := List.map_eq_nil_iff.1 h.symm
    rfl
  | cons t rest =>
    obtain ⟨t', rest', rfl, ht, -⟩ := List.map_eq_cons_iff.1 h.symm
    exact ht.symm

theorem head_eq (h : c.forms = c'.forms) : ∃ n, c'.head = { c.head with start := n } :=
  ⟨_, Token.eq_of_form (head_form h)⟩

theorem head_kind (h : c.forms = c'.forms) : c.head.kind = c'.head.kind :=
  congrArg Prod.fst (head_form h)

theorem secondKind_eq (h : c.forms = c'.forms) : c.secondKind = c'.secondKind := by
  have hdrop : (c.rest.drop 1).map Token.form = (c'.rest.drop 1).map Token.form := by
    simpa only [forms, List.map_drop] using congrArg (List.drop 1) h
  unfold secondKind
  cases hrest : c.rest.drop 1 with
  | nil =>
    rw [hrest] at hdrop
    rw [List.map_eq_nil_iff.1 hdrop.symm]
    exact head_kind h
  | cons t rest =>
    rw [hrest] at hdrop
    obtain ⟨t', rest', hrest', ht, -⟩ := List.map_eq_cons_iff.1 hdrop.symm
    rw [hrest']
    exact (congrArg Prod.fst ht).symm

theorem forms_advance (h : c.forms = c'.forms) : c.advance.forms = c'.advance.forms := by
  obtain ⟨taken, rest⟩ := c
  obtain ⟨taken', rest'⟩ := c'
  cases rest with
  | nil =>
    obtain rfl := List.map_eq_nil_iff.1 h.symm
    rfl
  | cons t rest =>
    obtain ⟨t', rest', rfl, ht, hrest⟩ := List.map_eq_cons_iff.1 h.symm
    have hkind : t'.kind = t.kind := congrArg Prod.fst ht
    simp only [advance, hkind]
    split
    · exact h
    · exact hrest.symm

end Cursor

/-- Two readers that agree wherever they stand before the same tokens, and leave the same tokens. -/
def Alike {α β : Type} (view : α → β) (r r' : Reader α) : Prop :=
  ∀ c c' : Cursor, c.forms = c'.forms → Agree (fun p => (view p.1, p.2.forms)) (r c) (r' c')

namespace Alike

variable {α β γ δ : Type} {view : α → β} {after : γ → δ} {r r' s s' : Reader α}

theorem pure {a a' : α} (h : view a = view a') : Alike view (Pure.pure a) (Pure.pure a') :=
  fun _ _ hc => .results (Prod.ext h hc)

theorem bind {f f' : α → Reader γ} (h : Alike view r r')
    (hf : ∀ a a', view a = view a' → Alike after (f a) (f' a')) :
    Alike after (r >>= f) (r' >>= f') :=
  fun c c' hc => (h c c' hc).bind fun p p' hp =>
    hf p.1 p'.1 (Prod.ext_iff.1 hp).1 p.2 p'.2 (Prod.ext_iff.1 hp).2

theorem ite {p : Prop} [Decidable p] (h : Alike view r r') (hs : Alike view s s') :
    Alike view (if p then r else s) (if p then r' else s') := by
  split
  · exact h
  · exact hs

/-- A value that is already there, or not. -/
theorem lift {x x' : Except Fault α} (h : Agree view x x') :
    Alike view (liftM x : Reader α) (liftM x' : Reader α) :=
  fun _ _ hc => h.bind fun _ _ ha => .results (Prod.ext ha hc)

theorem cursor {f f' : Cursor → Reader γ}
    (hf : ∀ c c' : Cursor, c.forms = c'.forms → Alike after (f c) (f' c')) :
    Alike after (get >>= f) (get >>= f') :=
  fun c c' hc => hf c c' hc c c' hc

theorem next {f f' : Token → Reader γ} (hf : ∀ t n, Alike after (f t) (f' { t with start := n })) :
    Alike after (Reader.next >>= f) (Reader.next >>= f') := by
  intro c c' hc
  obtain ⟨n, hn⟩ := Cursor.head_eq hc
  have h := hf c.head n c c' hc
  rw [← hn] at h
  exact h

theorem peek {f f' : Kind → Reader γ} (hf : ∀ k, Alike after (f k) (f' k)) :
    Alike after (Reader.peek >>= f) (Reader.peek >>= f') := by
  intro c c' hc
  have h := hf c.head.kind c c' hc
  nth_rewrite 2 [Cursor.head_kind hc] at h
  exact h

theorem peekSecond {f f' : Kind → Reader γ} (hf : ∀ k, Alike after (f k) (f' k)) :
    Alike after (Reader.peekSecond >>= f) (Reader.peekSecond >>= f') := by
  intro c c' hc
  have h := hf c.secondKind c c' hc
  nth_rewrite 2 [Cursor.secondKind_eq hc] at h
  exact h

theorem pop {f f' : Token → Reader γ} (hf : ∀ t n, Alike after (f t) (f' { t with start := n })) :
    Alike after (Reader.pop >>= f) (Reader.pop >>= f') := by
  intro c c' hc
  obtain ⟨n, hn⟩ := Cursor.head_eq hc
  have h := hf c.head n c.advance c'.advance (Cursor.forms_advance hc)
  rw [← hn] at h
  exact h

theorem unexpected {note : String} : Alike view (Reader.unexpected note) (Reader.unexpected note) :=
  fun _ _ _ => .faults

theorem refused {note : String} {f f' : α → Reader γ} :
    Alike after (Reader.unexpected note >>= f) (Reader.unexpected note >>= f') :=
  fun _ _ _ => .faults

theorem require {kind : Kind} {f f' : Unit → Reader γ} (hf : Alike after (f ()) (f' ())) :
    Alike after (Reader.require kind >>= f) (Reader.require kind >>= f') := by
  have hrequire : Alike id (Reader.require kind) (Reader.require kind) := fun c c' hc => by
    rw [Heeds.require_run, Heeds.require_run, Cursor.head_kind hc]
    split
    · exact .results (Prod.ext rfl hc)
    · exact .faults
  exact hrequire.bind fun _ _ _ => hf

theorem expect {kind : Kind} {f f' : Token → Reader γ}
    (hf : ∀ t n, Alike after (f t) (f' { t with start := n })) :
    Alike after (Reader.expect kind >>= f) (Reader.expect kind >>= f') := by
  rw [Reader.expect, bind_assoc, bind_assoc]
  exact .require (.pop hf)

theorem start {f f' : Nat → Reader γ} (hf : ∀ n n', Alike after (f n) (f' n')) :
    Alike after (Reader.start >>= f) (Reader.start >>= f') :=
  fun c c' hc => hf c.head.start c'.head.start c c' hc

theorem remaining {f f' : Nat → Reader γ} (hf : ∀ n, Alike after (f n) (f' n)) :
    Alike after (Reader.remaining >>= f) (Reader.remaining >>= f') := by
  intro c c' hc
  have hlength : c.rest.length = c'.rest.length := by
    simpa only [Cursor.forms, List.length_map] using congrArg List.length hc
  have h := hf c.rest.length c c' hc
  nth_rewrite 2 [hlength] at h
  exact h

theorem spanFrom {n n' : Nat} {f f' : Span → Reader γ} (hf : ∀ s s', Alike after (f s) (f' s')) :
    Alike after (Grammar.spanFrom n >>= f) (Grammar.spanFrom n' >>= f') :=
  fun c c' hc => hf ⟨n, c.lastEnd⟩ ⟨n', c'.lastEnd⟩ c c' hc

end Alike

end Hoist.Surface
