import Hoist.Proofs.Lowering.Opening

/-!
# Steps and both their outcomes

`Ends x s good bad` says that the step `x`, taken in the state `s`, either succeeds with a result and a
state that are good, or fails with a failure and a state that are bad. A sequence ends as its parts do,
and what is bad of one part is bad of the whole.
-/

namespace Hoist.Lowering

/-- What holds of the outcome of a step, be it a success or a failure. -/
def Ends {α : Type} (x : Lower α) (s : State) (good : α → State → Prop)
    (bad : Failure → State → Prop) : Prop :=
  match x s with
  | .ok a t => good a t
  | .error e t => bad e t

namespace Ends

variable {α β : Type} {s t : State} {x y : Lower α} {f : α → Lower β} {good good' : α → State → Prop}
  {bad bad' : Failure → State → Prop} {next : β → State → Prop}

theorem imp (h : Ends x s good bad) (hgood : ∀ a t, good a t → good' a t)
    (hbad : ∀ e t, bad e t → bad' e t) : Ends x s good' bad' := by
  unfold Ends at h ⊢
  cases hx : x s with
  | ok a t =>
    rw [hx] at h
    exact hgood a t h
  | error e t =>
    rw [hx] at h
    exact hbad e t h

theorem imp_good (h : Ends x s good bad) (hgood : ∀ a t, good a t → good' a t) :
    Ends x s good' bad := h.imp hgood fun _ _ hb => hb

theorem ok {a : α} (h : x s = .ok a t) (hg : good a t) : Ends x s good bad := by
  unfold Ends
  rwa [h]

/-- What is good of a success is known to be so of that success. -/
theorem known (h : Ends x s good bad) : Ends x s (fun a t => Yields x s a t ∧ good a t) bad := by
  unfold Ends at h ⊢
  cases hx : x s with
  | ok a t =>
    rw [hx] at h
    exact ⟨hx, h⟩
  | error e t =>
    rw [hx] at h
    exact h

/-- A step that succeeds leaves what is good. -/
theorem of_yields {a : α} (h : Ends x s good bad) (hy : Yields x s a t) : good a t := by
  unfold Ends at h
  rwa [show x s = .ok a t from hy] at h

theorem of_error {e : Failure} (h : Ends x s good bad) (he : x s = .error e t) : bad e t := by
  unfold Ends at h
  rwa [he] at h

theorem bind (hx : Ends x s good bad)
    (hf : ∀ a t, Yields x s a t → good a t → Ends (f a) t next bad) :
    Ends (x >>= f) s next bad := by
  unfold Ends at hx
  change Ends (EStateM.bind x f) s next bad
  cases h : x s with
  | ok a t =>
    rw [h] at hx
    have := hf a t h hx
    simpa only [Ends, EStateM.bind, h] using this
  | error e t =>
    rw [h] at hx
    simpa only [Ends, EStateM.bind, h] using hx

theorem pure {a : α} (h : good a s) : Ends (Pure.pure a) s good bad := h

theorem throw {e : Failure} (h : bad e s) : Ends (throw e : Lower α) s good bad := h

theorem ofExcept {v : Except Failure α} (hok : ∀ a, v = .ok a → good a s)
    (herror : ∀ e, v = .error e → bad e s) : Ends (Lower.ofExcept v) s good bad := by
  cases v with
  | ok a => exact hok a rfl
  | error e => exact herror e rfl

theorem ite {c : Prop} [Decidable c] (hx : c → Ends x s good bad) (hy : ¬ c → Ends y s good bad) :
    Ends (if c then x else y) s good bad := by
  split
  · exact hx ‹_›
  · exact hy ‹_›

/-- A sequence that starts by looking at the state, or by replacing it. -/
theorem getThen {f : State → Lower β} (h : Ends (f s) s next bad) :
    Ends (MonadState.get >>= f) s next bad := h

theorem setThen {f : PUnit → Lower β} (h : Ends (f ⟨⟩) t next bad) :
    Ends (MonadState.set t >>= f) s next bad := h

theorem bodyThen {f : Body → Lower β} (h : Ends (f s.body) s next bad) :
    Ends (Lower.body >>= f) s next bad := h

/-- A sequence that starts with a result that is known already. -/
theorem ofExceptThen {v : Except Failure α} (hok : ∀ a, v = .ok a → Ends (f a) s next bad)
    (herror : ∀ e, v = .error e → bad e s) : Ends (Lower.ofExcept v >>= f) s next bad := by
  cases v with
  | ok a => exact hok a rfl
  | error e => exact herror e rfl

theorem set {good : PUnit → State → Prop} (h : good ⟨⟩ t) :
    Ends (MonadState.set t : Lower PUnit) s good bad := h

theorem modifyBody {g : Body → Body} {good : Unit → State → Prop}
    (h : good () { s with body := g s.body }) : Ends (Lower.modifyBody g) s good bad := h

/-- An inner body is left for the outer one, however the step inside ends. -/
theorem within {inner : Body} {good : α × Body → State → Prop}
    (h : Ends x (s.resume inner) (fun a w => good (a, w.body) (w.resume s.body))
      fun e w => bad e (w.resume s.body)) : Ends (Lower.within inner x) s good bad := by
  unfold Ends Lower.within at *
  change match x (s.resume inner) with
    | .ok a t => good (a, t.body) (t.resume s.body)
    | .error e t => bad e (t.resume s.body) at h
  rw [show { s with body := inner } = s.resume inner from rfl]
  cases hx : x (s.resume inner) with
  | ok a t =>
    rw [hx] at h
    exact h
  | error e t =>
    rw [hx] at h
    exact h

/-- The table of its own that a step is taken over is thrown away. -/
theorem inScratch (h : Ends x s.scratch (fun a w => good a (w.restore s))
    fun e w => bad e (w.restore s)) : Ends (Lower.inScratch x) s good bad := by
  unfold Ends Lower.inScratch at *
  rw [show { s with table := Flat.Table.empty, commits := false } = s.scratch from rfl]
  cases hx : x s.scratch with
  | ok a t =>
    rw [hx] at h
    exact h
  | error e t =>
    rw [hx] at h
    exact h

end Ends

end Hoist.Lowering
