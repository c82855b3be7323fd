import Hoist.Lowering.Tree
import Mathlib.Data.List.Nodup
import Mathlib.Data.Nat.Basic
import Mathlib.Tactic.Common

/-!
# Steps that succeed

`Yields x s a t` says that the step `x` takes the state `s` to `t` with the result `a`. Each
operation of lowering has one law that says when it yields what; the laws rewrite a successful run of
a long step into the runs of its parts.
-/

namespace Hoist.Lowering

open Hoist.Flat (Symbol Node Location Space Table Lambda)

/-- The step succeeds with a result, and the state goes on from there. -/
def Yields {α : Type} (x : Lower α) (s : State) (a : α) (t : State) : Prop := x s = .ok a t

namespace Yields

variable {α β : Type} {s t : State}

theorem unique {x : Lower α} {a b : α} {u : State} (h : Yields x s a t) (h' : Yields x s b u) :
    a = b ∧ t = u := by
  unfold Yields at h h'
  rw [h] at h'
  cases h'
  exact ⟨rfl, rfl⟩

@[simp] theorem pure_iff {a b : α} : Yields (pure a) s b t ↔ a = b ∧ s = t := by
  simp [Yields, pure, EStateM.pure]

@[simp] theorem bind_iff {x : Lower α} {f : α → Lower β} {b : β} :
    Yields (x >>= f) s b t ↔ ∃ a u, Yields x s a u ∧ Yields (f a) u b t := by
  unfold Yields
  constructor
  · intro h
    change EStateM.bind x f s = _ at h
    unfold EStateM.bind at h
    cases hx : x s with
    | ok a u => rw [hx] at h; exact ⟨a, u, rfl, h⟩
    | error e u => rw [hx] at h; cases h
  · rintro ⟨a, u, hx, hf⟩
    change EStateM.bind x f s = _
    simp only [EStateM.bind, hx, hf]

@[simp] theorem get_iff {a : State} : Yields (get : Lower State) s a t ↔ s = a ∧ s = t := by
  change EStateM.Result.ok s s = .ok a t ↔ _
  simp

@[simp] theorem set_iff {u : State} {a : PUnit} : Yields (set u : Lower PUnit) s a t ↔ u = t := by
  change EStateM.Result.ok ⟨⟩ u = .ok a t ↔ _
  simp

@[simp] theorem modify_iff {f : State → State} {a : PUnit} :
    Yields (modify f : Lower PUnit) s a t ↔ f s = t := by
  change EStateM.Result.ok ⟨⟩ (f s) = .ok a t ↔ _
  simp

@[simp] theorem throw_iff {e : Failure} {a : α} : ¬ Yields (throw e : Lower α) s a t := by
  change ¬ EStateM.Result.error e s = .ok a t
  simp

@[simp] theorem refuse_iff {c : Cause} {l : Option Location} {a : α} :
    ¬ Yields (Lower.refuse c l : Lower α) s a t := throw_iff

@[simp] theorem ofExcept_iff {x : Except Failure α} {a : α} :
    Yields (Lower.ofExcept x) s a t ↔ x = .ok a ∧ s = t := by
  cases x <;> simp [Lower.ofExcept]

@[simp] theorem ite_iff {c : Prop} [Decidable c] {x y : Lower α} {a : α} :
    Yields (if c then x else y) s a t ↔ (c → Yields x s a t) ∧ (¬ c → Yields y s a t) := by
  split <;> simp_all

@[simp] theorem body_iff {b : Body} : Yields Lower.body s b t ↔ s.body = b ∧ s = t := by
  simp only [Lower.body, bind_iff, get_iff, pure_iff]
  constructor
  · rintro ⟨_, _, ⟨rfl, rfl⟩, h⟩; exact h
  · rintro ⟨rfl, rfl⟩; exact ⟨s, s, ⟨rfl, rfl⟩, rfl, rfl⟩

@[simp] theorem modifyBody_iff {f : Body → Body} {a : PUnit} :
    Yields (Lower.modifyBody f) s a t ↔ { s with body := f s.body } = t := modify_iff

@[simp] theorem issue_iff {name : String} {space : Space} {a : Symbol} :
    Yields (Lower.issue name space) s a t ↔
      Flat.fresh s.issued name space = a ∧ { s with issued := s.issued + 1 } = t := by
  simp only [Lower.issue, bind_iff, get_iff, set_iff, pure_iff]
  constructor
  · rintro ⟨_, _, ⟨rfl, rfl⟩, _, _, rfl, rfl, rfl⟩; exact ⟨rfl, rfl⟩
  · rintro ⟨rfl, rfl⟩; exact ⟨s, s, ⟨rfl, rfl⟩, ⟨⟩, _, rfl, rfl, rfl⟩

@[simp] theorem derive_iff {parent : Symbol} {tag : String} {a : Symbol} :
    Yields (Lower.derive parent tag) s a t ↔
      Flat.derived s.issued parent tag = a ∧ { s with issued := s.issued + 1 } = t := by
  simp only [Lower.derive, bind_iff, get_iff, set_iff, pure_iff]
  constructor
  · rintro ⟨_, _, ⟨rfl, rfl⟩, _, _, rfl, rfl, rfl⟩; exact ⟨rfl, rfl⟩
  · rintro ⟨rfl, rfl⟩; exact ⟨s, s, ⟨rfl, rfl⟩, ⟨⟩, _, rfl, rfl, rfl⟩

@[simp] theorem bind_name_iff {frame : Nat} {name : String} {sym : Symbol} {a : PUnit} :
    Yields (Lower.bind frame name sym) s a t ↔
      ∃ scopes, s.scopes.bind frame name sym = .ok scopes ∧ { s with scopes := scopes } = t := by
  simp only [Lower.bind, bind_iff, get_iff, set_iff, ofExcept_iff]
  constructor
  · rintro ⟨_, _, ⟨rfl, rfl⟩, scopes, _, ⟨h, rfl⟩, rfl⟩; exact ⟨scopes, h, rfl⟩
  · rintro ⟨scopes, h, rfl⟩; exact ⟨s, s, ⟨rfl, rfl⟩, scopes, s, ⟨h, rfl⟩, rfl⟩

end Yields

/-- The step succeeds. -/
def Succeeds {α : Type} (x : Lower α) (s : State) : Prop := ∃ a t, Yields x s a t

namespace Succeeds

variable {α β : Type} {s : State}

@[simp] theorem pure (a : α) : Succeeds (Pure.pure a) s ↔ True :=
  iff_true_intro ⟨a, s, Yields.pure_iff.2 ⟨rfl, rfl⟩⟩

@[simp] theorem refuse (c : Cause) (l : Option Location) :
    Succeeds (Lower.refuse c l : Lower α) s ↔ False := by
  simp [Succeeds]

@[simp] theorem throw (e : Failure) : Succeeds (throw e : Lower α) s ↔ False := by
  simp [Succeeds]

/-- A sequence succeeds when its first part does and, behind that, the rest does. -/
theorem bind_iff {x : Lower α} {f : α → Lower β} {P : Prop}
    (h : ∀ a t, Yields x s a t → (Succeeds (f a) t ↔ P)) :
    Succeeds (x >>= f) s ↔ Succeeds x s ∧ P := by
  constructor
  · rintro ⟨b, u, hb⟩
    obtain ⟨a, t, hx, hf⟩ := Yields.bind_iff.1 hb
    exact ⟨⟨a, t, hx⟩, (h a t hx).1 ⟨b, u, hf⟩⟩
  · rintro ⟨⟨a, t, hx⟩, hp⟩
    obtain ⟨b, u, hf⟩ := (h a t hx).2 hp
    exact ⟨b, u, Yields.bind_iff.2 ⟨a, t, hx, hf⟩⟩

end Succeeds

end Hoist.Lowering
