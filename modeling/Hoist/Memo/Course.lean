import Mathlib.Logic.Relation
import Hoist.Memo.World

/-!
# Courses

A course is a sequence of actions on the maps of a world, each of which comes to its end before the
next one begins: a key is asked for, a listener subscribes, a map is merged into another. Listeners
are numbered in the order of their subscriptions.
-/

namespace Hoist.Memo

variable {κ ε ρ : Type}

/-- What can be done to the maps of a world. -/
inductive Action (κ ε ρ : Type)
  | call (m : Nat) (key : κ)
  | subscribe (m : Nat) (react : κ → ρ → Plan κ ε ρ Unit)
  | merge (m other : Nat)

/-- A merge among some actions joins two maps. -/
def Joined (acts : List (Action κ ε ρ)) (x y : Nat) : Prop := .merge x y ∈ acts ∨ .merge y x ∈ acts

/-- A chain of merges among some actions connects two maps. -/
def Connected (acts : List (Action κ ε ρ)) : Nat → Nat → Prop := Relation.TransGen (Joined acts)

/-- How a step ended, and the world it left. A step that is stuck has no end. -/
def ended {α : Type} :
    EStateM.Result (Stop ε) (World κ ε ρ) α → Option (Except ε α × World κ ε ρ)
  | .ok a w => some (.ok a, w)
  | .error (.raised e) w => some (.error e, w)
  | .error .stuck _ => none

namespace World

/-- The numbers of all listeners. -/
def numbers (w : World κ ε ρ) : List Nat :=
  w.maps.flatMap fun map => map.listeners.map (·.number)

/-- What a listener was told so far. -/
def told (w : World κ ε ρ) (n : Nat) : List (κ × ρ) := noted n w.notified

/-- The numbers of the listeners of a map. -/
def listenersOf (w : World κ ε ρ) (m : Nat) : List Nat :=
  match w.maps[m]? with
  | some map => map.listeners.map (·.number)
  | none => []

/-- The place of the cache that a map points to. -/
def pointer (w : World κ ε ρ) (m : Nat) : Option Nat := w.maps[m]?.map (·.cache)

/-- Two maps point to one cache. -/
def Share (w : World κ ε ρ) (x y : Nat) : Prop := ∃ c, w.pointer x = some c ∧ w.pointer y = some c

/-- A merge of two maps leaves a map behind that shares the cache which the second one gives up. -/
def LeftBehind (w : World κ ε ρ) (m other x : Nat) : Prop :=
  x ≠ other ∧ w.Share x other ∧ ¬ w.Share x m

/-- What a map holds, and what has been recorded through it since. -/
def due (w : World κ ε ρ) (m : Nat) (since : List (Nat × κ × ρ)) : List (κ × ρ) :=
  (w.cacheOf m).results ++ noted m since

/-- The outcome that a map has for a key without computing it. -/
def answer [BEq κ] (w : World κ ε ρ) (m : Nat) (key : κ) : Option (Except ε ρ) :=
  ((w.cacheOf m).find? key).join

variable [BEq κ] [Ord κ]

/-- The world behind an action on maps that are there. A call or a subscription may end in a failure;
if it is stuck, there is nothing behind it. -/
def after (depth : Nat) (w : World κ ε ρ) : Action κ ε ρ → Option (World κ ε ρ)
  | .call m key => (ended (Run.demand depth m key w)).map (·.2)
  | .subscribe m react =>
    if m < w.maps.length then
      (ended (Run.subscribe depth m ⟨w.numbers.length, react⟩ w)).map (·.2)
    else none
  | .merge m other =>
    if m < w.maps.length ∧ other < w.maps.length then some (w.merge m other) else none

/-- The world behind a course of actions. -/
def course (depth : Nat) (w : World κ ε ρ) (acts : List (Action κ ε ρ)) : Option (World κ ε ρ) :=
  acts.foldlM (after depth) w

end World

end Hoist.Memo
