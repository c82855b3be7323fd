import Hoist.Flat.Symbol
import Hoist.Lowering.Failure

/-!
# Scopes

The lexical scopes of a unit are frames, numbered in the order of their making. A frame may have a
parent, which is older than itself, so that a search outwards comes to an end. A name is bound in one
frame only, and a later binding there replaces an earlier one.
-/

namespace Hoist.Lowering

open Hoist.Flat (Symbol Location)

/-- A scope: the frame around it, and its bindings, the latest first. -/
structure Frame where
  parent? : Option Nat
  bindings : List (String × Symbol)
deriving Repr, DecidableEq

namespace Frame

/-- The symbol that a frame itself binds to a name. -/
def get? (f : Frame) (name : String) : Option Symbol := f.bindings.lookup name

/-- A frame with a name bound, whatever the name was bound to before. -/
def bind (f : Frame) (name : String) (sym : Symbol) : Frame :=
  { f with bindings := (name, sym) :: f.bindings.filter (·.1 != name) }

end Frame

/-- The scopes of a unit. -/
structure Scopes where
  frames : List Frame
  parent_lt : ∀ (i : Nat) (f : Frame), frames[i]? = some f → ∀ p, f.parent? = some p → p < i

/-- A name as it was found: its symbol, and whether a frame further out binds it. -/
structure Resolution where
  isFree : Bool
  sym : Symbol
deriving Repr, DecidableEq

namespace Scopes

/-- Scopes without frames. -/
def empty : Scopes := ⟨[], by simp⟩

instance : Inhabited Scopes := ⟨empty⟩

/-- The number of frames. -/
def size (s : Scopes) : Nat := s.frames.length

/-- A frame put behind the others keeps parents older than their children, if it has an older parent
itself. -/
theorem parent_lt_append (s : Scopes) (g : Frame) (h : ∀ p, g.parent? = some p → p < s.size)
    (i : Nat) (f : Frame) (hf : (s.frames ++ [g])[i]? = some f) (p : Nat)
    (hp : f.parent? = some p) : p < i := by
  by_cases hi : i < s.frames.length
  · rw [List.getElem?_append_left hi] at hf
    exact s.parent_lt i f hf p hp
  · have hle := Nat.le_of_not_lt hi
    rw [List.getElem?_append_right hle, List.getElem?_singleton] at hf
    split at hf
    · cases hf
      exact Nat.lt_of_lt_of_le (h p hp) hle
    · cases hf

/-- One more frame, whose parent, if it has one, is among the frames before it. -/
def push (s : Scopes) (parent? : Option Nat) (h : ∀ p, parent? = some p → p < s.size) : Scopes :=
  ⟨s.frames ++ [⟨parent?, []⟩], parent_lt_append s ⟨parent?, []⟩ h⟩

/-- A new frame with nothing around it. -/
def root (s : Scopes) : Nat × Scopes := (s.size, s.push none (by simp))

/-- A new frame inside another one, which has to exist. -/
def child (s : Scopes) (parent : Nat) : Except Failure (Nat × Scopes) :=
  if h : parent < s.size then
    .ok (s.size, s.push (some parent) (by intro p hp; cases hp; exact h))
  else .error .internal

/-- Binding a name moves no frame. -/
theorem parent_lt_modify (s : Scopes) (frame : Nat) (name : String) (sym : Symbol) (i : Nat)
    (f : Frame) (hf : (s.frames.modify frame (·.bind name sym))[i]? = some f) (p : Nat)
    (hp : f.parent? = some p) : p < i := by
  rw [List.getElem?_modify] at hf
  cases hg : s.frames[i]? with
  | none =>
    rw [hg] at hf
    split at hf <;> cases hf
  | some g =>
    rw [hg] at hf
    have hparent : g.parent? = some p := by
      split at hf <;> cases hf <;> exact hp
    exact s.parent_lt i g hg p hparent

/-- Binds a name in a frame, which has to exist. -/
def bind (s : Scopes) (frame : Nat) (name : String) (sym : Symbol) : Except Failure Scopes :=
  if frame < s.size then
    .ok ⟨s.frames.modify frame (·.bind name sym), parent_lt_modify s frame name sym⟩
  else .error .unknownFrame

/-- Whether a frame itself binds a name. -/
def bindsLocally (s : Scopes) (frame : Nat) (name : String) : Except Failure Bool :=
  match s.frames[frame]? with
  | some f => .ok (f.get? name).isSome
  | none => .error .unknownFrame

/-- Searches a frame and those around it for a name: the nearest binding wins. -/
def search (s : Scopes) (name : String) (isFree : Bool) (frame : Nat) : Option Resolution :=
  match _hf : s.frames[frame]? with
  | none => none
  | some f =>
    match f.get? name with
    | some sym => some ⟨isFree, sym⟩
    | none =>
      match _hp : f.parent? with
      | none => none
      | some p => search s name true p
termination_by frame
decreasing_by exact s.parent_lt frame f _hf p _hp

/-- A name as a frame sees it, if it is bound there or further out. -/
def find (s : Scopes) (frame : Nat) (name : String) : Except Failure (Option Resolution) :=
  if frame < s.size then .ok (s.search name false frame) else .error .unknownFrame

/-- A name that has to be bound where a frame sees it; `loc` is where it was mentioned. -/
def lookup (s : Scopes) (frame : Nat) (name : String) (loc : Option Location) :
    Except Failure Resolution := do
  match ← s.find frame name with
  | some r => .ok r
  | none => .error (.undeclared name loc)

end Scopes

end Hoist.Lowering
