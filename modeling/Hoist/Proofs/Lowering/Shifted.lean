import Hoist.Proofs.Flat.Shifted
import Hoist.Proofs.Lowering.Sight
import Hoist.Proofs.Lowering.Trees

/-!
# Lowering over shifted tokens

Scopes, bodies and items hold symbols, so they are shifted as code is. A name is found in shifted scopes
where it is found in the others, and by the shifted symbol; shifted items are grouped as the others are,
and refused where they are.
-/

namespace Hoist.Lowering

open Hoist.Flat (Symbol Node Location)

/-- A frame with the tokens of its bindings shifted. -/
def Frame.shift (k : Nat) (f : Frame) : Frame :=
  { f with bindings := f.bindings.map fun b => (b.1, b.2.shift k) }

/-- Scopes with the tokens of all bindings shifted. -/
def Scopes.shift (k : Nat) (s : Scopes) : Scopes where
  frames := s.frames.map (·.shift k)
  parent_lt i f hf p hp := by
    rw [List.getElem?_map] at hf
    obtain ⟨g, hg, rfl⟩ := Option.map_eq_some_iff.1 hf
    exact s.parent_lt i g hg p hp

/-- A found name with the token of its symbol shifted. -/
def Resolution.shift (k : Nat) (r : Resolution) : Resolution := { r with sym := r.sym.shift k }

/-- A body with its tokens shifted. -/
def Body.shift (k : Nat) (b : Body) : Body :=
  { b with dest := b.dest.shift k, free := b.free.map fun p => (p.1, p.2.shift k) }

/-- An assignment with its tokens shifted. -/
def Assignment.shift (k : Nat) (a : Assignment) : Assignment :=
  { a with var := a.var.shift k, value := a.value.shift k }

/-- An item with its tokens shifted. -/
def Item.shift (k : Nat) : Item → Item
  | .assign a => .assign (a.shift k)
  | .plain n => .plain (n.shift k)

/-- A run of items with its tokens shifted. -/
def Run.shift (k : Nat) : Run → Run
  | .binds first more => .binds (first.shift k) (more.map (·.shift k))
  | .nodes first more => .nodes (first.shift k) (more.map (·.shift k))

variable {k : Nat}

theorem Body.shift_names (b : Body) : (b.shift k).free.map (·.1) = b.free.map (·.1) := by
  rw [shift, List.map_map]
  rfl

section Scopes

variable (s : Scopes)

theorem Scopes.eq_of_frames {s s' : Scopes} (h : s'.frames = s.frames) : s' = s := by
  cases s
  cases s'
  cases h
  rfl

@[simp] theorem Frame.shift_get? (f : Frame) (x : String) :
    (f.shift k).get? x = (f.get? x).map (·.shift k) := by
  unfold get? shift
  induction f.bindings with
  | nil => rfl
  | cons b bs ih =>
    rw [List.map_cons, List.lookup_cons, List.lookup_cons, ih]
    cases x == b.1 <;> rfl

theorem Frame.shift_bind (f : Frame) (x : String) (a : Symbol) :
    (f.shift k).bind x (a.shift k) = (f.bind x a).shift k := by
  simp [bind, shift, List.filter_map, Function.comp_def]

namespace Scopes

@[simp] theorem shift_size : (s.shift k).size = s.size := by simp [size, shift]

@[simp] theorem shift_own (i : Nat) (x : String) :
    (s.shift k).own i x = (s.own i x).map (·.shift k) := by
  unfold own shift
  rw [List.getElem?_map]
  cases s.frames[i]? <;> simp

@[simp] theorem shift_around (i : Nat) : (s.shift k).around i = s.around i := by
  unfold around shift
  rw [List.getElem?_map]
  cases s.frames[i]? <;> rfl

/-- A name is found in the same frame, by the shifted symbol. -/
theorem shift_search (x : String) (isFree : Bool) (i : Nat) :
    (s.shift k).search x isFree i = (s.search x isFree i).map (·.shift k) := by
  induction i using Nat.strongRecOn generalizing isFree with
  | ind i ih =>
    rw [search_eq, search_eq s, shift_own, shift_around]
    cases s.own i x with
    | some a => rfl
    | none =>
      cases hp : s.around i with
      | none => rfl
      | some p => exact ih p (s.around_lt hp) true

theorem shift_find (i : Nat) (x : String) :
    (s.shift k).find i x = (s.find i x).map (Option.map (·.shift k)) := by
  unfold find
  rw [shift_size, shift_search]
  split <;> rfl

theorem shift_lookup (i : Nat) (x : String) (loc : Option Location) :
    (s.shift k).lookup i x loc = (s.lookup i x loc).map (·.shift k) := by
  unfold lookup
  rw [shift_find]
  cases s.find i x with
  | error e => rfl
  | ok r => cases r <;> rfl

theorem shift_bind (i : Nat) (x : String) (a : Symbol) :
    (s.shift k).bind i x (a.shift k) = (s.bind i x a).map (·.shift k) := by
  unfold bind
  rw [shift_size]
  split
  · refine congrArg Except.ok (eq_of_frames (List.ext_getElem? fun j => ?_))
    simp only [shift, List.getElem?_modify, List.getElem?_map]
    cases s.frames[j]? with
    | none => rfl
    | some f => by_cases hj : i = j <;> simp [hj, Frame.shift_bind]
  · rfl

theorem shift_child (parent : Nat) :
    (s.shift k).child parent = (s.child parent).map fun p => (p.1, p.2.shift k) := by
  unfold child
  simp only [shift_size]
  split
  · refine congrArg (fun t => Except.ok (s.size, t)) (eq_of_frames ?_)
    simp [push, shift, Frame.shift]
  · rfl

theorem shift_root : (s.shift k).root = (s.root.1, s.root.2.shift k) :=
  Prod.ext (shift_size s) (eq_of_frames (by simp [root, push, shift, Frame.shift]))

end Scopes

end Scopes

section Grouping

theorem runs_shift (items : List Item) :
    runs (items.map (·.shift k)) = (runs items).map (·.shift k) := by
  induction items with
  | nil => rfl
  | cons item items ih =>
    cases item with
    | assign a =>
      change runs (.assign (a.shift k) :: items.map (·.shift k)) = _
      rw [runs, ih, runs]
      rcases runs items with _ | ⟨_ | _, _⟩ <;> rfl
    | plain n =>
      change runs (.plain (n.shift k) :: items.map (·.shift k)) = _
      rw [runs, ih, runs]
      rcases runs items with _ | ⟨_ | _, _⟩ <;> rfl

theorem sequence_shift (n : Node) (ns : List Node) :
    sequence (n.shift k) (ns.map (·.shift k)) = (sequence n ns).shift k := by
  cases ns <;> simp [sequence, Node.shift]

/-- Shifted runs make the shifted node, or are refused at the same place. -/
theorem assemble_shift (result : Option Node) (loc : Option Location) (rs : List Run) :
    assemble (result.map (·.shift k)) loc (rs.map (·.shift k)) =
      (assemble result loc rs).map (·.shift k) := by
  induction rs with
  | nil => cases result <;> rfl
  | cons r rs ih =>
    have hlast : ((rs.map (·.shift k)).isEmpty && (result.map (·.shift k)).isNone) =
        (rs.isEmpty && result.isNone) := by simp
    cases r with
    | binds a as =>
      rw [List.map_cons, Run.shift, assemble, assemble, ih, hlast]
      split
      · have hloc : (((a :: as).map (Assignment.shift k)).getLast (by simp)).loc =
            ((a :: as).getLast (by simp)).loc := by
          rw [List.getLast_map]
          rfl
        exact congrArg (fun l => Except.error (Failure.refused .missingReturn l)) hloc
      · cases assemble result loc rs with
        | error e => rfl
        | ok body =>
          refine congrArg Except.ok ?_
          simp [Node.shift, Assignment.shift, Assignment.binding, Function.comp_def]
    | nodes n ns =>
      rw [List.map_cons, Run.shift, assemble, assemble, ih, hlast]
      split
      · exact congrArg Except.ok (sequence_shift n ns)
      · cases assemble result loc rs with
        | error e => rfl
        | ok body =>
          have hsequence := sequence_shift (k := k) n (ns ++ [body])
          rw [List.map_append] at hsequence
          exact congrArg Except.ok hsequence

theorem group_shift (items : List Item) (result : Option Node) (loc : Option Location) :
    group (items.map (·.shift k)) (result.map (·.shift k)) loc =
      (group items result loc).map (·.shift k) := by
  rw [group, runs_shift, assemble_shift, group]

end Grouping

end Hoist.Lowering
