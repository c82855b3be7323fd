import Hoist.Proofs.Lowering.Yields

/-!
# What a frame sees

A frame sees a name through its own binding of it, or else as the frame around it sees the name. The
search of the arena is this recursion, so a frame's sight depends on no younger frame: frames made or
bound later, inside other bodies, leave it alone.
-/

namespace Hoist.Lowering

open Hoist.Flat (Symbol Location)

namespace Frame

@[simp] theorem get?_bind (f : Frame) (x y : String) (a : Symbol) :
    (f.bind x a).get? y = if y = x then some a else f.get? y := by
  unfold get? bind
  by_cases h : y = x
  · subst h; simp
  · have hne : (y == x) = false := by simpa using h
    simp only [List.lookup_cons, hne, if_neg h]
    induction f.bindings with
    | nil => rfl
    | cons p rest ih =>
      obtain ⟨z, b⟩ := p
      by_cases hz : z = x
      · have hyz : (y == z) = false := by rw [hz]; exact hne
        simpa [hz, List.lookup_cons, hne] using ih
      · simp [hz, List.lookup_cons, ih]

@[simp] theorem parent?_bind (f : Frame) (x : String) (a : Symbol) :
    (f.bind x a).parent? = f.parent? := rfl

end Frame

namespace Scopes

variable (s : Scopes)

/-- The symbol that a frame itself binds to a name. -/
def own (frame : Nat) (name : String) : Option Symbol :=
  s.frames[frame]?.bind (·.get? name)

/-- The frame around a frame. -/
def around (frame : Nat) : Option Nat := s.frames[frame]?.bind (·.parent?)

/-- The symbol of a name as a frame sees it. -/
def sees (frame : Nat) (name : String) : Option Symbol := (s.search name false frame).map (·.sym)

/-- The symbol of a name as it is seen around a frame. -/
def outside (frame : Nat) (name : String) : Option Symbol :=
  (s.around frame).bind fun p => s.sees p name

theorem around_lt {frame p : Nat} (h : s.around frame = some p) : p < frame := by
  unfold around at h
  cases hf : s.frames[frame]? with
  | none => simp [hf] at h
  | some f => rw [hf] at h; exact s.parent_lt frame f hf p h

theorem search_eq (name : String) (isFree : Bool) (frame : Nat) :
    s.search name isFree frame =
      match s.own frame name with
      | some a => some ⟨isFree, a⟩
      | none => (s.around frame).bind (s.search name true ·) := by
  unfold own around
  rw [search]
  split
  · rename_i hf
    rw [hf]
    rfl
  · rename_i f hf
    rw [hf, Option.bind_some, Option.bind_some]
    -- Both sides look the name up in this frame, so the lookup is taken apart and not one `match`.
    cases f.get? name with
    | some a => rfl
    | none =>
      dsimp only
      split <;> rename_i hp <;> rw [hp] <;> rfl

/-- Whether the search began further in makes no difference to what it finds. -/
theorem search_sym (name : String) (isFree : Bool) (frame : Nat) :
    (s.search name isFree frame).map (·.sym) = s.sees frame name := by
  unfold sees
  rw [search_eq, search_eq s name false]
  cases s.own frame name <;> rfl

theorem sees_eq (frame : Nat) (name : String) :
    s.sees frame name = (s.own frame name).or (s.outside frame name) := by
  unfold outside
  rw [sees, search_eq]
  cases s.own frame name with
  | some a => rfl
  | none => cases s.around frame <;> simp [search_sym]

/-- A search yields the frame's own binding, or else what is seen around the frame. -/
theorem search_false (name : String) (frame : Nat) :
    s.search name false frame =
      match s.own frame name with
      | some a => some ⟨false, a⟩
      | none => (s.outside frame name).map (⟨true, ·⟩) := by
  rw [search_eq]
  cases s.own frame name with
  | some a => rfl
  | none =>
    unfold outside
    cases s.around frame with
    | none => rfl
    | some p =>
      simp only [Option.bind_some, ← search_sym s name true p]
      have hfree : ∀ r, s.search name true p = some r → r.isFree = true := by
        intro r hr
        -- Further out the search is marked free from its first frame on.
        clear frame
        induction p using Nat.strongRecOn with
        | ind p ih =>
          rw [search_eq] at hr
          cases ho : s.own p name with
          | some a => rw [ho] at hr; cases hr; rfl
          | none =>
            rw [ho] at hr
            cases hq : s.around p with
            | none => simp [hq] at hr
            | some q => rw [hq] at hr; exact ih q (s.around_lt hq) hr
      cases hr : s.search name true p with
      | none => rfl
      | some r =>
        obtain ⟨free, sym⟩ := r
        have := hfree _ hr
        simp_all

theorem find_eq {frame : Nat} (h : frame < s.size) (name : String) :
    s.find frame name = .ok (s.search name false frame) := by
  simp [find, h]

/-- A frame's sight depends on the frames up to it. -/
theorem sees_congr {s s' : Scopes} {frame : Nat}
    (h : ∀ i ≤ frame, s'.frames[i]? = s.frames[i]?) (name : String) :
    s'.sees frame name = s.sees frame name := by
  induction frame using Nat.strongRecOn with
  | ind frame ih =>
    have hown : s'.own frame name = s.own frame name := by simp [own, h frame (Nat.le_refl _)]
    have haround : s'.around frame = s.around frame := by simp [around, h frame (Nat.le_refl _)]
    rw [sees_eq, sees_eq, hown]
    unfold outside
    rw [haround]
    cases hp : s.around frame with
    | none => rfl
    | some p =>
      have hlt := s.around_lt hp
      simp only [Option.bind_some, ih p hlt fun i hi => h i (by omega)]

/-- What is seen around a frame depends on the frames before it, and on which of them is around it. -/
theorem outside_congr {s s' : Scopes} {frame : Nat} (hp : s'.around frame = s.around frame)
    (h : ∀ i < frame, s'.frames[i]? = s.frames[i]?) (name : String) :
    s'.outside frame name = s.outside frame name := by
  unfold outside
  rw [hp]
  cases hq : s.around frame with
  | none => rfl
  | some p =>
    have hlt := s.around_lt hq
    exact sees_congr (fun i hi => h i (by omega)) name

section Bind

variable {s} {s' : Scopes} {frame : Nat} {name : String} {sym : Symbol}
  (h : s.bind frame name sym = .ok s')

include h

theorem bind_lt : frame < s.size := by
  unfold bind at h
  split at h
  · assumption
  · cases h

theorem bind_frames (i : Nat) :
    s'.frames[i]? = (s.frames[i]?).map fun f => if frame = i then f.bind name sym else f := by
  unfold bind at h
  split at h
  · cases h
    simp only [List.getElem?_modify]
    rfl
  · cases h

theorem bind_size : s'.size = s.size := by
  unfold bind at h
  split at h
  · cases h; simp [size]
  · cases h

theorem bind_own (i : Nat) (x : String) :
    s'.own i x = if i = frame ∧ x = name then some sym else s.own i x := by
  have hlt := bind_lt h
  unfold own
  rw [bind_frames h]
  by_cases hi : frame = i
  · subst hi
    obtain ⟨f, hf⟩ : ∃ f, s.frames[frame]? = some f := ⟨_, List.getElem?_eq_getElem hlt⟩
    simp only [hf, Option.map_some, if_true, Option.bind_some, Frame.get?_bind, true_and]
  · have hi' : ¬ (i = frame ∧ x = name) := fun hc => hi hc.1.symm
    cases hf : s.frames[i]? <;> simp [hi, hi']

theorem bind_around (i : Nat) : s'.around i = s.around i := by
  unfold around
  rw [bind_frames h]
  cases s.frames[i]? with
  | none => rfl
  | some f => simp only [Option.map_some, Option.bind_some]; split <;> simp

theorem bind_frames_ne {i : Nat} (hi : i ≠ frame) : s'.frames[i]? = s.frames[i]? := by
  rw [bind_frames h]
  cases s.frames[i]? with
  | none => rfl
  | some f => simp [Ne.symm hi]

end Bind

section Child

variable {s} {s' : Scopes} {parent frame : Nat} (h : s.child parent = .ok (frame, s'))

include h

theorem child_spec :
    parent < s.size ∧ frame = s.size ∧ s'.frames = s.frames ++ [⟨some parent, []⟩] := by
  unfold child at h
  split at h
  · rename_i hlt
    cases h
    exact ⟨hlt, rfl, rfl⟩
  · cases h

theorem child_size : s'.size = s.size + 1 := by
  obtain ⟨-, -, hs⟩ := child_spec h
  simp [size, hs]

theorem child_frames {i : Nat} (hi : i < s.size) : s'.frames[i]? = s.frames[i]? := by
  obtain ⟨-, -, hs⟩ := child_spec h
  rw [hs, List.getElem?_append_left hi]

theorem child_own (i : Nat) (x : String) : s'.own i x = s.own i x := by
  obtain ⟨-, -, hs⟩ := child_spec h
  unfold own
  rw [hs]
  by_cases hi : i < s.frames.length
  · rw [List.getElem?_append_left hi]
  · rw [List.getElem?_append_right (by omega), List.getElem?_eq_none (Nat.le_of_not_lt hi),
      List.getElem?_singleton]
    split <;> simp [Frame.get?]

theorem child_around (i : Nat) :
    s'.around i = if i = frame then some parent else s.around i := by
  obtain ⟨-, hf, hs⟩ := child_spec h
  unfold around
  rw [hs, hf]
  unfold size
  by_cases hi : i < s.frames.length
  · rw [List.getElem?_append_left hi, if_neg (by omega)]
  · rw [List.getElem?_append_right (by omega), List.getElem?_eq_none (Nat.le_of_not_lt hi),
      List.getElem?_singleton]
    by_cases hi' : i = s.frames.length
    · simp [hi']
    · rw [if_neg (by omega), if_neg hi']

end Child

theorem own_eq_none_of_le {frame : Nat} (h : s.size ≤ frame) (x : String) : s.own frame x = none := by
  unfold own
  rw [List.getElem?_eq_none h]
  rfl

end Scopes

end Hoist.Lowering
