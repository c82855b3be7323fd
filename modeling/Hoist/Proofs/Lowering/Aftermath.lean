import Hoist.Proofs.Lowering.Trees

/-!
# What a step leaves in place, also when it fails

A step that fails keeps what it did so far, so the states behind failures matter as well. Wherever a
step ends, it has touched its body's frame and newer ones only, and the table has grown at its end, by
lambdas whose symbols were issued on the way. Only the entry of a unit takes its symbol from elsewhere:
what is said here of functions holds inside of it.
-/

namespace Hoist.Lowering

open Hoist.Flat (Symbol Node Location Space Table Lambda)
open Hoist.Surface (Expr Stmt Operator Params)

/-- The state behind a step, however the step ended. -/
def Lower.after {α : Type} (x : Lower α) (s : State) : State :=
  match x s with
  | .ok _ t | .error _ t => t

/-- All symbols that frames bind were issued before. -/
def State.BindsIssued (s : State) : Prop :=
  ∀ i x a, s.scopes.own i x = some a → a.token ≤ s.issued

/-- What was there before a step is there behind it. -/
structure Leaves (s t : State) : Prop where
  issued : s.issued ≤ t.issued
  size : s.scopes.size ≤ t.scopes.size
  frames : ∀ i < s.scopes.size, i ≠ s.body.frame → t.scopes.frames[i]? = s.scopes.frames[i]?
  lambdas : ∃ new, t.table.lambdas = s.table.lambdas ++ new ∧
    ∀ l ∈ new, s.issued < l.ref.token ∧ l.ref.token ≤ t.issued
  bounds : s.BindsIssued → t.BindsIssued
  commits : t.commits = s.commits
  body : SameBody s.body t.body

namespace Leaves

variable {s t u : State}

theorem refl (s : State) : Leaves s s where
  issued := le_rfl
  size := le_rfl
  frames _ _ _ := rfl
  lambdas := ⟨[], by simp⟩
  bounds := id
  commits := rfl
  body := .refl _

theorem trans (h : Leaves s t) (h' : Leaves t u) : Leaves s u where
  issued := le_trans h.issued h'.issued
  size := le_trans h.size h'.size
  frames i hi hne := by
    rw [h'.frames i (lt_of_lt_of_le hi h.size) (by rw [h.body.frame]; exact hne), h.frames i hi hne]
  lambdas := by
    obtain ⟨new, hn, hlt⟩ := h.lambdas
    obtain ⟨more, hm, hlt'⟩ := h'.lambdas
    have hle := h.issued
    have hle' := h'.issued
    refine ⟨new ++ more, by rw [hm, hn, List.append_assoc], fun l hl => ?_⟩
    rcases List.mem_append.1 hl with hl | hl
    · have := hlt l hl
      omega
    · have := hlt' l hl
      omega
  bounds hs := h'.bounds (h.bounds hs)
  commits := h'.commits.trans h.commits
  body := h.body.trans h'.body

theorem topLevel (h : Leaves s t) (hs : s.body.topLevel = false) : t.body.topLevel = false :=
  h.body.topLevel.trans hs

end Leaves

/-- A step that leaves in place what was there before. -/
def Tame {α : Type} (x : Lower α) : Prop := ∀ s, Leaves s (x.after s)

/-- A step that is tame wherever it is taken inside a function. -/
def TameInside {α : Type} (x : Lower α) : Prop :=
  ∀ s, s.body.topLevel = false → Leaves s (x.after s)

section Sequences

variable {α β : Type} {s s₀ t : State} {x : Lower α} {f : α → Lower β}

theorem Yields.after {a : α} (h : Yields x s a t) : x.after s = t := by
  unfold Lower.after
  rw [show x s = .ok a t from h]

/-- What holds behind the first part of a sequence, and is kept by the rest, holds behind it. -/
theorem after_bind {P : State → Prop} (hx : P (x.after s))
    (hf : ∀ a t, Yields x s a t → P t → P ((f a).after t)) : P ((x >>= f).after s) := by
  have heq : (x >>= f).after s =
      match x s with
      | .ok a t => (f a).after t
      | .error _ t => t := by
    change Lower.after (EStateM.bind x f) s = _
    unfold Lower.after EStateM.bind
    cases x s <;> rfl
  rw [heq]
  cases h : x s with
  | ok a t => exact hf a t h (Yields.after h ▸ hx)
  | error e t =>
    unfold Lower.after at hx
    rwa [h] at hx

theorem Leaves.bind (hx : Leaves s₀ (x.after s))
    (hf : ∀ a t, Yields x s a t → Leaves s₀ t → Leaves s₀ ((f a).after t)) :
    Leaves s₀ ((x >>= f).after s) := after_bind hx hf

theorem Leaves.ofExcept {y : Except Failure α} (h : Leaves s₀ s) :
    Leaves s₀ ((Lower.ofExcept y).after s) := by
  cases y <;> exact h

/-- Behind other steps, a step that leaves everything in place does so too. -/
theorem Tame.behind (hx : Tame x) (h : Leaves s₀ s) : Leaves s₀ (x.after s) := h.trans (hx s)

namespace Tame

theorem pure (a : α) : Tame (Pure.pure a) := fun s => .refl s

theorem throw (e : Failure) : Tame (MonadExcept.throw e : Lower α) := fun s => .refl s

theorem refuse (c : Cause) (l : Option Location) : Tame (Lower.refuse c l : Lower α) := throw _

theorem ofExcept (y : Except Failure α) : Tame (Lower.ofExcept y) := fun s => (Leaves.refl s).ofExcept

theorem get : Tame (MonadState.get : Lower State) := fun s => .refl s

theorem bind (hx : Tame x) (hf : ∀ a, Tame (f a)) : Tame (x >>= f) := fun s =>
  .bind (hx s) fun a _ _ h => (hf a).behind h

theorem inside (hx : Tame x) : TameInside x := fun s _ => hx s

theorem body : Tame Lower.body := get.bind fun _ => pure _

theorem modifyBody {g : Body → Body} (hg : ∀ b, SameBody b (g b)) : Tame (Lower.modifyBody g) :=
  fun s => { Leaves.refl s with body := hg s.body }

end Tame

namespace TameInside

theorem behind (hx : TameInside x) (h : Leaves s₀ s) (hs : s₀.body.topLevel = false) :
    Leaves s₀ (x.after s) :=
  h.trans (hx s (h.topLevel hs))

theorem bind (hx : TameInside x) (hf : ∀ a, TameInside (f a)) : TameInside (x >>= f) := fun s hs =>
  .bind (hx s hs) fun a _ _ h => (hf a).behind h hs

end TameInside

end Sequences

section Names

variable {s₀ s : State} {loc : Option Location}

theorem Leaves.issuing (h : Leaves s₀ s) : Leaves s₀ s.issuing :=
  { h with
    issued := le_trans h.issued (Nat.le_succ _)
    lambdas := by
      obtain ⟨new, hn, hlt⟩ := h.lambdas
      exact ⟨new, hn, fun l hl => ⟨(hlt l hl).1, le_trans (hlt l hl).2 (Nat.le_succ _)⟩⟩
    bounds := fun hs i x a ha => le_trans (h.bounds hs i x a ha) (Nat.le_succ _) }

theorem issue_tame (name : String) (space : Space) : Tame (Lower.issue name space) :=
  fun s => (Leaves.refl s).issuing

theorem derive_tame (parent : Symbol) (tag : String) : Tame (Lower.derive parent tag) :=
  fun s => (Leaves.refl s).issuing

/-- A binding in the frame of the body, or in a newer one. -/
theorem Leaves.binding (h : Leaves s₀ s) {frame : Nat}
    (hf : s₀.scopes.size ≤ frame ∨ frame = s₀.body.frame) (name : String) {sym : Symbol}
    (hsym : sym.token ≤ s.issued) : Leaves s₀ ((Lower.bind frame name sym).after s) := by
  refine Leaves.bind (x := MonadState.get) h fun u _ hu _ => ?_
  obtain ⟨rfl, rfl⟩ := Yields.get_iff.1 hu
  refine Leaves.bind h.ofExcept fun sc _ hy _ => ?_
  obtain ⟨hsc, rfl⟩ := Yields.ofExcept_iff.1 hy
  change Leaves s₀ { s with scopes := sc }
  exact
    { h with
      size := le_trans h.size (Nat.le_of_eq (Scopes.bind_size hsc).symm)
      frames := fun i hi hne => by
        rw [← h.frames i hi hne]
        exact Scopes.bind_frames_ne hsc (by omega)
      bounds := fun hs i x a ha => by
        rw [Scopes.bind_own hsc] at ha
        split at ha
        · cases ha
          exact hsym
        · exact h.bounds hs i x a ha }

theorem bindFresh_tame (name : String) : Tame (Lower.bindFresh name) := fun s =>
  .bind (issue_tame name .local_ s) fun sym u hu h =>
    .bind (Tame.body.behind h) fun b _ hb h => by
      obtain ⟨rfl, rfl⟩ := Yields.issue_iff.1 hu
      obtain ⟨rfl, rfl⟩ := Yields.body_iff.1 hb
      exact .bind (h.binding (.inr h.body.frame) name le_rfl) fun _ _ _ h => h

theorem noteFree_tame (name : String) (sym : Symbol) : Tame (Lower.noteFree name sym) :=
  .modifyBody fun _ => ⟨rfl, rfl, rfl, rfl, rfl⟩

theorem find_tame (name : String) : Tame (Lower.find name) :=
  Tame.get.bind fun _ => .ofExcept _

theorem readName_tame (name : String) (loc : Option Location) : Tame (Lower.readName name loc) := by
  refine (find_tame name).bind fun r => ?_
  rcases r with - | ⟨isFree, sym⟩
  · exact .pure _
  · cases isFree with
    | false => exact .pure _
    | true =>
      refine Tame.body.bind fun b => ?_
      cases b.pulling with
      | true => exact (bindFresh_tame name).bind fun a => (noteFree_tame name a).bind fun _ => .pure _
      | false => exact (Tame.pure sym).bind fun a => (noteFree_tame name a).bind fun _ => .pure _

theorem currentIn_tame (frame : Nat) (name : String) (loc : Option Location) :
    Tame (Lower.currentIn frame name loc) :=
  Tame.get.bind fun _ => (Tame.ofExcept _).bind fun _ => .pure _

theorem current_tame (name : String) (loc : Option Location) : Tame (Lower.current name loc) :=
  Tame.body.bind fun b => currentIn_tame b.frame name loc

theorem assign_tame (name : String) (value : Node) (loc : Option Location) :
    Tame (Lower.assign name value loc) :=
  (bindFresh_tame name).bind fun _ => (Tame.modifyBody fun b => by
    split <;> exact ⟨rfl, rfl, rfl, rfl, rfl⟩).bind fun _ => .pure _

theorem assignItems_tame (tuple : Symbol) (loc : Option Location) (i : Nat) (names : List String) :
    Tame (Lower.assignItems tuple loc i names) := by
  induction names generalizing i with
  | nil => exact .pure _
  | cons x names ih => exact (assign_tame x _ loc).bind fun _ => (ih (i + 1)).bind fun _ => .pure _

theorem assignAll_tame (names : List String) (value : Node) (loc : Option Location) :
    Tame (Lower.assignAll names value loc) :=
  (issue_tame "tmp" .local_).bind fun tuple => (assignItems_tame tuple loc 0 names).bind fun _ => .pure _

theorem readNames_tame (loc : Option Location) (names : List String) :
    Tame (Lower.readNames loc names) := by
  induction names with
  | nil => exact .pure _
  | cons x names ih => exact (readName_tame x loc).bind fun _ => ih.bind fun _ => .pure _

theorem currents_tame (loc : Option Location) (names : List String) :
    Tame (Lower.currents loc names) := by
  induction names with
  | nil => exact .pure _
  | cons x names ih => exact (current_tame x loc).bind fun _ => ih.bind fun _ => .pure _

theorem bindFreshAll_tame (names : List String) : Tame (Lower.bindFreshAll names) := by
  induction names with
  | nil => exact .pure _
  | cons x names ih => exact (bindFresh_tame x).bind fun _ => ih.bind fun _ => .pure _

end Names

section Inside

variable {α : Type} {s₀ s w t : State} {inner : Body}

/-- The states of a step are as good as untouched for the body it is taken in: only newer frames have
changed. -/
structure Untouched (s t : State) : Prop where
  issued : s.issued ≤ t.issued
  size : s.scopes.size ≤ t.scopes.size
  frames : ∀ i < s.scopes.size, t.scopes.frames[i]? = s.scopes.frames[i]?
  bounds : s.BindsIssued → t.BindsIssued
  table : t.table = s.table
  commits : t.commits = s.commits
  body : t.body = s.body

theorem Untouched.leaves (h : Untouched s t) : Leaves s t where
  issued := h.issued
  size := h.size
  frames i hi _ := h.frames i hi
  lambdas := ⟨[], by rw [h.table]; simp⟩
  bounds := h.bounds
  commits := h.commits
  body := by rw [h.body]; exact .refl _

/-- Back from an inner body of a newer frame. -/
theorem Leaves.comeBack (h : Leaves s₀ s) (hf : s₀.scopes.size ≤ inner.frame)
    (hw : Leaves (s.resume inner) w) : Leaves s₀ (w.resume s.body) where
  issued := le_trans h.issued hw.issued
  size := le_trans h.size hw.size
  frames i hi hne := by
    rw [← h.frames i hi hne]
    exact hw.frames i (lt_of_lt_of_le hi h.size) (Nat.ne_of_lt (lt_of_lt_of_le hi hf))
  lambdas := by
    obtain ⟨new, hn, hlt⟩ := h.lambdas
    obtain ⟨more, hm, hlt'⟩ := hw.lambdas
    have hle := h.issued
    have hle' := hw.issued
    simp only [State.resume] at hm hlt' hle' ⊢
    refine ⟨new ++ more, by rw [hm, hn, List.append_assoc], fun l hl => ?_⟩
    rcases List.mem_append.1 hl with hl | hl
    · have := hlt l hl
      omega
    · have := hlt' l hl
      omega
  bounds hs := hw.bounds (h.bounds hs)
  commits := hw.commits.trans h.commits
  body := h.body

theorem after_within (step : Lower α) :
    (Lower.within inner step).after s = (step.after (s.resume inner)).resume s.body := by
  unfold Lower.after Lower.within State.resume
  cases step { s with body := inner } <;> rfl

theorem after_inScratch (step : Lower α) :
    (Lower.inScratch step).after s = (step.after s.scratch).restore s := by
  unfold Lower.after Lower.inScratch State.scratch State.restore
  cases step { s with table := .empty, commits := false } <;> rfl

theorem Leaves.within {step : Lower α} (h : Leaves s₀ s) (hf : s₀.scopes.size ≤ inner.frame)
    (hw : Leaves (s.resume inner) (step.after (s.resume inner))) :
    Leaves s₀ ((Lower.within inner step).after s) := by
  rw [after_within]
  exact h.comeBack hf hw

/-- A body for an inner frame only makes that frame. -/
theorem childBody_untouched (dest : Option Symbol) (pulling : Bool) (err : Option String)
    (s : State) : Untouched s ((Lower.childBody dest pulling err).after s) := by
  have hs : Untouched s s := ⟨le_rfl, le_rfl, fun _ _ => rfl, id, rfl, rfl, rfl⟩
  refine after_bind (x := MonadState.get) (P := Untouched s) hs fun u _ hu _ => ?_
  obtain ⟨rfl, rfl⟩ := Yields.get_iff.1 hu
  cases hsc : s.scopes.child s.body.frame with
  | error e => exact hs
  | ok p =>
    obtain ⟨frame, sc⟩ := p
    have hchild : Untouched s { s with scopes := sc } :=
      { hs with
        size := by rw [Scopes.child_size hsc]; exact Nat.le_succ _
        frames := fun i hi => Scopes.child_frames hsc hi
        bounds := fun hb i x a ha => hb i x a (by rw [← Scopes.child_own hsc]; exact ha) }
    have hset : Untouched s (Lower.after (set { s with scopes := sc }) s) := hchild
    refine after_bind (x := Lower.ofExcept (.ok (frame, sc))) hs fun p u hp _ => ?_
    obtain ⟨hp, rfl⟩ := Yields.ofExcept_iff.1 hp
    cases hp
    refine after_bind (P := Untouched s) hset fun _ u hu _ => ?_
    obtain rfl := Yields.set_iff.1 hu
    cases dest with
    | some d => exact hchild
    | none =>
      exact
        { hchild with
          issued := Nat.le_succ _
          bounds := fun hb i x a ha => le_trans (hchild.bounds hb i x a ha) (Nat.le_succ _) }

theorem childBody_tame (dest : Option Symbol) (pulling : Bool) (err : Option String) :
    Tame (Lower.childBody dest pulling err) :=
  fun s => (childBody_untouched dest pulling err s).leaves

/-- An inner body has the next frame. -/
theorem childBody_frame {dest : Option Symbol} {pulling : Bool} {err : Option String} {b : Body}
    (h : Yields (Lower.childBody dest pulling err) s b t) :
    b.frame = s.scopes.size ∧ b.topLevel = false ∧ ∀ d ∈ dest, b.dest = d := by
  simp only [Lower.childBody, Lower.newBody, Yields.bind_iff, Yields.get_iff, Yields.ofExcept_iff,
    Yields.set_iff] at h
  obtain ⟨_, _, ⟨rfl, rfl⟩, ⟨frame, sc⟩, _, ⟨hsc, rfl⟩, _, _, rfl, h⟩ := h
  have hframe := (Scopes.child_spec hsc).2.1
  cases dest with
  | none =>
    simp only [Yields.bind_iff, Yields.pure_iff] at h
    obtain ⟨_, _, -, rfl, rfl⟩ := h
    exact ⟨hframe, rfl, fun _ hd => by cases hd⟩
  | some d =>
    simp only [Yields.bind_iff, Yields.pure_iff] at h
    obtain ⟨_, _, ⟨rfl, rfl⟩, rfl, rfl⟩ := h
    exact ⟨hframe, rfl, fun _ hd => by cases hd; rfl⟩

end Inside

section Lambdas

variable {s₀ s t : State} {env : Env} {loc : Option Location} {ref : Symbol} {child : Body}

/-- A symbol that was issued since a state. -/
def Since (s₀ s : State) (ref : Symbol) : Prop := s₀.issued < ref.token ∧ ref.token ≤ s.issued

theorem Since.mono (h : Since s₀ s ref) (ht : s.issued ≤ t.issued) : Since s₀ t ref :=
  ⟨h.1, le_trans h.2 ht⟩

/-- A definition under a symbol that was issued on the way, whether or not the table takes it. -/
theorem Leaves.define (h : Leaves s₀ s) (hr : Since s₀ s ref) (env : Env) (params : List Symbol)
    (code : Node) (loc : Option Location) :
    Leaves s₀ ((Lower.define env ref params code loc).after s) := by
  refine Leaves.bind (x := MonadState.get) h fun u _ hu _ => ?_
  obtain ⟨rfl, rfl⟩ := Yields.get_iff.1 hu
  cases hd : s.table.define? ⟨ref, params, code, loc⟩ with
  | none => exact h
  | some table =>
    have htable : table.lambdas = s.table.lambdas ++ [⟨ref, params, code, loc⟩] := by
      unfold Table.define? at hd
      split at hd
      · cases hd
      · cases hd; rfl
    refine Leaves.bind (x := set { s with table := table }) ?_ fun _ _ _ h => ?_
    · change Leaves s₀ { s with table := table }
      exact
        { h with
          lambdas := by
            obtain ⟨new, hn, hlt⟩ := h.lambdas
            refine ⟨new ++ [⟨ref, params, code, loc⟩], by simp [htable, hn], fun l hl => ?_⟩
            rcases List.mem_append.1 hl with hl | hl
            · exact hlt l hl
            · obtain rfl := List.mem_singleton.1 hl
              exact hr }
    · unfold Lower.logDefinition
      split
      · exact { h with }
      · exact h

theorem define_issued (env : Env) (params : List Symbol) (code : Node) (loc : Option Location) :
    ((Lower.define env ref params code loc).after s).issued = s.issued := by
  refine after_bind (x := MonadState.get) (P := fun t => t.issued = s.issued) rfl fun u v hu _ => ?_
  obtain ⟨rfl, rfl⟩ := Yields.get_iff.1 hu
  cases s.table.define? ⟨ref, params, code, loc⟩ with
  | none => rfl
  | some table =>
    refine after_bind (x := set { s with table := table }) (P := fun t => t.issued = s.issued) rfl
      fun _ _ _ h => ?_
    unfold Lower.logDefinition
    split <;> exact h

theorem Leaves.lift (h : Leaves s₀ s) (hr : Since s₀ s child.dest) (env : Env) (formals : List Symbol)
    (code : Node)
    (loc : Option Location) :
    Leaves s₀ ((Lower.lift env child formals code loc).after s) ∧
      s.issued ≤ ((Lower.lift env child formals code loc).after s).issued := by
  have hread := readNames_tame loc (child.free.map (·.1)) s
  refine after_bind (P := fun t => Leaves s₀ t ∧ s.issued ≤ t.issued)
    ⟨h.trans hread, hread.issued⟩ fun captured u hu h₁ => ?_
  refine after_bind (P := fun t => Leaves s₀ t ∧ s.issued ≤ t.issued)
    ⟨h₁.1.define (hr.mono h₁.2) env _ code loc, ?_⟩ fun _ _ _ h₂ => ?_
  · rw [define_issued]
    exact h₁.2
  · split <;> exact h₂

/-- Binds the name of a function in its own body. -/
def Lower.nameBody (name : Option String) (child : Body) (ref : Symbol) : Lower Unit :=
  match name with
  | some n => bind child.frame n ref
  | none => pure ()

theorem closureBody_some (name : Option String) (ref : Symbol) :
    Lower.closureBody name (some ref) = (do
      let b ← Lower.body
      let child ← Lower.childBody (some ref) true b.returnError
      let _ ← Lower.nameBody name child ref
      return child) := by
  cases name <;> rfl

theorem closureBody_none (name : Option String) :
    Lower.closureBody name none = (do
      let ref ← Lower.issue (name.getD "lambda") .global_
      Lower.closureBody name (some ref)) := by
  cases name <;> rfl

theorem closureBody_some_leaves (h : Leaves s₀ s) (name : Option String) {ref : Symbol}
    (hr : ref.token ≤ s.issued) : Leaves s₀ ((Lower.closureBody name (some ref)).after s) := by
  rw [closureBody_some]
  refine Leaves.bind (Tame.body.behind h) fun b₀ u hu h₁ => ?_
  obtain ⟨-, rfl⟩ := Yields.body_iff.1 hu
  refine Leaves.bind ((childBody_tame _ _ _).behind h₁) fun b w hw h₂ => ?_
  have hle : s.issued ≤ w.issued := hw.after ▸ (childBody_untouched _ _ _ s).issued
  have hframe : s₀.scopes.size ≤ b.frame := by
    rw [(childBody_frame hw).1]
    exact h₁.size
  refine Leaves.bind ?_ fun _ _ _ h₃ => h₃
  cases name with
  | none => exact h₂
  | some n => exact h₂.binding (.inl hframe) n (le_trans hr hle)

theorem closureBody_leaves (h : Leaves s₀ s) (name : Option String) {ref : Option Symbol}
    (hr : ∀ r ∈ ref, r.token ≤ s.issued) :
    Leaves s₀ ((Lower.closureBody name ref).after s) := by
  cases ref with
  | some r => exact closureBody_some_leaves h name (hr r rfl)
  | none =>
    rw [closureBody_none]
    refine Leaves.bind ((issue_tame _ _).behind h) fun r u hu h₁ => ?_
    obtain ⟨rfl, rfl⟩ := Yields.issue_iff.1 hu
    exact closureBody_some_leaves h₁ name le_rfl

/-- The body of a closure has a frame of its own. -/
theorem closureBody_frame {name : Option String} {ref : Option Symbol} {b : Body} (h : Leaves s₀ s)
    (hb : Yields (Lower.closureBody name ref) s b t) :
    s₀.scopes.size ≤ b.frame ∧ b.topLevel = false ∧ ∀ r ∈ ref, b.dest = r := by
  have hsome : ∀ {r u}, Leaves s₀ u → Yields (Lower.closureBody name (some r)) u b t →
      s₀.scopes.size ≤ b.frame ∧ b.topLevel = false ∧ b.dest = r := by
    intro r u hu hy
    rw [closureBody_some] at hy
    simp only [Yields.bind_iff, Yields.body_iff, Yields.pure_iff] at hy
    obtain ⟨_, _, ⟨rfl, rfl⟩, child, _, hc, _, _, -, rfl, rfl⟩ := hy
    obtain ⟨hframe, hchild, hdest⟩ := childBody_frame hc
    exact ⟨hframe ▸ hu.size, hchild, hdest r rfl⟩
  cases ref with
  | some r =>
    obtain ⟨hframe, hchild, hdest⟩ := hsome h hb
    exact ⟨hframe, hchild, fun r' hr' => by cases hr'; exact hdest⟩
  | none =>
    rw [closureBody_none] at hb
    obtain ⟨r, u, hu, hb⟩ := Yields.bind_iff.1 hb
    obtain ⟨rfl, rfl⟩ := Yields.issue_iff.1 hu
    obtain ⟨hframe, hchild, -⟩ := hsome h.issuing hb
    exact ⟨hframe, hchild, fun r' hr' => by cases hr'⟩

/-- The lambda of a closure has a symbol that is given or new. -/
theorem closureBody_since {name : Option String} {ref : Option Symbol} {b : Body} (h : Leaves s₀ s)
    (hr : ∀ r ∈ ref, Since s₀ s r) (hb : Yields (Lower.closureBody name ref) s b t) :
    Since s₀ t b.dest := by
  cases ref with
  | some r =>
    have ht := hb.after ▸ closureBody_some_leaves (.refl s) name (hr r rfl).2
    rw [(closureBody_frame h hb).2.2 r rfl]
    exact (hr r rfl).mono ht.issued
  | none =>
    rw [closureBody_none] at hb
    obtain ⟨r, u, hu, hb⟩ := Yields.bind_iff.1 hb
    obtain ⟨rfl, rfl⟩ := Yields.issue_iff.1 hu
    have ht := hb.after ▸ closureBody_some_leaves (.refl _) name le_rfl
    rw [(closureBody_frame h.issuing hb).2.2 _ rfl]
    exact ⟨Nat.lt_succ_of_le h.issued, ht.issued⟩

end Lambdas

section Parts

variable {s₀ s t : State} {env : Env} {loc : Option Location}

theorem closureInside_tame (params : Params Expr) {code : Lower Node} (hcode : TameInside code) :
    TameInside (do
      let formals ← Lower.bindFreshAll (params.positional.map (·.name))
      return (formals, ← code) : Lower (List Symbol × Node)) :=
  (bindFreshAll_tame _).inside.bind fun _ => hcode.bind fun _ => (Tame.pure _).inside

theorem lowerClosure_leaves (h : Leaves s₀ s) (env : Env)
    (params : Params Expr) {code : Lower Node} (hcode : TameInside code) (loc : Option Location)
    (name : Option String) {ref : Option Symbol} (hr : ∀ r ∈ ref, Since s₀ s r) :
    Leaves s₀ ((Lower.lowerClosure env params code loc name ref).after s) := by
  refine Leaves.bind (closureBody_leaves h name fun r hr' => (hr r hr').2) fun child u hu h₁ => ?_
  obtain ⟨hframe, hchild, -⟩ := closureBody_frame h hu
  have hdest := closureBody_since h hr hu
  have hw := closureInside_tame params hcode (u.resume { child with returnError := none }) hchild
  refine Leaves.bind (h₁.within hframe hw) fun r v hv h₂ => ?_
  obtain ⟨⟨formals, c⟩, inner⟩ := r
  obtain ⟨w, hyields, rfl, rfl⟩ := within_iff.1 hv
  rw [hyields.after] at hw
  refine (h₂.lift ?_ env formals c loc).1
  rw [show w.body.dest = child.dest from hw.body.dest]
  exact ⟨hdest.1, le_trans hdest.2 hw.issued⟩

/-- A branch is lowered into a lambda to come, whose symbol is new. -/
theorem lowerBranch_leaves (h : Leaves s₀ s) (tag : String)
    {statements : Lower (List Item)} (hst : TameInside statements) :
    Leaves s₀ ((Lower.lowerBranch tag statements).after s) := by
  refine Leaves.bind (Tame.body.behind h) fun b₀ u₀ _ h₀ => ?_
  refine Leaves.bind ((derive_tame _ _).behind h₀) fun ref u hu h₁ => ?_
  obtain ⟨rfl, rfl⟩ := Yields.derive_iff.1 hu
  refine Leaves.bind (closureBody_leaves h₁ none fun r hr => by cases hr; exact le_rfl)
    fun child v hv h₂ => ?_
  obtain ⟨hframe, hchild, -⟩ := closureBody_frame h₁ hv
  exact Leaves.bind (h₂.within hframe (hst _ hchild)) fun _ _ _ h₃ => h₃

theorem lowerBranch_since {b : Lower.Branch} (h : Leaves s₀ s) {tag : String}
    {statements : Lower (List Item)} (hst : TameInside statements)
    (hb : Yields (Lower.lowerBranch tag statements) s b t) : Since s₀ t b.body.dest := by
  simp only [Lower.lowerBranch, Yields.bind_iff, Yields.body_iff, Yields.derive_iff, within_iff,
    Yields.pure_iff] at hb
  obtain ⟨_, _, ⟨rfl, rfl⟩, ref, _, ⟨href, rfl⟩, child, u, hc, ⟨items, inner⟩, _,
    ⟨w, hw, rfl, rfl⟩, rfl, rfl⟩ := hb
  have hsince : ∀ r ∈ some ref, Since s₀ s.issuing r := fun r hr => by
    cases hr
    exact href ▸ ⟨Nat.lt_succ_of_le h.issued, le_rfl⟩
  obtain ⟨-, hchild, -⟩ := closureBody_frame h.issuing hc
  have hdest := closureBody_since h.issuing hsince hc
  have hafter := hst (u.resume child) hchild
  rw [hw.after] at hafter
  change Since s₀ (w.resume u.body) w.body.dest
  rw [show w.body.dest = child.dest from hafter.body.dest]
  exact ⟨hdest.1, le_trans hdest.2 hafter.issued⟩

theorem mapM_tame {α β : Type} {g : α → Lower β} (hg : ∀ a, Tame (g a)) (as : List α) :
    Tame (as.mapM g) := by
  induction as with
  | nil => exact .pure _
  | cons a as ih =>
    rw [List.mapM_cons]
    exact (hg a).bind fun _ => ih.bind fun _ => .pure _

theorem branchResult_tame (b : Lower.Branch) (returns : Bool) (names : List String)
    (loc : Option Location) : Tame (Lower.branchResult b returns names loc) := by
  unfold Lower.branchResult
  split
  · exact .pure _
  · split
    · exact (currentIn_tame _ _ loc).bind fun _ => .pure _
    · exact (mapM_tame (fun x => (currentIn_tame _ x loc).bind fun _ => .pure _) names).bind
        fun _ => .pure _

theorem buildBranch_leaves {b : Lower.Branch} (h : Leaves s₀ s) (hb : Since s₀ s b.body.dest)
    (env : Env) (result : Option Node) (loc : Option Location) :
    Leaves s₀ ((Lower.buildBranch env b result loc).after s) ∧
      s.issued ≤ ((Lower.buildBranch env b result loc).after s).issued := by
  unfold Lower.buildBranch
  cases hcode : group b.items result loc with
  | error e => exact ⟨h, le_rfl⟩
  | ok code => exact h.lift hb env [] code (code.loc.or loc)

theorem mergeBranches_leaves {T F : Lower.Branch} (h : Leaves s₀ s)
    (hT : Since s₀ s T.body.dest) (hF : Since s₀ s F.body.dest)
    (env : Env) (loc : Option Location) (test : Node) :
    Leaves s₀ ((Lower.mergeBranches env loc test T F).after s) := by
  -- Behind the checks, one branch is built after the other.
  have hbuild : ∀ u returns (last : Node → Node → Lower (List Item)), (∀ nT nF, Tame (last nT nF)) →
      Leaves s₀ u → s.issued ≤ u.issued → Leaves s₀ ((do
        let rT ← Lower.branchResult T returns T.body.assigned loc
        let nT ← Lower.buildBranch env T rT loc
        let rF ← Lower.branchResult F returns T.body.assigned loc
        let nF ← Lower.buildBranch env F rF loc
        last nT nF : Lower (List Item)).after u) := by
    intro u returns last hlast hu hle
    have h₁ := branchResult_tame T returns T.body.assigned loc u
    refine Leaves.bind (hu.trans h₁) fun rT u₁ hu₁ l₁ => ?_
    rw [hu₁.after] at h₁
    have h₂ := buildBranch_leaves l₁ (hT.mono (le_trans hle h₁.issued)) env rT loc
    refine Leaves.bind h₂.1 fun nT u₂ hu₂ l₂ => ?_
    rw [hu₂.after] at h₂
    have h₃ := branchResult_tame F returns T.body.assigned loc u₂
    refine Leaves.bind (l₂.trans h₃) fun rF u₃ hu₃ l₃ => ?_
    rw [hu₃.after] at h₃
    have hF' := hF.mono (le_trans hle (le_trans h₁.issued (le_trans h₂.2 h₃.issued)))
    exact Leaves.bind (buildBranch_leaves l₃ hF' env rF loc).1 fun nF u₄ _ l₄ =>
      (hlast nT nF).behind l₄
  have hresults : ∀ returns (nT nF : Node), Tame (Lower.bindResults returns T.body.assigned
      (branchCall test nT nF loc) loc) := by
    intro returns nT nF
    unfold Lower.bindResults
    split
    · exact .pure _
    · split
      · exact (issue_tame "tmp" .local_).bind fun _ => .pure _
      · exact (assign_tame _ _ loc).bind fun _ => .pure _
      · exact assignAll_tame _ _ loc
  unfold Lower.mergeBranches
  simp only []
  split
  · exact h
  · split
    · exact h
    · split
      · have hmark : Tame (Lower.modifyBody fun b => { b with hasReturned := true }) :=
          .modifyBody fun _ => ⟨rfl, rfl, rfl, rfl, rfl⟩
        refine Leaves.bind (hmark.behind h) fun _ u hu h₁ => hbuild u _ _ (hresults true) h₁ ?_
        rw [← Yields.modifyBody_iff.1 hu]
      · exact hbuild s _ _ (hresults false) h le_rfl

/-- A dry run changes nothing but the frames it makes itself and the symbols it issues, whether it
succeeds or not. -/
theorem dryRun_untouched {test : Lower Node} {statements : Lower (List Item)} (htest : TameInside test)
    (hst : TameInside statements) (s : State) :
    Untouched s ((Lower.dryRun test statements).after s) := by
  refine after_bind (childBody_untouched none false _ s) fun child u hu h₁ => ?_
  obtain ⟨hframe, hchild, -⟩ := childBody_frame hu
  refine after_bind ?_ fun _ _ _ h₂ => h₂
  rw [after_inScratch, after_within]
  have hsteps : TameInside (do
      let _ ← test
      let _ ← statements) := htest.bind fun _ => hst.bind fun _ => (Tame.pure _).inside
  have hw := hsteps (u.scratch.resume child) hchild
  exact
    { issued := le_trans h₁.issued hw.issued
      size := le_trans h₁.size hw.size
      frames := fun i hi => by
        rw [← h₁.frames i hi]
        refine hw.frames i (lt_of_lt_of_le hi h₁.size) ?_
        change i ≠ child.frame
        omega
      bounds := fun hs => hw.bounds (h₁.bounds hs)
      table := h₁.table
      commits := h₁.commits
      body := h₁.body }

theorem lowerInside_tame {test : Lower Node} {statements : Lower (List Item)} (htest : TameInside test)
    (hst : TameInside statements) (ref : Symbol) (vars : LoopVariables) (loc : Option Location) :
    TameInside (Lower.lowerInside ref vars test statements loc) :=
  (bindFreshAll_tame vars.taken).inside.bind fun _ => (currents_tame loc vars.given).inside.bind
    fun _ => htest.bind fun _ => hst.bind fun _ => Tame.inside <|
      (readNames_tame loc vars.taken).bind fun _ => (Tame.ofExcept _).bind fun _ => .pure _

theorem lowerLoop_tame {test : Lower Node} {statements : Lower (List Item)} (htest : TameInside test)
    (hst : TameInside statements) (env : Env) (loc : Option Location) :
    Tame (Lower.lowerLoop env loc test statements) := by
  intro s
  refine Leaves.bind (dryRun_untouched htest hst s).leaves fun vars u₁ _ h₁ => ?_
  refine Leaves.bind ((currents_tame loc vars.given).behind h₁) fun _ u₂ _ h₂ => ?_
  refine Leaves.bind ((readNames_tame loc vars.taken).behind h₂) fun initial u₃ _ h₃ => ?_
  refine Leaves.bind (Tame.body.behind h₃) fun b₁ u₄ hu₄ h₄ => ?_
  refine Leaves.bind ((derive_tame _ _).behind h₄) fun loopRef u₅ hu₅ h₅ => ?_
  refine Leaves.bind (Tame.body.behind h₅) fun b₂ u₆ hu₆ h₆ => ?_
  refine Leaves.bind ((derive_tame _ _).behind h₆) fun continueRef u₇ hu₇ h₇ => ?_
  have hloop : Since s u₇ loopRef := by
    obtain ⟨rfl, rfl⟩ := Yields.derive_iff.1 hu₅
    obtain ⟨-, rfl⟩ := Yields.body_iff.1 hu₆
    obtain ⟨-, rfl⟩ := Yields.derive_iff.1 hu₇
    exact ⟨Nat.lt_succ_of_le h₄.issued, Nat.le_succ _⟩
  have hcontinue : Since s u₇ continueRef := by
    obtain ⟨rfl, rfl⟩ := Yields.derive_iff.1 hu₇
    exact ⟨Nat.lt_succ_of_le h₆.issued, le_rfl⟩
  refine Leaves.bind ((childBody_tame _ _ _).behind h₇) fun child u₈ hu₈ h₈ => ?_
  have hle₈ : u₇.issued ≤ u₈.issued := hu₈.after ▸ (childBody_untouched _ _ _ u₇).issued
  obtain ⟨hframe, hchild, -⟩ := childBody_frame hu₈
  have hw := lowerInside_tame htest hst loopRef vars loc (u₈.resume child) hchild
  refine Leaves.bind (h₈.within (by rw [hframe]; exact h₇.size) hw) fun r u₉ hu₉ h₉ => ?_
  have hle₉ : u₈.issued ≤ u₉.issued := by
    rw [← hu₉.after, after_within]
    exact hw.issued
  have hle : u₇.issued ≤ u₉.issued := le_trans hle₈ hle₉
  refine Leaves.bind (h₉.define (hcontinue.mono hle) env _ _ loc) fun _ v hv h₁₀ => ?_
  have hle' : u₇.issued ≤ v.issued := by
    rw [← hv.after, define_issued]
    exact hle
  exact Leaves.bind (h₁₀.define (hloop.mono hle') env _ _ loc) fun _ _ _ h₁₁ =>
    (assignAll_tame vars.given _ loc).behind h₁₁

end Parts

section Trees

variable {env : Env} {loc : Option Location}

theorem requirePositional_tame (params : Params Expr) (loc : Option Location) :
    Tame (Lower.requirePositional params loc) := by
  unfold Lower.requirePositional
  simp only []
  split
  · exact fun s => .refl s
  · split
    · exact fun s => .refl s
    · split
      · exact .refuse _ _
      · exact .pure _

theorem refuseStarred_tame (env : Env) (es : List Expr) : Tame (Lower.refuseStarred env es) := by
  induction es with
  | nil => exact .pure _
  | cons e es ih =>
    unfold Lower.refuseStarred
    split
    · exact .pure _
    · exact .refuse _ _
    · rename_i heq
      cases heq
      exact ih

theorem operatorNode_tame (op : Operator) (loc : Option Location) :
    Tame (Lower.operatorNode op loc) := by
  unfold Lower.operatorNode
  split
  · exact .pure _
  · exact .throw _

theorem lowerExprs_tame {es : List Expr} (h : ∀ e ∈ es, Tame (Lower.lowerExpr env e)) :
    Tame (Lower.lowerExprs env es) := by
  induction es with
  | nil => exact .pure _
  | cons e es ih =>
    rw [Lower.lowerExprs]
    exact (h e (by simp)).bind fun _ =>
      (ih fun e' he' => h e' (List.mem_cons_of_mem _ he')).bind fun _ => .pure _

theorem lowerOption_tame {o : Option Expr} (v : Literal)
    (h : ∀ e ∈ o, Tame (Lower.lowerExpr env e)) : Tame (Lower.lowerOption env o v) := by
  cases o with
  | none => exact .pure _
  | some e => exact h e rfl

/-- Whatever becomes of an expression, it leaves what was there before. -/
theorem lowerExpr_tame (env : Env) (e : Expr) : Tame (Lower.lowerExpr env e) := by
  induction e using Expr.ind with
  | name sp x =>
    rw [Lower.lowerExpr]
    exact readName_tame x _
  | constant sp v =>
    rw [Lower.lowerExpr]
    exact .pure _
  | binary sp op l r ihl ihr =>
    rw [Lower.lowerExpr]
    exact (operatorNode_tame op _).bind fun _ => ihl.bind fun _ => ihr.bind fun _ => .pure _
  | unary sp op x ih =>
    rw [Lower.lowerExpr]
    exact (operatorNode_tame op _).bind fun _ => ih.bind fun _ => .pure _
  | compare sp l op r ihl ihr =>
    rw [Lower.lowerExpr]
    exact (operatorNode_tame op _).bind fun _ => ihl.bind fun _ => ihr.bind fun _ => .pure _
  | chain sp l rest hlen =>
    rcases rest with - | ⟨⟨op, r⟩, - | ⟨_, _⟩⟩
    · simp only [Lower.lowerExpr]
      exact .refuse _ _
    · simp at hlen
    · simp only [Lower.lowerExpr]
      exact .refuse _ _
  | call sp f args ks ihf ihargs =>
    have hargs := lowerExprs_tame ihargs
    simp only [Lower.lowerExpr]
    split
    · exact fun s => .refl s
    · refine (refuseStarred_tame env args).bind fun _ => hargs.bind fun ns => ?_
      split
      · split
        · exact .pure _
        · exact .throw _
      · exact ihf.bind fun _ => .pure _
  | attr sp v name ih =>
    rw [Lower.lowerExpr]
    exact ih.bind fun _ => .pure _
  | subscript sp v i ihv ihi =>
    rw [Lower.lowerExpr]
    exact ihv.bind fun _ => ihi.bind fun _ => .pure _
  | slice sp a b c iha ihb ihc =>
    rw [lowerExpr_slice]
    exact (lowerOption_tame _ iha).bind fun _ => (lowerOption_tame _ ihb).bind fun _ =>
      (lowerOption_tame _ ihc).bind fun _ => .pure _
  | extSlice sp es ih =>
    rw [Lower.lowerExpr]
    exact (lowerExprs_tame ih).bind fun _ => .pure _
  | tuple sp es ih =>
    rw [Lower.lowerExpr]
    exact (lowerExprs_tame ih).bind fun _ => .pure _
  | lambda sp ps b ih =>
    rw [Lower.lowerExpr]
    exact (requirePositional_tame ps _).bind fun _ s =>
      lowerClosure_leaves (.refl s) env ps ih.inside _ none (fun _ hr => by cases hr)
  | foreign e hf =>
    cases e <;> simp [Expr.isForeign] at hf <;> rw [Lower.lowerExpr] <;> exact .refuse _ _

theorem lowerAssign_tame (env : Env) (loc : Option Location) (target value : Expr) :
    Tame (Lower.lowerAssign env loc target value) := by
  unfold Lower.lowerAssign
  split
  · exact (lowerExpr_tame env value).bind fun _ => (assign_tame _ _ loc).bind fun _ => .pure _
  · split
    · exact (lowerExpr_tame env value).bind fun _ => (lowerExpr_tame env _).bind fun _ =>
        (lowerExpr_tame env _).bind fun _ => (assign_tame _ _ loc).bind fun _ => .pure _
    · exact .refuse _ _
  · exact .refuse _ _
  · exact .refuse _ _
  · exact .refuse _ _

theorem lowerAugAssign_tame (env : Env) (loc : Option Location) (target : Expr) (op : Operator)
    (value : Expr) : Tame (Lower.lowerAugAssign env loc target op value) := by
  unfold Lower.lowerAugAssign
  split
  · exact (lowerExpr_tame env value).bind fun _ => (operatorNode_tame op loc).bind fun _ =>
      (readName_tame _ loc).bind fun _ => (current_tame _ loc).bind fun _ =>
        (assign_tame _ _ loc).bind fun _ => .pure _
  · exact .refuse _ _
  · exact .refuse _ _

theorem lowerReturn_tame (env : Env) (loc : Option Location) (value : Option Expr) :
    Tame (Lower.lowerReturn env loc value) := by
  have hmark : Tame (Lower.modifyBody fun b => { b with hasReturned := true }) :=
    .modifyBody fun _ => ⟨rfl, rfl, rfl, rfl, rfl⟩
  refine Tame.body.bind fun b => ?_
  cases b.returnError with
  | some why =>
    refine (Tame.refuse _ _).bind fun _ => hmark.bind fun _ => ?_
    cases value with
    | none => exact .pure _
    | some e => exact (lowerExpr_tame env e).bind fun _ => .pure _
  | none =>
    refine hmark.bind fun _ => ?_
    cases value with
    | none => exact .pure _
    | some e => exact (lowerExpr_tame env e).bind fun _ => .pure _

theorem functionBody_tame {statements : Lower (List Item)} (h : TameInside statements)
    (loc : Option Location) : TameInside (Lower.functionBody statements loc) :=
  h.bind fun _ => (Tame.ofExcept _).inside

/-- Inside a function, the lambda of another function has a symbol that is issued for it. -/
theorem lowerFunction_tame {statements : Lower (List Item)} (h : TameInside statements) (env : Env)
    (loc : Option Location) (name : String) (params : Params Expr) (decorators : List Expr)
    (allow : Bool) :
    TameInside (Lower.lowerFunction env loc name params decorators allow statements) := by
  have hdefine : Tame (do
      let ref ← Lower.issue name .global_
      let sym ← Lower.bindFresh name
      let closure ← Lower.lowerClosure env params (Lower.functionBody statements loc) loc (some name)
        (some ref)
      return [Item.assign ⟨sym, closure, loc⟩]) := by
    intro s
    refine Leaves.bind (issue_tame name .global_ s) fun ref u hu h₁ => ?_
    obtain ⟨rfl, rfl⟩ := Yields.issue_iff.1 hu
    have hsym := bindFresh_tame name { s with issued := s.issued + 1 }
    refine Leaves.bind (h₁.trans hsym) fun sym v hv h₂ => ?_
    rw [hv.after] at hsym
    refine Leaves.bind (lowerClosure_leaves h₂ env params (functionBody_tame h loc) loc
      (some name) fun r hr => ?_) fun _ _ _ h₃ => h₃
    cases hr
    exact ⟨Nat.lt_succ_self _, hsym.issued⟩
  intro s htop
  refine Leaves.bind (requirePositional_tame params loc s) fun _ u _ h₁ => ?_
  simp only []
  split
  · exact h₁
  · refine Leaves.bind (Tame.body.behind h₁) fun b v hv h₂ => ?_
    obtain ⟨rfl, rfl⟩ := Yields.body_iff.1 hv
    simp only [h₁.topLevel htop, Bool.false_eq_true, if_false]
    exact hdefine.behind h₂

theorem lowerBlock_tame_of {b : List Stmt} (h : ∀ st ∈ b, TameInside (Lower.lowerStmt env st false)) :
    TameInside (Lower.lowerBlock env b) := by
  induction b with
  | nil =>
    rw [Lower.lowerBlock]
    exact (Tame.pure _).inside
  | cons st b ih =>
    have hrest := ih fun st' hst' => h st' (List.mem_cons_of_mem _ hst')
    rw [Lower.lowerBlock]
    refine Tame.body.inside.bind fun bd => ?_
    simp only []
    split
    · exact fun s _ => .refl s
    · exact (h st (by simp)).bind fun _ => hrest.bind fun _ => (Tame.pure _).inside

/-- Whatever becomes of a statement inside a function, it leaves what was there before. -/
theorem lowerStmt_tame (env : Env) (st : Stmt) : ∀ allow, TameInside (Lower.lowerStmt env st allow) := by
  induction st using Stmt.ind with
  | expr sp v =>
    intro allow
    rw [Lower.lowerStmt]
    exact ((lowerExpr_tame env v).bind fun _ => .pure _).inside
  | assign sp ts v =>
    intro allow
    rcases ts with - | ⟨target, - | ⟨_, _⟩⟩
    · simp only [Lower.lowerStmt]
      exact (Tame.refuse _ _).inside
    · simp only [Lower.lowerStmt]
      exact (lowerAssign_tame env _ target v).inside
    · simp only [Lower.lowerStmt]
      exact (Tame.refuse _ _).inside
  | augAssign sp target op v =>
    intro allow
    rw [Lower.lowerStmt]
    exact (lowerAugAssign_tame env _ target op v).inside
  | functionDef sp f ps b ds ih =>
    intro allow
    rw [Lower.lowerStmt]
    exact lowerFunction_tame (lowerBlock_tame_of fun st hst => ih st hst false) env _ f ps ds allow
  | returnValue sp v =>
    intro allow
    rw [Lower.lowerStmt]
    exact (lowerReturn_tame env _ v).inside
  | ifElse sp c b o ihb iho =>
    intro allow s _
    have hb := lowerBlock_tame_of fun st hst => ihb st hst false
    have ho := lowerBlock_tame_of fun st hst => iho st hst false
    rw [Lower.lowerStmt]
    refine Leaves.bind (lowerExpr_tame env c s) fun test u _ h₁ => ?_
    refine Leaves.bind (lowerBranch_leaves h₁ "then" hb) fun T v hv h₂ => ?_
    have hT := lowerBranch_since h₁ hb hv
    refine Leaves.bind (lowerBranch_leaves h₂ "else" ho) fun F w hw h₃ => ?_
    have hF := lowerBranch_since h₂ ho hw
    have hle := lowerBranch_leaves (.refl v) "else" ho
    rw [hw.after] at hle
    exact mergeBranches_leaves h₃ (hT.mono hle.issued) hF env _ test
  | whileLoop sp c b o ih =>
    intro allow
    have hb := lowerBlock_tame_of fun st hst => ih st hst false
    simp only [Lower.lowerStmt]
    split
    · exact fun s _ => .refl s
    · exact (lowerLoop_tame (lowerExpr_tame env c).inside hb env _).inside
  | foreign st hf =>
    intro allow
    cases st <;> simp [Stmt.isForeign] at hf <;> rw [Lower.lowerStmt] <;> exact (Tame.refuse _ _).inside

theorem lowerBlock_tame (env : Env) (b : List Stmt) : TameInside (Lower.lowerBlock env b) :=
  lowerBlock_tame_of fun st _ => lowerStmt_tame env st false

end Trees

section Failing

variable {α β : Type} {s t u : State} {e : Failure}

/-- The step fails, and the state goes on from there. -/
def Fails (x : Lower α) (s : State) (e : Failure) (t : State) : Prop := x s = .error e t

theorem Fails.after {x : Lower α} (h : Fails x s e t) : x.after s = t := by
  unfold Lower.after
  rw [show x s = .error e t from h]

theorem Tame.of_fails {x : Lower α} (hx : Tame x) (h : Fails x s e t) : Leaves s t :=
  h.after ▸ hx s

theorem Fails.bind_iff {x : Lower α} {f : α → Lower β} :
    Fails (x >>= f) s e t ↔ Fails x s e t ∨ ∃ a u, Yields x s a u ∧ Fails (f a) u e t := by
  unfold Fails Yields
  change EStateM.bind x f s = _ ↔ _
  unfold EStateM.bind
  cases x s with
  | ok a u => simp
  | error e' u => simp

theorem Fails.pure_iff {a : α} : ¬ Fails (pure a) s e t := by
  intro h
  cases h

/-- Lifting a body fails before its lambda is defined. -/
theorem lift_fails {env : Env} {child : Body} {formals : List Symbol} {code : Node}
    {loc : Option Location} (h : Fails (Lower.lift env child formals code loc) s e t) :
    Leaves s t := by
  rcases Fails.bind_iff.1 h with h | ⟨captured, u, hu, h⟩
  · exact (readNames_tame loc _).of_fails h
  · have hsu := readNames_tame loc (child.free.map (·.1)) s
    rw [hu.after] at hsu
    rcases Fails.bind_iff.1 h with h | ⟨_, v, hv, h⟩
    · rcases Fails.bind_iff.1 h with h | ⟨u', _, hu', h⟩
      · cases h
      obtain ⟨rfl, rfl⟩ := Yields.get_iff.1 hu'
      cases hd : u.table.define? ⟨child.dest, child.free.map (·.2) ++ formals, code, loc⟩ with
      | none =>
        rw [hd] at h
        cases h
        exact hsu
      | some table =>
        rw [hd] at h
        rcases Fails.bind_iff.1 h with h | ⟨_, v, hv, h⟩
        · cases h
        · unfold Lower.logDefinition at h
          split at h <;> cases h
    · split at h <;> exact absurd h Fails.pure_iff

/-- A function at the root leaves nothing of its own lambda when it fails. -/
theorem lowerFunction_fails {statements : Lower (List Item)} (hst : TameInside statements)
    {env : Env} {loc : Option Location} {name : String} {params : Params Expr}
    {decorators : List Expr} (htop : s.body.topLevel = true)
    (h : Fails (Lower.lowerFunction env loc name params decorators true statements) s e t) :
    Leaves s t := by
  rcases Fails.bind_iff.1 h with h | ⟨_, u, hu, h⟩
  · exact (requirePositional_tame params loc).of_fails h
  have hsu := hu.after ▸ requirePositional_tame params loc s
  simp only [Bool.not_true, Bool.false_and, Bool.false_eq_true, if_false] at h
  rcases Fails.bind_iff.1 h with h | ⟨b, v, hv, h⟩
  · cases h
  obtain ⟨rfl, rfl⟩ := Yields.body_iff.1 hv
  rw [hsu.body.topLevel, htop] at h
  simp only [if_true] at h
  rcases Fails.bind_iff.1 h with h | ⟨ref, v, hv, h⟩
  · cases h
  obtain ⟨rfl, rfl⟩ := Yields.pure_iff.1 hv
  rcases Fails.bind_iff.1 h with h | ⟨sym, w, hw, h⟩
  · exact hsu.trans ((bindFresh_tame name).of_fails h)
  have hsw := hsu.trans (hw.after ▸ bindFresh_tame name u)
  have hglobal : ∀ r ∈ some (Symbol.global name), r.token ≤ w.issued := fun r hr => by
    cases hr
    exact Nat.zero_le _
  rcases Fails.bind_iff.1 h with h | ⟨_, _, -, h⟩
  · rcases Fails.bind_iff.1 h with h | ⟨child, x, hx, h⟩
    · exact h.after ▸ closureBody_leaves hsw (some name) hglobal
    have hsx := hx.after ▸ closureBody_leaves hsw (some name) hglobal
    obtain ⟨hframe, hchild, -⟩ := closureBody_frame hsw hx
    have hcode := closureInside_tame params (functionBody_tame hst loc)
      (x.resume { child with returnError := none }) hchild
    have hwithin := Leaves.within hsx (show s.scopes.size ≤
      ({ child with returnError := none } : Body).frame from hframe) hcode
    rcases Fails.bind_iff.1 h with h | ⟨⟨⟨formals, code⟩, inner⟩, y, hy, h⟩
    · exact h.after ▸ hwithin
    · exact (hy.after ▸ hwithin).trans (lift_fails h)
  · exact absurd h Fails.pure_iff

end Failing

end Hoist.Lowering
