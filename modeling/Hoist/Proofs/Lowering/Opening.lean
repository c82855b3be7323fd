import Hoist.Proofs.Lowering.Binding

/-!
# Bodies inside bodies

`Opens start dest pulling err s u` says that `u` begins a body inside that of `s`: its frame is new
and lies in the frame of `s`, and all it binds yet is given by `start`. When the inner body is done,
lowering resumes the outer one, and for the names of that body nothing has happened.
-/

namespace Hoist.Lowering

open Hoist.Flat (Symbol Node Location Space Table Lambda)

/-- A state that goes on in another body. -/
def State.resume (t : State) (b : Body) : State := { t with body := b }

/-- A state over a table of its own. -/
def State.scratch (s : State) : State := { s with table := .empty, commits := false }

/-- A state that begins a body inside the body of another one. -/
structure Opens (start : String → Option Symbol) (dest : Symbol) (pulling : Bool)
    (err : Option String) (s u : State) : Prop where
  body : u.body = ⟨s.scopes.size, dest, pulling, false, err, false, [], []⟩
  size : u.scopes.size = s.scopes.size + 1
  frames : ∀ i < s.scopes.size, u.scopes.frames[i]? = s.scopes.frames[i]?
  around : u.scopes.around s.scopes.size = some s.body.frame
  own : ∀ x, u.own x = start x
  start_le : ∀ x a, start x = some a → a.token ≤ u.issued
  issued : s.issued ≤ u.issued
  table : u.table = s.table
  commits : u.commits = s.commits

namespace Opens

variable {start : String → Option Symbol} {dest : Symbol} {pulling : Bool} {err : Option String}
  {s u t : State}

/-- Around the new body one sees what the outer body sees. -/
theorem outer (h : Opens start dest pulling err s u) (hs : Valid s) (x : String) :
    u.outer x = s.sees x := by
  have hlt := hs.frame_lt
  unfold State.outer Scopes.outside
  rw [h.body, h.around]
  exact Scopes.sees_congr (fun i hi => h.frames i (by omega)) x

theorem valid (h : Opens start dest pulling err s u) (hs : Valid s) : Valid u where
  frame_lt := by rw [h.body, h.size]; exact Nat.lt_succ_self _
  bound_le i x a ha := by
    rcases Nat.lt_trichotomy i s.scopes.size with hi | rfl | hi
    · have : u.scopes.own i x = s.scopes.own i x := by simp [Scopes.own, h.frames i hi]
      rw [this] at ha
      exact le_trans (hs.bound_le i x a ha) h.issued
    · have := h.own x
      rw [State.own, h.body] at this
      exact h.start_le x a (this ▸ ha)
    · rw [Scopes.own_eq_none_of_le _ (by rw [h.size]; omega)] at ha
      cases ha
  refs_le l hl := by rw [h.table] at hl; exact le_trans (hs.refs_le l hl) h.issued
  refs_ne := by rw [h.table]; exact hs.refs_ne
  free_le p hp := by rw [h.body] at hp; cases hp
  free_own _ p hp := by rw [h.body] at hp; cases hp
  free_outer _ p hp := by rw [h.body] at hp; cases hp
  free_nodup := by rw [State.freeNames, h.body]; exact List.nodup_nil
  free_ne _ := by rw [h.body]; exact .nil
  free_refs _ p hp := by rw [h.body] at hp; cases hp
  assigned_nodup := by rw [h.body]; exact List.nodup_nil
  assigned_own x hx := by rw [h.body] at hx; cases hx

theorem freeNames (h : Opens start dest pulling err s u) : u.freeNames = [] := by
  rw [State.freeNames, h.body]; rfl

theorem isFree (h : Opens start dest pulling err s u) (hs : Valid s) (x : String) :
    u.isFree x = ((start x).isNone && (s.sees x).isSome) := by
  rw [State.isFree, h.own, h.outer hs]

/-- The outer body's frame is left alone while the inner one is lowered. -/
theorem frames_back (h : Opens start dest pulling err s u) (ht : Advances u t) :
    ∀ i < s.scopes.size, t.scopes.frames[i]? = s.scopes.frames[i]? := by
  intro i hi
  rw [ht.frames i (by rw [h.size]; omega) (by rw [h.body]; exact Nat.ne_of_lt hi), h.frames i hi]

theorem own_back (h : Opens start dest pulling err s u) (hs : Valid s) (ht : Advances u t)
    (x : String) : (t.resume s.body).own x = s.own x := by
  simp [State.own, State.resume, Scopes.own, h.frames_back ht _ hs.frame_lt]

theorem outer_back (h : Opens start dest pulling err s u) (hs : Valid s) (ht : Advances u t)
    (x : String) : (t.resume s.body).outer x = s.outer x := by
  have hlt := hs.frame_lt
  refine Scopes.outside_congr ?_ (fun i hi => h.frames_back ht i ?_) x
  · simp [State.resume, Scopes.around, h.frames_back ht _ hlt]
  · simp only [State.resume] at hi; omega

/-- Back in the outer body, its names are as they were. -/
theorem back (h : Opens start dest pulling err s u) (hs : Valid s) (hv : Valid t)
    (ht : Advances u t) : Reads [] s (t.resume s.body) where
  valid :=
    { frame_lt := by
        have h₁ := hs.frame_lt
        have h₂ := ht.size
        have h₃ := h.size
        simp only [State.resume]
        omega
      bound_le := hv.bound_le
      refs_le := hv.refs_le
      refs_ne := hv.refs_ne
      free_le := fun p hp => le_trans (hs.free_le p hp) (le_trans h.issued ht.issued)
      free_own := fun hp p hm => by rw [h.own_back hs ht]; exact hs.free_own hp p hm
      free_outer := fun hp p hm => by rw [h.outer_back hs ht]; exact hs.free_outer hp p hm
      free_nodup := hs.free_nodup
      free_ne := hs.free_ne
      free_refs := by
        intro hp p hm
        refine ⟨(hs.free_refs hp p hm).1, fun l hl => ?_⟩
        obtain ⟨new, hn, hlt⟩ := ht.lambdas
        simp only [State.resume, hn, h.table] at hl
        rcases List.mem_append.1 hl with hl | hl
        · exact (hs.free_refs hp p hm).2 l hl
        · have h₁ := hlt l hl
          have h₂ := hs.free_le p hm
          have h₃ := h.issued
          omega
      assigned_nodup := hs.assigned_nodup
      assigned_own := fun x hx => by rw [h.own_back hs ht]; exact hs.assigned_own x hx }
  advances :=
    { issued := le_trans h.issued ht.issued
      size := le_trans (by rw [h.size]; exact Nat.le_succ _) ht.size
      frames := fun i hi _ => h.frames_back ht i hi
      around := by
        simp [State.resume, Scopes.around, h.frames_back ht _ hs.frame_lt]
      own := fun x hx => by rw [h.own_back hs ht]; exact hx
      lambdas := by
        obtain ⟨new, hn, hlt⟩ := ht.lambdas
        exact ⟨new, by rw [← h.table]; exact hn, fun l hl => lt_of_le_of_lt h.issued (hlt l hl)⟩
      commits := ht.commits.trans h.commits
      body := .refl _
      free := ⟨[], by simp [State.resume]⟩
      assigned := ⟨[], by simp [State.resume]⟩
      returned := id }
  free := rfl
  own x := by
    rw [h.own_back hs ht]
    exact (Reads.refl hs).own x
  assigned := rfl
  returned := by simp [State.resume]
  pulled x a hx := by
    rw [h.own_back hs ht] at hx
    exact .inl hx

end Opens

section Children

variable {s t : State}

/-- A new frame inside the body of a state, which binds nothing yet. -/
theorem child_opens (hs : Valid s) (k : Nat) (hk : s.issued ≤ k) (dest : Symbol) (pulling : Bool)
    (err : Option String) : ∃ sc, s.scopes.child s.body.frame = .ok (s.scopes.size, sc) ∧
      Opens (fun _ => none) dest pulling err s
        { s with issued := k, scopes := sc,
                 body := ⟨s.scopes.size, dest, pulling, false, err, false, [], []⟩ } := by
  have hsc : s.scopes.child s.body.frame =
      .ok (s.scopes.size, s.scopes.push (some s.body.frame) fun p hp => by
        cases hp; exact hs.frame_lt) := by
    rw [Scopes.child, dif_pos hs.frame_lt]
  refine ⟨_, hsc, ?_⟩
  exact
    { body := rfl
      size := Scopes.child_size hsc
      frames := fun i hi => Scopes.child_frames hsc hi
      around := by rw [Scopes.child_around hsc, if_pos rfl]
      own := fun x => by
        simp only [State.own]
        rw [Scopes.child_own hsc, Scopes.own_eq_none_of_le _ (Nat.le_refl _)]
      start_le := fun _ _ h => by cases h
      issued := hk
      table := rfl
      commits := rfl }

/-- The names that a closure's body begins with: its own one, for the bare lambda. -/
def ownName (name : Option String) (ref : Symbol) (x : String) : Option Symbol :=
  if name = some x then some ref else none

theorem within_iff {α : Type} {inner : Body} {step : Lower α} {r : α × Body} :
    Yields (Lower.within inner step) s r t ↔
      ∃ w, Yields step (s.resume inner) r.1 w ∧ r.2 = w.body ∧ w.resume s.body = t := by
  obtain ⟨a, b⟩ := r
  unfold Yields Lower.within
  rw [show { s with body := inner } = s.resume inner from rfl]
  cases step (s.resume inner) with
  | ok a' w =>
    simp only [EStateM.Result.ok.injEq, Prod.mk.injEq, State.resume]
    constructor
    · rintro ⟨⟨rfl, rfl⟩, rfl⟩
      exact ⟨w, ⟨rfl, rfl⟩, rfl, rfl⟩
    · rintro ⟨_, ⟨rfl, rfl⟩, rfl, rfl⟩
      exact ⟨⟨rfl, rfl⟩, rfl⟩
  | error e w => simp

/-- A state with the table of another one. -/
def State.restore (w s : State) : State := { w with table := s.table, commits := s.commits }

theorem inScratch_iff {α : Type} {step : Lower α} {a : α} :
    Yields (Lower.inScratch step) s a t ↔
      ∃ w, Yields step s.scratch a w ∧ w.restore s = t := by
  unfold Yields Lower.inScratch
  rw [show { s with table := .empty, commits := false } = s.scratch from rfl]
  cases step s.scratch with
  | ok a' w => simp [State.restore]
  | error e w => simp

theorem childBody_opens (hs : Valid s) (dest : Symbol) (pulling : Bool) (err : Option String) :
    ∃ u, Opens (fun _ => none) dest pulling err s u ∧
      Yields (Lower.childBody (some dest) pulling err) s u.body (u.resume s.body) := by
  obtain ⟨sc, hsc, ho⟩ := child_opens hs s.issued (Nat.le_refl _) dest pulling err
  refine ⟨_, ho, ?_⟩
  simp only [Lower.childBody, Lower.newBody, Yields.bind_iff, Yields.get_iff, Yields.ofExcept_iff,
    Yields.set_iff, Yields.pure_iff]
  exact ⟨s, s, ⟨rfl, rfl⟩, _, s, ⟨hsc, rfl⟩, ⟨⟩, _, rfl, dest, _, ⟨rfl, rfl⟩, rfl, rfl⟩

theorem childBody_fresh_opens (hs : Valid s) (pulling : Bool) (err : Option String) :
    ∃ u, Opens (fun _ => none) (Flat.fresh s.issued "lambda" .global_) pulling err s u ∧
      Yields (Lower.childBody none pulling err) s u.body (u.resume s.body) := by
  obtain ⟨sc, hsc, ho⟩ := child_opens hs (s.issued + 1) (Nat.le_succ _)
    (Flat.fresh s.issued "lambda" .global_) pulling err
  refine ⟨_, ho, ?_⟩
  simp only [Lower.childBody, Lower.newBody, Yields.bind_iff, Yields.get_iff, Yields.ofExcept_iff,
    Yields.set_iff, Yields.issue_iff, Yields.pure_iff]
  exact ⟨s, s, ⟨rfl, rfl⟩, _, s, ⟨hsc, rfl⟩, ⟨⟩, _, rfl, _, _, ⟨rfl, rfl⟩, rfl, rfl⟩

/-- A closure's body is opened with its own name bound to the bare lambda. -/
theorem closureBody_opens (hs : Valid s) (ref : Symbol) (hr : ref.token ≤ s.issued)
    (name : Option String) (err : Option String) :
    ∃ u, Opens (ownName name ref) ref true err s u ∧
      Yields (Lower.closureBody name (some ref)) s
        { u.body with returnError := s.body.returnError } (u.resume s.body) := by
  obtain ⟨u, ho, hu⟩ := childBody_opens hs ref true s.body.returnError
  -- The return error is replaced in the new body only after that body was made.
  let v : State := { u with body := { u.body with returnError := err } }
  have hv : Opens (fun _ => none) ref true err s v :=
    { ho with body := by simp only [v, ho.body], own := ho.own, start_le := ho.start_le }
  have hbody : { v.body with returnError := s.body.returnError } = u.body := by
    simp only [v, ho.body]
  cases name with
  | none =>
    refine ⟨v, { hv with own := hv.own, start_le := fun x a ha => by cases ha }, ?_⟩
    simp only [Lower.closureBody, Yields.bind_iff, Yields.pure_iff, Yields.body_iff]
    exact ⟨_, _, ⟨rfl, rfl⟩, _, _, ⟨rfl, rfl⟩, _, _, hu, hbody.symm, rfl⟩
  | some n =>
    obtain ⟨sc, hsc⟩ := bind_ok (hv.valid hs) n ref
    have hframe : v.body.frame = s.scopes.size := by rw [hv.body]
    refine ⟨{ v with scopes := sc }, { hv with
      body := hv.body
      size := (Scopes.bind_size hsc).trans hv.size
      frames := fun i hi => ?_
      around := (Scopes.bind_around hsc _).trans hv.around
      own := fun x => ?_
      start_le := fun x a ha => ?_ }, ?_⟩
    · rw [← hv.frames i hi, Scopes.bind_frames_ne hsc (by omega)]
    · have hown := hv.own x
      simp only [State.own, ownName] at hown ⊢
      rw [Scopes.bind_own hsc, hown]
      by_cases hx : x = n
      · simp [hx]
      · simp [hx, Ne.symm hx]
    · unfold ownName at ha
      split at ha
      · cases ha; exact le_trans hr hv.issued
      · cases ha
    · simp only [Lower.closureBody, Yields.bind_iff, Yields.pure_iff, Yields.body_iff,
        Yields.bind_name_iff]
      exact ⟨_, _, ⟨rfl, rfl⟩, _, _, ⟨rfl, rfl⟩, _, _, hu, ⟨⟩, _, ⟨sc, hsc, rfl⟩, hbody.symm, rfl⟩

/-- The states that the lowering of a closure goes through. -/
theorem lowerClosure_iff (hs : Valid s) (ref : Symbol) (hr : ref.token ≤ s.issued) (env : Env)
    (params : Surface.Params Surface.Expr) (code : Lower Node) (loc : Option Location)
    (name : Option String) :
    ∃ u, Opens (ownName name ref) ref true none s u ∧
      ∀ n t, Yields (Lower.lowerClosure env params code loc name (some ref)) s n t ↔
        ∃ formals v c w, Yields (Lower.bindFreshAll params.names) u formals v ∧ Yields code v c w ∧
          Yields (Lower.lift env w.body formals c loc) (w.resume s.body) n t := by
  obtain ⟨u, ho, hc⟩ := closureBody_opens hs ref hr name none
  have hu : (u.resume s.body).resume
      { { u.body with returnError := s.body.returnError } with returnError := none } = u := by
    simp only [State.resume, ho.body]
    rw [← ho.body]
  refine ⟨u, ho, fun n t => ?_⟩
  simp only [Lower.lowerClosure, Yields.bind_iff, within_iff, Yields.pure_iff]
  constructor
  · rintro ⟨c', _, hc', ⟨⟨formals, code'⟩, child⟩, _, ⟨w, ⟨_, v, hf, _, _, hcode, he, rfl⟩, rfl, rfl⟩,
      hlift⟩
    obtain ⟨rfl, rfl⟩ := hc.unique hc'
    cases he
    exact ⟨_, v, _, _, by rw [← hu]; exact hf, hcode, hlift⟩
  · rintro ⟨formals, v, code', w, hf, hcode, hlift⟩
    exact ⟨_, _, hc, ⟨⟨formals, code'⟩, w.body⟩, _,
      ⟨w, ⟨_, v, by rw [← hu] at hf; exact hf, _, _, hcode, rfl, rfl⟩, rfl, rfl⟩,
      hlift⟩

/-- A closure that is given no lambda is given a fresh one. -/
theorem lowerClosure_fresh_iff {env : Env} {params : Surface.Params Surface.Expr}
    {code : Lower Node} {loc : Option Location} {name : Option String} {n : Node} :
    Yields (Lower.lowerClosure env params code loc name none) s n t ↔
      Yields (Lower.lowerClosure env params code loc name
        (some (Flat.fresh s.issued (name.getD "lambda") .global_))) s.issuing n t := by
  simp only [Lower.lowerClosure, Lower.closureBody, Yields.bind_iff, Yields.issue_iff,
    Yields.pure_iff]
  constructor
  · rintro ⟨c, u, ⟨_, _, ⟨rfl, rfl⟩, hc⟩, h⟩
    exact ⟨c, u, ⟨_, _, ⟨rfl, rfl⟩, hc⟩, h⟩
  · rintro ⟨c, u, ⟨_, _, ⟨rfl, rfl⟩, hc⟩, h⟩
    exact ⟨c, u, ⟨_, _, ⟨rfl, rfl⟩, hc⟩, h⟩

/-- The states that the lowering of a branch goes through. -/
theorem lowerBranch_iff (hs : Valid s) (tag : String) (statements : Lower (List Item)) :
    ∃ u, Opens (fun _ => none) (Flat.derived s.issued s.body.dest tag) true s.body.returnError
        s.issuing u ∧
      ∀ b t, Yields (Lower.lowerBranch tag statements) s b t ↔
        ∃ w, Yields statements u b.items w ∧ b.body = w.body ∧ w.resume s.body = t := by
  obtain ⟨u, ho, hc⟩ := closureBody_opens (issued_reads hs).valid
    (Flat.derived s.issued s.body.dest tag) (Nat.le_refl _) none s.body.returnError
  have hu : (u.resume s.issuing.body).resume { u.body with returnError := s.body.returnError } = u := by
    simp only [State.resume, ho.body]
    rw [← ho.body]
  refine ⟨u, ho, fun b t => ?_⟩
  obtain ⟨items, body⟩ := b
  simp only [Lower.lowerBranch, Yields.bind_iff, Yields.body_iff, Yields.derive_iff, within_iff,
    Yields.pure_iff, Lower.Branch.mk.injEq]
  constructor
  · rintro ⟨_, _, ⟨rfl, rfl⟩, _, _, ⟨rfl, rfl⟩, c', _, hc', ⟨items', body'⟩, _,
      ⟨w, h, rfl, rfl⟩, ⟨rfl, rfl⟩, rfl⟩
    obtain ⟨rfl, rfl⟩ := hc.unique hc'
    exact ⟨w, by rw [← hu]; exact h, rfl, rfl⟩
  · rintro ⟨w, h, rfl, rfl⟩
    exact ⟨_, _, ⟨rfl, rfl⟩, _, _, ⟨rfl, rfl⟩, _, _, hc, ⟨items, w.body⟩, _,
      ⟨w, by rw [← hu] at h; exact h, rfl, rfl⟩, ⟨rfl, rfl⟩, rfl⟩

/-- The states that the dry run of a loop goes through. -/
theorem dryRun_iff (hs : Valid s) (test : Lower Node) (statements : Lower (List Item)) :
    ∃ u, Opens (fun _ => none) (Flat.fresh s.issued "lambda" .global_) false (some returnInLoop)
        s.scratch u ∧
      ∀ vars t, Yields (Lower.dryRun test statements) s vars t ↔
        ∃ n v items w, Yields test u n v ∧ Yields statements v items w ∧
          vars = ⟨w.freeNames ++ w.body.assigned.filter (!w.freeNames.contains ·), w.body.assigned⟩ ∧
          (w.resume s.body).restore s = t := by
  obtain ⟨u, ho, hu⟩ := childBody_fresh_opens hs false (some returnInLoop)
  have hback : ∀ w : State,
      (w.resume s.body).restore (u.resume s.body) = (w.resume s.body).restore s := by
    simp [State.restore, State.resume, ho.table, ho.commits]
  refine ⟨u.scratch, { ho with body := ho.body, own := ho.own, table := rfl, commits := rfl },
    fun vars t => ?_⟩
  simp only [Lower.dryRun, Yields.bind_iff, inScratch_iff, within_iff, Yields.pure_iff]
  constructor
  · rintro ⟨c, _, hc, ⟨⟨⟩, c'⟩, _, ⟨_, ⟨w, ⟨n, v, hn, items, w, hi, -, rfl⟩, rfl, rfl⟩, rfl⟩, rfl, rfl⟩
    obtain ⟨rfl, rfl⟩ := hu.unique hc
    exact ⟨n, v, items, w, hn, hi, rfl, (hback w).symm⟩
  · rintro ⟨n, v, items, w, hn, hi, rfl, rfl⟩
    exact ⟨_, _, hu, ⟨⟨⟩, w.body⟩, _, ⟨_, ⟨w, ⟨n, v, hn, items, w, hi, ⟨⟩, rfl⟩, rfl, rfl⟩, rfl⟩,
      rfl, hback w⟩

end Children

end Hoist.Lowering
