import Hoist.Proofs.Lowering.Passing
import Hoist.Proofs.Lowering.Reached

/-!
# Free variables are pulled once

A body notes the free variables it meets and the names it assigns. Whatever it translates, and wherever
it stops, both lists have every name once and grow at their ends only, and what they name is bound in
the frame of the body, as far as it pulls free variables. A variable that was pulled keeps the symbol it
was pulled under, so a name that is read again is read by the same symbol.
-/

namespace Hoist.Lowering

open Hoist.Flat (Symbol Node Location)
open Hoist.Surface (Expr Stmt)

/-- What a body is given to translate. -/
inductive Phrase
  | expr (e : Expr)
  | stmt (st : Stmt) (allowDecorators : Bool)

namespace Lower

/-- Lowers an expression or a statement, whatever it yields. -/
def lowerPhrase (env : Env) : Phrase → Lower Unit
  | .expr e => do let _ ← lowerExpr env e
  | .stmt st allowDecorators => do let _ ← lowerStmt env st allowDecorators

/-- Lowers expressions and statements, one after the other. -/
def lowerPhrases (env : Env) : List Phrase → Lower Unit
  | [] => return ()
  | p :: ps => do
    lowerPhrase env p
    lowerPhrases env ps

end Lower

/-- The free variables after a note of one of them, as `Lower.noteFree` makes it. -/
def noteIn (free : List (String × Symbol)) (x : String) (a : Symbol) : List (String × Symbol) :=
  if free.any (·.1 == x) then free.map fun p => if p.1 == x then (x, a) else p else free ++ [(x, a)]

/-- The lists of a body are in order. -/
structure Listed (s : State) : Prop where
  frame_lt : s.body.frame < s.scopes.size
  free_nodup : s.freeNames.Nodup
  free_own : s.body.pulling = true → ∀ x ∈ s.freeNames, (s.own x).isSome
  assigned_nodup : s.body.assigned.Nodup
  assigned_own : ∀ x ∈ s.body.assigned, (s.own x).isSome

/-- The lists of a body have grown at their ends only. -/
structure ListsGrow (s t : State) : Prop where
  body : SameBody s.body t.body
  names : s.freeNames <+: t.freeNames
  pulled : s.body.pulling = true → s.body.free <+: t.body.free
  assigned : s.body.assigned <+: t.body.assigned

section Notes

variable {free : List (String × Symbol)} {x : String} {a : Symbol}

theorem noteIn_of_not_mem (h : x ∉ free.map (·.1)) : noteIn free x a = free ++ [(x, a)] := by
  have hany : free.any (·.1 == x) = false := by
    rw [List.any_eq_false]
    exact fun p hp heq => h (List.mem_map.2 ⟨p, hp, by simpa using heq⟩)
  rw [noteIn, hany]
  rfl

theorem noteIn_of_mem (h : x ∈ free.map (·.1)) :
    noteIn free x a = free.map fun p => if p.1 == x then (x, a) else p := by
  obtain ⟨p, hp, rfl⟩ := List.mem_map.1 h
  rw [noteIn, if_pos (List.any_eq_true.2 ⟨p, hp, by simp⟩)]

theorem noteIn_names : (noteIn free x a).map (·.1) = note (free.map (·.1)) x := by
  by_cases h : x ∈ free.map (·.1)
  · rw [noteIn_of_mem h, note_of_mem h, List.map_map]
    refine List.map_congr_left fun p _ => ?_
    by_cases hp : p.1 = x <;> simp [hp]
  · rw [noteIn_of_not_mem h, note_of_not_mem h, List.map_append]
    rfl

/-- A second note of a variable changes nothing. -/
theorem noteIn_noteIn : noteIn (noteIn free x a) x a = noteIn free x a := by
  have hmem : x ∈ (noteIn free x a).map (·.1) := by simp [noteIn_names]
  have hsame : ∀ p ∈ noteIn free x a, p.1 = x → p = (x, a) := by
    intro p hp hx
    by_cases h : x ∈ free.map (·.1)
    · rw [noteIn_of_mem h] at hp
      obtain ⟨q, -, rfl⟩ := List.mem_map.1 hp
      by_cases hq : q.1 = x <;> simp_all
    · rw [noteIn_of_not_mem h] at hp
      rcases List.mem_append.1 hp with hp | hp
      · exact absurd (List.mem_map.2 ⟨p, hp, hx⟩) h
      · exact List.mem_singleton.1 hp
  rw [noteIn_of_mem hmem]
  refine (List.map_congr_left fun p hp => ?_).trans (List.map_id _)
  by_cases hx : p.1 = x
  · simp [hsame p hp hx]
  · simp [hx]

theorem note_prefix (names : List String) (x : String) : names <+: note names x := by
  obtain ⟨new, h⟩ := noteAll_eq_append (k := names) (l := [x])
  exact ⟨new, h.symm⟩

end Notes

section Reads

variable {s t : State} {x : String} {a : Symbol} {loc : Option Location}

/-- By which symbol a name is read, and which state that leads to. -/
inductive ReadBy (x : String) (s : State) : Symbol → State → Prop
  | unbound (hown : s.own x = none) (hout : s.outer x = none) : ReadBy x s (.global x) s
  | own {a : Symbol} (hown : s.own x = some a) : ReadBy x s a s
  | pulled {b : Symbol} {sc : Scopes} (hown : s.own x = none) (hout : s.outer x = some b)
      (hp : s.body.pulling = true)
      (hsc : s.scopes.bind s.body.frame x (Flat.fresh s.issued x .local_) = .ok sc) :
      ReadBy x s (Flat.fresh s.issued x .local_) ((s.withScopes sc).resume
        { s.body with free := noteIn s.body.free x (Flat.fresh s.issued x .local_) })
  | noted {a : Symbol} (hown : s.own x = none) (hout : s.outer x = some a)
      (hp : s.body.pulling = false) :
      ReadBy x s a (s.resume { s.body with free := noteIn s.body.free x a })

theorem find_search (hlt : s.body.frame < s.scopes.size) :
    Yields (Lower.find x) s (s.scopes.search x false s.body.frame) s := by
  simp only [Lower.find, Yields.bind_iff, Yields.get_iff, Yields.ofExcept_iff]
  exact ⟨s, s, ⟨rfl, rfl⟩, Scopes.find_eq _ hlt x, rfl⟩

theorem find_own (hlt : s.body.frame < s.scopes.size) (hown : s.own x = some a) :
    Yields (Lower.find x) s (some ⟨false, a⟩) s := by
  have hsearch := find_search hlt (x := x)
  rw [State.own] at hown
  rwa [Scopes.search_false, hown] at hsearch

theorem find_outer (hlt : s.body.frame < s.scopes.size) (hown : s.own x = none) :
    Yields (Lower.find x) s ((s.outer x).map (⟨true, ·⟩)) s := by
  have hsearch := find_search hlt (x := x)
  rw [State.own] at hown
  rwa [Scopes.search_false, hown] at hsearch

theorem ReadBy.yields (h : ReadBy x s a t) (hlt : s.body.frame < s.scopes.size)
    (loc : Option Location) : Yields (Lower.readName x loc) s (.ref loc a) t := by
  have hnote : ∀ u a, Yields (Lower.noteFree x a) u ⟨⟩
      (u.resume { u.body with free := noteIn u.body.free x a }) := fun u a =>
    Yields.modifyBody_iff.2 rfl
  unfold Lower.readName
  cases h with
  | unbound hown hout =>
    refine Yields.bind_iff.2 ⟨_, s, find_outer hlt hown, ?_⟩
    rw [hout]
    exact Yields.pure_iff.2 ⟨rfl, rfl⟩
  | own hown => exact Yields.bind_iff.2 ⟨_, s, find_own hlt hown, Yields.pure_iff.2 ⟨rfl, rfl⟩⟩
  | @pulled b sc hown hout hp hsc =>
    refine Yields.bind_iff.2 ⟨_, s, find_outer hlt hown, ?_⟩
    rw [hout]
    refine Yields.bind_iff.2 ⟨s.body, s, Yields.body_iff.2 ⟨rfl, rfl⟩, ?_⟩
    rw [if_pos hp]
    exact Yields.bind_iff.2 ⟨_, _, bindFresh_iff.2 ⟨rfl, sc, hsc, rfl⟩, Yields.bind_iff.2
      ⟨⟨⟩, _, hnote (s.withScopes sc) _, Yields.pure_iff.2 ⟨rfl, rfl⟩⟩⟩
  | noted hown hout hp =>
    refine Yields.bind_iff.2 ⟨_, s, find_outer hlt hown, ?_⟩
    rw [hout]
    refine Yields.bind_iff.2 ⟨s.body, s, Yields.body_iff.2 ⟨rfl, rfl⟩, ?_⟩
    rw [if_neg (by rw [hp]; decide)]
    exact Yields.bind_iff.2 ⟨_, _, Yields.pure_iff.2 ⟨rfl, rfl⟩, Yields.bind_iff.2
      ⟨⟨⟩, _, hnote s _, Yields.pure_iff.2 ⟨rfl, rfl⟩⟩⟩

theorem exists_bound (hlt : s.body.frame < s.scopes.size) (x : String) (a : Symbol) :
    ∃ sc, s.scopes.bind s.body.frame x a = .ok sc := ⟨_, if_pos hlt⟩

/-- In a frame that exists every name can be read. -/
theorem exists_readBy (hlt : s.body.frame < s.scopes.size) (x : String) : ∃ a t, ReadBy x s a t := by
  obtain ⟨sc, hsc⟩ := exists_bound hlt x (Flat.fresh s.issued x .local_)
  cases hown : s.own x with
  | some a => exact ⟨a, s, .own hown⟩
  | none =>
    cases hout : s.outer x with
    | none => exact ⟨_, s, .unbound hown hout⟩
    | some a =>
      cases hp : s.body.pulling with
      | true => exact ⟨_, _, .pulled hown hout hp hsc⟩
      | false => exact ⟨a, _, .noted hown hout hp⟩

/-- A name that was just read is read by the same symbol again, and nothing changes. -/
theorem ReadBy.again (h : ReadBy x s a t) : ReadBy x t a t := by
  cases h with
  | unbound hown hout => exact .unbound hown hout
  | own hown => exact .own hown
  | pulled hown hout hp hsc =>
    refine .own ?_
    exact (withScopes_own hsc x).trans (if_pos rfl)
  | @noted a hown hout hp =>
    have h : ReadBy x (s.resume { s.body with free := noteIn s.body.free x a }) a _ :=
      .noted hown hout hp
    rwa [show noteIn (s.resume { s.body with free := noteIn s.body.free x a }).body.free x a =
      noteIn s.body.free x a from noteIn_noteIn] at h

end Reads

namespace ListsGrow

variable {s t u : State}

theorem refl (s : State) : ListsGrow s s :=
  ⟨.refl _, List.prefix_refl _, fun _ => List.prefix_refl _, List.prefix_refl _⟩

theorem trans (h : ListsGrow s t) (h' : ListsGrow t u) : ListsGrow s u where
  body := h.body.trans h'.body
  names := h.names.trans h'.names
  pulled hp := (h.pulled hp).trans (h'.pulled (h.body.pulling.trans hp))
  assigned := h.assigned.trans h'.assigned

end ListsGrow

namespace Listed

variable {s t : State} {x : String} {a : Symbol} {sc : Scopes}

/-- The lists stay in order where they stay the same and the frame binds what it bound. -/
theorem of_own (h : Listed s) (hbody : SameBody s.body t.body) (hfree : t.body.free = s.body.free)
    (hassigned : t.body.assigned = s.body.assigned) (hsize : s.scopes.size ≤ t.scopes.size)
    (hown : ∀ x, (s.own x).isSome → (t.own x).isSome) : Listed t ∧ ListsGrow s t := by
  have hnames : t.freeNames = s.freeNames := by rw [State.freeNames, hfree]; rfl
  exact ⟨{
      frame_lt := by rw [hbody.frame]; exact lt_of_lt_of_le h.frame_lt hsize
      free_nodup := by rw [hnames]; exact h.free_nodup
      free_own := fun hp x hx => hown x (h.free_own (hbody.pulling ▸ hp) x (hnames ▸ hx))
      assigned_nodup := by rw [hassigned]; exact h.assigned_nodup
      assigned_own := fun x hx => hown x (h.assigned_own x (hassigned ▸ hx)) }, {
      body := hbody
      names := by simp [hnames]
      pulled := by simp [hfree]
      assigned := by simp [hassigned] }⟩

/-- A binding in the frame of the body. -/
theorem bound (h : Listed s) (hsc : s.scopes.bind s.body.frame x a = .ok sc) :
    Listed (s.withScopes sc) ∧ ListsGrow s (s.withScopes sc) :=
  h.of_own (.refl _) rfl rfl (Nat.le_of_eq (Scopes.bind_size hsc).symm) fun _ hy =>
    withScopes_own_isSome hsc hy

theorem declared (h : Listed s) (x : String) :
    Listed ((Lower.bindFresh x).after s) ∧ ListsGrow s ((Lower.bindFresh x).after s) := by
  obtain ⟨sc, hsc⟩ := exists_bound h.frame_lt x (Flat.fresh s.issued x .local_)
  rw [(bindFresh_iff.2 ⟨rfl, sc, hsc, rfl⟩).after]
  exact h.bound hsc

theorem assigning (h : Listed s) (x : String) (value : Node) (loc : Option Location) :
    Listed ((Lower.assign x value loc).after s) ∧ ListsGrow s ((Lower.assign x value loc).after s) := by
  obtain ⟨sc, hsc⟩ := exists_bound h.frame_lt x (Flat.fresh s.issued x .local_)
  rw [(assign_iff.2 ⟨_, sc, rfl, hsc, rfl, rfl⟩).after]
  obtain ⟨hlisted, hgrow⟩ := h.bound hsc
  refine ⟨{ hlisted with
      assigned_nodup := nodup_note hlisted.assigned_nodup
      assigned_own := fun y hy => ?_ }, { hgrow with
      body := ⟨rfl, rfl, rfl, rfl, rfl⟩
      assigned := note_prefix _ x }⟩
  change ((s.withScopes sc).own y).isSome
  rcases mem_note.1 hy with hy | rfl
  · exact hlisted.assigned_own y hy
  · rw [withScopes_own hsc, if_pos rfl]
    rfl

/-- A read notes a free variable at most once, in a pulling body only when it is pulled: what a pulling
body has noted is bound in its frame. -/
theorem read (h : Listed s) (hread : ReadBy x s a t) : Listed t ∧ ListsGrow s t := by
  cases hread with
  | unbound | own => exact ⟨h, .refl s⟩
  | @pulled b sc hown hout hp hsc =>
    obtain ⟨hlisted, hgrow⟩ := h.bound hsc
    -- a noted name would have been found in the frame itself
    have hnew : x ∉ s.freeNames := fun hx => by
      have := h.free_own hp x hx
      rw [hown] at this
      cases this
    refine ⟨{ hlisted with
        free_nodup := ?_
        free_own := fun _ y hy => ?_ }, { hgrow with
        body := ⟨rfl, rfl, rfl, rfl, rfl⟩
        names := ?_
        pulled := fun _ => ?_ }⟩
    · rw [State.freeNames, State.resume, noteIn_names]
      exact nodup_note h.free_nodup
    · rw [State.freeNames, State.resume, noteIn_names] at hy
      change ((s.withScopes sc).own y).isSome
      rcases mem_note.1 hy with hy | rfl
      · exact hlisted.free_own hp y hy
      · rw [withScopes_own hsc, if_pos rfl]
        rfl
    · rw [State.freeNames, State.freeNames, State.resume, noteIn_names]
      exact note_prefix _ x
    · rw [State.resume, noteIn_of_not_mem hnew]
      exact List.prefix_append _ _
  | @noted a hown hout hp =>
    refine ⟨{ h with
        free_nodup := ?_
        free_own := fun hp' => ?_ }, { ListsGrow.refl s with
        body := ⟨rfl, rfl, rfl, rfl, rfl⟩
        names := ?_
        pulled := fun hp' => ?_ }⟩
    · rw [State.freeNames, State.resume, noteIn_names]
      exact nodup_note h.free_nodup
    · rw [State.resume, hp] at hp'
      cases hp'
    · rw [State.freeNames, State.freeNames, State.resume, noteIn_names]
      exact note_prefix _ x
    · rw [hp] at hp'
      cases hp'

end Listed

section Passing

variable {s₀ s t : State}

/-- What happens to a body touches no older frame. -/
theorem Next.older (h : Next s t) : s.scopes.size ≤ t.scopes.size ∧
    ∀ i < s.scopes.size, i < s.body.frame → t.scopes.frames[i]? = s.scopes.frames[i]? := by
  have htame : ∀ {α : Type} {x : Lower α} (s : State), Tame x →
      s.scopes.size ≤ (x.after s).scopes.size ∧ ∀ i < s.scopes.size, i < s.body.frame →
        (x.after s).scopes.frames[i]? = s.scopes.frames[i]? := fun s hx =>
    ⟨(hx s).size, fun i hi hlt => (hx s).frames i hi (Nat.ne_of_lt hlt)⟩
  induction h with
  | issue | leave | record => exact ⟨le_rfl, fun _ _ _ => rfl⟩
  | declare s name => exact htame s (bindFresh_tame name)
  | read s name loc => exact htame s (readName_tame name loc)
  | assign s name value loc => exact htame s (assign_tame name value loc)
  | nest h =>
    exact ⟨by rw [Scopes.child_size h]; exact Nat.le_succ _, fun i hi _ => Scopes.child_frames h hi⟩
  | @prepare s frame hframe name sym =>
    rw [after_bindName]
    cases hsc : s.scopes.bind frame name sym with
    | error e => exact ⟨le_rfl, fun _ _ _ => rfl⟩
    | ok scopes =>
      exact ⟨Nat.le_of_eq (Scopes.bind_size hsc).symm, fun i _ hlt =>
        Scopes.bind_frames_ne hsc (Nat.ne_of_lt (lt_trans hlt hframe))⟩
  | inner hframe _ ih => exact ⟨ih.1, fun i hi hlt => ih.2 i hi (lt_trans hlt hframe)⟩

/-- Whatever happens to a body, its lists stay in order and grow at their ends. -/
theorem Next.listed (next : Next s t) (h : Listed s) : Listed t ∧ ListsGrow s t := by
  cases next with
  | issue | record => exact h.of_own (.refl _) rfl rfl le_rfl fun _ => id
  | leave => exact h.of_own ⟨rfl, rfl, rfl, rfl, rfl⟩ rfl rfl le_rfl fun _ => id
  | declare _ name => exact h.declared name
  | read _ name loc =>
    obtain ⟨a, t, hread⟩ := exists_readBy h.frame_lt name
    rw [(hread.yields h.frame_lt loc).after]
    exact h.read hread
  | assign _ name value loc => exact h.assigning name value loc
  | nest hsc =>
    refine h.of_own (.refl _) rfl rfl ?_ fun x hx => ?_
    · rw [Scopes.child_size hsc]
      exact Nat.le_succ _
    · rw [State.own, Scopes.child_own hsc]
      exact hx
  | @prepare _ frame hframe name sym =>
    rw [after_bindName]
    cases hsc : s.scopes.bind frame name sym with
    | error e => exact ⟨h, .refl s⟩
    | ok scopes =>
      refine h.of_own (.refl _) rfl rfl (Nat.le_of_eq (Scopes.bind_size hsc).symm) fun x hx => ?_
      rw [State.own, Scopes.bind_own hsc, if_neg (by simp [Nat.ne_of_lt hframe])]
      exact hx
  | @inner _ u body hframe next =>
    -- the inner body leaves the frame of the one that waits for it
    obtain ⟨hsize, hframes⟩ := next.older
    refine h.of_own (.refl _) rfl rfl hsize fun x hx => ?_
    have hown : u.scopes.own s.body.frame x = s.scopes.own s.body.frame x := by
      rw [Scopes.own, hframes _ h.frame_lt hframe]
      rfl
    exact (congrArg Option.isSome hown).trans hx

theorem Passes.listed (h : Passes s t) (hs : Listed s) : Listed t ∧ ListsGrow s t := by
  induction h with
  | refl => exact ⟨hs, .refl s⟩
  | tail _ next ih =>
    obtain ⟨hlisted, hgrow⟩ := next.listed ih.1
    exact ⟨hlisted, ih.2.trans hgrow⟩

theorem lowerPhrases_walks (env : Env) (phrases : List Phrase) :
    Walks (Lower.lowerPhrases env phrases) := by
  induction phrases with
  | nil => exact .pure _
  | cons p ps ih =>
    refine Walks.bind ?_ fun _ => ih
    cases p with
    | expr e => exact (lowerExpr_walks env e).bind fun _ => .pure _
    | stmt st allow => exact (lowerStmt_walks env st allow).bind fun _ => .pure _

end Passing

/-- A body that lowering makes, of a state and with the state behind it. -/
inductive MadeBody (s : State) (b : Body) (t : State) : Prop
  | root {dest : Option Symbol} {hasTable pulling topLevel : Bool} {err : Option String}
      (h : Yields (Lower.rootBody dest hasTable pulling topLevel err) s b t)
  | child {dest : Option Symbol} {pulling : Bool} {err : Option String}
      (h : Yields (Lower.childBody dest pulling err) s b t)
  | closure {name : Option String} {ref : Option Symbol} (h : Yields (Lower.closureBody name ref) s b t)

/-- A state whose body has met no name yet. -/
structure Unread (s : State) : Prop where
  frame_lt : s.body.frame < s.scopes.size
  free : s.body.free = []
  assigned : s.body.assigned = []

section Starting

variable {s₀ s t : State} {b : Body}

theorem Unread.listed (h : Unread s) : Listed s where
  frame_lt := h.frame_lt
  free_nodup := by simp [State.freeNames, h.free]
  free_own _ x hx := by simp [State.freeNames, h.free] at hx
  assigned_nodup := by simp [h.assigned]
  assigned_own x hx := by simp [h.assigned] at hx

theorem newBody_unread {frame : Nat} {dest : Option Symbol} {pulling topLevel : Bool}
    {err : Option String} (hlt : frame < s.scopes.size)
    (h : Yields (Lower.newBody frame dest pulling topLevel err) s b t) : Unread (t.resume b) := by
  unfold Lower.newBody at h
  cases dest with
  | some d =>
    simp only [Yields.bind_iff, Yields.pure_iff] at h
    obtain ⟨_, _, ⟨rfl, rfl⟩, rfl, rfl⟩ := h
    exact ⟨hlt, rfl, rfl⟩
  | none =>
    simp only [Yields.bind_iff, Yields.issue_iff, Yields.pure_iff] at h
    obtain ⟨_, _, ⟨rfl, rfl⟩, rfl, rfl⟩ := h
    exact ⟨hlt, rfl, rfl⟩

theorem childBody_unread {dest : Option Symbol} {pulling : Bool} {err : Option String}
    (h : Yields (Lower.childBody dest pulling err) s b t) : Unread (t.resume b) := by
  simp only [Lower.childBody, Yields.bind_iff, Yields.get_iff, Yields.ofExcept_iff,
    Yields.set_iff] at h
  obtain ⟨_, _, ⟨rfl, rfl⟩, ⟨frame, sc⟩, _, ⟨hsc, rfl⟩, _, _, rfl, h⟩ := h
  refine newBody_unread ?_ h
  change frame < sc.size
  rw [Scopes.child_size hsc, (Scopes.child_spec hsc).2.1]
  exact Nat.lt_succ_self _

theorem closureBody_unread {name : Option String} {ref : Symbol}
    (h : Yields (Lower.closureBody name (some ref)) s b t) : Unread (t.resume b) := by
  rw [closureBody_some] at h
  simp only [Yields.bind_iff, Yields.body_iff, Yields.pure_iff] at h
  obtain ⟨_, _, ⟨rfl, rfl⟩, _, u, hu, _, _, hname, rfl, rfl⟩ := h
  have hchild := childBody_unread hu
  cases name with
  | none =>
    obtain ⟨-, rfl⟩ := Yields.pure_iff.1 hname
    exact hchild
  | some n =>
    obtain ⟨sc, hsc, rfl⟩ := Yields.bind_name_iff.1 hname
    exact { hchild with frame_lt := (Scopes.bind_size hsc).symm ▸ hchild.frame_lt }

/-- Every body that lowering makes has met no name yet. -/
theorem MadeBody.unread (h : MadeBody s b t) : Unread (t.resume b) := by
  cases h with
  | @root dest hasTable pulling topLevel err h =>
    simp only [Lower.rootBody, Yields.bind_iff, Yields.get_iff, Yields.set_iff] at h
    obtain ⟨_, _, ⟨rfl, rfl⟩, _, _, rfl, h⟩ := h
    cases hasTable with
    | false => simp at h
    | true =>
      refine newBody_unread ?_ h
      change s.scopes.size < s.scopes.root.2.size
      simp [Scopes.root, Scopes.push, Scopes.size]
  | child h => exact childBody_unread h
  | @closure name ref h =>
    cases ref with
    | some ref => exact closureBody_unread h
    | none =>
      rw [closureBody_none] at h
      obtain ⟨_, _, -, h⟩ := Yields.bind_iff.1 h
      exact closureBody_unread h

end Starting

/-- Every body starts without free variables and assigned names. It passes through whatever it
translates, and in every state that it passes, both lists have each name once, and what they name is
bound in its frame, as far as it pulls free variables. Later the lists have grown at their ends only, if
it pulls them also with their symbols; and a name that is read can be read again, by the same symbol and
without any change. -/
theorem namesMet_once :
    (∀ s b t, MadeBody s b t → Unread (t.resume b)) ∧
    ∀ s₀, Unread s₀ →
      (∀ env phrases s, Passes s₀ s → Passes s₀ ((Lower.lowerPhrases env phrases).after s)) ∧
      ∀ s, Passes s₀ s →
        (s.freeNames.Nodup ∧ s.body.assigned.Nodup) ∧
        (∀ x ∈ s.body.assigned, (s.own x).isSome) ∧
        (s.body.pulling = true → ∀ x ∈ s.freeNames, (s.own x).isSome) ∧
        (∀ t, Passes s t → s.freeNames <+: t.freeNames ∧ s.body.assigned <+: t.body.assigned ∧
          (s.body.pulling = true → s.body.free <+: t.body.free)) ∧
        ∀ x loc, ∃ a t, Yields (Lower.readName x loc) s (.ref loc a) t ∧
          ∀ loc', Yields (Lower.readName x loc') t (.ref loc' a) t := by
  refine ⟨fun s b t h => h.unread, fun s₀ hstart => ⟨fun env phrases s hs =>
    hs.trans (lowerPhrases_walks env phrases s), fun s hs => ?_⟩⟩
  have h := (hs.listed hstart.listed).1
  refine ⟨⟨h.free_nodup, h.assigned_nodup⟩, h.assigned_own, h.free_own, fun t ht => ?_,
    fun x loc => ?_⟩
  · have hgrow := (ht.listed h).2
    exact ⟨hgrow.names, hgrow.assigned, hgrow.pulled⟩
  · obtain ⟨a, t, hread⟩ := exists_readBy h.frame_lt x
    have ht : Listed t := (h.read hread).1
    exact ⟨a, t, hread.yields h.frame_lt loc, fun loc' => hread.again.yields ht.frame_lt loc'⟩

/-- Inside a function whose module binds a name around it. -/
def boundAround : State :=
  { rootState {} "" with
    scopes := ⟨[⟨none, [("x", Flat.fresh 0 "x" .local_)]⟩, ⟨some 0, []⟩], by
      intro i f hf p hp
      rcases i with _ | _ | i <;> simp at hf <;> subst hf <;> simp at hp
      omega⟩
    body := ⟨1, .global "f", true, false, none, false, [], []⟩ }

/-- A name that is read, assigned and read again stays pulled under its first symbol. -/
theorem pulledAndAssigned_once : ∃ s t, Unread boundAround ∧
    (Lower.lowerPhrases plainEnv [.expr (.name ⟨0, 0⟩ "x")]).after boundAround = s ∧
    (Lower.lowerPhrases plainEnv [.stmt (.assign ⟨0, 0⟩ [.name ⟨0, 0⟩ "x"] (.name ⟨0, 0⟩ "x")) false,
      .expr (.name ⟨0, 0⟩ "x")]).after s = t ∧
    s.freeNames = ["x"] ∧ s.body.free <+: t.body.free ∧ t.body.assigned = ["x"] := by
  have hstart : Unread boundAround := ⟨by decide, rfl, rfl⟩
  obtain ⟨htranslates, hpassed⟩ := namesMet_once.2 boundAround hstart
  have hs := htranslates plainEnv [.expr (.name ⟨0, 0⟩ "x")] boundAround .refl
  refine ⟨_, _, hstart, rfl, rfl, by decide +kernel, ?_, by decide +kernel⟩
  exact ((hpassed _ hs).2.2.2.1 _ (lowerPhrases_walks _ _ _)).2.2 (by decide +kernel)

end Hoist.Lowering
