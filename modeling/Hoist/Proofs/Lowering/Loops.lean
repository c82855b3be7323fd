import Hoist.Proofs.Lowering.Branches

/-!
# Effects of loops

The dry run finds the variables of a loop: the visible names that test and body read, and the names
that the body assigns. In the real run all of these are parameters, so the loop meets no free name.
-/

namespace Hoist.Lowering

open Hoist.Flat (Symbol Node Location Space Table Lambda)

section Scratch

variable {s t : State} {reads : List String}

theorem Valid.scratch (hs : Valid s) : Valid s.scratch :=
  { hs with
    refs_le := fun l hl => by cases hl
    refs_ne := .nil
    free_refs := fun hp p hm => ⟨(hs.free_refs hp p hm).1, fun l hl => by cases hl⟩ }

/-- What was done over a table of its own leaves the table of the unit as it was. -/
theorem Reads.restore (hs : Valid s) (h : Reads [] s.scratch t) : Reads [] s (t.restore s) where
  valid :=
    { h.valid with
      refs_le := fun l hl => le_trans (hs.refs_le l hl) h.advances.issued
      refs_ne := hs.refs_ne
      free_refs := by
        intro hp p hm
        refine ⟨(h.valid.free_refs hp p hm).1, fun l hl => ?_⟩
        obtain ⟨new, hn, hlt⟩ := h.advances.free
        have hp' : s.body.pulling = true := h.advances.body.pulling ▸ hp
        have hm' : p ∈ s.body.free ++ new := hn ▸ hm
        rcases List.mem_append.1 hm' with hm' | hm'
        · exact (hs.free_refs hp' p hm').2 l hl
        · have h₁ := hlt hp' p hm'
          have h₂ := hs.refs_le l hl
          simp only [State.scratch] at h₁
          omega }
  advances :=
    { h.advances with
      lambdas := ⟨[], by simp [State.restore]⟩
      commits := rfl
      free := h.advances.free
      body := h.advances.body }
  free := h.free
  own := h.own
  assigned := h.assigned
  returned := h.returned
  pulled := h.pulled

end Scratch

section DryRun

variable {s t : State} {test : Lower Node} {statements : Lower (List Item)}
  {r r' d assigns : List String} {returns : Bool} {vars : LoopVariables}

/-- The variables of a loop that reads some names and assigns some: those that it finds among the
visible ones, and those it assigns. -/
def loopVariables (visible : String → Bool) (reads assigns : List String) : LoopVariables :=
  ⟨noteAll [] (reads.filter visible ++ assigns), noteAll [] assigns⟩

theorem noteAll_eq_filter {acc l : List String} (h : l.Nodup) :
    acc ++ l.filter (!acc.contains ·) = noteAll acc l := by
  induction l generalizing acc with
  | nil => simp
  | cons x l ih =>
    obtain ⟨hx, hl⟩ := List.nodup_cons.1 h
    rw [noteAll_cons, ← ih hl]
    by_cases hm : x ∈ acc
    · simp [hm, note_of_mem hm]
    · have : l.filter (!(acc ++ [x]).contains ·) = l.filter (!acc.contains ·) := by
        apply List.filter_congr
        intro y hy
        have : y ≠ x := fun e => hx (e ▸ hy)
        simp [this]
      rw [note_of_not_mem hm, this, List.filter_cons, if_pos (by simp [hm]), List.append_assoc]
      rfl

theorem dryRun_reads (hs : Valid s) (ht : Acts r [] [] false test)
    (hb : Acts r' d assigns returns statements) (h : Yields (Lower.dryRun test statements) s vars t) :
    Reads [] s t ∧ vars = loopVariables s.visible (r ++ r') assigns := by
  obtain ⟨u, ho, hiff⟩ := dryRun_iff hs test statements
  obtain ⟨n, v, items, w, hn, hi, rfl, rfl⟩ := (hiff vars t).1 h
  have hu := ho.valid hs.scratch
  have e₁ := ht hu (by rw [ho.body]) hn
  have e₂ := hb e₁.valid (by rw [e₁.advances.body.topLevel, ho.body]) hi
  have e := e₁.trans hu e₂
  refine ⟨(ho.back hs.scratch e.valid e.advances).restore hs, ?_⟩
  have hfree : w.freeNames = noteAll [] ((r ++ r').filter s.visible) := by
    have hisFree : u.isFree = s.visible := funext fun x => by rw [ho.isFree hs.scratch]; rfl
    rw [e.free, ho.freeNames, hisFree]
    simp [List.filter_eq_self.2]
  have hassigned : w.body.assigned = noteAll [] assigns := by rw [e.assigned, ho.body]; rfl
  unfold loopVariables
  rw [hfree, hassigned, noteAll_eq_filter (nodup_noteAll .nil), noteAll_dedup, noteAll_append]

theorem dryRun_starts (hs : Valid s) (test : Lower Node) (statements : Lower (List Item)) :
    ∃ u, Starts [] (some returnInLoop) s u ∧
      ((∃ vars t, Yields (Lower.dryRun test statements) s vars t) ↔
        ∃ n v items w, Yields test u n v ∧ Yields statements v items w) := by
  obtain ⟨u, ho, hiff⟩ := dryRun_iff hs test statements
  refine ⟨u, ?_, ?_⟩
  · have hstarts := ho.starts hs.scratch [] (by simp) (.nil (ho.valid hs.scratch))
    exact { hstarts with visible := hstarts.visible }
  · constructor
    · rintro ⟨vars, t, h⟩
      obtain ⟨n, v, items, w, hn, hi, -⟩ := (hiff vars t).1 h
      exact ⟨n, v, items, w, hn, hi⟩
    · rintro ⟨n, v, items, w, hn, hi⟩
      exact ⟨_, _, (hiff _ _).2 ⟨n, v, items, w, hn, hi, rfl, rfl⟩⟩

end DryRun

section Inside

variable {s u t : State} {env : Env} {loc : Option Location} {test : Lower Node}
  {statements : Lower (List Item)} {r r' d assigns : List String} {returns : Bool}
  {vars : LoopVariables} {ref : Symbol}

/-- The lambda of a loop, behind that of its body. -/
def loopRef (s : State) : Symbol := Flat.derived s.issued s.body.dest "loop"

/-- The lambda of the body of a loop. -/
def continueRef (s : State) : Symbol := Flat.derived (s.issued + 1) s.body.dest "continue"

/-- The lambda that runs the body of a loop. -/
def continueLambda (s : State) (parts : Lower.LoopParts) (loc : Option Location) : Lambda :=
  ⟨continueRef s, parts.formals, parts.code, loc⟩

/-- The lambda that selects between another turn of a loop and its end. -/
def loopLambda (s : State) (parts : Lower.LoopParts) (loc : Option Location) : Lambda :=
  ⟨loopRef s, parts.formals,
    branchCall parts.test (.closure loc (continueRef s) (parts.formals.map (.ref loc)))
      (.closure loc Flat.identity [.tuple loc parts.exits]) loc, loc⟩

/-- A loop whose variables are known and whose initial values were read. -/
def Lower.enterLoop (env : Env) (loc : Option Location) (test : Lower Node)
    (statements : Lower (List Item)) (vars : LoopVariables) (initial : List Node) :
    Lower (List Item) := do
  let loopRef ← derive (← body).dest "loop"
  let continueRef ← derive (← body).dest "continue"
  let child ← childBody (some loopRef) false (some returnInLoop)
  let (parts, _) ← within child (lowerInside loopRef vars test statements loc)
  define env continueRef parts.formals parts.code loc
  let goOn := Node.closure loc continueRef (parts.formals.map (.ref loc))
  let stop := Node.closure loc Flat.identity [.tuple loc parts.exits]
  define env loopRef parts.formals (branchCall parts.test goOn stop loc) loc
  assignAll vars.given (.apply loc (.ref loc loopRef) initial false) loc

theorem lowerLoop_iff {items : List Item} :
    Yields (Lower.lowerLoop env loc test statements) s items t ↔
      ∃ vars s₁ exits s₂ initial s₃, Yields (Lower.dryRun test statements) s vars s₁ ∧
        Yields (Lower.currents loc vars.given) s₁ exits s₂ ∧
        Yields (Lower.readNames loc vars.taken) s₂ initial s₃ ∧
        Yields (Lower.enterLoop env loc test statements vars initial) s₃ items t := by
  have heq : Lower.lowerLoop env loc test statements = (do
      let vars ← Lower.dryRun test statements
      let _ ← Lower.currents loc vars.given
      let initial ← Lower.readNames loc vars.taken
      Lower.enterLoop env loc test statements vars initial) := rfl
  rw [heq]
  simp only [Yields.bind_iff]
  constructor
  · rintro ⟨vars, s₁, h₁, exits, s₂, h₂, initial, s₃, h₃, h₄⟩
    exact ⟨vars, s₁, exits, s₂, initial, s₃, h₁, h₂, h₃, h₄⟩
  · rintro ⟨vars, s₁, exits, s₂, initial, s₃, h₁, h₂, h₃, h₄⟩
    exact ⟨vars, s₁, h₁, exits, s₂, h₂, initial, s₃, h₃, h₄⟩

/-- The states that the real run of a loop goes through, the child that it opens among them. -/
theorem enterLoop_opens (hs : Valid s) (env : Env) (loc : Option Location) (test : Lower Node)
    (statements : Lower (List Item)) (vars : LoopVariables) (initial : List Node) :
    ∃ u, Opens (fun _ => none) (loopRef s) false (some returnInLoop) s.issuing.issuing u ∧
      Yields (Lower.childBody (some (loopRef s)) false (some returnInLoop)) s.issuing.issuing u.body
        (u.resume s.body) ∧
      ∀ items t, Yields (Lower.enterLoop env loc test statements vars initial) s items t ↔
        ∃ parts w, Yields (Lower.lowerInside (loopRef s) vars test statements loc) u parts w ∧
          (w.resume s.body).table.contains (continueRef s) = false ∧
          ((w.resume s.body).defining env (continueLambda s parts loc)).table.contains (loopRef s) =
            false ∧
          Yields (Lower.assignAll vars.given (.apply loc (.ref loc (loopRef s)) initial false) loc)
            (((w.resume s.body).defining env (continueLambda s parts loc)).defining env
              (loopLambda s parts loc)) items t := by
  have hi := issued_reads (issued_reads hs).valid
  obtain ⟨u, ho, hu⟩ := childBody_opens hi.valid (loopRef s) false (some returnInLoop)
  refine ⟨u, ho, hu, fun items t => ?_⟩
  simp only [Lower.enterLoop, Yields.bind_iff, Yields.body_iff, Yields.derive_iff, within_iff,
    define_iff]
  constructor
  · rintro ⟨_, _, ⟨rfl, rfl⟩, _, _, ⟨rfl, rfl⟩, _, _, ⟨rfl, rfl⟩, _, _, ⟨rfl, rfl⟩, c, _, hc, ⟨parts, c'⟩,
      _, ⟨w, hw, rfl, rfl⟩, ⟨⟩, _, ⟨h₁, rfl⟩, ⟨⟩, _, ⟨h₂, rfl⟩, h₃⟩
    obtain ⟨rfl, rfl⟩ := hu.unique hc
    exact ⟨parts, w, hw, h₁, h₂, h₃⟩
  · rintro ⟨parts, w, hw, h₁, h₂, h₃⟩
    exact ⟨_, _, ⟨rfl, rfl⟩, _, _, ⟨rfl, rfl⟩, _, _, ⟨rfl, rfl⟩, _, _, ⟨rfl, rfl⟩, _, _, hu,
      ⟨parts, w.body⟩, _, ⟨w, hw, rfl, rfl⟩, ⟨⟩, _, ⟨h₁, rfl⟩, ⟨⟩, _, ⟨h₂, rfl⟩, h₃⟩

/-- The states inside a loop: its parameters are bound, the exit values taken, test and body lowered,
and the values of the next turn read. -/
theorem lowerInside_iff {parts : Lower.LoopParts} :
    Yields (Lower.lowerInside ref vars test statements loc) u parts t ↔
      ∃ v v' x y items updated, Yields (Lower.bindFreshAll vars.taken) u parts.formals v ∧
        Yields (Lower.currents loc vars.given) v parts.exits v' ∧ Yields test v' parts.test x ∧
        Yields statements x items y ∧ Yields (Lower.readNames loc vars.taken) y updated t ∧
        group items (some (.apply loc (.ref loc ref) updated false)) loc = .ok parts.code := by
  obtain ⟨formals, exits, test', code⟩ := parts
  simp only [Lower.lowerInside, Yields.bind_iff, Yields.ofExcept_iff, Yields.pure_iff,
    Lower.LoopParts.mk.injEq]
  constructor
  · rintro ⟨_, v, hf, _, v', he, _, x, ht, items, y, hi, updated, _, hup, _, _, ⟨hg, rfl⟩,
      ⟨rfl, rfl, rfl, rfl⟩, rfl⟩
    exact ⟨v, v', x, y, items, updated, hf, he, ht, hi, hup, hg⟩
  · rintro ⟨v, v', x, y, items, updated, hf, he, ht, hi, hup, hg⟩
    exact ⟨_, v, hf, _, v', he, _, x, ht, items, y, hi, updated, t, hup, _, t, ⟨hg, rfl⟩,
      ⟨rfl, rfl, rfl, rfl⟩, rfl⟩

end Inside

section Running

variable {s₀ s u w t : State} {env : Env} {loc : Option Location} {test : Lower Node}
  {statements : Lower (List Item)} {r r' d assigns : List String} {returns : Bool}
  {vars : LoopVariables} {ref : Symbol}

/-- A step that only reads changes nothing about what is visible. -/
theorem Reads.visible {names : List String} (hs : Valid s) (h : Reads names s t) :
    t.visible = s.visible := by
  funext x
  rw [Bool.eq_iff_iff, h.toEffect.visible hs]
  simp

theorem currents_visible {exits : List Node} {names : List String} (hs : Valid s)
    (h : Yields (Lower.currents loc names) s exits t) : ∀ x ∈ names, s.visible x = true := by
  obtain ⟨⟨syms, hsyms, -⟩, -⟩ := (currents_iff hs).1 h
  exact exists_map_some_iff.1 ⟨syms, hsyms⟩

theorem currents_ok (hs : Valid s) (loc : Option Location) (names : List String)
    (h : ∀ x ∈ names, s.visible x = true) : ∃ exits, Yields (Lower.currents loc names) s exits s := by
  obtain ⟨syms, hsyms⟩ := exists_map_some_iff.2 h
  exact ⟨_, (currents_iff hs).2 ⟨⟨syms, hsyms, rfl⟩, rfl⟩⟩

/-- A loop takes all the visible names that are read inside it. -/
theorem mem_taken {visible : String → Bool} {x : String}
    (hx : x ∈ r ++ r') (hv : visible x = true) :
    x ∈ (loopVariables visible (r ++ r') assigns).taken := by
  simp only [loopVariables, mem_noteAll, List.mem_append, List.mem_filter]
  exact .inr (.inl ⟨List.mem_append.1 hx, hv⟩)

theorem taken_visible {x : String} (hg : ∀ x ∈ assigns, s.visible x = true)
    (hx : x ∈ (loopVariables s.visible r assigns).taken) : s.visible x = true := by
  simp only [loopVariables, mem_noteAll, List.mem_append, List.mem_filter, List.not_mem_nil,
    false_or] at hx
  rcases hx with hx | hx
  · exact hx.2
  · exact hg x hx

/-- Inside a loop no name is free: those that are read there are parameters. -/
theorem lowerInside_effect {parts : Lower.LoopParts} (hs : Valid s)
    (ho : Opens (fun _ => none) ref false (some returnInLoop) s u)
    (hvars : vars = loopVariables s.visible (r ++ r') assigns)
    (ht : Acts r [] [] false test) (hb : Acts r' d assigns returns statements)
    (h : Yields (Lower.lowerInside ref vars test statements loc) u parts w) :
    Valid w ∧ Advances u w ∧ w.body.free = [] := by
  obtain ⟨v, v', x, y, items, updated, hf, hc, htest, hi, hup, -⟩ := lowerInside_iff.1 h
  have hu := ho.valid hs
  have e₁ := bindFreshAll_effect hu hf
  obtain ⟨-, rfl⟩ := (currents_iff e₁.valid).1 hc
  have htop : v.body.topLevel = false := by rw [e₁.advances.body.topLevel, ho.body]
  have e₂ := ht e₁.valid htop htest
  have e₃ := hb e₂.valid (e₂.advances.body.topLevel.trans htop) hi
  have e := ((e₁.trans hu e₂).trans hu e₃).trans hu (readNames_reads e₃.valid hup).toEffect
  refine ⟨e.valid, e.advances, List.map_eq_nil_iff.1 (?_ : w.freeNames = [])⟩
  rw [e.free, ho.freeNames, List.filter_eq_nil_iff.2]
  · rfl
  · intro z hz hfree
    rw [ho.isFree hs] at hfree
    have htaken : z ∈ r ++ r' → s.visible z = true →
        z ∈ (loopVariables s.visible (r ++ r') assigns).taken := mem_taken
    rw [← hvars] at htaken
    simp only [Option.isNone_none, Bool.true_and] at hfree
    simp only [List.nil_append, List.append_nil, List.mem_append, List.mem_filter,
      Bool.not_eq_true', List.contains_eq_mem, decide_eq_false_iff_not] at hz htaken
    have hno : ¬ (z ∈ r ∨ z ∈ r') ∨ z ∈ vars.taken := by
      by_cases hz' : z ∈ r ∨ z ∈ r'
      · exact .inr (htaken hz' hfree)
      · exact .inl hz'
    tauto

theorem loopRef_reserved (hs : Valid s) : Reserved (loopRef s) s.issuing.issuing :=
  (Reserved.issue hs _ rfl).advance (issued_reads (issued_reads hs).valid).advances

theorem continueRef_reserved (hs : Valid s) : Reserved (continueRef s) s.issuing.issuing :=
  Reserved.issue (issued_reads hs).valid _ rfl

/-- Both lambdas of a loop are defined once its inside was lowered. -/
theorem loop_defined (env : Env) (loc : Option Location) (parts : Lower.LoopParts)
    (hs₀ : Valid s₀) (h₀ : Reads r s₀ s)
    (ho : Opens (fun _ => none) ref false (some returnInLoop) s.issuing.issuing u)
    (hw : Valid w) (ha : Advances u w) :
    (w.resume s.body).table.contains (continueRef s) = false ∧
    ((w.resume s.body).defining env (continueLambda s parts loc)).table.contains (loopRef s) = false ∧
    Reads r s₀ (((w.resume s.body).defining env (continueLambda s parts loc)).defining env
      (loopLambda s parts loc)) := by
  have hi := issued_reads h₀.valid
  have hi' := issued_reads hi.valid
  have hback := ho.back hi'.valid hw ha
  have hc := (continueRef_reserved h₀.valid).advance hback.advances
  have hl := (loopRef_reserved h₀.valid).advance hback.advances
  have hr : Reads r s₀ (w.resume s.body) := by
    have h := ((h₀.trans hs₀ hi).trans hs₀ hi').trans hs₀ hback
    rwa [List.append_nil, List.append_nil, List.append_nil] at h
  have hle := h₀.advances.issued
  have hd := hr.defining (l := continueLambda s parts loc) env hc
    (by simp only [continueLambda, continueRef, Flat.derived]; omega)
  have hl' : Reserved (loopRef s)
      ((w.resume s.body).defining env (continueLambda s parts loc)) :=
    { hl with
      lambdas := by
        intro m hm
        rcases List.mem_append.1 hm with hm | hm
        · exact hl.lambdas m hm
        · obtain rfl := List.mem_singleton.1 hm
          simp [continueLambda, continueRef, loopRef, Flat.derived] }
  exact ⟨hc.not_contains, hl'.not_contains,
    hd.defining env hl' (by simp only [loopLambda, loopRef, Flat.derived]; omega)⟩

/-- The first values of a loop are read before it is entered. -/
theorem initial_reads {initial : List Node} {s₁ : State} (hs : Valid s) (h₁ : Reads [] s s₁)
    (hg : ∀ x ∈ assigns, s.visible x = true)
    (h : Yields (Lower.readNames loc (loopVariables s.visible r assigns).taken) s₁ initial t) :
    Reads (r ++ assigns) s t := by
  have hr : Reads (r ++ assigns) s₁ t := by
    refine (readNames_reads h₁.valid h).of_inner (p := s.visible) ?_ fun x hx => ?_
    · rw [List.filter_append, List.filter_eq_self.2 hg]
      rfl
    · rw [← h₁.visible hs]
      exact State.visible_of_isFree hx
  have h₀ := h₁.trans hs hr
  rwa [List.nil_append] at h₀

/-- The states that a loop is lowered through: the dry run finds its variables, their first values are
read, and the real run goes through its inside. -/
structure LoopRun (env : Env) (loc : Option Location) (test : Lower Node)
    (statements : Lower (List Item)) (s t : State) (items : List Item) where
  vars : LoopVariables
  explored : State
  initial : List Node
  entered : State
  opened : State
  parts : Lower.LoopParts
  left : State
  explores : Yields (Lower.dryRun test statements) s vars explored
  takes : Yields (Lower.readNames loc vars.taken) explored initial entered
  opens : Opens (fun _ => none) (loopRef entered) false (some returnInLoop) entered.issuing.issuing
    opened
  child : Yields (Lower.childBody (some (loopRef entered)) false (some returnInLoop))
    entered.issuing.issuing opened.body (opened.resume entered.body)
  inside : Yields (Lower.lowerInside (loopRef entered) vars test statements loc) opened parts left
  gives : Yields
    (Lower.assignAll vars.given (.apply loc (.ref loc (loopRef entered)) initial false) loc)
    (((left.resume entered.body).defining env (continueLambda entered parts loc)).defining env
      (loopLambda entered parts loc)) items t

namespace LoopRun

/-- The state behind the inside of a loop, once its lambdas are defined. -/
def defined {items : List Item} (p : LoopRun env loc test statements s t items) : State :=
  ((p.left.resume p.entered.body).defining env (continueLambda p.entered p.parts loc)).defining env
    (loopLambda p.entered p.parts loc)

theorem defined_lambdas {items : List Item} (p : LoopRun env loc test statements s t items) :
    p.defined.table.lambdas = p.left.table.lambdas ++
      [continueLambda p.entered p.parts loc, loopLambda p.entered p.parts loc] := by
  simp [defined, State.defining, State.resume]

/-- What is known of the states of a loop: outside of its inside they only read names, and inside no
name is free. -/
structure Known {items : List Item} (p : LoopRun env loc test statements s t items)
    (reads assigns : List String) : Prop where
  vars : p.vars = loopVariables s.visible reads assigns
  given : ∀ x ∈ assigns, s.visible x = true
  explored : Reads [] s p.explored
  entered : Reads (reads ++ assigns) s p.entered
  opening : Valid p.entered.issuing.issuing
  left : Valid p.left
  advances : Advances p.opened p.left
  free : p.left.body.free = []
  defined : Reads (reads ++ assigns) s p.defined

end LoopRun

/-- A loop that is lowered goes through a dry run and a real one. -/
theorem lowerLoop_runs {items : List Item} (hs : Valid s) (ht : Acts r [] [] false test)
    (hb : Acts r' d assigns returns statements)
    (h : Yields (Lower.lowerLoop env loc test statements) s items t) :
    ∃ p : LoopRun env loc test statements s t items, p.Known (r ++ r') assigns := by
  obtain ⟨vars, s₁, exits, s₂, initial, s₃, h₁, h₂, h₃, h₄⟩ := lowerLoop_iff.1 h
  obtain ⟨hdry, hvars⟩ := dryRun_reads hs ht hb h₁
  have hg : ∀ x ∈ assigns, s.visible x = true := by
    rw [← hdry.visible hs]
    intro x hx
    exact currents_visible hdry.valid h₂ x (by simp [hvars, loopVariables, hx])
  obtain ⟨-, rfl⟩ := (currents_iff hdry.valid).1 h₂
  have h₀ := initial_reads hs hdry hg (hvars ▸ h₃)
  obtain ⟨u, ho, hu, hiff⟩ := enterLoop_opens h₀.valid env loc test statements vars initial
  obtain ⟨parts, w, hw, -, -, hend⟩ := (hiff items t).1 h₄
  have hi := (issued_reads (issued_reads h₀.valid).valid).valid
  obtain ⟨hvw, haw, hfree⟩ := lowerInside_effect hi ho
    (by rw [← h₀.visible hs] at hvars; exact hvars) ht hb hw
  obtain ⟨-, -, hdef⟩ := loop_defined env loc parts hs h₀ ho hvw haw
  exact ⟨⟨vars, s₁, initial, s₃, u, parts, w, h₁, h₃, ho, hu, hw, hend⟩,
    ⟨hvars, hg, hdry, h₀, hi, hvw, haw, hfree, hdef⟩⟩

theorem lowerLoop_effect (ht : Acts r [] [] false test) (hb : Acts r' d assigns returns statements) :
    Acts (r ++ r' ++ assigns) assigns assigns false
      (Lower.lowerLoop env loc test statements) := by
  intro s items t hs _ h
  obtain ⟨p, hp⟩ := lowerLoop_runs hs ht hb h
  have e := hp.defined.toEffect.trans hs (assignAll_effect hp.defined.valid p.gives)
  refine (show Effect (r ++ r' ++ assigns) (noteAll [] assigns) (noteAll [] assigns) false s t by
    simpa [hp.vars, loopVariables] using e).congr (by simp) fun acc => noteAll_dedup

/-- A loop is lowered when its inside is, in the dry run and again in the real one, and all it assigns
is visible. -/
theorem lowerLoop_ok (env : Env) (loc : Option Location) {P : Prop} (hs : Valid s)
    (ht : Acts r [] [] false test)
    (hb : Acts r' d assigns returns statements)
    (hP : ∀ {names v}, Starts names (some returnInLoop) s v → (∀ x ∈ names, s.visible x = true) →
      ((∃ n x items y, Yields test v n x ∧ Yields statements x items y) ↔ P)) :
    (∃ items t, Yields (Lower.lowerLoop env loc test statements) s items t) ↔
      P ∧ ∀ x ∈ assigns, s.visible x = true := by
  obtain ⟨v, hv, hdry⟩ := dryRun_starts hs test statements
  have hfirst := hP hv (by simp)
  constructor
  · rintro ⟨items, t, h⟩
    obtain ⟨vars, s₁, exits, s₂, initial, s₃, h₁, h₂, -⟩ := lowerLoop_iff.1 h
    obtain ⟨hr, rfl⟩ := dryRun_reads hs ht hb h₁
    refine ⟨hfirst.1 (hdry.1 ⟨_, _, h₁⟩), fun x hx => ?_⟩
    rw [← hr.visible hs]
    exact currents_visible hr.valid h₂ x (by simp [loopVariables, hx])
  · rintro ⟨hp, hg⟩
    obtain ⟨vars, s₁, h₁⟩ := hdry.2 (hfirst.2 hp)
    obtain ⟨hr, rfl⟩ := dryRun_reads hs ht hb h₁
    obtain ⟨exits, h₂⟩ := currents_ok hr.valid loc
      (loopVariables s.visible (r ++ r') assigns).given fun x hx => by
        rw [hr.visible hs]
        exact hg x (by simpa [loopVariables] using hx)
    obtain ⟨initial, s₃, h₃⟩ := readNames_ok hr.valid loc
      (loopVariables s.visible (r ++ r') assigns).taken
    have h₀ := initial_reads hs hr hg h₃
    have hi := (issued_reads (issued_reads h₀.valid).valid).valid
    obtain ⟨u, ho, -, hiff⟩ := enterLoop_opens h₀.valid env loc test statements
      (loopVariables s.visible (r ++ r') assigns) initial
    have hu := ho.valid hi
    -- The real run starts with the parameters bound, which were visible before.
    obtain ⟨formals, x, hf⟩ := bindFreshAll_ok hu
      (loopVariables s.visible (r ++ r') assigns).taken
    have hx := bindFreshAll_effect hu hf
    have hstarts := ho.starts hi [] (by simp) hx
    have hvis : s₃.issuing.issuing.visible = s.visible := (h₀.visible hs :)
    obtain ⟨n, y, items, z, hn, hz⟩ := (hP (v := x)
      { hstarts with visible := fun a => by rw [hstarts.visible, hvis] } fun a ha =>
        taken_visible hg (by simpa using ha)).2 hp
    have e₁ := ht hx.valid hstarts.topLevel hn
    have e₂ := hb e₁.valid (e₁.advances.body.topLevel.trans hstarts.topLevel) hz
    obtain ⟨outs, hc⟩ := currents_ok hx.valid loc
      (loopVariables s.visible (r ++ r') assigns).given fun a ha => by
        rw [hstarts.visible, hvis]
        exact .inr (hg a (by simpa [loopVariables] using ha))
    obtain ⟨updated, w, hup⟩ := readNames_ok e₂.valid loc
      (loopVariables s.visible (r ++ r') assigns).taken
    obtain ⟨code, hcode⟩ := group_some items (.apply loc (.ref loc (loopRef s₃)) updated false) loc
    have hin : Yields (Lower.lowerInside _ _ test statements loc) _ ⟨formals, outs, n, code⟩ w :=
      lowerInside_iff.2
      ⟨x, x, y, z, items, updated, hf, hc, hn, hz, hup, hcode⟩
    obtain ⟨hvw, haw, -⟩ := lowerInside_effect hi ho (by rw [hvis]) ht hb hin
    obtain ⟨hd₁, hd₂, hdef⟩ := loop_defined env loc ⟨formals, outs, n, code⟩ hs h₀ ho hvw haw
    obtain ⟨items, t, hend⟩ := assignAll_ok hdef.valid
      (loopVariables s.visible (r ++ r') assigns).given
      (.apply loc (.ref loc (loopRef s₃)) initial false) loc
    exact ⟨items, t, lowerLoop_iff.2 ⟨_, _, _, _, _, _, h₁, h₂, h₃,
      (hiff items t).2 ⟨_, w, hin, hd₁, hd₂, hend⟩⟩⟩

end Running

end Hoist.Lowering
