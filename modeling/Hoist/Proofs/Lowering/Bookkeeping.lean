import Hoist.Proofs.Lowering.Ledger
import Hoist.Proofs.Lowering.Grouped
import Hoist.Proofs.Lowering.Loops

/-!
# What lowering holds on the way

The operations of lowering, in terms of the symbols they take and give: a new symbol is held until its
binding is code, code is held until it is the body of a lambda, and a lambda takes over what is its own.
-/

namespace Hoist.Lowering

open Hoist.Flat (Symbol Node Location Space Table Lambda tally Issued Owns Part Turn)
open Stock (one many seen ofNode ofNodes)

namespace Stock

/-- What an item binds and refers to. -/
@[grind] def ofItem : Item → Stock
  | .assign a => ⟨a.var :: a.value.lets, a.value.refers⟩
  | .plain n => ofNode n

/-- What items bind and refer to. -/
@[grind] def ofItems (is : List Item) : Stock :=
  ⟨is.flatMap fun i => (ofItem i).held, is.flatMap fun i => (ofItem i).used⟩

/-- What a result is, if there is one. -/
@[grind] def ofResult : Option Node → Stock
  | none => ∅
  | some n => ofNode n

end Stock

section Names

variable {K : Books} {b : Body}

theorem issue_moves (name : String) (space : Space) : Moves K b ∅ (Lower.issue name space) one :=
  fun _ _ hl => Ends.ok rfl (hl.of_empty.issuing rfl)

theorem derive_moves (parent : Symbol) (tag : String) : Moves K b ∅ (Lower.derive parent tag) one :=
  fun _ _ hl => Ends.ok rfl (hl.of_empty.issuing rfl)

theorem bind_moves (frame : Nat) (name : String) (a : Symbol) :
    Moves K b (seen a) (Lower.bind frame name a) fun _ => seen a := by
  refine Moves.withState fun s r hl => ?_
  exact Ends.ofExceptThen (fun sc hsc => Ends.set (hl.binding hsc (hl.used a (by simp [seen]))))
    fun _ _ => hl.kept.close

theorem bindFresh_moves (name : String) : Moves K b ∅ (Lower.bindFresh name) one := by
  refine (issue_moves name .local_).bind fun _ a _ _ => ?_
  refine Moves.withBody fun c _ => ?_
  refine (bind_moves c.frame name a).seq (one a) (by grind) fun _ _ _ _ => ?_
  exact Moves.pure (by grind)

/-- Free variables with one more noted, or noted anew. -/
def withNote (free : List (String × Symbol)) (x : String) (a : Symbol) : List (String × Symbol) :=
  if free.any (·.1 == x) then free.map fun p => if p.1 == x then (x, a) else p
  else free ++ [(x, a)]

/-- A free variable that is noted anew gives one place only to its new symbol. -/
theorem tally_renoted {k : Nat} {a : Symbol} {x : String} {free : List (String × Symbol)}
    (h : (free.map (·.1)).Nodup) :
    tally k ((free.map fun p => if p.1 == x then (x, a) else p).map (·.2)) ≤
      tally k (free.map (·.2)) + tally k [a] := by
  induction free with
  | nil => simp
  | cons p free ih =>
    obtain ⟨hp, hfree⟩ := List.nodup_cons.1 h
    by_cases hx : p.1 = x
    · -- No other name is the same, so the rest stays as it is.
      have hrest : (free.map fun p => if p.1 == x then (x, a) else p) = free := by
        conv_rhs => rw [← List.map_id free]
        refine List.map_congr_left fun q hq => ?_
        have : q.1 ≠ x := fun he => hp (List.mem_map.2 ⟨q, hq, he.trans hx.symm⟩)
        simp [this]
      simp only [List.map_cons, hrest, hx]
      grind
    · have := ih hfree
      simp only [List.map_cons]
      grind

theorem tally_withNote {k : Nat} {a : Symbol} {x : String} {free : List (String × Symbol)}
    (h : (free.map (·.1)).Nodup) :
    tally k ((withNote free x a).map (·.2)) ≤ tally k (free.map (·.2)) + tally k [a] := by
  unfold withNote
  split
  · exact tally_renoted h
  · simp

theorem nodup_withNote {a : Symbol} {x : String} {free : List (String × Symbol)}
    (h : (free.map (·.1)).Nodup) : ((withNote free x a).map (·.1)).Nodup := by
  unfold withNote
  split
  · rw [List.map_map, List.map_congr_left (g := (·.1)) fun p _ => ?_]
    · exact h
    · simp only [Function.comp_apply]
      split <;> simp_all
  · rename_i hx
    rw [List.map_append, List.nodup_append]
    refine ⟨h, by simp, fun y hy z hz hyz => hx ?_⟩
    obtain ⟨p, hp, rfl⟩ := List.mem_map.1 hy
    exact List.any_eq_true.2 ⟨p, hp, by simp_all⟩

/-- A pulling body holds the symbol that it reads a free variable by as a parameter to come. -/
theorem noteFree_moves (name : String) (a : Symbol) :
    Moves K b ⟨if b.pulling then [a] else [], []⟩ (Lower.noteFree name a) fun _ => ∅ := by
  intro s r hl
  have hp := hl.body.pulling
  refine Ends.modifyBody
    { kept := hl.kept.weaken (Nat.le_refl _) rfl fun k => ?_
      used := fun x hx => hl.used x (by simpa using hx)
      binds := hl.binds
      names := nodup_withNote hl.names
      body := hl.body.trans ⟨rfl, rfl, rfl, rfl, rfl⟩ }
  have := tally_withNote (k := k) (a := a) (x := name) hl.names
  simp only [Body.pulls, hp, Stock.held_append, Stock.held_empty, Flat.tally_append]
  cases b.pulling
  · simp
  · simp only [if_true]
    change tally k ((withNote s.body.free name a).map (·.2)) + _ ≤ _
    simp only [Flat.tally_nil]
    omega

theorem search_of_find {sc : Scopes} {frame : Nat} {name : String} {res : Option Resolution}
    (h : sc.find frame name = .ok res) : sc.search name false frame = res := by
  unfold Scopes.find at h
  split at h
  · exact Except.ok.inj h
  · cases h

theorem search_of_lookup {sc : Scopes} {frame : Nat} {name : String} {loc : Option Location}
    {res : Resolution} (h : sc.lookup frame name loc = .ok res) :
    sc.search name false frame = some res := by
  unfold Scopes.lookup at h
  cases hf : sc.find frame name with
  | error e => simp [hf, bind, Except.bind] at h
  | ok found =>
    cases found with
    | none => simp [hf, bind, Except.bind] at h
    | some r =>
      simp only [hf, bind, Except.bind, Except.ok.injEq] at h
      exact h ▸ search_of_find hf

/-- What was issued may be referred to. -/
theorem Ledger.seeing {s : State} {p : Stock} {as : List Symbol} (h : Ledger K b s p)
    (ha : ∀ a ∈ as, a.token ≤ s.issued) : Ledger K b s (⟨[], as⟩ ++ p) :=
  { h with
    kept := h.kept.weaken (Nat.le_refl _) rfl fun k => by simp
    used := fun a hm => (List.mem_append.1 hm).elim (ha a) (h.used a) }

theorem find_moves (name : String) :
    Moves K b ∅ (Lower.find name) fun r => ⟨[], (r.map (·.sym)).toList⟩ := by
  refine Moves.withState fun s r hl => ?_
  refine Ends.ofExcept (fun found hfound => ?_) fun _ _ => hl.kept.close
  refine hl.of_empty.seeing fun a ha => ?_
  rw [Option.mem_toList, Option.map_eq_some_iff] at ha
  obtain ⟨res, rfl, rfl⟩ := ha
  exact hl.search_le (search_of_find hfound)

theorem readName_moves (name : String) (loc : Option Location) :
    Moves K b ∅ (Lower.readName name loc) ofNode := by
  refine (find_moves name).bind fun _ r _ _ => ?_
  rcases r with - | ⟨isFree, sym⟩
  · exact Moves.pure (by grind [Symbol.global])
  · cases isFree with
    | false => exact Moves.pure (by grind)
    | true =>
      refine Moves.withBody fun c hc => ?_
      have hpull := hc.pulling
      cases hp : c.pulling with
      | true =>
        refine (bindFresh_moves name).andThen fun _ a _ _ => ?_
        refine (noteFree_moves name a).seq (seen a) (by grind) fun _ _ _ _ => ?_
        exact Moves.pure (by grind)
      | false =>
        refine Moves.bind (q := seen) (.pure (by grind)) fun _ a _ _ => ?_
        refine (noteFree_moves name a).seq (seen a) (by grind) fun _ _ _ _ => ?_
        exact Moves.pure (by grind)

theorem currentIn_moves (frame : Nat) (name : String) (loc : Option Location) :
    Moves K b ∅ (Lower.currentIn frame name loc) seen := by
  refine Moves.withState fun s r hl => ?_
  refine Ends.ofExceptThen (fun res hres => ?_) fun _ _ => hl.kept.close
  refine Ends.pure (hl.of_empty.seeing fun a ha => ?_)
  obtain rfl := List.mem_singleton.1 ha
  exact hl.search_le (search_of_lookup hres)

theorem current_moves (name : String) (loc : Option Location) :
    Moves K b ∅ (Lower.current name loc) seen :=
  Moves.withBody fun c _ => currentIn_moves c.frame name loc

/-- Nodes that are made one after the other. -/
theorem readNames_moves (loc : Option Location) (names : List String) :
    Moves K b ∅ (Lower.readNames loc names) ofNodes := by
  induction names with
  | nil => exact Moves.pure (by grind)
  | cons x names ih =>
    refine (readName_moves x loc).bind fun _ n _ _ => ?_
    refine ih.andThen fun _ ns _ _ => ?_
    exact Moves.pure (by grind)

theorem currents_moves (loc : Option Location) (names : List String) :
    Moves K b ∅ (Lower.currents loc names) ofNodes := by
  induction names with
  | nil => exact Moves.pure (by grind)
  | cons x names ih =>
    refine (current_moves x loc).bind fun _ a _ _ => ?_
    refine ih.andThen fun _ ns _ _ => ?_
    exact Moves.pure (by grind)

theorem bindFreshAll_moves (names : List String) : Moves K b ∅ (Lower.bindFreshAll names) many := by
  induction names with
  | nil => exact Moves.pure (by grind)
  | cons x names ih =>
    refine (bindFresh_moves x).bind fun _ a _ _ => ?_
    refine ih.andThen fun _ as _ _ => ?_
    exact Moves.pure (by grind)

theorem assign_moves (name : String) (value : Node) (loc : Option Location) :
    Moves K b (ofNode value) (Lower.assign name value loc) Stock.ofItem := by
  refine (bindFresh_moves name).andThen fun _ a _ _ => ?_
  refine Moves.bind (.modifyBody (fun c => ?_) fun c => ?_) fun _ _ _ _ => ?_
  · split <;> exact ⟨rfl, rfl, rfl, rfl, rfl⟩
  · split <;> rfl
  · exact Moves.pure (by grind)

theorem assignItems_moves (tuple : Symbol) (loc : Option Location) (i : Nat) (names : List String) :
    Moves K b (seen tuple) (Lower.assignItems tuple loc i names) Stock.ofItems := by
  induction names generalizing i with
  | nil => exact Moves.pure (by grind)
  | cons x names ih =>
    refine (assign_moves x _ loc).seq (seen tuple) ?_ fun _ item _ _ => ?_
    · grind [Lower.projection, Flat.index, Symbol.builtin]
    refine (ih (i + 1)).seq (Stock.ofItem item) (by grind) fun _ items _ _ => ?_
    exact Moves.pure (by grind)

theorem assignAll_moves (names : List String) (value : Node) (loc : Option Location) :
    Moves K b (ofNode value) (Lower.assignAll names value loc) Stock.ofItems := by
  refine (issue_moves "tmp" .local_).andThen fun _ tuple _ _ => ?_
  refine (assignItems_moves tuple loc 0 names).seq (one tuple ++ ofNode value) (by grind)
    fun _ items _ _ => ?_
  exact Moves.pure (by grind)

end Names

section Bodies

variable {α β : Type} {K : Books} {b inner : Body} {p q : Stock} {s t : State}

/-- A body in which nothing was lowered yet. -/
structure Blank (dest : Symbol) (pulling : Bool) (c : Body) : Prop where
  dest : c.dest = dest
  pulling : c.pulling = pulling
  topLevel : c.topLevel = false
  free : c.free = []

theorem childBody_blank {dest : Option Symbol} {pulling : Bool} {err : Option String} {c : Body}
    (h : Yields (Lower.childBody dest pulling err) s c t) : Blank c.dest pulling c := by
  simp only [Lower.childBody, Lower.newBody, Yields.bind_iff, Yields.get_iff, Yields.ofExcept_iff,
    Yields.set_iff] at h
  obtain ⟨_, _, ⟨rfl, rfl⟩, _, _, ⟨_, rfl⟩, _, _, rfl, h⟩ := h
  cases dest <;> simp only [Yields.bind_iff, Yields.pure_iff] at h <;>
    obtain ⟨_, _, -, rfl, rfl⟩ := h <;> exact ⟨rfl, rfl, rfl, rfl⟩

theorem newBody_moves (frame : Nat) (dest : Option Symbol) (pulling topLevel : Bool)
    (err : Option String) :
    Moves K b ∅ (Lower.newBody frame dest pulling topLevel err) fun _ => ∅ := by
  cases dest with
  | none => exact (issue_moves "lambda" .global_).bind fun _ a _ _ => .pure (by grind)
  | some d =>
    exact Moves.bind (show Moves K b ∅ (Pure.pure d) fun _ => ∅ from .pure (.refl _))
      fun _ _ _ _ => .pure (.refl _)

theorem childBody_moves (dest : Option Symbol) (pulling : Bool) (err : Option String) :
    Moves K b ∅ (Lower.childBody dest pulling err) fun _ => ∅ := by
  refine Moves.withState fun s r hl => ?_
  refine Ends.ofExceptThen (fun res hsc => Ends.setThen ?_) fun _ _ => hl.kept.close
  have hl' : Ledger K b { s with scopes := res.2 } r :=
    { hl.of_empty with
      kept := hl.of_empty.kept.weaken (Nat.le_refl _) rfl fun _ => Nat.le_refl _
      binds := fun i x a ha => hl.binds i x a (by rw [← Scopes.child_own hsc]; exact ha) }
  exact newBody_moves _ dest pulling false err _ r (hl'.cover (by grind))

/-- Inside another body, what the outer one pulled stays in hand; what the inner one pulls is in hand
behind it. -/
theorem Moves.withinThen {x : Lower α} {f : α × Body → Lower β} {g : α → Stock} {u : β → Stock}
    (hfree : inner.free = []) (hx : Moves K inner p x g)
    (hf : ∀ s a w, Yields x s a w → SameBody inner w.body →
      Moves K b (g a ++ ⟨w.body.pulls, []⟩) (f (a, w.body)) u) :
    Moves K b p (Lower.within inner x >>= f) u := by
  intro s r hl
  have hin : Ledger K inner (s.resume inner) (p ++ (⟨s.body.pulls, []⟩ ++ r)) :=
    { kept := hl.kept.weaken (Nat.le_refl _) rfl fun k => by
        simp only [State.resume, Body.pulls, hfree, List.map_nil, ite_self, List.nil_append,
          Stock.held_append, Flat.tally_append]
        omega
      used := fun a ha => hl.used a (by simpa using ha)
      binds := hl.binds
      names := by simp [State.resume, State.freeNames, hfree]
      body := .refl _ }
  have hout : Ends (Lower.within inner x) s
      (fun ac t => ∃ w, Yields x (s.resume inner) ac.1 w ∧ w.body = ac.2 ∧ w.resume s.body = t ∧
        Ledger K inner w (g ac.1 ++ (⟨s.body.pulls, []⟩ ++ r))) fun _ t => Kept K t [] :=
    Ends.within <| (hx _ _ hin).known.imp (fun a w h => ⟨w, h.1, rfl, rfl, h.2⟩)
      fun _ _ h => h.weaken (Nat.le_refl _) rfl fun _ => Nat.le_refl _
  refine hout.bind fun ac t _ h => ?_
  obtain ⟨a, c⟩ := ac
  obtain ⟨w, hy, rfl, rfl, hw⟩ := h
  refine hf _ a w hy hw.body _ r ?_
  exact
    { kept := hw.kept.weaken (Nat.le_refl _) rfl fun k => by
        simp only [State.resume, Stock.held_append, Flat.tally_append]
        omega
      used := fun a ha => hw.used a (by simpa using ha)
      binds := hw.binds
      names := hl.names
      body := hl.body }

theorem nameBody_moves (name : Option String) (child : Body) (a : Symbol) :
    Moves K b (seen a) (Lower.nameBody name child a) fun _ => ∅ := by
  cases name with
  | none => exact .pure (by grind)
  | some n => exact (bind_moves child.frame n a).cover (.refl _) fun _ => by grind

theorem closureBody_moves (name : Option String) (ref : Symbol) :
    Moves K b (seen ref) (Lower.closureBody name (some ref)) fun _ => ∅ := by
  rw [closureBody_some]
  refine Moves.withBody fun c _ => ?_
  refine (childBody_moves _ _ _).andThen fun _ child _ _ => ?_
  exact ((nameBody_moves name child ref).cover (by grind) fun _ => .refl _).bind fun _ _ _ _ =>
    .pure (.refl _)

theorem closureBody_blank {name : Option String} {ref : Symbol} {c : Body}
    (h : Yields (Lower.closureBody name (some ref)) s c t) : Blank ref true c := by
  rw [closureBody_some] at h
  simp only [Yields.bind_iff, Yields.body_iff, Yields.pure_iff] at h
  obtain ⟨_, _, ⟨rfl, rfl⟩, child, _, hc, _, _, -, rfl, rfl⟩ := h
  exact { childBody_blank hc with dest := (childBody_frame hc).2.2 ref rfl }

end Bodies

section Lambdas

variable {β : Type} {K : Books} {b child : Body} {p r : Stock} {l next loop : Lambda} {n : Node}
  {formals : List Symbol} {code : Node} {loc : Option Location}

/-- What a lambda takes over. -/
@[grind] def Stock.ofLambda (l : Lambda) : Stock := ⟨l.named ++ l.binders, l.ref :: l.body.refers⟩

/-- A definition adds a lambda, or changes nothing at all. -/
theorem define_ends (env : Env) (l : Lambda) (s : State) :
    Ends (Lower.define env l.ref l.params l.body l.loc) s
      (fun _ t => s.table.contains l.ref = false ∧ s.defining env l = t) fun _ t => s = t := by
  cases hc : s.table.contains l.ref with
  | false => exact Ends.ok (define_iff (a := ()).2 ⟨hc, rfl⟩) ⟨rfl, rfl⟩
  | true =>
    refine Ends.getThen ?_
    simp only [Table.define?, hc, if_true]
    exact Ends.throw rfl

theorem Sound.of_used {s : State} (h : Ledger K b s p) (hl : ∀ a ∈ l.body.refers, a ∈ p.used)
    (hplain : l.ref.isGenerated = false → K.plain l.ref) : Sound K s.issued l :=
  ⟨fun a ha => h.used a (hl a ha), hplain⟩

/-- Lambdas that were defined take over what is theirs. -/
theorem Ledger.part {s t : State} {P : List Lambda} {T : List Symbol} {q : Stock}
    (h : Ledger K b s p) (hP : Part P T) (hT : ∀ k, tally k T + tally k q.held ≤ tally k p.held)
    (hq : ∀ a ∈ q.used, a ∈ p.used) (ht : t.table.lambdas = s.table.lambdas ++ P)
    (hi : t.issued = s.issued) (hsc : t.scopes = s.scopes) (hb : t.body = s.body)
    (hs : ∀ l ∈ P, Sound K s.issued l)
    (hu : Unlike s.table.lambdas → Unlike t.table.lambdas) : Ledger K b t q where
  kept := by
    refine Kept.part (h.kept.weaken (Nat.le_refl _) rfl fun k => ?_) hP hi ht hs hu
    have := hT k
    rw [hb]
    simp only [Flat.tally_append]
    omega
  used a ha := hi ▸ h.used a (hq a ha)
  binds i x a ha := by
    rw [hi]
    rw [hsc] at ha
    exact h.binds i x a ha
  names := by
    rw [State.freeNames, hb]
    exact h.names
  body := hb ▸ h.body

theorem define_moves (hrel : l.ref.relation ≠ "loop")
    (hplain : l.ref.isGenerated = false → K.plain l.ref) (env : Env) :
    Moves K b (.ofLambda l) (Lower.define env l.ref l.params l.body l.loc) fun _ => seen l.ref := by
  intro s r hl
  refine (define_ends env l s).imp (fun _ t h => ?_) fun _ t h => h ▸ hl.kept.close
  obtain ⟨hc, rfl⟩ := h
  refine hl.part (.lambda hrel) (by grind) (by grind) rfl rfl rfl rfl (fun m hm => ?_)
    fun hu => hu.defining hc
  obtain rfl := List.mem_singleton.1 hm
  exact .of_used hl (fun a ha => by simp [Stock.ofLambda, ha]) hplain

/-- A loop is defined together with its `continue`. When the table does not take the loop, its
`continue` stands alone. -/
theorem Moves.turnThen {f : Unit → Lower β} {u : β → Stock} (ht : Turn next loop) (env : Env)
    (hnext : next.ref.isGenerated = true) (hloop : loop.ref.isGenerated = true)
    (hp : p.Covers (⟨next.ref :: loop.ref :: (next.binders ++ loop.body.lets),
      loop.ref :: (next.body.refers ++ loop.body.refers)⟩ ++ r))
    (hf : Moves K b (seen loop.ref ++ r) (f ()) u) :
    Moves K b p (Lower.define env next.ref next.params next.body next.loc >>= fun _ =>
      Lower.define env loop.ref loop.params loop.body loop.loc >>= f) u := by
  intro s r' hl
  replace hl := hl.cover (hp.append r')
  have hsound : ∀ l ∈ [next, loop], Sound K s.issued l := by
    simp only [List.mem_cons, List.not_mem_nil, or_false]
    rintro l (rfl | rfl)
    · exact .of_used hl (fun a ha => by simp [ha]) (by simp [hnext])
    · exact .of_used hl (fun a ha => by simp [ha]) (by simp [hloop])
  have hnamed : next.named = [next.ref] := if_pos hnext
  have hnamed' : loop.named = [loop.ref] := if_pos hloop
  refine ((define_ends env next s).imp (fun _ _ h => h) fun _ t h => h ▸ hl.kept.close).bind
    fun _ t _ h => ?_
  obtain ⟨hc, rfl⟩ := h
  have halone : Ledger K b (s.defining env next) ∅ := by
    refine hl.part (.lambda ?_) (by grind) (by grind) rfl rfl rfl rfl
      (fun l hl => hsound l (by simp_all)) fun hu => hu.defining hc
    rw [ht.next_relation]
    decide
  refine ((define_ends env loop _).imp (fun _ _ h => h) fun _ t h => h ▸ halone.kept.close).bind
    fun _ t _ h => ?_
  obtain ⟨hc', rfl⟩ := h
  refine hf _ r' (hl.part (.turn ht) (fun k => ?_) (fun a ha => ?_) (List.append_assoc _ [next] [loop]) rfl rfl rfl hsound
    fun hu => Unlike.defining (s := s.defining env next) (hu.defining hc) hc')
  · grind
  · grind

/-- A closure takes over what its body pulled, before its own parameters. -/
theorem lift_moves (hrel : child.dest.relation ≠ "loop")
    (hplain : child.dest.isGenerated = false → K.plain child.dest) (env : Env) :
    Moves K b (.ofLambda (child.lambda formals code loc)) (Lower.lift env child formals code loc)
      ofNode := by
  refine (readNames_moves loc _).andThen fun _ captured _ _ => ?_
  refine (define_moves (l := child.lambda formals code loc) hrel hplain env).seq (ofNodes captured)
    (by grind) fun _ _ _ _ => ?_
  split <;> exact Moves.pure (by grind [Body.lambda])

end Lambdas

section Grouping

variable {result : Option Node} {loc : Option Location} {items : List Item} {n r : Node} {k : Nat}

theorem ofItems_append (xs ys : List Item) :
    Stock.ofItems (xs ++ ys) = Stock.ofItems xs ++ Stock.ofItems ys :=
  Stock.ext (by simp [Stock.ofItems]) (by simp [Stock.ofItems])

/-- The bindings of assignments hold what the assignments do, in another order. -/
theorem bindings_covers (as : List Assignment) :
    (Stock.ofItems (as.map .assign)).Covers
      ⟨(as.map Assignment.binding).map (·.1) ++ (as.map Assignment.binding).flatMap (·.2.lets),
        (as.map Assignment.binding).flatMap (·.2.refers)⟩ := by
  induction as with
  | nil => exact .refl _
  | cons a as ih => grind [Assignment.binding]

theorem plain_covers (ns : List Node) : (Stock.ofItems (ns.map .plain)).Covers (ofNodes ns) := by
  induction ns with
  | nil => exact .refl _
  | cons n ns ih => grind

theorem sequence_covers (n : Node) (ns : List Node) :
    (ofNodes (n :: ns)).Covers (ofNode (sequence n ns)) := by
  unfold sequence
  split <;> grind

/-- The node of some items holds what they do. -/
theorem group_covers (h : group items result loc = .ok n) :
    (Stock.ofItems items ++ Stock.ofResult result).Covers (ofNode n) := by
  rw [← runs_items items]
  unfold group at h
  generalize runs items = rs at h
  induction rs generalizing n with
  | nil =>
    cases result with
    | none => cases h
    | some r =>
      cases h
      grind
  | cons run rs ih =>
    rw [List.flatMap_cons, ofItems_append]
    cases run with
    | binds a as =>
      obtain ⟨-, body, hbody, rfl⟩ := assemble_binds h
      have := ih hbody
      have := bindings_covers (a :: as)
      simp only [Run.items]
      grind
    | nodes m ms =>
      rcases assemble_nodes h with ⟨rfl, rfl, rfl⟩ | ⟨body, hbody, rfl⟩
      · have := sequence_covers m ms
        have := plain_covers (m :: ms)
        simp only [Run.items]
        grind
      · have := ih hbody
        have := sequence_covers m (ms ++ [body])
        have := plain_covers (m :: ms)
        simp only [Run.items]
        grind

theorem group_refers (h : group items (some r) loc = .ok n) {a : Symbol} (ha : a ∈ r.refers) :
    a ∈ n.refers := by
  unfold group at h
  generalize runs items = rs at h
  induction rs generalizing n with
  | nil =>
    cases h
    exact ha
  | cons run rs ih =>
    cases run with
    | binds b bs =>
      obtain ⟨-, body, hbody, rfl⟩ := assemble_binds h
      simp [ih hbody]
    | nodes m ms =>
      rcases assemble_nodes h with ⟨-, hr, -⟩ | ⟨body, hbody, rfl⟩
      · cases hr
      · have := ih hbody
        unfold sequence
        split
        · simp_all
        · simp [this]

end Grouping

section Branches

variable {K : Books} {b : Body} {env : Env} {loc : Option Location}

/-- A step that makes of no symbols in hand what it yields, wherever it is taken inside a function. -/
def Holds {α : Type} (x : Lower α) (q : α → Stock) : Prop :=
  ∀ (K : Books) (b : Body), b.topLevel = false → Moves K b ∅ x q

/-- What is in hand of a branch: its name, what it pulled and its items. -/
@[grind] def Stock.ofBranch (B : Lower.Branch) : Stock :=
  one B.body.dest ++ (⟨B.body.free.map (·.2), []⟩ ++ Stock.ofItems B.items)

theorem Body.pulls_of_pulling {c : Body} (h : c.pulling = true) : c.pulls = c.free.map (·.2) :=
  if_pos h

theorem lowerBranch_moves {statements : Lower (List Item)} (hst : Holds statements Stock.ofItems)
    (tag : String) : Moves K b ∅ (Lower.lowerBranch tag statements) Stock.ofBranch := by
  refine Moves.withBody fun c _ => ?_
  refine (derive_moves c.dest tag).bind fun _ ref _ _ => ?_
  refine (closureBody_moves none ref).seq (one ref) (by grind) fun _ child _ hc => ?_
  have hblank := closureBody_blank hc
  refine Moves.withinThen hblank.free
    (((hst K child hblank.topLevel).frame (one ref)).cover (by grind) fun _ => .refl _)
    fun _ items w _ hw => ?_
  have hdest : w.body.dest = ref := hw.dest.trans hblank.dest
  have hpulls := Body.pulls_of_pulling (hw.pulling.trans hblank.pulling)
  exact Moves.pure (by grind)

theorem lowerBranch_relation {statements : Lower (List Item)} (hst : TameInside statements)
    {tag : String} {s t : State} {B : Lower.Branch}
    (h : Yields (Lower.lowerBranch tag statements) s B t) : B.body.dest.relation = tag := by
  simp only [Lower.lowerBranch, Yields.bind_iff, Yields.body_iff, Yields.derive_iff, within_iff,
    Yields.pure_iff] at h
  obtain ⟨_, _, ⟨rfl, rfl⟩, _, _, ⟨rfl, rfl⟩, child, u, hc, ⟨items, inner⟩, _,
    ⟨w, hw, rfl, rfl⟩, rfl, rfl⟩ := h
  have hblank := closureBody_blank hc
  have hbody := (hw.after ▸ hst (u.resume child) hblank.topLevel).body
  change w.body.dest.relation = tag
  rw [hbody.dest]
  change child.dest.relation = tag
  rw [hblank.dest]
  rfl

theorem mapM_currentIn_moves (frame : Nat) (names : List String) :
    Moves K b ∅ (names.mapM fun name => do
      return Node.ref loc (← Lower.currentIn frame name loc)) ofNodes := by
  induction names with
  | nil => exact Moves.pure (by grind)
  | cons x names ih =>
    rw [List.mapM_cons]
    refine Moves.bind (q := ofNode) ?_ fun _ n _ _ => ih.andThen fun _ ns _ _ => .pure (by grind)
    exact (currentIn_moves frame x loc).bind fun _ a _ _ => .pure (by grind)

theorem branchResult_moves (B : Lower.Branch) (returns : Bool) (names : List String) :
    Moves K b ∅ (Lower.branchResult B returns names loc) Stock.ofResult := by
  refine Moves.ite (fun _ => .pure (by grind)) fun _ => ?_
  split
  · exact (currentIn_moves _ _ loc).bind fun _ a _ _ => .pure (by grind)
  · exact (mapM_currentIn_moves _ names).bind fun _ ns _ _ => .pure (by grind)

theorem buildBranch_moves {B : Lower.Branch} (hrel : B.body.dest.relation ≠ "loop")
    (result : Option Node) :
    Moves K b (.ofBranch B ++ .ofResult result) (Lower.buildBranch env B result loc) ofNode := by
  refine Moves.of_held (a := B.body.dest) (by simp [Stock.ofBranch, one]) fun hg => ?_
  refine Moves.bind (q := fun code => .ofLambda (B.body.lambda [] code (code.loc.or loc)))
    (.ofExcept fun code hcode => ?_) fun _ code _ _ => lift_moves hrel (by simp [hg]) env
  have := group_covers hcode
  have hnamed : (B.body.lambda [] code (code.loc.or loc)).named = [B.body.dest] := if_pos hg
  grind [Body.lambda, Flat.Lambda.binders]

theorem bindResults_moves (returns : Bool) (names : List String) (app : Node) :
    Moves K b (ofNode app) (Lower.bindResults returns names app loc) Stock.ofItems := by
  refine Moves.ite (fun _ => .pure (by grind)) fun _ => ?_
  split
  · exact (issue_moves "tmp" .local_).andThen fun _ a _ _ => .pure (by grind)
  · exact (assign_moves _ app loc).bind fun _ i _ _ => .pure (by grind)
  · exact assignAll_moves _ app loc

theorem branchCall_covers (test x y : Node) :
    (ofNode test ++ (ofNode x ++ ofNode y)).Covers (ofNode (branchCall test x y loc)) := by
  grind [branchCall, Flat.switch, Symbol.builtin]

/-- Two branches take over what is theirs, and the conditional holds what is left. -/
theorem mergeBranches_moves {T F : Lower.Branch} (hT : T.body.dest.relation ≠ "loop")
    (hF : F.body.dest.relation ≠ "loop") (test : Node) :
    Moves K b (ofNode test ++ (.ofBranch T ++ .ofBranch F))
      (Lower.mergeBranches env loc test T F) Stock.ofItems := by
  have hbuild : ∀ returns, Moves K b (ofNode test ++ (.ofBranch T ++ .ofBranch F)) (do
      let rT ← Lower.branchResult T returns T.body.assigned loc
      let nT ← Lower.buildBranch env T rT loc
      let rF ← Lower.branchResult F returns T.body.assigned loc
      let nF ← Lower.buildBranch env F rF loc
      Lower.bindResults returns T.body.assigned (branchCall test nT nF loc) loc) Stock.ofItems := by
    intro returns
    refine (branchResult_moves T returns _).andThen fun _ rT _ _ => ?_
    refine (buildBranch_moves hT rT).seq (ofNode test ++ .ofBranch F) (by grind) fun _ nT _ _ => ?_
    refine (branchResult_moves F returns _).andThen fun _ rF _ _ => ?_
    refine (buildBranch_moves hF rF).seq (ofNode test ++ ofNode nT) (by grind) fun _ nF _ _ => ?_
    refine (bindResults_moves returns _ _).cover ?_ fun _ => .refl _
    exact .trans (by grind) (branchCall_covers test nT nF)
  unfold Lower.mergeBranches
  simp only []
  refine Moves.ite (fun _ => .refuse _ _) fun _ => Moves.ite (fun _ => .refuse _ _) fun _ => ?_
  refine Moves.ite (fun _ => ?_) fun _ => hbuild _
  exact Moves.bind (.modifyBody (fun _ => ⟨rfl, rfl, rfl, rfl, rfl⟩) fun _ => rfl) fun _ _ _ _ =>
    hbuild _

end Branches

section Loops

variable {K : Books} {b : Body} {env : Env} {loc : Option Location} {test : Lower Node}
  {statements : Lower (List Item)}

/-- A dry run keeps books of its own, and is over without a trace in the others. -/
theorem dryRun_moves (ht : Holds test ofNode) (hs : Holds statements Stock.ofItems) :
    Moves K b ∅ (Lower.dryRun test statements) fun _ => ∅ := by
  refine (childBody_moves none false _).bind fun _ child _ hc => ?_
  have hblank := childBody_blank hc
  intro s r hl
  have hsteps : Moves ⟨s.issued, [], fun _ => False⟩ child ∅ (do
      let _ ← test
      let _ ← statements) fun _ => ∅ :=
    (ht _ child hblank.topLevel).bind fun _ _ _ _ =>
      (hs _ child hblank.topLevel).andThen fun _ _ _ _ => .pure (by grind)
  have hstart : Ledger ⟨s.issued, [], fun _ => False⟩ child (s.scratch.resume child) (∅ ++ ∅) :=
    { kept :=
        { issued := Nat.le_refl _
          lambdas := ⟨[], [], rfl, .nil, fun k => by
            simp [State.resume, Body.pulls, hblank.free], by simp⟩
          unlike := id }
      used := by simp
      binds := hl.binds
      names := by simp [State.resume, State.freeNames, hblank.free]
      body := .refl _ }
  have hrun : Ends (Lower.inScratch (Lower.within child do
      let _ ← test
      let _ ← statements)) s (fun _ t => Ledger K b t r) fun _ t => Kept K t [] := by
    refine Ends.inScratch <| Ends.within <| (hsteps _ _ hstart).imp (fun _ w hw => ?_) fun _ w hw => ?_
    · exact
        { kept := hl.of_empty.kept.weaken hw.kept.issued rfl fun _ => Nat.le_refl _
          used := fun a ha => Nat.le_trans (hl.of_empty.used a ha) hw.kept.issued
          binds := hw.binds
          names := hl.names
          body := hl.body }
    · exact hl.kept.close.weaken hw.issued rfl fun _ => Nat.le_refl _
  exact hrun.bind fun _ _ _ h => Ends.pure (h.cover (by grind))

theorem ofNodes_refs (loc : Option Location) (as : List Symbol) : ofNodes (as.map (.ref loc)) = ⟨[], as⟩ := by
  induction as with
  | nil => rfl
  | cons a as ih => grind

/-- A loop refers to its `continue` and its parameters, besides what is in the test and the exits. -/
theorem loopBody_covers (loc : Option Location) (test : Node) (next : Symbol) (formals : List Symbol)
    (exits : List Node) :
    (ofNode test ++ (seen next ++ (⟨[], formals⟩ ++ ofNodes exits))).Covers
      (ofNode (branchCall test (.closure loc next (formals.map (.ref loc)))
        (.closure loc Flat.identity [.tuple loc exits]) loc)) := by
  obtain ⟨hlets, hrefs⟩ := Stock.mk.inj (ofNodes_refs loc formals)
  refine .trans ?_ (branchCall_covers test _ _)
  simp only [ofNode, ofNodes, Flat.Node.lets_closure, Flat.Node.refers_closure, hlets, hrefs,
    List.flatMap_singleton, Flat.Node.lets_tuple, Flat.Node.refers_tuple]
  clear hlets hrefs
  constructor
  · grind
  · grind [Flat.identity, Symbol.builtin]

theorem lowerInside_moves (hb : b.topLevel = false) (ht : Holds test ofNode)
    (hs : Holds statements Stock.ofItems) (ref : Symbol) (vars : LoopVariables) :
    Moves K b (seen ref) (Lower.lowerInside ref vars test statements loc) fun parts =>
      many parts.formals ++ (ofNodes parts.exits ++ (ofNode parts.test ++ ofNode parts.code)) := by
  refine (bindFreshAll_moves vars.taken).andThen fun _ formals _ _ => ?_
  refine (currents_moves loc vars.given).andThen fun _ exits _ _ => ?_
  refine (ht K b hb).andThen fun _ test _ _ => ?_
  refine (hs K b hb).andThen fun _ items _ _ => ?_
  refine (readNames_moves loc vars.taken).andThen fun _ updated _ _ => ?_
  refine Moves.bind (q := fun code => ofNode code ++ (ofNode test ++ (ofNodes exits ++ many formals)))
    (.ofExcept fun code hcode => ?_) fun _ code _ _ => .pure (by grind)
  have := group_covers hcode
  grind

theorem turn_of {s t u v : State} {c d : Body} {next loop : Symbol} {items : List Item}
    {formals : List Symbol} {updated : List Node} {code test stop : Node} {args : List Node}
    (hnext : Yields (Lower.derive c.dest "continue") s next t)
    (hloop : Yields (Lower.derive d.dest "loop") u loop v)
    (hcode : group items (some (.apply loc (.ref loc loop) updated false)) loc = .ok code) :
    Turn ⟨next, formals, code, loc⟩
      ⟨loop, formals, branchCall test (.closure loc next args) stop loc, loc⟩ where
  next_relation := by
    rw [← (Yields.derive_iff.1 hnext).1]
    rfl
  loop_relation := by
    rw [← (Yields.derive_iff.1 hloop).1]
    rfl
  params := rfl
  calls := group_refers hcode (by simp)
  goesOn := by simp [branchCall]

/-- A loop and its `continue` take over the parameters and what is inside, and the variables given back
are bound anew. -/
theorem lowerLoop_moves (ht : Holds test ofNode) (hs : Holds statements Stock.ofItems) :
    Moves K b ∅ (Lower.lowerLoop env loc test statements) Stock.ofItems := by
  refine (dryRun_moves ht hs).bind fun _ vars _ _ => ?_
  refine (currents_moves loc vars.given).seq ∅ (by grind) fun _ _ _ _ => ?_
  refine (readNames_moves loc vars.taken).seq ∅ (by grind) fun _ initial _ _ => ?_
  refine Moves.withBody fun c _ => ?_
  refine (derive_moves c.dest "loop").andThen fun _ loopRef _ hloop => ?_
  refine Moves.withBody fun d _ => ?_
  refine (derive_moves d.dest "continue").andThen fun _ nextRef _ hnext => ?_
  refine (childBody_moves _ _ _).andThen fun _ child _ hc => ?_
  have hblank := childBody_blank hc
  refine Moves.withinThen hblank.free
    (((lowerInside_moves hblank.topLevel ht hs loopRef vars).frame
      (one nextRef ++ (one loopRef ++ ofNodes initial))).cover (by grind) fun _ => .refl _)
    fun _ parts w hparts _ => ?_
  refine Moves.of_held (a := nextRef) (by simp [one]) fun hgn => ?_
  refine Moves.of_held (a := loopRef) (by simp [one]) fun hgl => ?_
  obtain ⟨_, _, _, _, _, updated, _, _, _, _, _, hcode⟩ := lowerInside_iff.1 hparts
  have hbody := loopBody_covers loc parts.test nextRef parts.formals parts.exits
  refine Moves.turnThen (r := ofNodes initial) (turn_of hnext hloop hcode) env hgn hgl ?_ ?_
  · simp only [Flat.Lambda.binders]
    generalize branchCall parts.test _ _ loc = code at hbody ⊢
    clear hcode hparts
    constructor
    · grind
    · grind
  · exact (assignAll_moves _ _ _).cover (by grind) fun _ => .refl _

end Loops

end Hoist.Lowering
