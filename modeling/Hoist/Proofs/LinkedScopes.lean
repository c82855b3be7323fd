import Hoist.Proofs.Lowering.Sight

/-!
# Scopes are linked environments

All frames of a unit stand in one list and know each other by their numbers. Read as linked
environments, a frame is a chain of maps, its own first and that of its root last, and a name is looked
for map by map. Whatever was done to the scopes, the search of the frames is this search of chains, and
a binding matters only to the frames that have its frame in their chains, behind none that binds the
name.
-/

namespace Hoist.Lowering

open Hoist.Flat (Symbol)

/-- What can be done to scopes. -/
inductive ScopeAct
  | root
  | child (parent : Nat)
  | bind (frame : Nat) (name : String) (sym : Symbol)
deriving DecidableEq, Repr

/-- The frame that an act relies on. -/
def ScopeAct.frame? : ScopeAct → Option Nat
  | .root => none
  | .child frame | .bind frame _ _ => some frame

namespace Scopes

/-- An act on scopes. -/
def act? (s : Scopes) : ScopeAct → Except Failure Scopes
  | .root => .ok s.root.2
  | .child parent => (·.2) <$> s.child parent
  | .bind frame name sym => s.bind frame name sym

/-- Scopes after an act; one that fails has no effect. -/
def act (s : Scopes) (a : ScopeAct) : Scopes :=
  match s.act? a with
  | .ok s' => s'
  | .error _ => s

/-- The scopes that acts make, one after the other. -/
def made (acts : List ScopeAct) : Scopes := acts.foldl act empty

end Scopes

/-- Lexical environments, each linked to those around it. -/
structure Linked where
  /-- The chain of each frame: the frame itself, then those around it, its root last. -/
  chains : List (List Nat)
  /-- The map of each frame. -/
  maps : Nat → String → Option Symbol

namespace Linked

/-- A new frame starts a chain or goes on with that of its parent; a binding replaces what its frame had
under the name. Where the frame of an act is missing, nothing is done. -/
def act (l : Linked) : ScopeAct → Linked
  | .root => { l with chains := l.chains ++ [[l.chains.length]] }
  | .child parent =>
    match l.chains[parent]? with
    | some chain => { l with chains := l.chains ++ [l.chains.length :: chain] }
    | none => l
  | .bind frame name sym =>
    if frame < l.chains.length then
      { l with maps := fun f x => if f = frame ∧ x = name then some sym else l.maps f x }
    else l

/-- The environments that acts make, one after the other. -/
def made (acts : List ScopeAct) : Linked := acts.foldl act ⟨[], fun _ _ => none⟩

/-- Looks for a name in one map of a chain after the other. What is found is free if it is in the map of
another frame than the one asked. -/
def search (l : Linked) (asked : Nat) (name : String) (chain : List Nat) : Option Resolution :=
  chain.findSome? fun frame => (l.maps frame name).map (⟨frame != asked, ·⟩)

/-- A name as a frame sees it. -/
def find (l : Linked) (frame : Nat) (name : String) : Except Failure (Option Resolution) :=
  match l.chains[frame]? with
  | some chain => .ok (l.search frame name chain)
  | none => .error .unknownFrame

end Linked

/-- Scopes and linked environments that are the same frames, linked and bound alike. -/
structure Represents (s : Scopes) (l : Linked) : Prop where
  size : l.chains.length = s.size
  maps : ∀ frame name, l.maps frame name = s.own frame name
  /-- A chain goes on with the chain of the frame around its first one. -/
  chains : ∀ frame chain, l.chains[frame]? = some chain →
    chain = frame :: ((s.around frame).bind (l.chains[·]?)).getD []

namespace Scopes

variable {s s' : Scopes} {a : ScopeAct} {name : String} {frame : Nat} {sym : Symbol}

theorem root_size : s.root.2.size = s.size + 1 := by simp [root, push, size]

/-- A new root is the last frame. -/
theorem root_frames (i : Nat) :
    s.root.2.frames[i]? = if i = s.size then some ⟨none, []⟩ else s.frames[i]? := by
  change (s.frames ++ [(⟨none, []⟩ : Frame)])[i]? = _
  by_cases hi : i = s.size
  · rw [if_pos hi, hi, size, List.getElem?_concat_length]
  · rw [if_neg hi]
    rcases Nat.lt_or_gt_of_ne hi with hlt | hgt
    · exact List.getElem?_append_left hlt
    · have hbeyond : (s.frames ++ [(⟨none, []⟩ : Frame)]).length ≤ i := by
        rw [List.length_append, List.length_singleton]
        exact hgt
      rw [List.getElem?_eq_none hbeyond, List.getElem?_eq_none (Nat.le_of_lt hgt)]

theorem root_own (i : Nat) (x : String) : s.root.2.own i x = s.own i x := by
  unfold own
  rw [root_frames]
  split
  · rename_i hi
    simp [hi, size, Frame.get?]
  · rfl

theorem root_around (i : Nat) : s.root.2.around i = s.around i := by
  unfold around
  rw [root_frames]
  split
  · rename_i hi
    simp [hi, size]
  · rfl

theorem around_eq_none_of_le (h : s.size ≤ frame) : s.around frame = none := by
  unfold around
  rw [List.getElem?_eq_none h]
  rfl

/-- An act that relies on a frame fails where there is no such frame. -/
theorem act?_error (hframe : a.frame? = some frame) (h : s.size ≤ frame) :
    ∃ e, s.act? a = .error e := by
  cases a with
  | root => cases hframe
  | child parent =>
    cases hframe
    exact ⟨.internal, by simp [act?, child, Nat.not_lt.2 h, Functor.map, Except.map]⟩
  | bind f x b =>
    cases hframe
    exact ⟨.unknownFrame, by simp [act?, bind, Nat.not_lt.2 h]⟩

theorem act_of_missing (hframe : a.frame? = some frame) (h : s.size ≤ frame) : s.act a = s := by
  obtain ⟨e, he⟩ := act?_error hframe h
  rw [act, he]

end Scopes

namespace Represents

variable {s s' : Scopes} {l : Linked} {a : ScopeAct} {name : String} {frame : Nat} {sym : Symbol}
  {chain : List Nat}

theorem chain_of_lt (h : Represents s l) (hlt : frame < s.size) :
    ∃ chain, l.chains[frame]? = some chain :=
  ⟨_, List.getElem?_eq_getElem (h.size ▸ hlt)⟩

theorem lt_of_chain (h : Represents s l) (hchain : l.chains[frame]? = some chain) :
    frame < s.size := by
  obtain ⟨hlt, -⟩ := List.getElem?_eq_some_iff.1 hchain
  exact h.size ▸ hlt

/-- A chain is a single frame, or goes on with another chain. -/
theorem chain_cases (h : Represents s l) (hchain : l.chains[frame]? = some chain) :
    (s.around frame = none ∧ chain = [frame]) ∨
      ∃ p rest, s.around frame = some p ∧ p < frame ∧ l.chains[p]? = some rest ∧
        chain = frame :: rest := by
  have heq := h.chains frame chain hchain
  cases hp : s.around frame with
  | none => exact .inl ⟨rfl, by rw [heq, hp]; rfl⟩
  | some p =>
    have hlt := s.around_lt hp
    obtain ⟨rest, hrest⟩ := h.chain_of_lt (lt_trans hlt (h.lt_of_chain hchain))
    refine .inr ⟨p, rest, rfl, hlt, hrest, ?_⟩
    rw [heq, hp, Option.bind_some, hrest]
    rfl

/-- Along a chain the numbers of the frames fall, so every search comes to an end. -/
theorem chain_falls (h : Represents s l) (hchain : l.chains[frame]? = some chain) :
    chain.Pairwise (· > ·) ∧ ∀ f ∈ chain, f ≤ frame := by
  induction frame using Nat.strongRecOn generalizing chain with
  | ind frame ih =>
    obtain ⟨-, rfl⟩ | ⟨p, rest, -, hlt, hrest, rfl⟩ := h.chain_cases hchain
    · simp
    · obtain ⟨hfalls, hle⟩ := ih p hlt hrest
      refine ⟨List.pairwise_cons.2 ⟨fun f hf => lt_of_le_of_lt (hle f hf) hlt, hfalls⟩, ?_⟩
      intro f hf
      rcases List.mem_cons.1 hf with rfl | hf
      · exact le_rfl
      · exact le_of_lt (lt_of_le_of_lt (hle f hf) hlt)

/-- Further out, a search of frames is the search of a chain in which all is free. -/
theorem search_around (h : Represents s l) {asked : Nat} (hasked : frame < asked)
    (hchain : l.chains[frame]? = some chain) :
    s.search name true frame = l.search asked name chain := by
  induction frame using Nat.strongRecOn generalizing chain with
  | ind frame ih =>
    have hne : (frame != asked) = true := by simpa using Nat.ne_of_lt hasked
    rw [Scopes.search_eq]
    obtain ⟨hp, rfl⟩ | ⟨p, rest, hp, hlt, hrest, rfl⟩ := h.chain_cases hchain
    · rw [Linked.search, List.findSome?_cons, h.maps, hp, hne]
      cases s.own frame name <;> rfl
    · rw [Linked.search, List.findSome?_cons, h.maps, hp, hne]
      cases s.own frame name with
      | some b => rfl
      | none => exact ih p hlt (lt_trans hlt hasked) hrest

theorem search_eq (h : Represents s l) (hchain : l.chains[frame]? = some chain) :
    s.search name false frame = l.search frame name chain := by
  rw [Scopes.search_eq]
  obtain ⟨hp, rfl⟩ | ⟨p, rest, hp, hlt, hrest, rfl⟩ := h.chain_cases hchain
  · rw [Linked.search, List.findSome?_cons, h.maps, hp, bne_self_eq_false]
    cases s.own frame name <;> rfl
  · rw [Linked.search, List.findSome?_cons, h.maps, hp, bne_self_eq_false]
    cases s.own frame name with
    | some b => rfl
    | none => exact h.search_around hlt hrest

theorem find_eq (h : Represents s l) (frame : Nat) (name : String) :
    s.find frame name = l.find frame name := by
  unfold Linked.find
  cases hchain : l.chains[frame]? with
  | some chain => rw [Scopes.find_eq s (h.lt_of_chain hchain), h.search_eq hchain]
  | none =>
    have hlt : ¬ frame < s.size := by
      rw [← h.size]
      exact Nat.not_lt.2 (List.getElem?_eq_none_iff.1 hchain)
    rw [Scopes.find, if_neg hlt]

/-- A frame at the end, which starts a chain or goes on with one. -/
theorem extend (h : Represents s l) (parent? : Option Nat) {rest : List Nat}
    (hsize : s'.size = s.size + 1) (hown : ∀ f x, s'.own f x = s.own f x)
    (haround : ∀ f, s'.around f = if f = s.size then parent? else s.around f)
    (hrest : (parent?.bind (l.chains[·]?)).getD [] = rest) (hparent : ∀ p ∈ parent?, p < s.size) :
    Represents s' { l with chains := l.chains ++ [l.chains.length :: rest] } where
  size := by rw [List.length_append, List.length_singleton, h.size, hsize]
  maps f x := by rw [h.maps, hown]
  chains f c hc := by
    have hin : ∀ p < s.size, (l.chains ++ [l.chains.length :: rest])[p]? = l.chains[p]? :=
      fun p hp => List.getElem?_append_left (h.size ▸ hp)
    rw [haround]
    by_cases hf : f = s.size
    · subst hf
      rw [← h.size, List.getElem?_concat_length] at hc
      cases hc
      rw [if_pos rfl, h.size]
      congr 1
      cases parent? with
      | none => exact hrest.symm
      | some p =>
        rw [Option.bind_some] at hrest ⊢
        rw [← h.size, hin p (hparent p rfl)]
        exact hrest.symm
    · rw [if_neg hf]
      have hlt : f < s.size := by
        have := (List.getElem?_eq_some_iff.1 hc).1
        rw [List.length_append, List.length_singleton, h.size] at this
        omega
      rw [hin f hlt] at hc
      rw [h.chains f c hc]
      cases hp : s.around f with
      | none => rfl
      | some p => simp only [Option.bind_some, hin p (lt_trans (s.around_lt hp) hlt)]

theorem root (h : Represents s l) : Represents (s.act .root) (l.act .root) := by
  refine h.extend none Scopes.root_size Scopes.root_own (fun f => ?_) rfl (by simp)
  rw [show s.act .root = s.root.2 from rfl, Scopes.root_around]
  split
  · rename_i hf
    rw [hf, Scopes.around_eq_none_of_le le_rfl]
  · rfl

theorem child (h : Represents s l) (parent : Nat) :
    Represents (s.act (.child parent)) (l.act (.child parent)) := by
  cases hparent : l.chains[parent]? with
  | none =>
    have hle : s.size ≤ parent := h.size ▸ List.getElem?_eq_none_iff.1 hparent
    rw [Scopes.act_of_missing rfl hle, Linked.act, hparent]
    exact h
  | some rest =>
    have hlt := h.lt_of_chain hparent
    obtain ⟨s', hs'⟩ : ∃ s', s.child parent = .ok (s.size, s') := ⟨_, dif_pos hlt⟩
    have hact : s.act (.child parent) = s' := by rw [Scopes.act, Scopes.act?, hs']; rfl
    rw [hact, Linked.act, hparent]
    refine h.extend (some parent) (Scopes.child_size hs') (Scopes.child_own hs')
      (Scopes.child_around hs') ?_ ?_
    · rw [Option.bind_some, hparent]
      rfl
    · rintro p ⟨⟩
      exact hlt

theorem bind (h : Represents s l) (frame : Nat) (name : String) (sym : Symbol) :
    Represents (s.act (.bind frame name sym)) (l.act (.bind frame name sym)) := by
  by_cases hlt : frame < s.size
  · obtain ⟨s', hs'⟩ : ∃ s', s.bind frame name sym = .ok s' := ⟨_, if_pos hlt⟩
    have hact : s.act (.bind frame name sym) = s' := by rw [Scopes.act, Scopes.act?, hs']
    rw [hact, Linked.act, if_pos (h.size ▸ hlt)]
    exact
      { size := h.size.trans (Scopes.bind_size hs').symm
        maps := fun f x => by
          rw [Scopes.bind_own hs', ← h.maps]
        chains := fun f c hc => by
          rw [Scopes.bind_around hs']
          exact h.chains f c hc }
  · rw [Scopes.act_of_missing rfl (Nat.le_of_not_lt hlt), Linked.act, if_neg (by rwa [h.size])]
    exact h

/-- Each act keeps scopes and linked environments alike. -/
theorem act (h : Represents s l) (a : ScopeAct) : Represents (s.act a) (l.act a) := by
  cases a with
  | root => exact h.root
  | child parent => exact h.child parent
  | bind frame name sym => exact h.bind frame name sym

theorem made (acts : List ScopeAct) : Represents (.made acts) (.made acts) := by
  have hrun : ∀ {s l}, Represents s l →
      Represents (acts.foldl Scopes.act s) (acts.foldl Linked.act l) := by
    induction acts with
    | nil => exact id
    | cons a acts ih => exact fun h => ih (h.act a)
  exact hrun ⟨rfl, fun _ _ => rfl, fun _ _ h => by cases h⟩

end Represents

namespace Linked

variable {l : Linked} {asked frame : Nat} {name x : String} {sym : Symbol} {chain : List Nat}

theorem act_chains : (l.act (.bind frame name sym)).chains = l.chains := by
  unfold act
  dsimp only
  split <;> rfl

/-- A binding changes a search only for its name, and only in a chain in which its frame stands behind
none that binds the name. -/
theorem search_bound (hne : (l.act (.bind frame name sym)).search asked x chain ≠
      l.search asked x chain) :
    x = name ∧ ∃ nearer outer, chain = nearer ++ frame :: outer ∧
      ∀ f ∈ nearer, l.maps f name = none := by
  have hlt : frame < l.chains.length := by
    by_contra hlt
    exact hne (by rw [act, if_neg hlt])
  have hmaps : ∀ f y, (l.act (.bind frame name sym)).maps f y =
      if f = frame ∧ y = name then some sym else l.maps f y := by
    intro f y
    rw [act, if_pos hlt]
  induction chain with
  | nil => exact absurd rfl hne
  | cons f chain ih =>
    -- the search ends at the new binding, at an older one, or goes on as it did before
    by_cases hf : f = frame ∧ x = name
    · obtain ⟨rfl, rfl⟩ := hf
      exact ⟨rfl, [], chain, rfl, by simp⟩
    · simp only [search, List.findSome?_cons, hmaps, if_neg hf] at hne ih
      cases hown : l.maps f x with
      | some b =>
        rw [hown] at hne
        exact absurd rfl hne
      | none =>
        rw [hown] at hne
        obtain ⟨rfl, nearer, outer, rfl, hnearer⟩ := ih hne
        refine ⟨rfl, f :: nearer, outer, rfl, fun g hg => ?_⟩
        rcases List.mem_cons.1 hg with rfl | hg
        · exact hown
        · exact hnearer g hg

end Linked

/-- Whatever was done to scopes: an act on a missing frame fails and has no effect; a frame is younger
than the one around it; a name is found as in the chain of linked environments, along which the numbers
of the frames fall; and to bind a name changes what a frame finds of the same name only, and only if the
frame of the binding stands in its chain behind none that binds the name. -/
theorem find_linked (acts : List ScopeAct) :
    (∀ a frame, a.frame? = some frame → (Scopes.made acts).size ≤ frame →
      (∃ e, (Scopes.made acts).act? a = .error e) ∧ Scopes.made (acts ++ [a]) = .made acts) ∧
    (∀ frame (f : Frame) p, (Scopes.made acts).frames[frame]? = some f → f.parent? = some p →
      p < frame) ∧
    (∀ chain ∈ (Linked.made acts).chains, chain.Pairwise (· > ·)) ∧
    (∀ frame name, (Scopes.made acts).find frame name = (Linked.made acts).find frame name) ∧
    ∀ frame name sym asked x, (Scopes.made (acts ++ [.bind frame name sym])).find asked x ≠
        (Scopes.made acts).find asked x →
      x = name ∧ ∃ nearer outer,
        (Linked.made acts).chains[asked]? = some (nearer ++ frame :: outer) ∧
          ∀ f ∈ nearer, (Linked.made acts).maps f name = none := by
  have h := Represents.made acts
  have hsnoc : ∀ a, Scopes.made (acts ++ [a]) = (Scopes.made acts).act a := fun a => by
    rw [Scopes.made, List.foldl_append]
    rfl
  refine ⟨fun a frame hframe hle => ?_, fun frame f p hf hp => ?_, fun chain hchain => ?_, h.find_eq,
    fun frame name sym asked x hne => ?_⟩
  · rw [hsnoc]
    exact ⟨Scopes.act?_error hframe hle, Scopes.act_of_missing hframe hle⟩
  · exact (Scopes.made acts).parent_lt frame f hf p hp
  · obtain ⟨i, hi⟩ := List.mem_iff_getElem?.1 hchain
    exact (h.chain_falls hi).1
  · rw [hsnoc, (h.bind frame name sym).find_eq, h.find_eq] at hne
    simp only [Linked.find, Linked.act_chains] at hne
    cases hchain : (Linked.made acts).chains[asked]? with
    | none =>
      rw [hchain] at hne
      exact absurd rfl hne
    | some chain =>
      rw [hchain] at hne
      have hsearch : ((Linked.made acts).act (.bind frame name sym)).search asked x chain ≠
          (Linked.made acts).search asked x chain := fun heq => hne (congrArg Except.ok heq)
      obtain ⟨rfl, nearer, outer, rfl, hnearer⟩ := Linked.search_bound hsearch
      exact ⟨rfl, nearer, outer, rfl, hnearer⟩

/-- A frame with two around it, the outermost of which binds a name; a frame is missing. -/
def nestedFrames : List ScopeAct :=
  [.root, .child 0, .child 1, .bind 0 "x" (Flat.fresh 0 "x" .local_), .child 9]

/-- A binding in the middle hides the outermost one, and the innermost frame finds it. -/
theorem nestedFrames_hidden :
    (Scopes.made nestedFrames).find 2 "x" = .ok (some ⟨true, Flat.fresh 0 "x" .local_⟩) ∧
    (Scopes.made (nestedFrames ++ [.bind 1 "x" (Flat.fresh 1 "x" .local_)])).find 2 "x" =
      .ok (some ⟨true, Flat.fresh 1 "x" .local_⟩) ∧
    "x" = "x" ∧ ∃ nearer outer,
      (Linked.made nestedFrames).chains[2]? = some (nearer ++ 1 :: outer) ∧
        ∀ f ∈ nearer, (Linked.made nestedFrames).maps f "x" = none := by
  have hbefore : (Scopes.made nestedFrames).find 2 "x" =
      .ok (some ⟨true, Flat.fresh 0 "x" .local_⟩) := by
    rw [(find_linked nestedFrames).2.2.2.1]
    rfl
  have hbehind : (Scopes.made (nestedFrames ++ [.bind 1 "x" (Flat.fresh 1 "x" .local_)])).find 2 "x" =
      .ok (some ⟨true, Flat.fresh 1 "x" .local_⟩) := by
    rw [(find_linked _).2.2.2.1]
    rfl
  refine ⟨hbefore, hbehind,
    (find_linked nestedFrames).2.2.2.2 1 "x" (Flat.fresh 1 "x" .local_) 2 "x" ?_⟩
  rw [hbefore, hbehind]
  decide

end Hoist.Lowering
