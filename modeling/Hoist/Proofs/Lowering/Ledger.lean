import Hoist.Proofs.Flat.Ownership
import Hoist.Proofs.Flat.Tables
import Hoist.Proofs.Lowering.Aftermath
import Hoist.Proofs.Lowering.Outcomes

/-!
# The books of a run

Each symbol that lowering issues belongs to one lambda at most. On the way it is held: by code that no
lambda has yet, as the name of a lambda to come, or as a parameter to come of the body that pulled it.
The books of a run say so of all symbols issued since they were opened; they are kept whether steps
succeed or fail, and dry runs open books of their own.
-/

namespace Hoist.Lowering

open Hoist.Flat (Symbol Node Location Space Table Lambda tally Issued Owns Part Turn)

/-- What books are opened with: how many symbols were issued before, the lambdas that were defined
before, and which names without a number the lambdas after them may have. -/
structure Books where
  issued : Nat
  lambdas : List Lambda
  plain : Symbol → Prop

/-- Symbols in hand: those that no lambda has yet, and those that the code in hand refers to. -/
@[ext] structure Stock where
  held : List Symbol
  used : List Symbol

namespace Stock

instance : EmptyCollection Stock := ⟨⟨[], []⟩⟩

instance : Append Stock := ⟨fun p q => ⟨p.held ++ q.held, p.used ++ q.used⟩⟩

@[simp, grind =] theorem held_empty : (∅ : Stock).held = [] := rfl

@[simp, grind =] theorem used_empty : (∅ : Stock).used = [] := rfl

@[simp, grind =] theorem held_append (p q : Stock) : (p ++ q).held = p.held ++ q.held := rfl

@[simp, grind =] theorem used_append (p q : Stock) : (p ++ q).used = p.used ++ q.used := rfl

theorem append_assoc (p q r : Stock) : p ++ q ++ r = p ++ (q ++ r) :=
  Stock.ext (by simp) (by simp)

/-- A new symbol. -/
@[grind] def one (a : Symbol) : Stock := ⟨[a], [a]⟩

/-- New symbols. -/
@[grind] def many (as : List Symbol) : Stock := ⟨as, as⟩

/-- A symbol that others may have. -/
@[grind] def seen (a : Symbol) : Stock := ⟨[], [a]⟩

/-- What a node binds and refers to. -/
@[grind] def ofNode (n : Node) : Stock := ⟨n.lets, n.refers⟩

/-- What nodes bind and refer to. -/
@[grind] def ofNodes (ns : List Node) : Stock := ⟨ns.flatMap Node.lets, ns.flatMap Node.refers⟩

/-- A stock that has all that another one has. -/
structure Covers (p q : Stock) : Prop where
  held : ∀ k, tally k q.held ≤ tally k p.held
  used : ∀ a ∈ q.used, a ∈ p.used ∨ a.token = 0

@[grind =] theorem covers_iff {p q : Stock} : p.Covers q ↔
    (∀ k, tally k q.held ≤ tally k p.held) ∧ ∀ a ∈ q.used, a ∈ p.used ∨ a.token = 0 :=
  ⟨fun h => ⟨h.held, h.used⟩, fun h => ⟨h.1, h.2⟩⟩

namespace Covers

variable {p q r : Stock}

theorem refl (p : Stock) : p.Covers p := ⟨fun _ => le_rfl, fun _ => .inl⟩

theorem trans (h : p.Covers q) (h' : q.Covers r) : p.Covers r :=
  ⟨fun k => le_trans (h'.held k) (h.held k), fun a ha => (h'.used a ha).elim (h.used a) .inr⟩

theorem append (h : p.Covers q) (r : Stock) : (p ++ r).Covers (q ++ r) := by
  grind

end Covers

end Stock

/-- No two lambdas have one name. -/
def Unlike (L : List Lambda) : Prop := L.Pairwise fun l m => l.ref.same m.ref = false

/-- A lambda that the books admit. -/
structure Sound (K : Books) (issued : Nat) (l : Lambda) : Prop where
  refers : ∀ a ∈ l.body.refers, a.token ≤ issued
  plain : l.ref.isGenerated = false → K.plain l.ref

/-- The symbols that were issued since the books were opened belong to one lambda each, or are held. -/
structure Kept (K : Books) (s : State) (H : List Symbol) : Prop where
  issued : K.issued ≤ s.issued
  lambdas : ∃ L S, s.table.lambdas = K.lambdas ++ L ∧ Owns L S ∧
    Issued K.issued s.issued (S ++ H) ∧ ∀ l ∈ L, Sound K s.issued l
  unlike : Unlike K.lambdas → Unlike s.table.lambdas

/-- The symbols that a body pulled, which are parameters to come. -/
def Body.pulls (b : Body) : List Symbol := if b.pulling then b.free.map (·.2) else []

/-- The books are kept inside a body, with a stock in hand. -/
structure Ledger (K : Books) (b : Body) (s : State) (p : Stock) : Prop where
  kept : Kept K s (s.body.pulls ++ p.held)
  used : ∀ a ∈ p.used, a.token ≤ s.issued
  binds : s.BindsIssued
  names : s.freeNames.Nodup
  body : SameBody b s.body

section Keeping

variable {K : Books} {b : Body} {s t : State} {H G : List Symbol} {p q : Stock} {a : Symbol}
  {P : List Lambda} {T : List Symbol}

namespace Kept

theorem weaken (h : Kept K s H) (hi : s.issued ≤ t.issued) (ht : t.table = s.table)
    (hG : ∀ k, tally k G ≤ tally k H) : Kept K t G where
  issued := le_trans h.issued hi
  lambdas := by
    obtain ⟨L, S, hL, hS, his, hr⟩ := h.lambdas
    refine ⟨L, S, by rw [ht, hL], hS, his.weaken hi fun k => ?_,
      fun l hl => ⟨fun a ha => le_trans ((hr l hl).refers a ha) hi, (hr l hl).plain⟩⟩
    have := hG k
    simp only [Flat.tally_append]
    omega
  unlike hK := by
    rw [ht]
    exact h.unlike hK

/-- Nothing need be in hand. -/
theorem close (h : Kept K s H) : Kept K s [] := h.weaken le_rfl rfl fun _ => Nat.zero_le _

theorem issuing (h : Kept K s H) (hi : t.issued = s.issued + 1) (ht : t.table = s.table)
    (ha : a.token = s.issued + 1) : Kept K t (a :: H) where
  issued := by
    have := h.issued
    omega
  lambdas := by
    obtain ⟨L, S, hL, hS, his, hr⟩ := h.lambdas
    refine ⟨L, S, by rw [ht, hL], hS, ?_,
      fun l hl => ⟨fun x hx => ?_, (hr l hl).plain⟩⟩
    · rw [hi]
      refine (his.cons h.issued ha).weaken le_rfl fun k => ?_
      simp only [Flat.tally_append, Flat.tally_cons]
      omega
    · have := (hr l hl).refers x hx
      omega
  unlike hK := by
    rw [ht]
    exact h.unlike hK

/-- Lambdas take over symbols that were held. -/
theorem part (h : Kept K s (T ++ H)) (hP : Part P T) (hi : t.issued = s.issued)
    (ht : t.table.lambdas = s.table.lambdas ++ P) (hr : ∀ l ∈ P, Sound K s.issued l)
    (hu : Unlike s.table.lambdas → Unlike t.table.lambdas) : Kept K t H where
  issued := by
    rw [hi]
    exact h.issued
  lambdas := by
    obtain ⟨L, S, hL, hS, his, hrs⟩ := h.lambdas
    refine ⟨L ++ P, S ++ T, by rw [ht, hL, List.append_assoc], hS.snoc hP, ?_, fun l hl => ?_⟩
    · rwa [hi, List.append_assoc]
    · rw [hi]
      exact (List.mem_append.1 hl).elim (hrs l) (hr l)
  unlike hK := hu (h.unlike hK)

/-- What is held was issued, so it has a number. -/
theorem generated (h : Kept K s H) (ha : a ∈ H) : a.isGenerated = true := by
  obtain ⟨L, S, -, -, his, -⟩ := h.lambdas
  exact his.right.generated ha

end Kept

theorem Unlike.defining {l : Lambda} (h : Unlike s.table.lambdas)
    (hc : s.table.contains l.ref = false) : Unlike (s.table.lambdas ++ [l]) :=
  Table.pairwise_of_free h hc

namespace Ledger

theorem of_empty (h : Ledger K b s (∅ ++ p)) : Ledger K b s p := by
  rwa [show ∅ ++ p = p from Stock.ext rfl rfl] at h

theorem cover (h : Ledger K b s p) (hp : p.Covers q) : Ledger K b s q :=
  { h with
    kept := h.kept.weaken le_rfl rfl fun k => by
      have := hp.held k
      simp only [Flat.tally_append]
      omega
    used := fun a ha => (hp.used a ha).elim (h.used a) fun h0 => h0 ▸ Nat.zero_le _ }

theorem issuing (h : Ledger K b s p) (ha : a.token = s.issued + 1) :
    Ledger K b s.issuing (.one a ++ p) where
  kept := by
    refine (h.kept.issuing (t := s.issuing) rfl rfl ha).weaken le_rfl rfl fun k => ?_
    simp only [State.issuing, Stock.held_append, Stock.one, Flat.tally_append, Flat.tally_cons,
      Flat.tally_nil]
    omega
  used x hx := by
    rcases List.mem_append.1 hx with hx | hx
    · obtain rfl := List.mem_singleton.1 hx
      exact le_of_eq ha
    · exact le_trans (h.used x hx) (Nat.le_succ _)
  binds i x c hc := le_trans (h.binds i x c hc) (Nat.le_succ _)
  names := h.names
  body := h.body

/-- A binding of a symbol that was issued. -/
theorem binding {frame : Nat} {x : String} {sc : Scopes} (h : Ledger K b s p)
    (hsc : s.scopes.bind frame x a = .ok sc) (ha : a.token ≤ s.issued) :
    Ledger K b { s with scopes := sc } p :=
  { h with
    kept := h.kept.weaken le_rfl rfl fun _ => le_rfl
    binds := fun i y c hc => by
      rw [Scopes.bind_own hsc] at hc
      split at hc
      · cases hc
        exact ha
      · exact h.binds i y c hc }

/-- A body whose free variables are as they were. -/
theorem modifyBody {g : Body → Body} (h : Ledger K b s p) (hg : ∀ c, SameBody c (g c))
    (hf : ∀ c, (g c).free = c.free) : Ledger K b { s with body := g s.body } p where
  kept := by
    refine h.kept.weaken le_rfl rfl fun k => le_of_eq ?_
    simp only [Body.pulls, hf, (hg s.body).pulling]
  used := h.used
  binds := h.binds
  names := by
    simp only [State.freeNames, hf]
    exact h.names
  body := h.body.trans (hg s.body)

/-- What a body sees was issued. -/
theorem search_le (h : Ledger K b s p) {x : String} {free : Bool} {r : Resolution} :
    ∀ {frame : Nat}, s.scopes.search x free frame = some r → r.sym.token ≤ s.issued := by
  intro frame
  induction frame using Nat.strongRecOn generalizing free with
  | ind frame ih =>
    intro hr
    rw [Scopes.search] at hr
    split at hr
    · cases hr
    · rename_i f hf
      split at hr
      · rename_i sym hsym
        cases hr
        exact h.binds frame x sym (by simp [Scopes.own, hf, hsym])
      · split at hr
        · cases hr
        · rename_i p hp
          exact ih p (s.scopes.parent_lt frame f hf p hp) hr

end Ledger

end Keeping

/-- The step turns one stock into another one that depends on its result; what else is in hand stays
there. When it fails, the books are still kept. -/
def Moves {α : Type} (K : Books) (b : Body) (p : Stock) (x : Lower α) (q : α → Stock) : Prop :=
  ∀ s r, Ledger K b s (p ++ r) → Ends x s (fun a t => Ledger K b t (q a ++ r)) fun _ t => Kept K t []

namespace Moves

variable {α β : Type} {K : Books} {b : Body} {p p' r : Stock} {x y : Lower α} {q q' : α → Stock}
  {f : α → Lower β} {u : β → Stock}

theorem pure {a : α} (h : p.Covers (q a)) : Moves K b p (Pure.pure a) q :=
  fun _ r hl => Ends.pure (hl.cover (h.append r))

theorem throw (e : Failure) : Moves K b p (MonadExcept.throw e : Lower α) q :=
  fun _ _ hl => Ends.throw hl.kept.close

theorem refuse (c : Cause) (l : Option Location) : Moves K b p (Lower.refuse c l : Lower α) q :=
  throw _

theorem ofExcept {v : Except Failure α} (h : ∀ a, v = .ok a → p.Covers (q a)) :
    Moves K b p (Lower.ofExcept v) q :=
  fun _ r hl => Ends.ofExcept (fun a ha => hl.cover ((h a ha).append r)) fun _ _ => hl.kept.close

theorem cover (h : Moves K b p x q) (hp : p'.Covers p) (hq : ∀ a, (q a).Covers (q' a)) :
    Moves K b p' x q' :=
  fun s r hl => (h s r (hl.cover (hp.append r))).imp_good fun a _ ht => ht.cover ((hq a).append r)

theorem bind (hx : Moves K b p x q)
    (hf : ∀ s a t, Yields x s a t → Moves K b (q a) (f a) u) : Moves K b p (x >>= f) u :=
  fun s r hl => (hx s r hl).bind fun a t hy ht => hf s a t hy t r ht

theorem frame (h : Moves K b p x q) (r : Stock) : Moves K b (p ++ r) x fun a => q a ++ r := by
  intro s r' hl
  rw [Stock.append_assoc] at hl
  exact (h s _ hl).imp_good fun a t ht => by rwa [Stock.append_assoc]

/-- A step that takes a part of what is in hand, before one that takes what it gives and the rest. -/
theorem seq (hx : Moves K b p' x q) (rest : Stock) (hp : p.Covers (p' ++ rest))
    (hf : ∀ s a t, Yields x s a t → Moves K b (q a ++ rest) (f a) u) : Moves K b p (x >>= f) u :=
  ((hx.frame rest).cover hp fun _ => .refl _).bind hf

/-- A step that takes nothing of what is in hand. -/
theorem andThen (hx : Moves K b ∅ x q)
    (hf : ∀ s a t, Yields x s a t → Moves K b (q a ++ p) (f a) u) : Moves K b p (x >>= f) u :=
  hx.seq p (by grind) hf

theorem ite {c : Prop} [Decidable c] (hx : c → Moves K b p x q) (hy : ¬ c → Moves K b p y q) :
    Moves K b p (if c then x else y) q := by
  split
  · exact hx ‹_›
  · exact hy ‹_›

/-- What is held has a number. -/
theorem of_held {a : Symbol} (ha : a ∈ p.held) (h : a.isGenerated = true → Moves K b p x q) :
    Moves K b p x q := fun s r hl =>
  h (hl.kept.generated (List.mem_append_right _ (by simp [ha]))) s r hl

/-- What a body is fixed to be stays known when it is looked at. -/
theorem withBody {f : Body → Lower β} (hf : ∀ c, SameBody b c → Moves K b p (f c) u) :
    Moves K b p (Lower.body >>= f) u := fun s r hl => Ends.bodyThen (hf s.body hl.body s r hl)

/-- What is read off the state depends on it. -/
theorem withState {f : State → Lower β}
    (hf : ∀ s r, Ledger K b s (p ++ r) →
      Ends (f s) s (fun a t => Ledger K b t (u a ++ r)) fun _ t => Kept K t []) :
    Moves K b p (MonadState.get >>= f) u := fun s r hl => Ends.getThen (hf s r hl)

theorem modifyBody {g : Body → Body} (hg : ∀ c, SameBody c (g c)) (hf : ∀ c, (g c).free = c.free) :
    Moves K b p (Lower.modifyBody g) fun _ => p := fun _ _ hl => Ends.modifyBody (hl.modifyBody hg hf)

end Moves

end Hoist.Lowering
