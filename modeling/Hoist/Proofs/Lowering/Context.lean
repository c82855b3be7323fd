import Hoist.Proofs.Lowering.Scoped

/-!
# Contexts of states

The code of a body is said in the context of the state it is lowered in. That context is over the
names the body will have captured in the end, so a read, which may pull a name, leaves it as it is; an
assignment binds one more symbol. That the symbol is new is said of the finished table: of the lambdas
named while a step was taken, it holds those that are defined behind the step.
-/

namespace Hoist.Lowering

open Hoist.Flat (Symbol Node Location Space Table Lambda)

/-- A table that grew by lambdas that were not named between two counts. -/
def Grows (a b : Nat) (t u : Table) : Prop :=
  ∃ new, u.lambdas = t.lambdas ++ new ∧ ∀ l ∈ new, l.ref.token ≤ a ∨ b < l.ref.token

namespace Grows

variable {a b : Nat} {t u v : Table}

theorem refl (t : Table) : Grows a b t t := ⟨[], by simp⟩

theorem trans (h : Grows a b t u) (h' : Grows a b u v) : Grows a b t v := by
  obtain ⟨new, hn, hnew⟩ := h
  obtain ⟨more, hm, hmore⟩ := h'
  refine ⟨new ++ more, by rw [hm, hn, List.append_assoc], fun l hl => ?_⟩
  rcases List.mem_append.1 hl with hl | hl
  · exact hnew l hl
  · exact hmore l hl

theorem of_advances {s t : State} (h : Advances s t) (hb : b ≤ s.issued) :
    Grows a b s.table t.table := by
  obtain ⟨new, hn, hlt⟩ := h.lambdas
  exact ⟨new, hn, fun l hl => .inr (lt_of_le_of_lt hb (hlt l hl))⟩

theorem defining {s : State} {env : Env} {l : Lambda} (h : l.ref.token ≤ a ∨ b < l.ref.token) :
    Grows a b s.table (s.defining env l).table :=
  ⟨[l], rfl, by simpa using h⟩

end Grows

/-- A lambda is found by its name, if no other one has it. -/
theorem find_of_mem {T : Table} {l : Lambda}
    (h : T.lambdas.Pairwise fun l m => l.ref.same m.ref = false) (hl : l ∈ T.lambdas) :
    T.find? l.ref = some l := by
  obtain ⟨as, bs, hT⟩ := List.append_of_mem hl
  refine List.find?_eq_some_iff_append.2 ⟨Symbol.same_self _, as, bs, hT, fun m hm => ?_⟩
  rw [hT] at h
  simpa using (List.pairwise_append.1 h).2.2 m hm l (by simp)

/-- Of the lambdas of a finished table, those named between two states are defined behind the later
one. -/
structure Final (T : Table) (s t : State) : Prop where
  sub : ∀ l ∈ t.table.lambdas, l ∈ T.lambdas
  named : ∀ l ∈ T.lambdas, s.issued < l.ref.token → l.ref.token ≤ t.issued → l ∈ t.table.lambdas
  refs_ne : T.lambdas.Pairwise fun l m => l.ref.same m.ref = false

namespace Final

variable {T : Table} {s t u w : State} {a : Symbol} {l : Lambda}

/-- What holds of a step holds of a part of it, even of one in an inner body. -/
theorem narrow (h : Final T s t) (hsu : s.issued ≤ u.issued) (hwt : w.issued ≤ t.issued)
    (hg : Grows u.issued w.issued w.table t.table) : Final T u w := by
  obtain ⟨new, hn, hnew⟩ := hg
  refine ⟨fun l hl => h.sub l (hn ▸ List.mem_append_left _ hl), fun l hl hlt hle => ?_, h.refs_ne⟩
  have hm := h.named l hl (lt_of_le_of_lt hsu hlt) (le_trans hle hwt)
  rw [hn] at hm
  rcases List.mem_append.1 hm with hm | hm
  · exact hm
  · have := hnew l hm
    omega

theorem before (h : Final T s t) (hu : Advances u t) : Final T s u :=
  h.narrow le_rfl hu.issued (.of_advances hu le_rfl)

theorem behind (h : Final T s t) (hu : Advances s u) : Final T u t :=
  h.narrow hu.issued le_rfl (.refl _)

/-- A symbol issued meanwhile is no lambda, unless it became one. -/
theorem not_contains (h : Final T s t) (hlt : s.issued < a.token) (hle : a.token ≤ t.issued)
    (hne : ∀ l ∈ t.table.lambdas, l.ref.token ≠ a.token) : T.contains a = false := by
  rw [Table.contains, List.any_eq_false]
  intro l hl hc
  have hg : a.isGenerated = true := by simp [Symbol.isGenerated]; omega
  rw [Symbol.same_of_generated hg, beq_iff_eq] at hc
  exact hne l (h.named l hl (by omega) (by omega)) hc

theorem find (h : Final T s t) (hl : l ∈ t.table.lambdas) : T.find? l.ref = some l :=
  find_of_mem h.refs_ne (h.sub l hl)

end Final

/-- Names that a body captures in the end, those that it meets between two states among them. -/
structure Caught (F : List (String × Symbol)) (s t : State) : Prop where
  nodup : (F.map (·.1)).Nodup
  sub : ∀ p ∈ t.body.free, p ∈ F
  named : ∀ p ∈ F, s.issued < p.2.token → p.2.token ≤ t.issued → p ∈ t.body.free
  pulling : s.body.pulling = false → F = []

namespace Caught

variable {F : List (String × Symbol)} {s t u w : State} {x : String} {a : Symbol}

/-- What holds up to a state of a body holds up to one before it. -/
theorem earlier (h : Caught F s t) (hw : w.body.pulling = s.body.pulling) (hwt : Advances w t) :
    Caught F s w where
  nodup := h.nodup
  sub p hp := h.sub p (hwt.free_mem hp)
  named p hp hlt hle := by
    cases hpull : s.body.pulling with
    | false => rw [h.pulling hpull] at hp; cases hp
    | true =>
      obtain ⟨new, hn, hnew⟩ := hwt.free
      have hm := h.named p hp hlt (le_trans hle hwt.issued)
      rw [hn] at hm
      rcases List.mem_append.1 hm with hm | hm
      · exact hm
      · have := hnew (hw.trans hpull) p hm
        omega
  pulling := h.pulling

/-- What holds from a state of a body on holds from one behind it on. -/
theorem later (h : Caught F s t) (hle : s.issued ≤ u.issued)
    (hu : u.body.pulling = s.body.pulling) : Caught F u t where
  nodup := h.nodup
  sub := h.sub
  named p hp hlt := h.named p hp (lt_of_le_of_lt hle hlt)
  pulling hp := h.pulling (hu ▸ hp)

theorem before (h : Caught F s t) (hs : Advances s u) (hu : Advances u t) : Caught F s u :=
  h.earlier hs.body.pulling hu

theorem behind (h : Caught F s t) (hu : Advances s u) : Caught F u t :=
  h.later hu.issued hu.body.pulling

/-- A captured name has one symbol. -/
theorem lookup (h : Caught F s t) (hm : (x, a) ∈ F) : F.lookup x = some a := by
  obtain ⟨l₁, l₂, rfl⟩ := List.append_of_mem hm
  refine List.lookup_eq_some_iff.2 ⟨l₁, l₂, rfl, fun p hp => ?_⟩
  have hn := h.nodup
  rw [List.map_append, List.nodup_append] at hn
  have := hn.2.2 p.1 (List.mem_map_of_mem hp) x (by simp)
  simpa using Ne.symm this

end Caught

/-- Symbols that were issued before a state, or that captured names have. -/
def Bounded (B : List Symbol) (F : List (String × Symbol)) (s : State) : Prop :=
  ∀ b ∈ B, b ∈ F.map (·.2) ∨ b.token ≤ s.issued

/-- The lambdas that were defined between two states. -/
def Adds (s t : State) (L : List Made) : Prop :=
  t.table.lambdas = s.table.lambdas ++ L.map (·.lambda)

namespace Adds

variable {s t u : State} {L M : List Made}

theorem of_eq (h : t.table = s.table) : Adds s t [] := by
  simp [Adds, h]

theorem trans (h : Adds s t L) (h' : Adds t u M) : Adds s u (L ++ M) := by
  unfold Adds at h h' ⊢
  rw [h', h, List.map_append, List.append_assoc]

end Adds

/-- The context of a state, over the names that its body captures in the end. -/
def State.ctx (s : State) (F : List (String × Symbol)) (B : List Symbol) : Ctx :=
  ⟨s.visible, fun x => (s.own x).or (F.lookup x), B⟩

/-- A step that emits code: what it yields is related to the lambdas that it defines and to the contexts
around it. -/
def Emits {α : Type} (T : Table) (x : Lower α) (P : Ctx → α → List Made → Ctx → Prop) : Prop :=
  ∀ ⦃s a t F B⦄, Valid s → s.body.topLevel = false → Yields x s a t → Final T s t →
    Caught F s t → Bounded B F s →
      ∃ L B', Adds s t L ∧ Bounded B' F t ∧ P (s.ctx F B) a L (t.ctx F B')

section Reading

variable {F : List (String × Symbol)} {B : List Symbol} {s t : State} {x : String}
  {loc : Option Location} {n : Node} {xs : List String} {ns : List Node}

theorem Bounded.advance (h : Bounded B F s) (ht : s.issued ≤ t.issued) : Bounded B F t :=
  fun b hb => (h b hb).imp_right fun hle => le_trans hle ht

/-- Reads leave the context as it is. -/
theorem Reads.ctx_eq (hs : Valid s) (h : Reads xs s t) (hF : Caught F s t) :
    t.ctx F B = s.ctx F B := by
  unfold State.ctx
  rw [h.visible hs]
  congr 1
  funext y
  cases ht : t.own y with
  | some a =>
    rcases h.pulled y a ht with ho | ⟨ho, hm⟩
    · rw [ho]
    · rw [ho, Option.some_or, Option.none_or, hF.lookup (hF.sub _ hm)]
  | none =>
    cases ho : s.own y with
    | none => rfl
    | some a =>
      have := h.advances.own y (by simp [ho])
      simp [ht] at this

theorem Read.symbol (hF : Caught F s t) (h : Read x loc s n t) :
    ∃ a, (s.ctx F B).symbol x = some a ∧ n = .ref loc a := by
  unfold Ctx.symbol State.ctx State.visible
  simp only
  rw [State.sees_eq]
  cases h with
  | unbound hown hout => exact ⟨_, by simp [hown, hout], rfl⟩
  | own hown => exact ⟨_, by simp [hown], rfl⟩
  | @pulled a sc hown hout hp ha hsc =>
    have hl := hF.lookup (hF.sub (x, a) (by simp))
    exact ⟨a, by simp [hown, hout, hl], rfl⟩
  | known hown hout hp hmem =>
    have := hF.sub _ hmem
    rw [hF.pulling hp] at this
    cases this
  | @noted a hown hout hp hmem =>
    have := hF.sub (x, a) (by simp)
    rw [hF.pulling hp] at this
    cases this

theorem readName_code (hs : Valid s) (hF : Caught F s t)
    (h : Yields (Lower.readName x loc) s n t) :
    ∃ a, (s.ctx F B).symbol x = some a ∧ n = .ref loc a := (read_of_readName hs h).symbol hF

/-- A name that was just read is read by the symbol it is bound to. -/
theorem Read.sees {a : Symbol} (h : Read x loc s n t) (ha : t.sees x = some a) :
    n = .ref loc a := by
  rw [State.sees_eq] at ha
  cases h with
  | unbound hown hout => simp [hown, hout] at ha
  | own hown =>
    rw [hown, Option.some_or] at ha
    cases ha
    rfl
  | @pulled b sc hown hout hp hb hsc =>
    change (((s.withScopes sc).noted x b).own x).or _ = some a at ha
    rw [pulled_own hsc, if_pos rfl, Option.some_or] at ha
    cases ha
    rfl
  | known hown hout hp hmem =>
    rw [hown, hout, Option.none_or] at ha
    cases ha
    rfl
  | @noted b hown hout hp hmem =>
    change (s.own x).or (s.outer x) = some a at ha
    rw [hown, hout, Option.none_or] at ha
    cases ha
    rfl

theorem readNames_code (hs : Valid s) (hF : Caught F s t)
    (h : Yields (Lower.readNames loc xs) s ns t) (hv : ∀ x ∈ xs, s.visible x = true) :
    ∃ syms, (s.ctx F B).Have xs syms ∧ ns = syms.map (.ref loc) := by
  induction xs generalizing s ns with
  | nil =>
    obtain ⟨rfl, -⟩ := Yields.pure_iff.1 h
    exact ⟨[], ⟨by simp, rfl⟩, rfl⟩
  | cons x xs ih =>
    simp only [Lower.readNames, Yields.bind_iff, Yields.pure_iff] at h
    obtain ⟨n, u, hx, ms, v, hxs, rfl, rfl⟩ := h
    have h₁ := readName_reads hs hx
    have h₂ := readNames_reads h₁.valid hxs
    have hF₁ := hF.before h₁.advances h₂.advances
    obtain ⟨a, ha, rfl⟩ := readName_code (B := B) hs hF₁ hx
    obtain ⟨syms, hsyms, rfl⟩ := ih h₁.valid (hF.behind h₁.advances) hxs fun y hy => by
      rw [h₁.visible hs]
      exact hv y (List.mem_cons_of_mem _ hy)
    rw [h₁.ctx_eq hs hF₁] at hsyms
    have hvx := hv x (by simp)
    have hsym : (s.ctx F B).sym x = some a := by
      rw [← ha, Ctx.symbol, if_pos]
      exact hvx
    exact ⟨a :: syms, ⟨hv, by simp [hsym, hsyms.syms]⟩, rfl⟩

end Reading

section Assigning

variable {T : Table} {F : List (String × Symbol)} {B : List Symbol} {s t : State} {x : String}
  {loc : Option Location} {value : Node} {a : Symbol} {xs : List String} {items : List Item}

/-- The next symbol is new to the table and to what the lambda binds. -/
theorem fresh_of_next (hs : Valid s) (hT : Final T s t) (hF : Caught F s t) (hB : Bounded B F s)
    (ha : a.token = s.issued + 1) (hi : t.issued = s.issued + 1) (ht : t.table = s.table)
    (hf : t.body.free = s.body.free) : Fresh T B a where
  generated := by simp [Symbol.isGenerated, ha]
  table := by
    refine hT.not_contains (by omega) (by omega) fun l hl => ?_
    have := hs.refs_le l (ht ▸ hl)
    omega
  bound b hb he := by
    rcases hB b hb with hm | hle
    · obtain ⟨p, hp, rfl⟩ := List.mem_map.1 hm
      have hp' := hF.named p hp (by omega) (by omega)
      have := hs.free_le p (hf ▸ hp')
      omega
    · omega

theorem Bounded.snoc (hB : Bounded B F s) (ha : a.token = s.issued + 1)
    (hi : t.issued = s.issued + 1) : Bounded (B ++ [a]) F t := by
  intro b hb
  rcases List.mem_append.1 hb with hb | hb
  · exact (hB.advance (by omega)) b hb
  · obtain rfl := List.mem_singleton.1 hb
    exact .inr (by omega)

/-- A symbol that is bound to no name. -/
theorem issue_code (hs : Valid s) (ha : a.token = s.issued + 1) (hT : Final T s s.issuing)
    (hF : Caught F s s.issuing) (hB : Bounded B F s) :
    Fresh T B a ∧ Bounded (B ++ [a]) F s.issuing ∧
      s.issuing.ctx F (B ++ [a]) = (s.ctx F B).hide a :=
  ⟨fresh_of_next hs hT hF hB ha rfl rfl rfl, hB.snoc ha rfl, rfl⟩

/-- A name is bound to a new symbol. -/
theorem binding_ctx {d : List String} (hs : Valid s) (he : Effect [] [x] d false s t)
    (hown : ∀ y, t.own y = if y = x then some a else s.own y) :
    t.ctx F (B ++ [a]) = (s.ctx F B).bind x a := by
  unfold State.ctx Ctx.bind
  congr 1
  · funext y
    have := he.visible hs y
    rw [Bool.eq_iff_iff, this]
    simp [or_comm]
  · funext y
    rw [hown]
    split <;> simp_all

theorem bindFresh_code (hs : Valid s) (h : Yields (Lower.bindFresh x) s a t) (hT : Final T s t)
    (hF : Caught F s t) (hB : Bounded B F s) :
    Fresh T B a ∧ Bounded (B ++ [a]) F t ∧ t.ctx F (B ++ [a]) = (s.ctx F B).bind x a := by
  have he := bindFresh_effect hs h
  obtain ⟨rfl, sc, hsc, rfl⟩ := bindFresh_iff.1 h
  exact ⟨fresh_of_next hs hT hF hB rfl rfl rfl rfl, hB.snoc rfl rfl,
    binding_ctx hs he (withScopes_own hsc)⟩

theorem assign_code {i : Item} (hs : Valid s) (h : Yields (Lower.assign x value loc) s i t)
    (hT : Final T s t) (hF : Caught F s t) (hB : Bounded B F s) :
    ∃ a, i = .assign ⟨a, value, loc⟩ ∧ Fresh T B a ∧ Bounded (B ++ [a]) F t ∧
      t.ctx F (B ++ [a]) = (s.ctx F B).bind x a := by
  have he := assign_effect hs h
  obtain ⟨a, sc, rfl, hsc, rfl, rfl⟩ := assign_iff.1 h
  exact ⟨_, rfl, fresh_of_next hs hT hF hB rfl rfl rfl rfl, hB.snoc rfl rfl,
    binding_ctx hs he (withScopes_own hsc)⟩

theorem assign_table {i : Item} (h : Yields (Lower.assign x value loc) s i t) :
    t.table = s.table := by
  obtain ⟨a, sc, -, -, -, rfl⟩ := assign_iff.1 h
  rfl

theorem assignItems_table {tuple : Symbol} {i : Nat}
    (h : Yields (Lower.assignItems tuple loc i xs) s items t) : t.table = s.table := by
  induction xs generalizing s i items with
  | nil =>
    obtain ⟨-, rfl⟩ := Yields.pure_iff.1 h
    rfl
  | cons x xs ih =>
    simp only [Lower.assignItems, Yields.bind_iff, Yields.pure_iff] at h
    obtain ⟨item, u, hx, is, v, hxs, -, rfl⟩ := h
    rw [ih hxs, assign_table hx]

theorem assignAll_table (h : Yields (Lower.assignAll xs value loc) s items t) :
    t.table = s.table := by
  simp only [Lower.assignAll, Yields.bind_iff, Yields.issue_iff, Yields.pure_iff] at h
  obtain ⟨_, _, ⟨-, rfl⟩, is, _, h', -, rfl⟩ := h
  exact (assignItems_table h' :)

theorem assignItems_code {tuple : Symbol} {i : Nat} (hs : Valid s)
    (h : Yields (Lower.assignItems tuple loc i xs) s items t) (hT : Final T s t)
    (hF : Caught F s t) (hB : Bounded B F s) : t.table = s.table ∧
      ∃ B', Bounded B' F t ∧ Unpacks T tuple i (s.ctx F B) xs items (t.ctx F B') := by
  induction xs generalizing s i B items with
  | nil =>
    obtain ⟨rfl, rfl⟩ := Yields.pure_iff.1 h
    exact ⟨rfl, B, hB, .nil⟩
  | cons x xs ih =>
    simp only [Lower.assignItems, Yields.bind_iff, Yields.pure_iff] at h
    obtain ⟨item, u, hx, is, v, hxs, rfl, rfl⟩ := h
    have h₁ := assign_effect hs hx
    have h₂ := assignItems_effect h₁.valid hxs
    obtain ⟨a, rfl, ha, hB', hctx⟩ := assign_code hs hx (hT.before h₂.advances)
      (hF.before h₁.advances h₂.advances) hB
    obtain ⟨htable, B'', hB'', hu⟩ := ih h₁.valid hxs (hT.behind h₁.advances)
      (hF.behind h₁.advances) hB'
    rw [hctx] at hu
    exact ⟨htable.trans (assign_table hx), B'', hB'', .cons ha hu⟩

theorem assignAll_code (hs : Valid s) (h : Yields (Lower.assignAll xs value loc) s items t)
    (hT : Final T s t) (hF : Caught F s t) (hB : Bounded B F s) : t.table = s.table ∧
      ∃ B', Bounded B' F t ∧ Unpacked T (s.ctx F B) xs value items (t.ctx F B') := by
  simp only [Lower.assignAll, Yields.bind_iff, Yields.issue_iff, Yields.pure_iff] at h
  obtain ⟨tmp, _, ⟨htmp, rfl⟩, is, _, h, rfl, rfl⟩ := h
  have h₁ := issued_reads hs
  have h₂ := assignItems_effect h₁.valid h
  obtain ⟨ha, hB', hctx⟩ := issue_code (a := tmp) hs (by rw [← htmp]; rfl) (hT.before h₂.advances)
    (hF.before h₁.advances h₂.advances) hB
  obtain ⟨htable, B'', hB'', hu⟩ := assignItems_code h₁.valid h (hT.behind h₁.advances)
    (hF.behind h₁.advances) hB'
  rw [hctx] at hu
  exact ⟨htable, B'', hB'', .mk ha hu⟩

/-- What a conditional yields is bound to the names that its branches assign. -/
theorem bindResults_code (hs : Valid s) (h : Yields (Lower.bindResults false xs value loc) s items t)
    (hT : Final T s t) (hF : Caught F s t) (hB : Bounded B F s) : t.table = s.table ∧
      ∃ B', Bounded B' F t ∧ Results T (s.ctx F B) value xs items (t.ctx F B') := by
  simp only [Lower.bindResults, Bool.false_eq_true, if_false] at h
  split at h
  · simp only [Yields.bind_iff, Yields.issue_iff, Yields.pure_iff] at h
    obtain ⟨tmp, _, ⟨htmp, rfl⟩, rfl, rfl⟩ := h
    obtain ⟨ha, hB', hctx⟩ := issue_code (a := tmp) hs (by rw [← htmp]; rfl) hT hF hB
    exact ⟨rfl, _, hB', hctx ▸ .nil ha⟩
  · simp only [Yields.bind_iff, Yields.pure_iff] at h
    obtain ⟨i, _, hx, rfl, rfl⟩ := h
    obtain ⟨a, rfl, ha, hB', hctx⟩ := assign_code hs hx hT hF hB
    exact ⟨assign_table hx, _, hB', hctx ▸ .one ha⟩
  · rename_i hnil hone
    obtain ⟨htable, B', hB', hu⟩ := assignAll_code hs h hT hF hB
    refine ⟨htable, B', hB', .many ?_ hu⟩
    rcases xs with - | ⟨x, - | ⟨y, xs⟩⟩
    · exact absurd rfl hnil
    · exact absurd rfl (hone x)
    · simp

end Assigning

section Starting

variable {T : Table} {F : List (String × Symbol)} {B formals : List Symbol} {s t u v w : State}
  {xs : List String}

/-- Parameters on their way into a frame: new symbols, the later one of a name over an earlier one. -/
structure Binds (xs : List String) (formals : List Symbol) (u v : State) : Prop where
  length : xs.length = formals.length
  issued : u.issued ≤ v.issued
  named : ∀ a ∈ formals, u.issued < a.token ∧ a.token ≤ v.issued
  distinct : formals.Pairwise fun a b => a.token ≠ b.token
  own : ∀ y, v.own y = ((paramBindings xs formals).lookup y).or (u.own y)
  outer : ∀ y, v.outer y = u.outer y
  table : v.table = u.table
  body : v.body = u.body

theorem bindFreshAll_code (h : Yields (Lower.bindFreshAll xs) u formals v) :
    Binds xs formals u v := by
  induction xs generalizing u formals with
  | nil =>
    obtain ⟨rfl, rfl⟩ := Yields.pure_iff.1 h
    exact ⟨rfl, le_rfl, by simp, .nil, fun _ => rfl, fun _ => rfl, rfl, rfl⟩
  | cons x xs ih =>
    simp only [Lower.bindFreshAll, Yields.bind_iff, Yields.pure_iff] at h
    obtain ⟨a, _, hx, as, w, hxs, rfl, rfl⟩ := h
    obtain ⟨rfl, sc, hsc, rfl⟩ := bindFresh_iff.1 hx
    have hb := ih hxs
    have hle : u.issued + 1 ≤ w.issued := hb.issued
    have hlt : ∀ a ∈ as, u.issued + 1 < a.token ∧ a.token ≤ w.issued := hb.named
    refine
      { length := by simp [hb.length]
        issued := by omega
        named := ?_
        distinct := List.pairwise_cons.2 ⟨fun b hm => ?_, hb.distinct⟩
        own := fun y => ?_
        outer := fun y => (hb.outer y).trans (withScopes_outer hsc y)
        table := hb.table
        body := hb.body }
    · intro b hm
      rcases List.mem_cons.1 hm with rfl | hm
      · simp only [Flat.fresh]
        omega
      · have := hlt b hm
        omega
    · have := hlt b hm
      simp only [Flat.fresh]
      omega
    · rw [hb.own, withScopes_own hsc]
      simp only [paramBindings, List.zip_cons_cons, List.reverse_cons, List.lookup_append,
        Option.or_assoc]
      congr 1
      by_cases hy : y = x
      · simp [hy]
      · have : (y == x) = false := by simpa using hy
        simp [hy, List.lookup_cons, this]

/-- The parameters of a body that has come to its end, behind the names it captured. -/
theorem Binds.params (h : Binds xs formals u v) (hu : Valid u) (hfree : u.body.free = [])
    (hw : Valid w) (hvw : Advances v w) (hT : Final T u w)
    (hpull : u.body.pulling = false → w.body.free = []) :
    Formals T (w.body.free.map (·.2) ++ formals) := by
  have hfrees : ∀ p ∈ w.body.free, w.body.pulling = true ∧ v.issued < p.2.token := by
    intro p hp
    cases hb : u.body.pulling with
    | false => rw [hpull hb] at hp; cases hp
    | true =>
      have hv' : v.body.pulling = true := by rw [h.body, hb]
      obtain ⟨new, hn, hnew⟩ := hvw.free
      rw [hn, h.body, hfree, List.nil_append] at hp
      exact ⟨hvw.body.pulling.trans hv', hnew hv' p hp⟩
  have hle := hvw.issued
  have hissued := h.issued
  refine ⟨fun a ha => ?_, fun a ha => ?_, List.pairwise_append.2 ⟨?_, h.distinct, ?_⟩⟩
  · rcases List.mem_append.1 ha with ha | ha
    · obtain ⟨p, hp, rfl⟩ := List.mem_map.1 ha
      exact (hw.free_refs (hfrees p hp).1 p hp).1
    · have := h.named a ha
      simp [Symbol.isGenerated]
      omega
  · rcases List.mem_append.1 ha with ha | ha
    · obtain ⟨p, hp, rfl⟩ := List.mem_map.1 ha
      have := (hfrees p hp).2
      exact hT.not_contains (by omega) (hw.free_le p hp) (hw.free_refs (hfrees p hp).1 p hp).2
    · have hnamed := h.named a ha
      refine hT.not_contains hnamed.1 (by omega) fun l hl he => ?_
      have hl' := hvw.lambda_of_le hl (by omega)
      have := hu.refs_le l (h.table ▸ hl')
      omega
  · rw [List.pairwise_map]
    cases hb : w.body.pulling with
    | true => exact hw.free_ne hb
    | false =>
      have : w.body.free = [] := hpull (by rw [← h.body, ← hvw.body.pulling, hb])
      rw [this]
      exact .nil
  · intro a ha b hb
    obtain ⟨p, hp, rfl⟩ := List.mem_map.1 ha
    have h₁ := (hfrees p hp).2
    have h₂ := h.named b hb
    omega

end Starting

end Hoist.Lowering
