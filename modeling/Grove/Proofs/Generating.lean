import Grove.Generation
import Grove.Proofs.Drawing
import Grove.Proofs.Regrowing

/-! Grown terms. What a generator grows does not depend on what else stands in the forest, so it is described as a
term. The term is well typed, stands where its type is required, reads declared variables only and is as high as the
budget at most, whatever is drawn; only the literals have to be of the base asked for. -/

namespace Grove

/-- The term may stand where the type is required in a tree with the signature, and is within the height. -/
structure Term.For (sig : Signature) (height : Nat) (ty : Ty) (e : Term) : Prop where
  wellTyped : e.WellTyped
  declared : ∀ n ∈ e.nodes, n.fits sig = true
  accepted : ty.accepts e.returns = true
  low : e.height ≤ height

/-- A node made from a prototype is that prototype, or a constant with another value of the same base. -/
inductive Node.MadeFrom : Node → Node → Prop
  | same (n : Node) : MadeFrom n n
  | literal {v w : Value} (h : w.base = v.base) : MadeFrom (.const w) (.const v)

/-- Every node of the term is made from a prototype. -/
def Term.MadeFrom (c : NodeCatalog) (e : Term) : Prop := ∀ n ∈ e.nodes, ∃ p ∈ c.nodes, n.MadeFrom p

variable {σ α : Type} {broken : Violation → Prop} {refused : Error → Prop}

namespace Term

/-- A term that is refused unless a slot of the type accepts it. -/
def fitted (ty : Ty) (x : Attempt σ Term) : Attempt σ Term := do
  let t ← x
  checkSlot ty t.returns
  return t

/-- Terms for the last `left` slots of a node, grown one after the other. -/
def fillSlots (n : Node) (child : Nat → Attempt σ Term) : (left : Nat) → Attempt σ {ts : List Term // ts.length = left}
  | 0 => return ⟨[], List.length_nil⟩
  | left + 1 => do
    let slot := n.arity - (left + 1)
    let t ← fitted (n.slotType slot) (child slot)
    let ts ← fillSlots n child left
    return ⟨t :: ts.val, by rw [List.length_cons, ts.property]⟩

/-- A node over terms grown for its slots. -/
def fill (n : Node) (child : Nat → Attempt σ Term) : Attempt σ Term := do
  let ts ← fillSlots n child n.arity
  return .ofList n ts.val ts.property

variable {n : Node} {child : Nat → Attempt σ Term} {P : Nat → Term → Prop}

theorem fitted_settles {x : Attempt σ Term} {ty : Ty} {Q : Term → Prop} (hx : Settles broken refused x Q)
    (hr : ∀ t e, Q t → checkSlot ty t.returns = .error e → refused e) :
    Settles broken refused (fitted ty x) fun t => ty.accepts t.returns = true ∧ Q t := by
  refine hx.bind fun t ht => ?_
  refine Settles.bind (P := fun _ => ty.accepts t.returns = true) (.ofResult ?_) fun _ ha => .pure ⟨ha, ht⟩
  cases hc : checkSlot ty t.returns with
  | ok u => exact checkSlot_ok.1 hc
  | error e => exact hr t e ht hc

theorem fillSlots_settles (hc : ∀ slot < n.arity, Settles broken refused (child slot) (P slot))
    (hr : ∀ slot t e, P slot t → checkSlot (n.slotType slot) t.returns = .error e → refused e) {left : Nat}
    (hl : left ≤ n.arity) : Settles broken refused (fillSlots n child left) fun ts => ∀ j, (h : j < ts.val.length) →
      (n.slotType (n.arity - left + j)).accepts ts.val[j].returns = true ∧ P (n.arity - left + j) ts.val[j] := by
  induction left with
  | zero => exact .pure fun j h => absurd h (Nat.not_lt_zero j)
  | succ left ih =>
    refine (fitted_settles (hc _ (by omega)) (hr _)).bind fun t ht => ?_
    refine (ih (Nat.le_of_succ_le hl)).bind fun ts hts => .pure ?_
    rintro (_ | j) h
    · exact ht
    · have := hts j (Nat.lt_of_succ_lt_succ h)
      rwa [show n.arity - (left + 1) + (j + 1) = n.arity - left + j by omega]

theorem fill_settles (hc : ∀ slot < n.arity, Settles broken refused (child slot) (P slot))
    (hr : ∀ slot t e, P slot t → checkSlot (n.slotType slot) t.returns = .error e → refused e) :
    Settles broken refused (fill n child) fun e => ∃ kids, e = .node n kids ∧
      ∀ slot : Fin n.arity, (n.slotType slot).accepts (kids slot).returns = true ∧ P slot (kids slot) := by
  refine (fillSlots_settles hc hr (Nat.le_refl _)).bind fun ts hts => .pure ⟨_, rfl, fun slot => ?_⟩
  have := hts slot (Nat.lt_of_lt_of_eq slot.isLt ts.property.symm)
  rwa [Nat.sub_self, Nat.zero_add] at this

theorem For.node {sig : Signature} {height : Nat} {ty : Ty} {kids : Fin n.arity → Term}
    (ha : ty.accepts n.returns = true)
    (hf : n.fits sig = true) (hk : ∀ slot, (kids slot).For sig height (n.slotType slot)) :
    (Term.node n kids).For sig (height + 1) ty where
  wellTyped slot := ⟨(hk slot).accepted, (hk slot).wellTyped⟩
  declared m hm := by
    simp only [Term.nodes, List.mem_cons, List.mem_flatten, List.mem_ofFn] at hm
    rcases hm with rfl | ⟨_, ⟨slot, rfl⟩, hm⟩
    · exact hf
    · exact (hk slot).declared m hm
  accepted := ha
  low := Term.height_le_iff.2 fun slot => Nat.succ_le_succ (hk slot).low

theorem For.leaf {sig : Signature} {ty : Ty} {kids : Fin n.arity → Term} (ha : ty.accepts n.returns = true)
    (hf : n.fits sig = true) (hn : n.arity = 0) : (Term.node n kids).For sig 0 ty where
  wellTyped slot := (Fin.cast hn slot).elim0
  declared m hm := by
    simp only [Term.nodes, List.mem_cons, List.mem_flatten, List.mem_ofFn] at hm
    rcases hm with rfl | ⟨_, ⟨slot, rfl⟩, -⟩
    · exact hf
    · exact (Fin.cast hn slot).elim0
  accepted := ha
  low := Term.height_le_iff.2 fun slot => (Fin.cast hn slot).elim0

theorem MadeFrom.node {c : NodeCatalog} {kids : Fin n.arity → Term} (hn : ∃ p ∈ c.nodes, n.MadeFrom p)
    (hk : ∀ slot, (kids slot).MadeFrom c) : (Term.node n kids).MadeFrom c := by
  intro m hm
  simp only [Term.nodes, List.mem_cons, List.mem_flatten, List.mem_ofFn] at hm
  rcases hm with rfl | ⟨_, ⟨slot, rfl⟩, hm⟩
  · exact hn
  · exact hk slot m hm

end Term

namespace Node.MadeFrom

variable {n p : Node} (h : n.MadeFrom p)
include h

theorem returns : n.returns = p.returns := by
  cases h with
  | same => rfl
  | literal h => rw [Node.returns, Node.returns, h]

theorem arity : n.arity = p.arity := by
  cases h <;> rfl

theorem slotType (slot : Nat) : n.slotType slot = p.slotType slot := by
  cases h <;> rfl

theorem fits (sig : Signature) : n.fits sig = p.fits sig := by
  cases h <;> rfl

end Node.MadeFrom

theorem Node.fits_of_inner {n : Node} (h : n.isLeaf = false) (sig : Signature) : n.fits sig = true := by
  cases n <;> first | rfl | cases h

theorem GrowthMethod.mem_narrow {method : GrowthMethod} {n : Node} {candidates : List Node}
    (h : n ∈ method.narrow candidates) : n ∈ candidates := by
  cases method with
  | grow => exact h
  | full =>
    unfold narrow at h
    dsimp only at h
    split at h
    · exact h
    · exact (List.mem_filter.1 h).1

theorem GrowthMethod.narrow_eq_nil {method : GrowthMethod} {candidates : List Node} :
    method.narrow candidates = [] ↔ candidates = [] := by
  refine ⟨fun h => ?_, fun h => ?_⟩
  · cases method with
    | grow => exact h
    | full =>
      unfold narrow at h
      dsimp only at h
      split at h
      · exact h
      · rename_i hinner
        exact absurd (List.isEmpty_iff.2 h) hinner
  · subst h
    cases method <;> rfl

namespace NodeCatalog

variable {c : NodeCatalog} {sig : Signature} {n : Node} {ty : Ty} {leafOnly : Bool}

theorem mem_leaves : n ∈ c.leaves sig ↔ n ∈ c.nodes ∧ n.isLeaf = true ∧ n.fits sig = true := by
  rw [leaves, List.mem_filter, Bool.and_eq_true]

theorem mem_candidates : n ∈ c.candidates sig ty leafOnly ↔ n ∈ c.nodes ∧ ty.accepts n.returns = true ∧
    (n.isLeaf = true ∧ n.fits sig = true ∨ n.isLeaf = false ∧ leafOnly = false ∧
      ∀ slot < n.arity, ∃ l ∈ c.leaves sig, (n.slotType slot).accepts l.returns = true) := by
  unfold candidates
  rw [List.mem_filter, Node.isCandidate, Bool.and_eq_true]
  cases n.isLeaf <;> simp

theorem candidates_ne_nil {l : Node} (hl : l ∈ c.leaves sig) (ha : ty.accepts l.returns = true) (leafOnly : Bool) :
    c.candidates sig ty leafOnly ≠ [] := by
  obtain ⟨hmem, hleaf, hfits⟩ := mem_leaves.1 hl
  exact List.ne_nil_of_mem (mem_candidates.2 ⟨hmem, ha, .inl ⟨hleaf, hfits⟩⟩)

end NodeCatalog

theorem Tree.within_planted {sig : Signature} {height : Nat} {e : Term} (h : e.For sig height sig.returns) :
    (Tree.planted sig e).Within sig height := by
  have hs := Term.within_subtree h.wellTyped h.declared h.low
  refine within_iff.2 ⟨e.subtree.root, ⟨rfl, hs.whole, fun n hn => ?_⟩, rfl, hs.declared, hs.shallow⟩
  obtain rfl := Option.some.inj (e.label_subtree.symm.trans hn)
  exact h.accepted

namespace Generator

variable (g : Generator σ) (sig : Signature)

/-- A position is refused for want of a candidate. -/
def Lacks (budget : Nat) (ty : Ty) (e : Error) : Prop :=
  g.catalog.candidates sig ty (budget = 0) = [] ∧ e = .noCandidate ty (budget = 0)

/-- What a position asks of a node that is drawn for it: with nothing left of the budget it must not have slots, and
each slot that it has must have candidates. -/
structure Drawn (budget : Nat) (ty : Ty) (n : Node) : Prop where
  accepted : ty.accepts n.returns = true
  declared : n.fits sig = true
  made : ∃ p ∈ g.catalog.nodes, n.MadeFrom p
  leaf : budget = 0 → n.arity = 0
  closed : ∀ slot < n.arity, ∀ leafOnly, g.catalog.candidates sig (n.slotType slot) leafOnly ≠ []

variable {g sig} in
theorem drawn_of_candidate {budget : Nat} {ty : Ty} {n p : Node}
    (hp : p ∈ g.catalog.candidates sig ty (budget = 0)) (hn : n.MadeFrom p) : g.Drawn sig budget ty n := by
  obtain ⟨hmem, ha, hleaf | ⟨hinner, hbudget, hslots⟩⟩ := NodeCatalog.mem_candidates.1 hp
  · have hzero : n.arity = 0 := hn.arity.trans (of_decide_eq_true hleaf.1)
    exact ⟨hn.returns ▸ ha, hn.fits sig ▸ hleaf.2, ⟨p, hmem, hn⟩, fun _ => hzero,
      fun slot h => absurd (hzero ▸ h) (Nat.not_lt_zero slot)⟩
  · refine ⟨hn.returns ▸ ha, hn.fits sig ▸ Node.fits_of_inner hinner sig, ⟨p, hmem, hn⟩,
      fun h => absurd h (of_decide_eq_false hbudget), fun slot h leafOnly => ?_⟩
    obtain ⟨l, hl, hacc⟩ := hslots slot (hn.arity ▸ h)
    exact NodeCatalog.candidates_ne_nil hl (hn.slotType slot ▸ hacc) leafOnly

variable [WordSource σ] (method : GrowthMethod)

/-- What `subtree` grows in a forest, without one. -/
def term : (budget : Nat) → Ty → Attempt σ Term
  | 0, ty => do
    let n ← g.node sig method 0 ty
    Term.fill n fun _ => .lift (Draw.violate .budgetSpent)
  | budget + 1, ty => do
    let n ← g.node sig method (budget + 1) ty
    Term.fill n fun slot => term budget (n.slotType slot)

theorem node_gives {R : Node → Node → Prop} (hfresh : ∀ p, Gives broken (g.fresh p) fun n => R n p) (budget : Nat)
    (ty : Ty) :
    Settles broken (g.Lacks sig budget ty) (g.node sig method budget ty)
      fun n => ∃ p ∈ method.narrow (g.catalog.candidates sig ty (budget = 0)), R n p := by
  refine (Settles.lift (Draw.choose_gives _)).bind fun o ho => ?_
  cases o with
  | none => exact .refuse ⟨GrowthMethod.narrow_eq_nil.1 (ho.2 rfl), rfl⟩
  | some p => exact Settles.lift ((hfresh p).mono fun n hn => ⟨p, ho.1 p rfl, hn⟩)

variable (hlit : ∀ b, b ≠ .any → Gives broken (g.literal b) fun v => v.base = b)
include hlit

omit [WordSource σ] in
theorem fresh_gives (n : Node) : Gives broken (g.fresh n) fun m => m.MadeFrom n := by
  cases n with
  | const v => exact (hlit v.base v.base_ne_any).bind fun w hw => .pure (.literal hw)
  | _ => exact .pure (.same _)

theorem node_settles (budget : Nat) (ty : Ty) :
    Settles broken (g.Lacks sig budget ty) (g.node sig method budget ty) (g.Drawn sig budget ty) :=
  (node_gives g sig method (fresh_gives g hlit) budget ty).mono (fun _ he => he)
    fun _ ⟨_, hp, hn⟩ => drawn_of_candidate (GrowthMethod.mem_narrow hp) hn

/-- A grown term is what its position asks for, and it is made from the catalog. It is refused only if there is no
candidate for the position. -/
theorem term_settles (budget : Nat) (ty : Ty) : Settles broken (g.Lacks sig budget ty)
    (g.term sig method budget ty) fun e => e.For sig budget ty ∧ e.MadeFrom g.catalog := by
  induction budget generalizing ty with
  | zero =>
    refine (node_settles g sig method hlit 0 ty).bind fun n hn => ?_
    have hzero := hn.leaf rfl
    have hslots : ∀ slot < n.arity,
        Settles broken (g.Lacks sig 0 ty) (.lift (Draw.violate .budgetSpent) : Attempt σ Term)
        fun _ => False := fun slot h => absurd (hzero ▸ h) (Nat.not_lt_zero slot)
    refine (Term.fill_settles hslots fun _ _ _ h => h.elim).mono (fun _ he => he) ?_
    rintro _ ⟨kids, rfl, -⟩
    exact ⟨.leaf hn.accepted hn.declared hzero, .node hn.made fun slot => (Fin.cast hzero slot).elim0⟩
  | succ budget ih =>
    refine (node_settles g sig method hlit (budget + 1) ty).bind fun n hn => ?_
    -- there are candidates for every slot, and what grows for it is accepted
    have hslots : ∀ slot < n.arity,
        Settles broken (g.Lacks sig (budget + 1) ty) (g.term sig method budget (n.slotType slot))
        fun e => e.For sig budget (n.slotType slot) ∧ e.MadeFrom g.catalog := fun slot hslot =>
      (ih (n.slotType slot)).mono (fun e he => absurd he.1 (hn.closed slot hslot _)) fun _ ht => ht
    refine (Term.fill_settles hslots fun slot t e ht he => ?_).mono (fun _ he => he) ?_
    · rw [checkSlot_ok.2 ht.1.accepted] at he
      cases he
    · rintro _ ⟨kids, rfl, hkids⟩
      exact ⟨.node hn.accepted hn.declared fun slot => (hkids slot).2.1, .node hn.made fun slot => (hkids slot).2.2⟩

theorem term_yields {budget : Nat} {ty : Ty} (h : g.catalog.candidates sig ty (budget = 0) ≠ []) :
    Yields broken (g.term sig method budget ty) fun e => e.For sig budget ty ∧ e.MadeFrom g.catalog :=
  (term_settles g sig method hlit budget ty).mono (fun _ he => h he.1) fun _ he => he

end Generator
end Grove
