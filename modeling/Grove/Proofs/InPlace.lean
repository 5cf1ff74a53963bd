import Grove.Generation
import Grove.Proofs.Generating

/-! Growing in place. What grows in a forest is what grows apart and is planted there then: a node that is added takes
the next number, and what has grown for a slot is hung in it, or is refused as its term would be. -/

namespace Grove

namespace Forest

/-- Numbers in use, those of children too, are below the next free one. -/
structure Enclosed (g : Forest) : Prop extends g.Bounded where
  children : ∀ e ∈ g.edges, e.child < g.fresh

variable {G G' : Forest} {e : Term} {n : Node} {i root : NodeId} {slot : Nat}

theorem Sound.enclosed (h : G.Sound) : G.Enclosed := ⟨h.bounded, fun _ he => h.fresh _ (h.child_mem he)⟩

/-- However a tree was grown, its forest is of this kind. -/
theorem enclosed_of_grown {t : Tree} (h : t.Grown) : t.forest.Enclosed := h.sound.forest.enclosed

theorem enclosed_empty : Forest.empty.Enclosed := ⟨bounded_empty, nofun⟩

theorem Bounded.lt_fresh (h : G.Bounded) (hn : G.node? i = some n) : i < G.fresh := by
  obtain ⟨p, hp, rfl⟩ := List.mem_map.1 (mem_numbers.2 ⟨n, hn⟩)
  exact h.nodes p hp

theorem Enclosed.add (h : G.Enclosed) (n : Node) : (G.add n).2.Enclosed :=
  ⟨h.toBounded.add n, fun e he => Nat.lt_succ_of_lt (h.children e he)⟩

theorem children_lt {start k : Nat} (hold : ∀ e ∈ G.edges, e.child < start + k)
    (h : (G'.edges.map (·.child)).Perm (List.range' start k ++ G.edges.map (·.child))) :
    ∀ e ∈ G'.edges, e.child < start + k := by
  intro e he
  rcases List.mem_append.1 (h.mem_iff.1 (List.mem_map_of_mem he)) with hnew | hc
  · exact (List.mem_range'_1.1 hnew).2
  · obtain ⟨e', he', hc⟩ := List.mem_map.1 hc
    exact hc ▸ hold e' he'

theorem PlantedSlots.enclosed {ts : List Term} (h : G.PlantedSlots root slot ts G') (hG : G.Enclosed) : G'.Enclosed :=
  ⟨h.bounded, h.fresh ▸ children_lt (fun e' he' => Nat.lt_add_right _ (hG.children e' he')) h.children⟩

theorem PlantedTerm.label (h : G.PlantedTerm e G') : G'.node? G.fresh = some e.label :=
  label_of_denotes (h.shape e.size (Nat.le_refl _) ▸ e.denotes_numbered G.fresh)

theorem PlantedTerm.loose (h : G.PlantedTerm e G') (hG : G.Enclosed) : ∀ e' ∈ G'.edges, e'.child ≠ G.fresh := by
  intro e' he' hc
  rcases List.mem_append.1 (h.children.mem_iff.1 (List.mem_map_of_mem he')) with hnew | hold
  · exact Nat.lt_irrefl _ (hc ▸ (List.mem_range'_1.1 hnew).1)
  · obtain ⟨e'', he'', hc'⟩ := List.mem_map.1 hold
    exact Nat.lt_irrefl _ ((hc'.trans hc) ▸ hG.children e'' he'')

theorem Enclosed.setChild_plant (hG : G.Enclosed) (hn : G.node? i = some n) (hslot : slot < n.arity)
    (ha : (n.slotType slot).accepts e.returns = true) : (plant e G).2.setChild i slot (plant e G).1 =
      .ok (G.child? i slot, ((plant e G).2.vacate i slot).link i slot (plant e G).1) := by
  obtain ⟨hroot, planted⟩ := plant_spec e hG.toBounded
  have hold := planted.old i (hG.lt_fresh hn)
  rw [← hold.child? slot, hroot]
  exact setChild_ok.2 ⟨⟨n, e.label, hold.1.trans hn, planted.label, hslot, ha⟩, planted.loose hG, rfl⟩

theorem Enclosed.setChild_plant_refused {x : Error} (hG : G.Enclosed) (hn : G.node? i = some n) (hslot : slot < n.arity)
    (hx : checkSlot (n.slotType slot) e.returns = .error x) :
    (plant e G).2.setChild i slot (plant e G).1 = .error (.refused x) := by
  obtain ⟨hroot, planted⟩ := plant_spec e hG.toBounded
  have hparent : (plant e G).2.node? i = some n := (planted.old i (hG.lt_fresh hn)).1.trans hn
  rw [hroot]
  exact setChild_refused hparent planted.label hslot hx

theorem plantSlots_append (root slot : Nat) (ts : List Term) (t : Term) (g : Forest) :
    plantSlots root slot (ts ++ [t]) g = ((plant t (plantSlots root slot ts g)).2.link root (slot + ts.length)
      (plant t (plantSlots root slot ts g)).1) := by
  induction ts generalizing slot g with
  | nil => rfl
  | cons t' ts ih =>
    rw [List.cons_append, plantSlots, ih, plantSlots, List.length_cons, Nat.add_assoc, Nat.add_comm 1]

def started (G : Forest) (n : Node) (former : List Term) : Forest := plantSlots G.fresh 0 former (G.add n).2

theorem started_append (G : Forest) (n : Node) (former : List Term) (e : Term) :
    G.started n (former ++ [e]) = (plant e (G.started n former)).2.link G.fresh former.length
      (plant e (G.started n former)).1 := by
  rw [started, plantSlots_append, Nat.zero_add]
  rfl

theorem plant_ofList (G : Forest) (n : Node) (ts : List Term) (h : ts.length = n.arity) :
    G.plant (.ofList n ts h) = (G.fresh, G.started n ts) := by
  have hkids : List.ofFn (fun slot : Fin n.arity => ts[slot]) = ts := List.ext_getElem (by simp [h]) (by simp)
  have := plant_node n (fun slot : Fin n.arity => ts[slot]) G
  rw [hkids] at this
  simpa [Term.ofList, started] using this

section Started

variable (hG : G.Enclosed) {former : List Term}
include hG

theorem Enclosed.planted_started (n : Node) (former : List Term) :
    (G.add n).2.PlantedSlots G.fresh 0 former (G.started n former) :=
  plantSlots_spec (fun t _ _ hg => plant_spec t hg) 0 (hG.add n).toBounded (Nat.lt_succ_self _)

theorem Enclosed.started (n : Node) (former : List Term) : (G.started n former).Enclosed :=
  (hG.planted_started n former).enclosed (hG.add n)

theorem Enclosed.node?_started (n : Node) (former : List Term) : (G.started n former).node? G.fresh = some n := by
  rw [(hG.planted_started n former).holder]
  simp [Forest.node?, Forest.add]

theorem Enclosed.child?_started (n : Node) (former : List Term) :
    (G.started n former).child? G.fresh former.length = none := by
  rw [child?_eq, (hG.planted_started n former).outgoing, hG.outgoing_add, List.append_nil, Option.map_eq_none_iff,
    List.find?_eq_none]
  intro e he hslot
  obtain ⟨j, hj, rfl⟩ := mem_slotEdges.1 (List.mem_reverse.1 he)
  have : 0 + j = former.length := of_decide_eq_true hslot
  omega

theorem Enclosed.setChild_started (hslot : former.length < n.arity)
    (ha : (n.slotType former.length).accepts e.returns = true) :
    (plant e (G.started n former)).2.setChild G.fresh former.length (plant e (G.started n former)).1 =
      .ok (none, G.started n (former ++ [e])) := by
  have hnone := hG.child?_started n former
  have hset := (hG.started n former).setChild_plant (hG.node?_started n former) hslot ha
  have hold := (plant_spec e (hG.started n former).toBounded).2.old G.fresh
    ((hG.started n former).lt_fresh (hG.node?_started n former))
  rw [hset, vacate, hold.child?, hnone, started_append]
  rfl

end Started

end Forest

/-- What becomes of a forest that gets what grew apart. Where that was refused or broke off, what has grown by then is
left open. -/
def Forest.Receives {σ α β : Type} (put : β → α × Forest) : Except Violation (Except Error β × σ) →
    Except (Violation × Forest) (Except Error α × (Forest × σ)) → Prop
  | .ok (.ok b, s), r => r = .ok (.ok (put b).1, ((put b).2, s))
  | .ok (.error e, s), r => ∃ G, r = .ok (.error e, (G, s))
  | .error v, r => ∃ G, r = .error (v, G)

/-- Growing in the forest comes to the same as growing apart and putting there what has grown. -/
def Sprouting.Follows {σ α β : Type} (x : Sprouting σ α) (G : Forest) (y : Attempt σ β) (put : β → α × Forest) : Prop :=
  ∀ s, Forest.Receives put (y.run s) (x.run (G, s))

section Runs

variable {ε τ α β : Type} {x : ExceptT Error (StateT τ (Except ε)) α} {f : α → ExceptT Error (StateT τ (Except ε)) β}
  {s s' : τ}

theorem run_bind_ok {a : α} (h : x.run s = .ok (.ok a, s')) : (x >>= f).run s = (f a).run s' := by
  change Except.bind (x.run s) _ = _
  rw [h]
  rfl

theorem run_bind_refused {e : Error} (h : x.run s = .ok (.error e, s')) : (x >>= f).run s = .ok (.error e, s') := by
  change Except.bind (x.run s) _ = _
  rw [h]
  rfl

theorem run_bind_broken {e : ε} (h : x.run s = .error e) : (x >>= f).run s = .error e := by
  change Except.bind (x.run s) _ = _
  rw [h]
  rfl

end Runs

namespace Sprouting

variable {σ α β γ δ : Type} {G : Forest} {n : Node} {x : Sprouting σ α} {y : Attempt σ β} {put : β → α × Forest}

namespace Follows

theorem pure {a : α} {b : β} (h : put b = (a, G)) : Follows (Pure.pure a : Sprouting σ α) G (Pure.pure b) put := by
  intro s
  change Except.ok (Except.ok a, (G, s)) = Except.ok (Except.ok (put b).1, ((put b).2, s))
  rw [h]

theorem bind {f : α → Sprouting σ γ} {h : β → Attempt σ δ} {put' : δ → γ × Forest} (hx : Follows x G y put)
    (hf : ∀ b, Follows (f (put b).1) (put b).2 (h b) put') : Follows (x >>= f) G (y >>= h) put' := by
  intro s
  have hs := hx s
  rcases hy : y.run s with v | ⟨e | b, s₁⟩ <;> rw [hy] at hs
  · obtain ⟨H, hs⟩ := hs
    rw [run_bind_broken hy, run_bind_broken hs]
    exact ⟨H, rfl⟩
  · obtain ⟨H, hs⟩ := hs
    rw [run_bind_refused hy, run_bind_refused hs]
    exact ⟨H, rfl⟩
  · rw [run_bind_ok hy, run_bind_ok hs]
    exact hf b s₁

/-- What is made of what grew apart may as well be made before it is put there. -/
theorem map {h : β → δ} {put' : δ → α × Forest} (hx : Follows x G y put) (hput : ∀ b, put' (h b) = put b) :
    Follows x G (y >>= fun b => Pure.pure (h b)) put' := by
  intro s
  have hs := hx s
  rcases hy : y.run s with v | ⟨e | b, s₁⟩ <;> rw [hy] at hs
  · rw [run_bind_broken hy]
    exact hs
  · rw [run_bind_refused hy]
    exact hs
  · rw [run_bind_ok hy]
    change _ = Except.ok (Except.ok (put' (h b)).1, ((put' (h b)).2, s₁))
    rw [hput]
    exact hs

theorem returns (hx : Follows x G y put) (c : γ) :
    Follows (x >>= fun _ => Pure.pure c) G y fun b => (c, (put b).2) := by
  have : Follows (x >>= fun _ => Pure.pure c) G (y >>= fun b => Pure.pure b) fun b => (c, (put b).2) :=
    hx.bind fun _ => .pure rfl
  rwa [bind_pure] at this

theorem alone (hx : Follows x .empty y put) : x.alone = (do let b ← y; return put b) := by
  funext s
  have hs := hx s
  change _ = (y >>= fun b => Pure.pure (put b)).run s
  unfold Sprouting.alone
  dsimp only [ExceptT.mk]
  rcases hy : y.run s with v | ⟨e | b, s₁⟩ <;> rw [hy] at hs
  · obtain ⟨H, hs⟩ := hs
    rw [hs, run_bind_broken hy]
  · obtain ⟨H, hs⟩ := hs
    rw [hs, run_bind_refused hy]
  · rw [show x.run (.empty, s) = _ from hs, run_bind_ok hy]
    rfl

theorem ofAttempt (y : Attempt σ β) (G : Forest) : Follows (.ofAttempt y) G y fun b => (b, G) := by
  intro s
  unfold Sprouting.ofAttempt
  dsimp only [ExceptT.run, ExceptT.mk]
  rcases y s with v | ⟨e | b, s₁⟩
  · exact ⟨G, rfl⟩
  · exact ⟨G, rfl⟩
  · rfl

theorem violate (v : Violation) (G : Forest) (put : β → α × Forest) :
    Follows (.violate v : Sprouting σ α) G (.lift (Draw.violate v)) put := fun _ => ⟨G, rfl⟩

/-- What is pruned where growing is refused is left open. -/
theorem orPrune (i : NodeId) (hx : Follows x G y put) : Follows (orPrune i x) G y put := by
  intro s
  have hs := hx s
  unfold Sprouting.orPrune
  dsimp only [ExceptT.run, ExceptT.mk] at hs ⊢
  rcases hy : y s with v | ⟨e | b, s₁⟩ <;> rw [hy] at hs
  · obtain ⟨H, hs⟩ := hs
    rw [hs]
    exact ⟨H, rfl⟩
  · obtain ⟨H, hs⟩ := hs
    rw [hs]
    exact ⟨H.prune i, rfl⟩
  · rw [show x (G, s) = _ from hs]
    rfl

end Follows

theorem Follows.hang {former : List Term} (hG : G.Enclosed) (hslot : former.length < n.arity) (t : Term) :
    Follows (hang G.fresh former.length (Forest.plant t (G.started n former)).1 : Sprouting σ Unit)
      (Forest.plant t (G.started n former)).2 (do checkSlot (n.slotType former.length) t.returns; return t)
      fun t => ((), G.started n (former ++ [t])) := by
  intro s
  have hgrown := hG.started n former
  unfold Sprouting.hang
  dsimp only [ExceptT.run, ExceptT.mk]
  cases hx : checkSlot (n.slotType former.length) t.returns with
  | ok u =>
    rw [hG.setChild_started hslot (checkSlot_ok.1 hx)]
    rfl
  | error x =>
    rw [hgrown.setChild_plant_refused (hG.node?_started n former) hslot hx]
    exact ⟨_, rfl⟩

section Fill

variable {child : Nat → Sprouting σ NodeId} {grown : Nat → Attempt σ Term} (hG : G.Enclosed)
  (hc : ∀ slot < n.arity, ∀ H : Forest, H.Enclosed → Follows (child slot) H (grown slot) fun e => H.plant e)
include hG hc

theorem fillSlots_follows (left : Nat) {former : List Term} (hl : former.length + left = n.arity) :
    Follows (fillSlots n G.fresh child left) (G.started n former) (Term.fillSlots n grown left)
      fun ts => ((), G.started n (former ++ ts.val)) := by
  induction left generalizing former with
  | zero =>
    refine .pure ?_
    rw [List.append_nil]
  | succ left ih =>
    have hslot : former.length < n.arity := by omega
    unfold fillSlots Term.fillSlots
    dsimp only
    rw [show n.arity - (left + 1) = former.length by omega]
    refine Follows.bind (.orPrune _ ((hc _ hslot _ (hG.started n former)).bind fun t => .orPrune _ (.hang hG hslot t)))
      fun t => ?_
    have hnext : (former ++ [t]).length + left = n.arity := by
      rw [List.length_append, List.length_singleton]
      omega
    exact (ih hnext).map fun ts => by simp

theorem fill_follows : Follows (fill n child) G (Term.fill n grown) fun e => G.plant e := by
  have hslots : Follows (fillSlots n G.fresh child n.arity) (G.started n []) (Term.fillSlots n grown n.arity)
      fun ts => ((), G.started n ts.val) := fillSlots_follows hG hc n.arity (Nat.zero_add _)
  -- adding the node draws nothing
  have hadd : Follows (fill n child) G (Term.fillSlots n grown n.arity) fun ts => (G.fresh, G.started n ts.val) :=
    fun s => (hslots.returns G.fresh) s
  exact hadd.map fun ts => Forest.plant_ofList G n ts.val ts.property

end Fill

end Sprouting

theorem Tree.setRoot_plant (sig : Signature) (e : Term) :
    setRoot ⟨sig, (Forest.empty.plant e).2, none⟩ (Forest.empty.plant e).1 =
      ((Tree.ofTerm sig e).mapError .refused).map fun t => (none, t) := by
  obtain ⟨hroot, planted⟩ := Forest.plant_spec e Forest.bounded_empty
  have hlabel : (Forest.empty.plant e).2.node? Forest.empty.fresh = some e.label := planted.label
  cases hx : checkSlot sig.returns e.returns with
  | ok u =>
    have ha := checkSlot_ok.1 hx
    rw [Tree.ofTerm_ok.2 ⟨ha, rfl⟩, Tree.planted, hroot]
    exact setRoot_ok.2 ⟨e.label, hlabel, ha, planted.loose Forest.enclosed_empty, rfl⟩
  | error x =>
    rw [hroot, setRoot, Tree.ofTerm, hlabel, hx]
    dsimp only
    change ((liftM (checkSlot sig.returns e.returns) : Except Failure Unit) >>= _) = _
    rw [hx]
    rfl

namespace Generator

variable {σ : Type} [WordSource σ] (g : Generator σ) (sig : Signature) (method : GrowthMethod) {G : Forest}

/-- To grow in a forest is to grow apart and to plant there what has grown. -/
theorem subtree_follows (hG : G.Enclosed) (budget : Nat) (ty : Ty) :
    Sprouting.Follows (g.subtree sig method budget ty) G (g.term sig method budget ty) fun e => G.plant e := by
  induction budget generalizing ty G with
  | zero =>
    refine Sprouting.Follows.bind (.ofAttempt (g.node sig method 0 ty) G) fun n => ?_
    exact Sprouting.fill_follows hG fun slot _ H _ => .violate .budgetSpent H _
  | succ budget ih =>
    refine Sprouting.Follows.bind (.ofAttempt (g.node sig method (budget + 1) ty) G) fun n => ?_
    exact Sprouting.fill_follows hG fun slot _ H hH => ih hH (n.slotType slot)

theorem tree_eq (budget : Nat) : g.tree sig method budget = (do
    let e ← g.term sig method budget sig.returns
    Tree.ofTerm sig e) := by
  rw [tree, (g.subtree_follows sig method Forest.enclosed_empty budget sig.returns).alone, bind_assoc]
  congr
  funext e
  rw [pure_bind]
  dsimp only
  rw [Tree.setRoot_plant]
  cases Tree.ofTerm sig e <;> rfl

end Generator
end Grove
