import Grove.Proofs.Denotation
import Grove.Table

/-! Planting. A term that is planted gets the next free numbers, in pre-order; what grew before is left as
it was. The shape at its root is then the term so numbered, and a tree of a term holds nothing else. -/

namespace Grove

def Term.size (e : Term) : Nat := e.nodes.length

def Term.sizes (ts : List Term) : Nat := (ts.flatMap Term.nodes).length

@[simp] theorem Term.sizes_nil : Term.sizes [] = 0 := rfl

@[simp] theorem Term.sizes_cons (t : Term) (ts : List Term) : Term.sizes (t :: ts) = t.size + Term.sizes ts := by
  simp [Term.sizes, Term.size]

def sizeBefore (ts : List Term) (slot : Nat) : Nat := Term.sizes (ts.take slot)

/-- The term with its nodes numbered in pre-order. -/
def Term.numbered : Term → NodeId → Shape
  | .node n kids, i => .node i n fun slot => (kids slot).numbered (i + 1 + sizeBefore (List.ofFn kids) slot)

theorem Term.size_node (n : Node) (kids : Fin n.arity → Term) :
    (Term.node n kids).size = 1 + Term.sizes (List.ofFn kids) := by
  simp [Term.size, Term.sizes, Term.nodes, List.flatMap, List.map_ofFn, Function.comp_def, Nat.add_comm]

theorem Term.size_pos (e : Term) : 0 < e.size := by
  cases e
  simp [Term.size, Term.nodes]

theorem Term.size_kid_lt {n : Node} (kids : Fin n.arity → Term) (slot : Fin n.arity) :
    (kids slot).size < (Term.node n kids).size := by
  have : (kids slot).nodes.Sublist (List.ofFn fun i => (kids i).nodes).flatten :=
    List.sublist_flatten_of_mem (List.mem_ofFn.2 ⟨slot, rfl⟩)
  simpa [Term.size, Term.nodes] using Nat.lt_succ_of_le this.length_le

theorem Term.denotes_numbered (e : Term) : ∀ i, (e.numbered i).Denotes e := by
  induction e with
  | node n kids ih => exact fun i => .node fun slot => ih slot _

theorem flatten_ranges {n : Nat} (kids : Fin n → Term) (i : Nat) :
    (List.ofFn fun j => List.range' (i + sizeBefore (List.ofFn kids) j) (kids j).size).flatten =
      List.range' i (Term.sizes (List.ofFn kids)) := by
  induction n generalizing i with
  | zero => simp
  | succ n ih =>
    have := ih (fun j => kids j.succ) (i + (kids 0).size)
    simp only [sizeBefore] at this ⊢
    simp only [List.ofFn_succ, Fin.val_zero, Fin.val_succ, List.take_zero, List.take_succ_cons, List.flatten_cons,
      Term.sizes_nil, Term.sizes_cons, Nat.add_zero, ← Nat.add_assoc]
    rw [this, List.range'_append_1]

theorem Term.ids_numbered (e : Term) : ∀ i, (e.numbered i).ids = List.range' i e.size := by
  induction e with
  | node n kids ih =>
    intro i
    rw [Term.size_node]
    simp only [Term.numbered, Shape.ids, ih]
    rw [flatten_ranges kids, Nat.add_comm 1, List.range'_succ]

theorem sizeBefore_cons_succ (t : Term) (ts : List Term) (slot : Nat) :
    sizeBefore (t :: ts) (slot + 1) = t.size + sizeBefore ts slot := by simp [sizeBefore]

theorem find?_eq_some_of_unique {α : Type} {p : α → Bool} {a : α} (hp : p a = true) :
    ∀ {l : List α}, a ∈ l → (∀ b ∈ l, p b = true → b = a) → l.find? p = some a
  | b :: l, ha, hu => by
    by_cases hb : p b = true
    · rw [List.find?_cons_of_pos hb, hu b (by simp) hb]
    · rw [List.find?_cons_of_neg (by simpa using hb)]
      refine find?_eq_some_of_unique hp ?_ fun c hc => hu c (List.mem_cons_of_mem _ hc)
      rcases List.mem_cons.1 ha with rfl | h
      · exact absurd hp hb
      · exact h

namespace Forest

/-- Numbers in use are below the next free one. -/
structure Bounded (g : Forest) : Prop where
  nodes : ∀ e ∈ g.nodes, e.1 < g.fresh
  edges : ∀ e ∈ g.edges, e.parent < g.fresh

/-- Two forests have the same node and the same edges at a number. -/
def Agree (g g' : Forest) (i : NodeId) : Prop := g'.node? i = g.node? i ∧ g'.outgoing i = g.outgoing i

theorem Agree.trans {g g' g'' : Forest} {i : NodeId} (h : g.Agree g' i) (h' : g'.Agree g'' i) : g.Agree g'' i :=
  ⟨h'.1.trans h.1, h'.2.trans h.2⟩

theorem child?_eq (g : Forest) (i : NodeId) (slot : Nat) :
    g.child? i slot = ((g.outgoing i).find? (·.slot = slot)).map (·.child) := by
  simp [child?, outgoing, List.find?_filter]

theorem Agree.child? {g g' : Forest} {i : NodeId} (h : g.Agree g' i) (slot : Nat) :
    g'.child? i slot = g.child? i slot := by
  rw [child?_eq, child?_eq, h.2]

theorem Agree.arity {g g' : Forest} {i : NodeId} (h : g.Agree g' i) : g'.arity i = g.arity i := by
  rw [Forest.arity, Forest.arity, h.1]

theorem Agree.flaw? {g g' : Forest} {i : NodeId} (h : g.Agree g' i) : g'.flaw? i = g.flaw? i := by
  simp only [Forest.flaw?, Forest.stray?, h.2, h.arity, h.child?]

theorem id_shapeTo (g : Forest) (room : Nat) (i : NodeId) : (g.shapeTo room i).id = i := by
  cases room with
  | zero => rfl
  | succ room =>
    unfold shapeTo
    split
    · rfl
    split <;> rfl

/-- Forests that agree on what a traversal sees show it the same shape. -/
theorem shapeTo_congr {g g' : Forest} {room : Nat} {i : NodeId} (h : ∀ j ∈ (g.shapeTo room i).ids, g.Agree g' j) :
    g'.shapeTo room i = g.shapeTo room i := by
  induction room generalizing i with
  | zero =>
    have hi : g.Agree g' i := h i (by simp [shapeTo, Shape.ids])
    simp [shapeTo, hi.1]
  | succ room ih =>
    have hi : g.Agree g' i := by
      refine h i ?_
      have := id_shapeTo g (room + 1) i
      cases hs : g.shapeTo (room + 1) i <;> simp_all [Shape.id, Shape.ids]
    unfold shapeTo at h ⊢
    rw [hi.1]
    cases hn : g.node? i with
    | none => rfl
    | some n =>
      rw [hn] at h
      dsimp only at h ⊢
      rw [hi.flaw?]
      cases hf : g.flaw? i with
      | some why => rfl
      | none =>
        rw [hf] at h
        simp only [tabulate_eq, hi.child?] at h ⊢
        congr 1
        funext slot
        refine ih fun j hj => h j ?_
        simp only [Shape.ids, List.mem_cons, List.mem_flatten, List.mem_ofFn]
        exact .inr ⟨_, ⟨slot, rfl⟩, hj⟩

/-- The edges from a node to terms with consecutive numbers. -/
def slotEdges (root : NodeId) : (slot : Nat) → (start : NodeId) → List Term → List Edge
  | _, _, [] => []
  | slot, start, t :: ts => ⟨root, slot, start⟩ :: slotEdges root (slot + 1) (start + t.size) ts

theorem mem_slotEdges {root : NodeId} {e : Edge} : ∀ {slot start : Nat} {ts : List Term},
    e ∈ slotEdges root slot start ts ↔ ∃ j < ts.length, e = ⟨root, slot + j, start + sizeBefore ts j⟩
  | _, _, [] => by simp [slotEdges]
  | slot, start, t :: ts => by
    rw [slotEdges, List.mem_cons, mem_slotEdges]
    constructor
    · rintro (rfl | ⟨j, hj, rfl⟩)
      · exact ⟨0, by simp, by simp [sizeBefore]⟩
      · exact ⟨j + 1, by simpa using hj, by simp [sizeBefore_cons_succ, Nat.add_assoc, Nat.add_comm 1]⟩
    · rintro ⟨_ | j, hj, rfl⟩
      · exact .inl (by simp [sizeBefore])
      · exact .inr ⟨j, by simpa using hj, by simp [sizeBefore_cons_succ, Nat.add_assoc, Nat.add_comm 1]⟩

theorem child?_of_outgoing {g : Forest} {i start : NodeId} {ts : List Term}
    (h : g.outgoing i = (slotEdges i 0 start ts).reverse) {slot : Nat} (hs : slot < ts.length) :
    g.child? i slot = some (start + sizeBefore ts slot) := by
  rw [child?_eq, h, find?_eq_some_of_unique (a := ⟨i, slot, start + sizeBefore ts slot⟩) (by simp)]
  · rfl
  · exact List.mem_reverse.2 (mem_slotEdges.2 ⟨slot, hs, by simp⟩)
  · intro e he hes
    obtain ⟨j, -, rfl⟩ := mem_slotEdges.1 (List.mem_reverse.1 he)
    simp at hes
    simp [hes]

theorem shapeTo_node {g : Forest} {i start : NodeId} {n : Node} {ts : List Term} (hn : g.node? i = some n)
    (ho : g.outgoing i = (slotEdges i 0 start ts).reverse) (hl : ts.length = n.arity) (room : Nat) :
    g.shapeTo (room + 1) i = .node i n fun slot => g.shapeTo room (start + sizeBefore ts slot) := by
  have ha : g.arity i = n.arity := by simp [arity, hn]
  have hc : ∀ slot < n.arity, g.child? i slot = some (start + sizeBefore ts slot) :=
    fun slot hs => child?_of_outgoing ho (hl ▸ hs)
  have hf : g.flaw? i = none := by
    have hstray : g.stray? i = none := by
      rw [stray?, ho, ha, List.find?_eq_none]
      intro e he
      obtain ⟨j, hj, rfl⟩ := mem_slotEdges.1 (List.mem_reverse.1 he)
      simp
      omega
    rw [flaw?, hstray, ha]
    simp only [Option.map_eq_none_iff, List.find?_eq_none, List.mem_range]
    intro slot hs
    simp [hc slot hs]
  rw [shapeTo, hn]
  dsimp only
  rw [hf]
  simp only [tabulate_eq]
  congr 1
  funext slot
  rw [hc slot slot.isLt, Option.getD_some]

def plantSlots (root : NodeId) : (slot : Nat) → List Term → Forest → Forest
  | _, [], g => g
  | slot, t :: ts, g => plantSlots root (slot + 1) ts ((plant t g).2.link root slot (plant t g).1)

theorem foldl_plant (root : NodeId) {k : Nat} (kids : Fin k → Term) (slot : Nat) (g : Forest) :
    (List.finRange k).foldl (fun g i => (plant (kids i) g).2.link root (slot + i) (plant (kids i) g).1) g =
      plantSlots root slot (List.ofFn kids) g := by
  induction k generalizing slot g with
  | zero => simp [plantSlots]
  | succ k ih =>
    have := ih (fun i => kids i.succ) (slot + 1)
    rw [List.finRange_succ, List.foldl_cons, List.foldl_map, List.ofFn_succ, plantSlots, ← this]
    simp [Nat.add_assoc, Nat.add_comm 1]

theorem plant_node (n : Node) (kids : Fin n.arity → Term) (g : Forest) :
    plant (.node n kids) g = (g.fresh, plantSlots g.fresh 0 (List.ofFn kids) (g.add n).2) := by
  rw [← foldl_plant]
  simp only [plant, Nat.zero_add]
  rfl

/-- What planting a term leaves behind. -/
structure PlantedTerm (g : Forest) (e : Term) (g' : Forest) : Prop where
  fresh : g'.fresh = g.fresh + e.size
  bounded : g'.Bounded
  old : ∀ i < g.fresh, g.Agree g' i
  shape : ∀ room, e.size ≤ room → g'.shapeTo room g.fresh = e.numbered g.fresh
  nodes : g'.nodes.map (·.1) = (List.range' g.fresh e.size).reverse ++ g.nodes.map (·.1)
  children : (g'.edges.map (·.child)).Perm (List.range' (g.fresh + 1) (e.size - 1) ++ g.edges.map (·.child))

/-- What planting terms into consecutive slots of a node leaves behind. -/
structure PlantedSlots (g : Forest) (root : NodeId) (slot : Nat) (ts : List Term) (g' : Forest) : Prop where
  fresh : g'.fresh = g.fresh + Term.sizes ts
  bounded : g'.Bounded
  old : ∀ i < g.fresh, i ≠ root → g.Agree g' i
  holder : g'.node? root = g.node? root
  outgoing : g'.outgoing root = (slotEdges root slot g.fresh ts).reverse ++ g.outgoing root
  shapes : ∀ {j t}, ts[j]? = some t → ∀ room, t.size ≤ room →
    g'.shapeTo room (g.fresh + sizeBefore ts j) = t.numbered (g.fresh + sizeBefore ts j)
  nodes : g'.nodes.map (·.1) = (List.range' g.fresh (Term.sizes ts)).reverse ++ g.nodes.map (·.1)
  children : (g'.edges.map (·.child)).Perm (List.range' g.fresh (Term.sizes ts) ++ g.edges.map (·.child))

theorem Bounded.link {g : Forest} (h : g.Bounded) {root : NodeId} (hr : root < g.fresh) (slot : Nat) (c : NodeId) :
    (g.link root slot c).Bounded :=
  ⟨h.nodes, List.forall_mem_cons.2 ⟨hr, h.edges⟩⟩

theorem Bounded.add {g : Forest} (h : g.Bounded) (n : Node) : (g.add n).2.Bounded :=
  ⟨List.forall_mem_cons.2 ⟨Nat.lt_succ_self _, fun e he => Nat.lt_succ_of_lt (h.nodes e he)⟩,
    fun e he => Nat.lt_succ_of_lt (h.edges e he)⟩

theorem Bounded.outgoing_add {g : Forest} (h : g.Bounded) (n : Node) : (g.add n).2.outgoing g.fresh = [] := by
  simp only [Forest.outgoing, Forest.add, List.filter_eq_nil_iff, decide_eq_true_eq]
  exact fun e he => Nat.ne_of_lt (h.edges e he)

theorem agree_link {g : Forest} {root i : NodeId} (h : i ≠ root) (slot : Nat) (c : NodeId) :
    g.Agree (g.link root slot c) i := by
  refine ⟨rfl, ?_⟩
  simp [Forest.outgoing, Forest.link, Ne.symm h]

theorem outgoing_link (g : Forest) (root : NodeId) (slot : Nat) (c : NodeId) :
    (g.link root slot c).outgoing root = ⟨root, slot, c⟩ :: g.outgoing root := by
  simp [Forest.outgoing, Forest.link]

theorem PlantedSlots.nil {g : Forest} (hg : g.Bounded) (root : NodeId) (slot : Nat) : g.PlantedSlots root slot [] g :=
  ⟨rfl, hg, fun _ _ _ => ⟨rfl, rfl⟩, rfl, rfl, by simp, rfl, .refl _⟩

/-- A term planted and hung in a slot, and then others in the slots that follow. -/
theorem PlantedSlots.cons {g g₁ g₂ : Forest} {root : NodeId} {slot : Nat} {t : Term} {ts : List Term}
    (hr : root < g.fresh)
    (planted : g.PlantedTerm t g₁) (rest : (g₁.link root slot g.fresh).PlantedSlots root (slot + 1) ts g₂) :
    g.PlantedSlots root slot (t :: ts) g₂ := by
  have hfresh : (g₁.link root slot g.fresh).fresh = g.fresh + t.size := planted.fresh
  -- what is below the new numbers is seen by the rest as it was planted
  have later : ∀ i < g₁.fresh, i ≠ root → g₁.Agree g₂ i := fun i hi hne =>
    (agree_link hne slot g.fresh).trans (rest.old i hi hne)
  refine ⟨?_, rest.bounded, ?_, ?_, ?_, ?_, ?_, ?_⟩
  · rw [rest.fresh, hfresh, Term.sizes_cons, Nat.add_assoc]
  · exact fun i hi hne => (planted.old i hi).trans (later i (planted.fresh ▸ Nat.lt_add_right _ hi) hne)
  · exact rest.holder.trans (planted.old root hr).1
  · rw [rest.outgoing, outgoing_link, (planted.old root hr).2, hfresh, slotEdges, List.reverse_cons]
    simp
  · rintro (_ | j) t' ht' room hroom
    · obtain rfl : t = t' := by simpa using ht'
      have hs := planted.shape room hroom
      simp only [sizeBefore, List.take_zero, Term.sizes_nil, Nat.add_zero]
      rw [← hs]
      refine shapeTo_congr fun i hi => ?_
      rw [hs, Term.ids_numbered, List.mem_range'_1] at hi
      exact later i (planted.fresh ▸ hi.2) (Nat.ne_of_gt (Nat.lt_of_lt_of_le hr hi.1))
    · have := rest.shapes (j := j) (by simpa using ht') room hroom
      rwa [hfresh, Nat.add_assoc, ← sizeBefore_cons_succ] at this
  · rw [rest.nodes, hfresh]
    change _ ++ g₁.nodes.map (·.1) = _
    rw [planted.nodes, ← List.append_assoc, ← List.reverse_append, List.range'_append_1, Term.sizes_cons]
  · refine rest.children.trans ?_
    rw [hfresh, Term.sizes_cons, ← List.range'_append_1, List.append_assoc]
    change (_ ++ g.fresh :: g₁.edges.map (·.child)).Perm _
    have hsize : List.range' g.fresh t.size = g.fresh :: List.range' (g.fresh + 1) (t.size - 1) := by
      rw [← List.range'_succ, Nat.sub_add_cancel t.size_pos]
    rw [hsize]
    refine List.perm_middle.trans (.cons _ ?_)
    exact (planted.children.append_left _).trans (List.perm_append_comm_assoc _ _ _)

theorem plantSlots_spec {root : NodeId} {ts : List Term}
    (ht : ∀ t ∈ ts, ∀ {g : Forest}, g.Bounded → (plant t g).1 = g.fresh ∧ g.PlantedTerm t (plant t g).2)
    (slot : Nat) {g : Forest}
    (hg : g.Bounded) (hr : root < g.fresh) : g.PlantedSlots root slot ts (plantSlots root slot ts g) := by
  induction ts generalizing slot g with
  | nil => exact PlantedSlots.nil hg root slot
  | cons t ts ih =>
    obtain ⟨hroot, planted⟩ := ht t (by simp) hg
    have hr₁ : root < (plant t g).2.fresh := planted.fresh ▸ Nat.lt_add_right _ hr
    have rest := ih (fun t' h => ht t' (List.mem_cons_of_mem t h)) (slot + 1)
      (planted.bounded.link hr₁ slot (plant t g).1) hr₁
    rw [plantSlots]
    rw [hroot] at rest ⊢
    exact PlantedSlots.cons hr planted rest

/-- Planting a term puts it under the next free numbers and changes nothing else. -/
theorem plant_spec (e : Term) : ∀ {g : Forest}, g.Bounded → (plant e g).1 = g.fresh ∧
    g.PlantedTerm e (plant e g).2 := by
  induction e with
  | node n kids ih =>
    intro g hg
    have hadd : ∀ i < g.fresh, g.Agree (g.add n).2 i := fun i hi =>
      ⟨by simp [Forest.node?, Forest.add, Table.lookup_cons_eq, Nat.ne_of_lt hi], rfl⟩
    rw [plant_node]
    have hkids : ∀ t ∈ List.ofFn kids, ∀ {g : Forest}, g.Bounded →
        (plant t g).1 = g.fresh ∧ g.PlantedTerm t (plant t g).2 := by
      intro t ht
      obtain ⟨i, rfl⟩ := List.mem_ofFn.1 ht
      exact ih i
    have slots := plantSlots_spec hkids 0 (hg.add n) (Nat.lt_succ_self g.fresh)
    refine ⟨rfl, ?_, slots.bounded, ?_, ?_, ?_, ?_⟩
    · rw [slots.fresh, Term.size_node, ← Nat.add_assoc]
      rfl
    · exact fun i hi => (hadd i hi).trans (slots.old i (Nat.lt_succ_of_lt hi) (Nat.ne_of_lt hi))
    · intro room hroom
      obtain ⟨room, rfl⟩ : ∃ k, room = k + 1 := ⟨room - 1, by have := (Term.node n kids).size_pos; omega⟩
      have hnode : (plantSlots g.fresh 0 (List.ofFn kids) (g.add n).2).node? g.fresh = some n := by
        rw [slots.holder]
        simp [Forest.node?, Forest.add]
      rw [shapeTo_node hnode (by rw [slots.outgoing, hg.outgoing_add, List.append_nil]) (by simp), Term.numbered]
      congr 1
      funext slot
      have := Term.size_kid_lt kids slot
      exact slots.shapes (by simp) room (by omega)
    · rw [slots.nodes, Term.size_node, Nat.add_comm 1, List.range'_succ, List.reverse_cons, List.append_assoc]
      rfl
    · rw [Term.size_node, Nat.add_sub_cancel_left]
      exact slots.children

theorem bounded_empty : empty.Bounded := ⟨by simp [empty], by simp [empty]⟩

end Forest

/-- The forest holds the nodes that the root reaches, each once, with one edge into each but the root, and
nothing else. -/
structure Tree.Tight (t : Tree) (s : Shape) : Prop where
  nodup : s.ids.Nodup
  nodes : (t.forest.nodes.map (·.1)).Perm s.ids
  edges : (t.forest.edges.map (·.child)).Perm s.ids.tail

/-- A complete tree for the signature, with nothing in its forest but what hangs together. -/
structure Tree.ValidFor (t : Tree) (sig : Signature) : Prop where
  signature : t.signature = sig
  term : ∃ e, t.Denotes e ∧ sig.Admits e
  tight : ∀ s, t.shape? = some s → t.Tight s

def Tree.planted (sig : Signature) (e : Term) : Tree :=
  ⟨sig, (Forest.empty.plant e).2, some (Forest.empty.plant e).1⟩

theorem Tree.ofTerm_ok {sig : Signature} {e : Term} {t : Tree} :
    Tree.ofTerm sig e = .ok t ↔ sig.returns.accepts e.returns = true ∧ t = .planted sig e := by
  unfold Tree.ofTerm checkSlot
  by_cases ha : sig.returns.accepts e.returns = true
  · rw [if_pos ha]
    exact ⟨fun h => ⟨ha, (Except.ok.inj h).symm⟩, fun h => h.2 ▸ rfl⟩
  · rw [if_neg ha]
    exact ⟨nofun, fun h => absurd h.1 ha⟩

theorem Tree.shape?_planted (sig : Signature) (e : Term) : (Tree.planted sig e).shape? = some (e.numbered 0) := by
  obtain ⟨hroot, planted⟩ := Forest.plant_spec e Forest.bounded_empty
  have hsize : e.size = (Forest.empty.plant e).2.size := by
    simpa [Forest.size, Forest.empty] using (congrArg List.length planted.nodes).symm
  have := planted.shape _ (Nat.le_of_eq hsize)
  rw [Tree.shape?, Tree.planted, Option.map_some, hroot]
  exact congrArg some this

theorem Tree.denotes_planted (sig : Signature) (e : Term) : (Tree.planted sig e).Denotes e :=
  ⟨_, Tree.shape?_planted sig e, e.denotes_numbered 0⟩

theorem Tree.tight_planted (sig : Signature) (e : Term) : (Tree.planted sig e).Tight (e.numbered 0) := by
  obtain ⟨-, planted⟩ := Forest.plant_spec e Forest.bounded_empty
  refine ⟨?_, ?_, ?_⟩
  · rw [Term.ids_numbered]
    exact List.nodup_range'
  · rw [Term.ids_numbered, Tree.planted, planted.nodes]
    simp [Forest.empty, List.reverse_perm]
  · rw [Term.ids_numbered, List.tail_range', Tree.planted]
    simpa [Forest.empty] using planted.children

theorem Tree.validFor_planted {sig : Signature} {e : Term} (h : sig.Admits e) : (Tree.planted sig e).ValidFor sig := by
  refine ⟨rfl, ⟨e, Tree.denotes_planted sig e, h⟩, fun s hs => ?_⟩
  obtain rfl : e.numbered 0 = s := Option.some.inj ((Tree.shape?_planted sig e).symm.trans hs)
  exact Tree.tight_planted sig e

end Grove
