import Grove.Proofs.Descent
import Grove.Proofs.Planting
import Grove.Proofs.Result
import Grove.Tree

/-! The arena in order. Every edge fits, a slot holds one child, and no node has two parents. What each
operation does to nodes and edges is said once; that it keeps the arena in order is read off that. -/

namespace Grove

/-- An edge leads from a node to one that the slot accepts. -/
def Forest.Fits (g : Forest) (e : Edge) : Prop :=
  ∃ p c, g.node? e.parent = some p ∧ g.node? e.child = some c ∧ e.slot < p.arity ∧
    (p.slotType e.slot).accepts c.returns = true

def Edge.shift (e : Edge) (k : Nat) : Edge := ⟨e.parent + k, e.slot, e.child + k⟩

structure Forest.Sound (g : Forest) : Prop where
  numbers : (g.nodes.map (·.1)).Nodup
  fresh : ∀ i ∈ g.nodes.map (·.1), i < g.fresh
  fits : ∀ e ∈ g.edges, g.Fits e
  slots : (g.edges.map fun e => (e.parent, e.slot)).Nodup
  unshared : g.Unshared

namespace Forest

variable {g : Forest} {i j c new : NodeId} {slot : Nat} {n : Node} {e : Edge}

section Nodes

theorem mem_numbers : i ∈ g.nodes.map (·.1) ↔ ∃ n, g.node? i = some n := by
  rw [node?, ← Option.isSome_iff_exists, List.lookup_isSome_iff, List.mem_map]
  exact exists_congr fun e => and_congr_right fun _ => by rw [beq_iff_eq, eq_comm]

theorem node?_eq_none : g.node? i = none ↔ i ∉ g.nodes.map (·.1) := by
  rw [mem_numbers, ← Option.isSome_iff_exists, Option.not_isSome_iff_eq_none]

theorem Sound.mem_nodes (h : g.Sound) : (i, n) ∈ g.nodes ↔ g.node? i = some n := (Table.lookup_eq_some h.numbers).symm

theorem Fits.congr {g' : Forest} (h : g.Fits e) (hp : g'.node? e.parent = g.node? e.parent)
    (hc : g'.node? e.child = g.node? e.child) : g'.Fits e := by
  rwa [Fits, hp, hc]

theorem Sound.parent_mem (h : g.Sound) (he : e ∈ g.edges) : e.parent ∈ g.nodes.map (·.1) := by
  obtain ⟨p, -, hp, -⟩ := h.fits e he
  exact mem_numbers.2 ⟨p, hp⟩

theorem Sound.child_mem (h : g.Sound) (he : e ∈ g.edges) : e.child ∈ g.nodes.map (·.1) := by
  obtain ⟨-, c, -, hc, -⟩ := h.fits e he
  exact mem_numbers.2 ⟨c, hc⟩

theorem Sound.reached_mem (h : g.Sound) (hi : i ∈ g.nodes.map (·.1)) (hr : g.Reaches i j) :
    j ∈ g.nodes.map (·.1) := by
  obtain ⟨k, hk⟩ := hr
  rcases hk.last with ⟨-, rfl⟩ | ⟨-, e, -, he, rfl, -⟩
  · exact hi
  · exact h.child_mem he

end Nodes

section Edges

theorem hasParent_eq_false : g.hasParent i = false ↔ ∀ e ∈ g.edges, e.child ≠ i := by
  simp [hasParent, parent?]

theorem parent?_eq_none : g.parent? i = none ↔ ∀ e ∈ g.edges, e.child ≠ i := by
  simp [parent?]

theorem parent?_eq_some (hu : g.Unshared) {p : NodeId} : g.parent? c = some (p, slot) ↔ ⟨p, slot, c⟩ ∈ g.edges := by
  simp only [parent?, Option.map_eq_some_iff, Prod.mk.injEq]
  constructor
  · rintro ⟨e, he, rfl, rfl⟩
    obtain rfl : e.child = c := by simpa using List.find?_some he
    exact List.mem_of_find?_eq_some he
  · intro he
    refine ⟨_, find?_eq_some_of_unique (by simp) he fun e' he' hc => hu.edge_eq he' he (by simpa using hc), rfl, rfl⟩

theorem Sound.edge_eq_of_slot (h : g.Sound) {e' : Edge} (he : e ∈ g.edges) (he' : e' ∈ g.edges)
    (hp : e.parent = e'.parent) (hs : e.slot = e'.slot) : e = e' :=
  List.inj_on_of_nodup_map h.slots he he' (Prod.ext hp hs)

theorem child?_eq_none : g.child? i slot = none ↔ ∀ e ∈ g.edges, e.parent = i → e.slot ≠ slot := by
  simp [child?]

theorem child?_mem (h : g.child? i slot = some c) : ⟨i, slot, c⟩ ∈ g.edges := by
  simp only [child?, Option.map_eq_some_iff] at h
  obtain ⟨e, he, rfl⟩ := h
  obtain ⟨rfl, rfl⟩ : e.parent = i ∧ e.slot = slot := by simpa using List.find?_some he
  exact List.mem_of_find?_eq_some he

theorem Sound.child?_eq_some (h : g.Sound) : g.child? i slot = some c ↔ ⟨i, slot, c⟩ ∈ g.edges := by
  refine ⟨child?_mem, fun he => ?_⟩
  rw [child?, find?_eq_some_of_unique (a := ⟨i, slot, c⟩) (by simp) he fun e' he' hs => ?_]
  · rfl
  · obtain ⟨hp, hs⟩ : e'.parent = i ∧ e'.slot = slot := by simpa using hs
    exact h.edge_eq_of_slot he' he hp hs

end Edges

section Cutting

theorem Sound.of_sublist (h : g.Sound) {es : List Edge} (hs : es.Sublist g.edges) : Sound { g with edges := es } where
  numbers := h.numbers
  fresh := h.fresh
  fits e he := h.fits e (hs.subset he)
  slots := h.slots.sublist (hs.map _)
  unshared := h.unshared.sublist (hs.map _)

theorem Unshared.unlink_edges (hu : g.Unshared) (i : NodeId) : (g.unlink i).edges = g.edges.filter (·.child ≠ i) := by
  obtain ⟨nodes, edges, fresh⟩ := g
  simp only [Unshared, unlink] at hu ⊢
  induction edges with
  | nil => rfl
  | cons e edges ih =>
    obtain ⟨hnew, hu⟩ := List.nodup_cons.1 hu
    by_cases he : e.child = i
    · rw [List.eraseP_cons_of_pos (by simpa using he), List.filter_cons_of_neg (by simpa using he)]
      refine (List.filter_eq_self.2 fun e' he' => ?_).symm
      simpa using fun hc : e'.child = i => hnew (List.mem_map.2 ⟨e', he', hc.trans he.symm⟩)
    · rw [List.eraseP_cons_of_neg (by simpa using he), List.filter_cons_of_pos (by simpa using he), ih hu]

theorem Unshared.mem_unlink (hu : g.Unshared) : e ∈ (g.unlink i).edges ↔ e ∈ g.edges ∧ e.child ≠ i := by
  simp [hu.unlink_edges]

theorem Sound.unlink (h : g.Sound) (i : NodeId) : (g.unlink i).Sound := h.of_sublist List.eraseP_sublist

theorem node?_without (g : Forest) (gone : List NodeId) (i : NodeId) :
    (g.without gone).node? i = if i ∈ gone then none else g.node? i := by
  obtain ⟨nodes, edges, fresh⟩ := g
  simp only [node?, without]
  induction nodes with
  | nil => simp
  | cons e nodes ih =>
    obtain ⟨k, n⟩ := e
    by_cases hk : k ∈ gone
    · rw [List.filter_cons_of_neg (by simpa using hk), ih, Table.lookup_cons_eq]
      by_cases hi : i = k
      · simp [hi, hk]
      · simp [hi]
    · rw [List.filter_cons_of_pos (by simpa using hk), Table.lookup_cons_eq, Table.lookup_cons_eq, ih]
      by_cases hi : i = k
      · simp [hi, hk]
      · simp [hi]

theorem mem_without {gone : List NodeId} :
    e ∈ (g.without gone).edges ↔ e ∈ g.edges ∧ e.parent ∉ gone ∧ e.child ∉ gone := by
  simp [without]

theorem Sound.without (h : g.Sound) (gone : List NodeId) : (g.without gone).Sound := by
  have hs := h.of_sublist (List.filter_sublist (p := fun e => e.parent ∉ gone ∧ e.child ∉ gone))
  have hn : (g.without gone).nodes.Sublist g.nodes := List.filter_sublist
  refine ⟨h.numbers.sublist (hn.map _), fun i hi => h.fresh i ((hn.map _).subset hi), fun e he => ?_, hs.slots,
    hs.unshared⟩
  obtain ⟨he, hp, hc⟩ := mem_without.1 he
  exact (h.fits e he).congr (by rw [node?_without, if_neg hp]) (by rw [node?_without, if_neg hc])

theorem node?_restrict (g : Forest) (keep : List NodeId) (i : NodeId) :
    (g.restrict keep).node? i = if i ∈ keep then g.node? i else none := by
  suffices h : ∀ l : List NodeId, (l.filterMap fun i => (g.node? i).map fun n => (i, n)).lookup i =
      if i ∈ l then g.node? i else none by
    exact (h keep.reverse).trans (by simp only [List.mem_reverse])
  intro l
  induction l with
  | nil => simp
  | cons k l ih =>
    rw [List.filterMap_cons]
    cases hk : g.node? k with
    | none =>
      simp only [Option.map_none, ih, List.mem_cons]
      by_cases hi : i = k <;> simp [hi, hk]
    | some n =>
      simp only [Option.map_some, Table.lookup_cons_eq, ih, List.mem_cons]
      by_cases hi : i = k <;> simp [hi, hk]

theorem numbers_restrict (g : Forest) (keep : List NodeId) :
    ((g.restrict keep).nodes.map (·.1)).Sublist keep.reverse := by
  simp only [restrict]
  induction keep.reverse with
  | nil => exact .refl _
  | cons k l ih =>
    rw [List.filterMap_cons]
    cases g.node? k with
    | none => exact ih.cons k
    | some n => exact ih.cons_cons k

theorem mem_restrict {keep : List NodeId} : e ∈ (g.restrict keep).edges ↔ e ∈ g.edges ∧ e.parent ∈ keep := by
  simp [restrict, outgoing, and_comm]

theorem Sound.restrict (h : g.Sound) {keep : List NodeId} (hk : keep.Nodup)
    (hc : ∀ e ∈ g.edges, e.parent ∈ keep → e.child ∈ keep) : (g.restrict keep).Sound := by
  have hedges : (g.restrict keep).edges.Perm (g.edges.filter (·.parent ∈ keep)) := by
    have hnodup : g.edges.Nodup := h.unshared.of_map
    refine (List.perm_ext_iff_of_nodup ?_ (hnodup.filter _)).2 fun e => by simp [mem_restrict]
    refine List.nodup_reverse.2 (List.nodup_flatMap.2 ⟨fun i _ => hnodup.filter _, hk.imp fun hne e he he' => hne ?_⟩)
    simp only [outgoing, List.mem_filter, decide_eq_true_eq] at he he'
    rw [← he.2, ← he'.2]
  have hs := h.of_sublist (List.filter_sublist (p := (·.parent ∈ keep)))
  refine ⟨?_, fun i hi => ?_, fun e he => ?_, (hedges.map _).nodup_iff.2 hs.slots,
    (hedges.map _).nodup_iff.2 hs.unshared⟩
  · exact (List.nodup_reverse.2 hk).sublist (numbers_restrict g keep)
  · obtain ⟨n, hn⟩ := mem_numbers.1 hi
    rw [node?_restrict] at hn
    split at hn
    · exact h.fresh i (mem_numbers.2 ⟨n, hn⟩)
    · cases hn
  · obtain ⟨he, hp⟩ := mem_restrict.1 he
    exact (h.fits e he).congr (by rw [node?_restrict, if_pos hp]) (by rw [node?_restrict, if_pos (hc e he hp)])

end Cutting

section Growing

theorem node?_add (g : Forest) (n : Node) (i : NodeId) :
    (g.add n).2.node? i = if i = g.fresh then some n else g.node? i := Table.lookup_cons_eq _ _ _ _

theorem Sound.ne_moved (h : g.Sound) (hi : i ∈ g.nodes.map (·.1)) (j : NodeId) : j + g.fresh ≠ i := fun heq =>
  Nat.not_lt_of_le (heq ▸ Nat.le_add_left _ _) (h.fresh i hi)

theorem Sound.node?_fresh (h : g.Sound) (hi : g.fresh ≤ i) : g.node? i = none :=
  node?_eq_none.2 fun hm => Nat.not_le_of_lt (h.fresh i hm) hi

theorem Sound.add (h : g.Sound) (n : Node) : (g.add n).2.Sound where
  numbers := List.nodup_cons.2 ⟨fun hm => Nat.lt_irrefl _ (h.fresh _ hm), h.numbers⟩
  fresh := List.forall_mem_cons.2 ⟨Nat.lt_succ_self _, fun i hi => Nat.lt_succ_of_lt (h.fresh i hi)⟩
  fits e he := by
    have old : ∀ i ∈ g.nodes.map (·.1), (g.add n).2.node? i = g.node? i := fun i hi => by
      rw [node?_add, if_neg (Nat.ne_of_lt (h.fresh i hi))]
    exact (h.fits e he).congr (old _ (h.parent_mem he)) (old _ (h.child_mem he))
  slots := h.slots
  unshared := h.unshared

theorem Sound.link (h : g.Sound) (hf : g.Fits ⟨i, slot, c⟩) (hs : ∀ e ∈ g.edges, e.parent = i → e.slot ≠ slot)
    (hc : ∀ e ∈ g.edges, e.child ≠ c) : (g.link i slot c).Sound where
  numbers := h.numbers
  fresh := h.fresh
  fits := List.forall_mem_cons.2 ⟨hf, h.fits⟩
  slots := List.nodup_cons.2 ⟨fun hm => by
    obtain ⟨e, he, heq⟩ := List.mem_map.1 hm
    exact hs e he (congrArg Prod.fst heq) (congrArg Prod.snd heq), h.slots⟩
  unshared := List.nodup_cons.2 ⟨fun hm => by
    obtain ⟨e, he, heq⟩ := List.mem_map.1 hm
    exact hc e he heq, h.unshared⟩

def vacate (g : Forest) (i : NodeId) (slot : Nat) : Forest := (g.child? i slot).elim g g.unlink

theorem node?_vacate (g : Forest) (i : NodeId) (slot : Nat) : (g.vacate i slot).node? = g.node? := by
  unfold vacate
  cases g.child? i slot <;> rfl

theorem Sound.vacate (h : g.Sound) (i : NodeId) (slot : Nat) : (g.vacate i slot).Sound := by
  unfold Forest.vacate
  cases g.child? i slot with
  | none => exact h
  | some c => exact h.unlink c

theorem Sound.mem_vacate (h : g.Sound) :
    e ∈ (g.vacate i slot).edges ↔ e ∈ g.edges ∧ ¬ (e.parent = i ∧ e.slot = slot) := by
  unfold Forest.vacate
  cases hc : g.child? i slot with
  | none =>
    exact ⟨fun he => ⟨he, fun hs => child?_eq_none.1 hc e he hs.1 hs.2⟩, fun h => h.1⟩
  | some c =>
    have hm := child?_mem hc
    rw [Option.elim_some, h.unshared.mem_unlink]
    refine and_congr_right fun he => not_congr ⟨fun hec => ?_, fun hs => ?_⟩
    · rw [h.unshared.edge_eq he hm hec]
      exact ⟨rfl, rfl⟩
    · rw [h.edge_eq_of_slot he hm hs.1 hs.2]

/-- A child is put into a slot just when the slot accepts it and it has no parent. -/
theorem setChild_ok {r : Option NodeId × Forest} : g.setChild i slot new = .ok r ↔
    g.Fits ⟨i, slot, new⟩ ∧ (∀ e ∈ g.edges, e.child ≠ new) ∧
      r = (g.child? i slot, (g.vacate i slot).link i slot new) := by
  unfold setChild Fits
  cases hp : g.node? i with
  | none => exact ⟨nofun, fun ⟨⟨_, _, h, _⟩, _⟩ => by cases h⟩
  | some p =>
    cases hc : g.node? new with
    | none => exact ⟨nofun, fun ⟨⟨_, _, _, h, _⟩, _⟩ => by cases h⟩
    | some c =>
      rw [← hasParent_eq_false]
      simp only [Result.bind_ok, Result.liftViolation_ok, Result.liftError_ok, Node.childType_ok,
        Option.some.injEq]
      constructor
      · rintro ⟨_, ⟨hs, rfl⟩, _, ha, h⟩
        cases hpar : g.hasParent new <;> rw [hpar] at h
        · exact ⟨⟨p, c, rfl, rfl, hs, checkSlot_ok.1 ha⟩, rfl, (Except.ok.inj h).symm⟩
        · cases h
      · rintro ⟨⟨_, _, rfl, rfl, hs, ha⟩, hpar, rfl⟩
        rw [hpar]
        exact ⟨_, ⟨hs, rfl⟩, (), checkSlot_ok.2 ha, rfl⟩

theorem setChild_refused {m : Node} {x : Error} (hp : g.node? i = some n) (hc : g.node? new = some m)
    (hslot : slot < n.arity) (hx : checkSlot (n.slotType slot) m.returns = .error x) :
    g.setChild i slot new = .error (.refused x) := by
  have hty : n.childType slot = .ok (n.slotType slot) := Node.childType_ok.2 ⟨hslot, rfl⟩
  rw [setChild, hp, hc]
  dsimp only
  rw [hty]
  change ((liftM (checkSlot (n.slotType slot) m.returns) : Except Failure Unit) >>= _) = _
  rw [hx]
  rfl

theorem Sound.setChild {r : Option NodeId × Forest} (h : g.Sound) (hr : g.setChild i slot new = .ok r) : r.2.Sound := by
  obtain ⟨hf, hnew, rfl⟩ := setChild_ok.1 hr
  refine (h.vacate i slot).link (hf.congr ?_ ?_) (fun e he hp hs => (h.mem_vacate.1 he).2 ⟨hp, hs⟩)
    fun e he => hnew e (h.mem_vacate.1 he).1
  · rw [node?_vacate]
  · rw [node?_vacate]

end Growing

section Grafting

variable {s : Subtree}

theorem node?_shift (g : Forest) (k i : NodeId) :
    (g.shift k).node? i = if k ≤ i then g.node? (i - k) else none := by
  obtain ⟨nodes, edges, fresh⟩ := g
  simp only [node?, shift]
  induction nodes with
  | nil => simp
  | cons e nodes ih =>
    rw [List.map_cons, Table.lookup_cons_eq, ih, Table.lookup_cons_eq]
    by_cases hk : k ≤ i
    · simp only [hk, if_true, Nat.sub_eq_iff_eq_add hk]
    · have : i ≠ e.1 + k := fun h => hk (h ▸ Nat.le_add_left k _)
      simp [hk, this]

theorem Sound.node?_graft (h : g.Sound) (s : Subtree) (i : NodeId) :
    (g.graft s).2.node? i = if g.fresh ≤ i then s.forest.node? (i - g.fresh) else g.node? i := by
  have : (g.graft s).2.node? i = ((s.forest.shift g.fresh).node? i).or (g.node? i) := List.lookup_append
  rw [this, node?_shift]
  by_cases hi : g.fresh ≤ i
  · rw [if_pos hi, if_pos hi, h.node?_fresh hi, Option.or_none]
  · rw [if_neg hi, if_neg hi, Option.none_or]

theorem Sound.node?_graft_moved (h : g.Sound) (s : Subtree) (i : NodeId) :
    (g.graft s).2.node? (i + g.fresh) = s.forest.node? i := by
  rw [h.node?_graft, if_pos (Nat.le_add_left _ _), Nat.add_sub_cancel]

theorem Sound.node?_graft_old (h : g.Sound) (s : Subtree) (hi : i < g.fresh) : (g.graft s).2.node? i = g.node? i := by
  rw [h.node?_graft, if_neg (Nat.not_le_of_lt hi)]

theorem mem_graft : e ∈ (g.graft s).2.edges ↔ e ∈ g.edges ∨ ∃ e' ∈ s.forest.edges, e'.shift g.fresh = e := by
  change e ∈ s.forest.edges.map (·.shift g.fresh) ++ g.edges ↔ _
  rw [List.mem_append, List.mem_map, or_comm]

theorem nodup_moved {α : Type} {l l' : List α} {f : α → α} {bound : Nat} (number : α → Nat) (hl : l.Nodup)
    (hl' : l'.Nodup) (hf : Function.Injective f) (hmoved : ∀ a, bound ≤ number (f a))
    (hold : ∀ a ∈ l', number a < bound) : (l.map f ++ l').Nodup := by
  refine List.nodup_append.2 ⟨hl.map hf, hl', fun a ha b hb hab => ?_⟩
  obtain ⟨a, -, rfl⟩ := List.mem_map.1 ha
  exact Nat.not_lt_of_le (hmoved a) (hab ▸ hold b hb)

theorem Sound.graft (h : g.Sound) (hs : s.forest.Sound) : (g.graft s).2.Sound := by
  have old : ∀ i ∈ g.nodes.map (·.1), (g.graft s).2.node? i = g.node? i := fun i hi =>
    h.node?_graft_old s (h.fresh i hi)
  have moved := h.node?_graft_moved s
  refine ⟨?_, fun i hi => ?_, fun e he => ?_, ?_, ?_⟩
  · have : (g.graft s).2.nodes.map (·.1) = (s.forest.nodes.map (·.1)).map (· + g.fresh) ++ g.nodes.map (·.1) := by
      simp [Forest.graft, Forest.shift]
    rw [this]
    exact nodup_moved id hs.numbers h.numbers (fun _ _ => Nat.add_right_cancel) (fun i => Nat.le_add_left _ i) h.fresh
  · obtain ⟨n, hn⟩ := mem_numbers.1 hi
    change i < s.forest.fresh + g.fresh
    rw [h.node?_graft] at hn
    split at hn
    · exact (Nat.sub_lt_iff_lt_add ‹_›).1 (hs.fresh _ (mem_numbers.2 ⟨n, hn⟩))
    · exact Nat.lt_add_left _ (h.fresh _ (mem_numbers.2 ⟨n, hn⟩))
  · rcases mem_graft.1 he with he | ⟨e₀, he₀, rfl⟩
    · exact (h.fits _ he).congr (old _ (h.parent_mem he)) (old _ (h.child_mem he))
    · obtain ⟨p, c, hp, hc, hrest⟩ := hs.fits e₀ he₀
      exact ⟨p, c, (moved _).trans hp, (moved _).trans hc, hrest⟩
  · have : (g.graft s).2.edges.map (fun e => (e.parent, e.slot)) =
        (s.forest.edges.map fun e => (e.parent, e.slot)).map (fun p => (p.1 + g.fresh, p.2)) ++
          g.edges.map fun e => (e.parent, e.slot) := by
      simp [Forest.graft, Forest.shift]
    rw [this]
    refine nodup_moved Prod.fst hs.slots h.slots ?_ (fun p => Nat.le_add_left _ p.1) ?_
    · rintro ⟨p, slot⟩ ⟨p', slot'⟩ heq
      simpa using heq
    · rintro p hp
      obtain ⟨e, he, rfl⟩ := List.mem_map.1 hp
      exact h.fresh _ (h.parent_mem he)
  · have : (g.graft s).2.edges.map (·.child) =
        (s.forest.edges.map (·.child)).map (· + g.fresh) ++ g.edges.map (·.child) := by
      simp [Forest.graft, Forest.shift]
    rw [Unshared, this]
    refine nodup_moved id hs.unshared h.unshared (fun _ _ => Nat.add_right_cancel) (fun c => Nat.le_add_left _ c) ?_
    rintro c hc
    obtain ⟨e, he, rfl⟩ := List.mem_map.1 hc
    exact h.fresh _ (h.child_mem he)

end Grafting

end Forest
end Grove
