import Grove.Proofs.Growing

/-! Valid trees, seen in the arena. A forest that is in order, hangs together below its root and has every slot
filled shows a complete shape, and what shows such a shape and holds nothing else is of this kind. The longest
way down is the height of the term. -/

namespace Grove

/-- The forest is one whole tree. -/
structure Forest.Whole (g : Forest) (r : NodeId) : Prop where
  sound : g.Sound
  root : r ∈ g.nodes.map (·.1)
  top : ∀ e ∈ g.edges, e.child ≠ r
  spans : ∀ i ∈ g.nodes.map (·.1), g.Reaches r i
  filled : ∀ i n, g.node? i = some n → ∀ slot < n.arity, ∃ c, ⟨i, slot, c⟩ ∈ g.edges

def Forest.NoDeeper (g : Forest) (i : NodeId) (d : Nat) : Prop := ∀ k j, g.Steps i k j → k ≤ d

theorem foldl_max_le {l : List Nat} {m d : Nat} : l.foldl max m ≤ d ↔ m ≤ d ∧ ∀ x ∈ l, x ≤ d := by
  induction l generalizing m with
  | nil => simp
  | cons x l ih => rw [List.foldl_cons, ih, Nat.max_le, List.forall_mem_cons, and_assoc]

theorem Term.height_le_iff {n : Node} {kids : Fin n.arity → Term} {d : Nat} :
    (Term.node n kids).height ≤ d ↔ ∀ slot, (kids slot).height + 1 ≤ d := by
  rw [Term.height, foldl_max_le]
  simp [List.mem_ofFn]

theorem Shape.Denotes.height {s : Shape} {e : Term} (h : s.Denotes e) : s.height = .ok e.height := by
  induction h with
  | @node id n kids terms _ ih =>
    simp only [Shape.height, Term.height, ih, Except.map]
    have hlist : (List.ofFn fun i => (terms i).height + 1) =
        (List.finRange n.arity).map fun i => (terms i).height + 1 := by
      rw [List.finRange, List.map_ofFn]
      rfl
    rw [hlist, List.foldl_map]
    exact List.foldlM_pure

namespace Forest

variable {g : Forest} {i j c : NodeId} {room d : Nat} {e : Term}

theorem mem_outgoing {e : Edge} : e ∈ g.outgoing i ↔ e ∈ g.edges ∧ e.parent = i := by
  simp [outgoing]

theorem flaw?_eq_none : g.flaw? i = none ↔ (∀ e ∈ g.edges, e.parent = i → e.slot < g.arity i) ∧
    ∀ slot < g.arity i, ∃ c, g.child? i slot = some c := by
  have hstray : g.stray? i = none ↔ ∀ e ∈ g.edges, e.parent = i → e.slot < g.arity i := by
    simp [stray?, List.find?_eq_none, mem_outgoing]
  unfold flaw?
  cases hs : g.stray? i with
  | some e =>
    rw [hs] at hstray
    constructor
    · intro h
      cases h
    · intro h
      cases hstray.2 h.1
  | none =>
    rw [← hstray, hs]
    simp [List.find?_eq_none, Option.ne_none_iff_exists']

theorem shapeTo_filled {n : Node} (hn : g.node? i = some n) (hf : g.flaw? i = none) (room : Nat) :
    g.shapeTo (room + 1) i = .node i n fun slot => g.shapeTo room ((g.child? i slot).getD i) := by
  rw [shapeTo, hn]
  dsimp only
  rw [hf]
  simp only [tabulate_eq]

/-- A shape that denotes a term is that of a node whose slots are all filled, and no others. -/
theorem shapeTo_denotes (h : (g.shapeTo room i).Denotes e) : ∃ room' n kids, room = room' + 1 ∧ e = .node n kids ∧
    g.node? i = some n ∧ (∀ e ∈ g.edges, e.parent = i → e.slot < n.arity) ∧
    g.shapeTo room i = .node i n (fun slot => g.shapeTo room' ((g.child? i slot).getD i)) ∧
    ∀ slot : Fin n.arity, ∃ c, g.child? i slot = some c ∧ (g.shapeTo room' c).Denotes (kids slot) := by
  cases room with
  | zero => cases h
  | succ room =>
    cases hn : g.node? i with
    | none =>
      rw [shapeTo, hn] at h
      cases h
    | some n =>
      cases hf : g.flaw? i with
      | some why =>
        rw [shapeTo, hn] at h
        dsimp only at h
        rw [hf] at h
        cases h
      | none =>
        have heq := shapeTo_filled hn hf room
        obtain ⟨hstray, hfull⟩ := flaw?_eq_none.1 hf
        have ha : g.arity i = n.arity := by simp [arity, hn]
        rw [ha] at hstray hfull
        rw [heq] at h
        cases h with
        | @node _ _ _ terms hkids =>
          refine ⟨room, n, terms, rfl, rfl, rfl, hstray, heq, fun slot => ?_⟩
          obtain ⟨c, hc⟩ := hfull slot slot.isLt
          have hkid : (g.shapeTo room ((g.child? i slot).getD i)).Denotes (terms slot) := hkids slot
          rw [hc] at hkid
          exact ⟨c, hc, hkid⟩

theorem label_of_denotes (h : (g.shapeTo room i).Denotes e) : g.node? i = some e.label := by
  obtain ⟨_, n, _, -, rfl, hn, -⟩ := shapeTo_denotes h
  exact hn

theorem mem_ids_of_denotes {n : Node} {kids : Fin n.arity → Term}
    (h : (g.shapeTo (room + 1) i).Denotes (.node n kids)) :
    (g.shapeTo (room + 1) i).ids = i :: (g.shapeTo (room + 1) i).ids.tail ∧
    ∀ j, j ∈ (g.shapeTo (room + 1) i).ids.tail ↔
      ∃ slot : Fin n.arity, ∃ c, g.child? i slot = some c ∧ (g.shapeTo room c).Denotes (kids slot) ∧
        j ∈ (g.shapeTo room c).ids := by
  obtain ⟨_, _, _, hroom, he, -, -, hs, hkids⟩ := shapeTo_denotes h
  cases hroom
  cases he
  rw [hs]
  refine ⟨rfl, fun j => ?_⟩
  simp only [Shape.ids, List.tail_cons, List.mem_flatten, List.mem_ofFn]
  constructor
  · rintro ⟨_, ⟨slot, rfl⟩, hj⟩
    obtain ⟨c, hc, hd⟩ := hkids slot
    rw [hc] at hj
    exact ⟨slot, c, hc, hd, hj⟩
  · rintro ⟨slot, c, hc, -, hj⟩
    exact ⟨_, ⟨slot, rfl⟩, by rwa [hc]⟩

theorem denotes_below (h : (g.shapeTo room i).Denotes e) (hj : j ∈ (g.shapeTo room i).ids) :
    g.Reaches i j ∧ ∃ room' e', (g.shapeTo room' j).Denotes e' ∧ ∀ n ∈ e'.nodes, n ∈ e.nodes := by
  induction room generalizing i e with
  | zero => cases h
  | succ room ih =>
    obtain ⟨_, n, kids, -, rfl, -⟩ := shapeTo_denotes h
    obtain ⟨hids, htail⟩ := mem_ids_of_denotes h
    rw [hids, List.mem_cons] at hj
    rcases hj with rfl | hj
    · exact ⟨.refl g _, _, _, h, fun _ hm => hm⟩
    · obtain ⟨slot, c, hc, hd, hj⟩ := (htail j).1 hj
      obtain ⟨hr, room', e', he', hsub⟩ := ih hd hj
      exact ⟨(Reaches.edge (child?_mem hc)).trans hr, room', e', he', fun m hm => Term.mem_nodes_kid slot (hsub m hm)⟩

theorem mem_nodes_of_denotes {n : Node} (h : (g.shapeTo room i).Denotes e) (hj : j ∈ (g.shapeTo room i).ids)
    (hn : g.node? j = some n) : n ∈ e.nodes := by
  obtain ⟨-, room, e', he', hsub⟩ := denotes_below h hj
  obtain rfl := Option.some.inj (hn.symm.trans (label_of_denotes he'))
  cases e' with
  | node m kids => exact hsub m (Term.mem_nodes_self kids)

theorem fits_below (h : (g.shapeTo room i).Denotes e) (ht : e.WellTyped) (hc : c ∈ (g.shapeTo room i).ids.tail) :
    ∃ p slot, g.child? p slot = some c ∧ g.Fits ⟨p, slot, c⟩ := by
  induction room generalizing i e with
  | zero => cases h
  | succ room ih =>
    obtain ⟨_, n, kids, -, rfl, hn, -⟩ := shapeTo_denotes h
    obtain ⟨slot, c', hchild, hd, hm⟩ := ((mem_ids_of_denotes h).2 c).1 hc
    obtain ⟨hacc, hkid⟩ := ht slot
    have hids : (g.shapeTo room c').ids = c' :: (g.shapeTo room c').ids.tail := by
      obtain ⟨_, _, _, rfl, hk, -⟩ := shapeTo_denotes hd
      rw [hk] at hd
      exact (mem_ids_of_denotes hd).1
    rw [hids, List.mem_cons] at hm
    rcases hm with rfl | hm
    · exact ⟨i, slot, hchild, n, _, hn, label_of_denotes hd, slot.isLt, hacc⟩
    · exact ih hd hkid hm

/-- What shows a well typed shape and holds nothing else is whole. -/
theorem whole_of_denotes (h : (g.shapeTo room i).Denotes e) (ht : e.WellTyped) (hnodup : (g.shapeTo room i).ids.Nodup)
    (hnodes : (g.nodes.map (·.1)).Perm (g.shapeTo room i).ids)
    (hedges : (g.edges.map (·.child)).Perm (g.shapeTo room i).ids.tail) (hb : g.Bounded) : g.Whole i := by
  obtain ⟨_, n, kids, rfl, rfl, -⟩ := shapeTo_denotes h
  have hids := (mem_ids_of_denotes h).1
  have hu : g.Unshared := hedges.nodup_iff.2 (hnodup.sublist (List.tail_sublist _))
  -- every edge is the one that is found in its slot
  have hfound : ∀ e ∈ g.edges, g.child? e.parent e.slot = some e.child ∧ g.Fits e := by
    intro e he
    have hm := hedges.mem_iff.1 (List.mem_map_of_mem (f := Edge.child) he)
    obtain ⟨p, slot, hc, hf⟩ := fits_below h ht hm
    have heq := hu.edge_eq he (child?_mem hc) rfl
    obtain rfl : e.parent = p := congrArg Edge.parent heq
    obtain rfl : e.slot = slot := congrArg Edge.slot heq
    exact ⟨hc, hf⟩
  have hsound : g.Sound := by
    refine ⟨hnodes.nodup_iff.2 hnodup, fun j hj => ?_, fun e he => (hfound e he).2, ?_, hu⟩
    · obtain ⟨p, hp, rfl⟩ := List.mem_map.1 hj
      exact hb.nodes p hp
    · refine (List.Nodup.of_map _ hu).map_on fun e he e' he' heq => hu.edge_eq he he' ?_
      have hc := (hfound e he).1
      rw [show e.parent = e'.parent from congrArg Prod.fst heq, show e.slot = e'.slot from congrArg Prod.snd heq,
        (hfound e' he').1] at hc
      exact (Option.some.inj hc).symm
  refine ⟨hsound, hnodes.mem_iff.2 (by rw [hids]; exact List.mem_cons_self), fun e he hc => ?_, fun j hj => ?_,
    fun j m hm slot hs => ?_⟩
  · have hm := hedges.mem_iff.1 (List.mem_map_of_mem (f := Edge.child) he)
    rw [hids] at hnodup
    exact (List.nodup_cons.1 hnodup).1 (hc ▸ hm)
  · exact (denotes_below h (hnodes.mem_iff.1 hj)).1
  · obtain ⟨-, _, _, hd, -⟩ := denotes_below h (hnodes.mem_iff.1 (mem_numbers.2 ⟨m, hm⟩))
    obtain ⟨_, m', _, -, -, hm', -, -, hkids⟩ := shapeTo_denotes hd
    obtain rfl := Option.some.inj (hm.symm.trans hm')
    obtain ⟨c, hc, -⟩ := hkids ⟨slot, hs⟩
    exact ⟨c, child?_mem hc⟩

section Converse

theorem NoDeeper.child {e : Edge} (h : g.NoDeeper e.parent (d + 1)) (he : e ∈ g.edges) : g.NoDeeper e.child d :=
  fun k j hs => Nat.le_of_succ_le_succ (h (k + 1) j (hs.head he))

theorem NoDeeper.pos {e : Edge} (h : g.NoDeeper e.parent d) (he : e ∈ g.edges) : ∃ d', d = d' + 1 :=
  ⟨d - 1, (Nat.sub_add_cancel (h 1 e.child (.down .here he))).symm⟩

theorem Sound.bounded (h : g.Sound) : g.Bounded :=
  ⟨fun _ he => h.fresh _ (List.mem_map_of_mem he), fun _ he => h.fresh _ (h.parent_mem he)⟩

theorem Sound.wellTyped (h : g.Sound) (hd : (g.shapeTo room i).Denotes e) : e.WellTyped := by
  induction room generalizing i e with
  | zero => cases hd
  | succ room ih =>
    obtain ⟨_, n, kids, hroom, rfl, hn, -, -, hkids⟩ := shapeTo_denotes hd
    cases hroom
    intro slot
    obtain ⟨c, hc, hkid⟩ := hkids slot
    obtain ⟨p, m, hp, hm, -, ha⟩ := h.fits _ (child?_mem hc)
    obtain rfl := Option.some.inj (hn.symm.trans hp)
    obtain rfl := Option.some.inj (hm.symm.trans (label_of_denotes hkid))
    exact ⟨ha, ih hkid⟩

theorem node?_of_denotes (hd : (g.shapeTo room i).Denotes e) {n : Node} (hn : n ∈ e.nodes) :
    ∃ j, g.node? j = some n := by
  induction room generalizing i e with
  | zero => cases hd
  | succ room ih =>
    obtain ⟨_, m, kids, hroom, rfl, hm, -, -, hkids⟩ := shapeTo_denotes hd
    cases hroom
    simp only [Term.nodes, List.mem_cons, List.mem_flatten, List.mem_ofFn] at hn
    rcases hn with rfl | ⟨_, ⟨slot, rfl⟩, hn⟩
    · exact ⟨i, hm⟩
    · obtain ⟨c, -, hkid⟩ := hkids slot
      exact ih hkid hn

/-- The longest way down is the height of the term. -/
theorem Sound.noDeeper_iff (h : g.Sound) (hd : (g.shapeTo room i).Denotes e) : g.NoDeeper i d ↔ e.height ≤ d := by
  induction room generalizing i e d with
  | zero => cases hd
  | succ room ih =>
    obtain ⟨_, n, kids, hroom, rfl, hn, hstray, -, hkids⟩ := shapeTo_denotes hd
    cases hroom
    rw [Term.height_le_iff]
    constructor
    · intro hdeep slot
      obtain ⟨c, hc, hkid⟩ := hkids slot
      have he := child?_mem hc
      obtain ⟨d, rfl⟩ := NoDeeper.pos (e := ⟨i, slot, c⟩) hdeep he
      exact Nat.succ_le_succ ((ih hkid).1 (hdeep.child (e := ⟨i, slot, c⟩) he))
    · rintro hheight (_ | k) j hs
      · exact Nat.zero_le d
      · obtain ⟨e, he, rfl, hs'⟩ := hs.first
        have hlt := hstray e he rfl
        obtain ⟨c, hc, hkid⟩ := hkids ⟨e.slot, hlt⟩
        obtain rfl := Option.some.inj (hc.symm.trans (h.child?_eq_some.2 he))
        obtain ⟨d, rfl⟩ : ∃ d', d = d' + 1 := ⟨d - 1, by have := hheight ⟨e.slot, hlt⟩; omega⟩
        exact Nat.succ_le_succ ((ih hkid).2 (Nat.le_of_succ_le_succ (hheight ⟨e.slot, hlt⟩)) k j hs')

variable {r : NodeId}

theorem Sound.flaw?_eq_none {n : Node} (h : g.Sound) (hn : g.node? i = some n)
    (hfilled : ∀ slot < n.arity, ∃ c, ⟨i, slot, c⟩ ∈ g.edges) : g.flaw? i = none := by
  have ha : g.arity i = n.arity := by simp [arity, hn]
  rw [Forest.flaw?_eq_none, ha]
  refine ⟨fun e he hp => ?_, fun slot hs => ?_⟩
  · obtain ⟨p, -, hp', -, hs, -⟩ := h.fits e he
    rw [hp] at hp'
    obtain rfl := Option.some.inj (hn.symm.trans hp')
    exact hs
  · obtain ⟨c, hc⟩ := hfilled slot hs
    exact ⟨c, h.child?_eq_some.2 hc⟩

theorem Whole.flaw? (h : g.Whole r) {n : Node} (hn : g.node? i = some n) : g.flaw? i = none :=
  h.sound.flaw?_eq_none hn (h.filled i n hn)

/-- The children of every node by slot. -/
def kidsOf (g : Forest) (i : NodeId) : List NodeId := (List.range (g.arity i)).filterMap (g.child? i)

theorem Whole.listsChildren (h : g.Whole r) : g.ListsChildren g.kidsOf where
  mem i c := by
    simp only [kidsOf, List.mem_filterMap, List.mem_range, h.sound.child?_eq_some]
    constructor
    · rintro ⟨slot, -, he⟩
      exact ⟨_, he, rfl, rfl⟩
    · rintro ⟨e, he, rfl, rfl⟩
      obtain ⟨p, -, hp, -, hs, -⟩ := h.sound.fits e he
      exact ⟨e.slot, by simpa [arity, hp] using hs, he⟩
  nodup i := by
    refine List.nodup_range.filterMap fun slot slot' c hc hc' => ?_
    have he := child?_mem hc
    have he' := child?_mem hc'
    exact congrArg Edge.slot (h.sound.unshared.edge_eq he he' rfl)

theorem Whole.kids_filled (h : g.Whole r) {n : Node} (hn : g.node? i = some n) :
    g.kidsOf i = List.ofFn fun slot : Fin n.arity => (g.child? i slot).getD i := by
  have ha : g.arity i = n.arity := by simp [arity, hn]
  have hsome : ∀ slot ∈ List.range n.arity, g.child? i slot = some ((g.child? i slot).getD i) := by
    intro slot hs
    obtain ⟨c, hc⟩ := h.filled i n hn slot (List.mem_range.1 hs)
    rw [h.sound.child?_eq_some.2 hc]
    rfl
  rw [kidsOf, ha, List.filterMap_congr hsome, List.filterMap_eq_map']
  exact List.ext_getElem (by simp) (by simp)

theorem Whole.shape_ids (h : g.Whole r) (hi : i ∈ g.nodes.map (·.1)) (hd : g.NoDeeper i d) :
    (g.shapeTo (d + 1) i).Complete ∧ (g.shapeTo (d + 1) i).ids = traverse g.kidsOf d i := by
  induction d generalizing i with
  | zero =>
    obtain ⟨n, hn⟩ := mem_numbers.1 hi
    have hnone : ∀ slot : Fin n.arity, False := fun slot => by
      obtain ⟨c, hc⟩ := h.filled i n hn slot slot.isLt
      obtain ⟨_, h0⟩ := NoDeeper.pos (e := ⟨i, slot, c⟩) hd hc
      cases h0
    rw [shapeTo_filled hn (h.flaw? hn)]
    refine ⟨fun slot => (hnone slot).elim, ?_⟩
    have ha : n.arity = 0 := Nat.eq_zero_of_not_pos fun hpos => hnone ⟨0, hpos⟩
    rw [Shape.ids, List.ofFn_eq_nil_iff.2 ha]
    rfl
  | succ d ih =>
    obtain ⟨n, hn⟩ := mem_numbers.1 hi
    rw [shapeTo_filled hn (h.flaw? hn)]
    have hkid : ∀ slot : Fin n.arity, (g.shapeTo (d + 1) ((g.child? i slot).getD i)).Complete ∧
        (g.shapeTo (d + 1) ((g.child? i slot).getD i)).ids = traverse g.kidsOf d ((g.child? i slot).getD i) := by
      intro slot
      obtain ⟨c, hc⟩ := h.filled i n hn slot slot.isLt
      rw [h.sound.child?_eq_some.2 hc]
      exact ih (h.sound.child_mem hc) (hd.child (e := ⟨i, slot, c⟩) hc)
    refine ⟨fun slot => (hkid slot).1, ?_⟩
    rw [traverse, h.kids_filled hn, Shape.ids]
    simp only [hkid, List.flatMap, List.map_ofFn, Function.comp_def]

theorem Whole.ids (h : g.Whole r) (hd : g.NoDeeper r d) : (g.shapeTo (d + 1) r).ids.Nodup ∧
    (g.nodes.map (·.1)).Perm (g.shapeTo (d + 1) r).ids ∧
    (g.edges.map (·.child)).Perm (g.shapeTo (d + 1) r).ids.tail := by
  obtain ⟨hcomplete, hids⟩ := h.shape_ids h.root hd
  obtain ⟨e, he⟩ := hcomplete.denotes
  have hmem : ∀ j, j ∈ (g.shapeTo (d + 1) r).ids ↔ g.Reaches r j := fun j => by
    rw [hids, h.listsChildren.mem_traverse]
    exact ⟨fun ⟨k, _, hs⟩ => ⟨k, hs⟩, fun ⟨k, hs⟩ => ⟨k, hd k j hs, hs⟩⟩
  have hnodup : (g.shapeTo (d + 1) r).ids.Nodup := by
    rw [hids]
    exact h.listsChildren.nodup_traverse h.sound.unshared (not_loops_of_top h.top) d
  obtain ⟨_, n, kids, -, rfl, -⟩ := shapeTo_denotes he
  have htail := (mem_ids_of_denotes he).1
  have hcons := hnodup
  rw [htail, List.nodup_cons] at hcons
  refine ⟨hnodup, (List.perm_ext_iff_of_nodup h.sound.numbers hnodup).2 fun j => ?_,
    (List.perm_ext_iff_of_nodup h.sound.unshared hcons.2).2 fun j => ?_⟩
  · rw [hmem]
    exact ⟨h.spans j, h.sound.reached_mem h.root⟩
  · have hsplit : j ∈ (g.shapeTo (d + 1) r).ids ↔ j = r ∨ j ∈ (g.shapeTo (d + 1) r).ids.tail := by
      conv_lhs => rw [htail, List.mem_cons]
    rw [List.mem_map]
    constructor
    · rintro ⟨e, he, rfl⟩
      exact (hsplit.1 ((hmem _).2 (h.spans _ (h.sound.child_mem he)))).resolve_left (h.top e he)
    · intro hj
      obtain ⟨k, hk⟩ := (hmem j).1 (hsplit.2 (.inr hj))
      rcases hk.last with ⟨-, rfl⟩ | ⟨_, e, -, he, hc, -⟩
      · exact absurd hj hcons.1
      · exact ⟨e, he, hc⟩

theorem Whole.not_loops (h : g.Whole r) (hi : i ∈ g.nodes.map (·.1)) : ¬ g.Loops i :=
  ((h.sound.ends_of_top h.root h.top).of_reaches (h.spans i hi)).not_loops

theorem Whole.mem_preorder (h : g.Whole r) : i ∈ g.preorder r ↔ i ∈ g.nodes.map (·.1) := by
  have hpre := h.sound.unshared.preorder (h.not_loops h.root) fun _ => h.sound.reached_mem h.root
  rw [hpre.2]
  exact ⟨h.sound.reached_mem h.root, h.spans i⟩

theorem Whole.noDeeper_size (h : g.Whole r) (hi : i ∈ g.nodes.map (·.1)) :
    ∃ room, g.size = room + 1 ∧ g.NoDeeper i room := by
  have hlt : ∀ k j, g.Steps i k j → k < g.size := fun k j =>
    h.sound.unshared.steps_lt (h.not_loops hi) fun _ => h.sound.reached_mem hi
  exact ⟨g.size - 1, (Nat.sub_add_cancel (hlt 0 i .here)).symm, fun k j hs => Nat.le_sub_one_of_lt (hlt k j hs)⟩

theorem Whole.height (h : g.Whole r) (hi : i ∈ g.nodes.map (·.1)) : ∃ x, g.height i = .ok x ∧ g.NoDeeper i x := by
  obtain ⟨room, hsize, hdeep⟩ := h.noDeeper_size hi
  obtain ⟨e, he⟩ := (h.shape_ids hi hdeep).1.denotes
  refine ⟨e.height, ?_, (h.sound.noDeeper_iff he).2 (Nat.le_refl _)⟩
  rw [Forest.height, shape, hsize, he.height]

theorem Whole.depthWithin (h : g.Whole r) {k room : Nat} (hs : g.Steps r k i) (hk : k ≤ room) :
    g.depthWithin room i = k := by
  induction hs generalizing room with
  | here =>
    cases room with
    | zero => rfl
    | succ room => rw [Forest.depthWithin, parent?_eq_none.2 h.top]
  | @down k e _ he ih =>
    obtain ⟨room, rfl⟩ : ∃ room', room = room' + 1 :=
      ⟨room - 1, (Nat.sub_add_cancel (Nat.le_trans (Nat.le_add_left 1 k) hk)).symm⟩
    have hp : g.parent? e.child = some (e.parent, e.slot) := (parent?_eq_some h.sound.unshared).2 he
    rw [Forest.depthWithin, hp]
    exact congrArg (· + 1) (ih (Nat.le_of_succ_le_succ hk))

theorem Whole.steps_depth (h : g.Whole r) (hi : i ∈ g.nodes.map (·.1)) : g.Steps r (g.depth i) i := by
  obtain ⟨k, hk⟩ := h.spans i hi
  obtain ⟨room, hsize, hdeep⟩ := h.noDeeper_size h.root
  rwa [depth, h.depthWithin hk (hsize ▸ Nat.le_succ_of_le (hdeep k i hk))]

end Converse

end Forest

/-- A tree whose root shows a complete, well typed term that its signature accepts, and that holds nothing else; its
numbers are below the next free one. -/
structure Tree.Intact (t : Tree) : Prop where
  term : ∃ e, t.Denotes e ∧ t.signature.returns.accepts e.returns = true ∧ e.WellTyped
  tight : ∀ s, t.shape? = some s → t.Tight s
  bounded : t.forest.Bounded

def Tree.Low (maxDepth : Nat) (t : Tree) : Prop := ∃ r h, t.root = some r ∧ t.forest.height r = .ok h ∧ h ≤ maxDepth

/-- A tree for the signature with nothing but what hangs together, and no higher than allowed; its numbers are
below the next free one. -/
structure Tree.Within (sig : Signature) (maxDepth : Nat) (t : Tree) : Prop where
  valid : t.ValidFor sig
  bounded : t.forest.Bounded
  height : ∃ r h, t.root = some r ∧ t.forest.height r = .ok h ∧ h ≤ maxDepth

/-- The root is the top of all that the tree holds, and the signature accepts it. -/
structure Tree.Standing (t : Tree) (r : NodeId) : Prop where
  root : t.root = some r
  whole : t.forest.Whole r
  accepted : ∀ n, t.forest.node? r = some n → t.signature.returns.accepts n.returns = true

/-- The tree is within the height and for the signature, seen in the arena. -/
structure Tree.Rooted (sig : Signature) (maxDepth : Nat) (t : Tree) (r : NodeId) : Prop extends t.Standing r where
  signature : t.signature = sig
  declared : ∀ i n, t.forest.node? i = some n → n.fits sig = true
  shallow : t.forest.NoDeeper r maxDepth

namespace Tree

variable {t : Tree} {r : NodeId} {e : Term} {sig : Signature} {maxDepth : Nat}

namespace Standing

variable (h : t.Standing r)
include h

theorem shape? : t.shape? = some (t.forest.shape r) := by rw [Tree.shape?, h.root, Option.map_some]

theorem denotes_iff : t.Denotes e ↔ (t.forest.shape r).Denotes e := by simp [Tree.Denotes, h.shape?]

theorem exists_term : ∃ e, t.Denotes e := by
  obtain ⟨room, hsize, hdeep⟩ := h.whole.noDeeper_size h.whole.root
  obtain ⟨e, he⟩ := (h.whole.shape_ids h.whole.root hdeep).1.denotes
  exact ⟨e, h.denotes_iff.2 (by rwa [Forest.shape, hsize])⟩

theorem tight {s : Shape} (hs : t.shape? = some s) : t.Tight s := by
  obtain ⟨room, hsize, hdeep⟩ := h.whole.noDeeper_size h.whole.root
  obtain rfl := Option.some.inj (h.shape?.symm.trans hs)
  obtain ⟨hnodup, hnodes, hedges⟩ := h.whole.ids hdeep
  rw [Forest.shape, hsize]
  exact ⟨hnodup, hnodes, hedges⟩

theorem mem_nodes_term (he : t.Denotes e) {n : Node} : n ∈ e.nodes ↔ ∃ i, t.forest.node? i = some n := by
  have hd := h.denotes_iff.1 he
  constructor
  · exact Forest.node?_of_denotes hd
  · rintro ⟨i, hi⟩
    have hmem := (h.tight h.shape?).nodes.mem_iff.1 (Forest.mem_numbers.2 ⟨n, hi⟩)
    exact Forest.mem_nodes_of_denotes hd hmem hi

theorem validFor_iff : t.ValidFor t.signature ↔ ∀ i n, t.forest.node? i = some n → n.fits t.signature = true := by
  constructor
  · rintro ⟨-, ⟨e, he, ha⟩, -⟩ i n hn
    exact ha.declared n ((h.mem_nodes_term he).2 ⟨i, hn⟩)
  · intro hfits
    obtain ⟨e, he⟩ := h.exists_term
    have hd := h.denotes_iff.1 he
    refine ⟨rfl, ⟨e, he, h.accepted _ (Forest.label_of_denotes hd), h.whole.sound.wellTyped hd, fun n hn => ?_⟩,
      fun _ hs => h.tight hs⟩
    obtain ⟨i, hi⟩ := (h.mem_nodes_term he).1 hn
    exact hfits i n hi

theorem low_iff : t.Low maxDepth ↔ t.forest.NoDeeper r maxDepth := by
  obtain ⟨e, he⟩ := h.exists_term
  have hd := h.denotes_iff.1 he
  rw [Forest.shape] at hd
  rw [h.whole.sound.noDeeper_iff hd]
  have hheight : t.forest.height r = .ok e.height := hd.height
  constructor
  · rintro ⟨_, x, hr, hx, hle⟩
    obtain rfl := Option.some.inj (h.root.symm.trans hr)
    exact Except.ok.inj (hheight.symm.trans hx) ▸ hle
  · exact fun hle => ⟨r, _, h.root, hheight, hle⟩

end Standing

theorem intact_iff : t.Intact ↔ ∃ r, t.Standing r := by
  constructor
  · rintro ⟨⟨e, ⟨s, hs, hd⟩, ha, ht⟩, htight, hb⟩
    obtain ⟨r, hr, rfl⟩ := Option.map_eq_some_iff.1 hs
    have htight := htight _ hs
    refine ⟨r, hr, Forest.whole_of_denotes hd ht htight.nodup htight.nodes htight.edges hb, fun n hn => ?_⟩
    obtain rfl := Option.some.inj (hn.symm.trans (Forest.label_of_denotes hd))
    exact ha
  · rintro ⟨r, h⟩
    obtain ⟨e, he⟩ := h.exists_term
    have hd := h.denotes_iff.1 he
    exact ⟨⟨e, he, h.accepted _ (Forest.label_of_denotes hd), h.whole.sound.wellTyped hd⟩, fun _ hs => h.tight hs,
      h.whole.sound.bounded⟩

theorem intact_of_wellTyped (ha : sig.returns.accepts e.returns = true) (ht : e.WellTyped) :
    (planted sig e).Intact := by
  refine ⟨⟨e, denotes_planted sig e, ha, ht⟩, fun s hs => ?_, (Forest.plant_spec e Forest.bounded_empty).2.bounded⟩
  obtain rfl := Option.some.inj ((shape?_planted sig e).symm.trans hs)
  exact tight_planted sig e

theorem ValidFor.intact (h : t.ValidFor sig) (hb : t.forest.Bounded) : t.Intact := by
  obtain ⟨rfl, ⟨e, he, ha⟩, htight⟩ := h
  exact ⟨⟨e, he, ha.root, ha.slots⟩, htight, hb⟩

theorem within_iff : t.Within sig maxDepth ↔ ∃ r, t.Rooted sig maxDepth r := by
  constructor
  · rintro ⟨hv, hb, hlow⟩
    obtain ⟨r, hr⟩ := intact_iff.1 (hv.intact hb)
    obtain rfl := hv.signature
    exact ⟨r, hr, rfl, hr.validFor_iff.1 hv, hr.low_iff.1 hlow⟩
  · rintro ⟨r, hr, rfl, hdeclared, hshallow⟩
    exact ⟨hr.validFor_iff.2 hdeclared, hr.whole.sound.bounded, hr.low_iff.2 hshallow⟩

end Tree
end Grove
