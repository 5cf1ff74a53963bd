import Grove.Proofs.Plots

/-! Subtrees made once more. A subtree that is taken out of a plot, copied or grafted is put together anew, node by node
and edge by edge, under numbers that may have been used before. What comes out is the subtree, and it is what the
forest's own operations give, but for the numbers. -/

namespace Grove

/-- The edge between the new numbers, with the slot that it had. -/
def Relinked (numbers : List (NodeId × NodeId)) (e e' : Edge) : Prop :=
  (e.parent, e'.parent) ∈ numbers ∧ e'.slot = e.slot ∧ (e.child, e'.child) ∈ numbers

/-- The new number of a node. -/
def renumbered (numbers : List (NodeId × NodeId)) (i : NodeId) : NodeId := (numbers.lookup i).getD i

/-- In the plot stand, beside `h`, nodes of `g` under new numbers and some edges between them, the last ones first. -/
structure Carried (g h : Forest) (numbers : List (NodeId × NodeId)) (links : List Edge) (b : Plot) : Prop where
  tidy : b.Tidy
  live : ∀ p ∈ numbers, g.node? p.1 ≠ none
  nodes : b.forest.nodes = (numbers.filterMap fun p => (g.node? p.1).map fun n => (p.2, n)) ++ h.nodes
  edges : ∃ linked, b.forest.edges = linked ++ h.edges ∧ List.Forall₂ (Relinked numbers) links linked

variable {g h : Forest} {numbers : List (NodeId × NodeId)} {links es : List Edge} {a b : Plot} {i p c : NodeId}
  {n : Node} {e e' : Edge}

theorem exists_number (hi : i ∈ numbers.map (·.1)) : ∃ j, numbers.lookup i = some j ∧ (i, j) ∈ numbers := by
  obtain ⟨q, hq, rfl⟩ := List.mem_map.1 hi
  obtain ⟨j, hj⟩ := Option.isSome_iff_exists.1 (List.lookup_isSome_iff.2 ⟨q, hq, beq_self_eq_true q.1⟩)
  obtain ⟨l, l', rfl, -⟩ := List.lookup_eq_some_iff.1 hj
  exact ⟨j, hj, by simp⟩

theorem Relinked.cons (pair : NodeId × NodeId) (h : Relinked numbers e e') : Relinked (pair :: numbers) e e' :=
  ⟨List.mem_cons_of_mem _ h.1, h.2.1, List.mem_cons_of_mem _ h.2.2⟩

namespace Carried

theorem start (hb : b.Tidy) : Carried g b.forest [] [] b := ⟨hb, nofun, rfl, [], rfl, .nil⟩

section Steps

variable (hc : Carried g h numbers links b)
include hc

theorem add (hn : g.node? i = some n) : Carried g h ((i, (b.add n).1) :: numbers) links (b.add n).2 where
  tidy := hc.tidy.add n
  live := List.forall_mem_cons.2 ⟨by simp [hn], hc.live⟩
  nodes := by
    rw [Plot.nodes_add, hc.nodes, List.filterMap_cons, hn]
    rfl
  edges := by
    obtain ⟨linked, heq, hlinked⟩ := hc.edges
    exact ⟨linked, heq, hlinked.imp fun _ _ => .cons _⟩

theorem link (hp : (e.parent, p) ∈ numbers) (hm : (e.child, c) ∈ numbers) :
    Carried g h numbers (e :: links) (b.link p e.slot c) where
  tidy := hc.tidy.link p e.slot c
  live := hc.live
  nodes := by
    rw [Plot.forest_link]
    exact hc.nodes
  edges := by
    obtain ⟨linked, heq, hlinked⟩ := hc.edges
    refine ⟨⟨p, e.slot, c⟩ :: linked, ?_, .cons ⟨hp, rfl, hm⟩ hlinked⟩
    rw [Plot.forest_link, List.cons_append, ← heq]
    rfl

/-- Edges between nodes that have a new number are made once more. -/
theorem relinked (hes : ∀ e ∈ es, e.parent ∈ numbers.map (·.1) ∧ e.child ∈ numbers.map (·.1)) :
    ∃ b', es.foldlM (Plot.relink numbers) b = .ok b' ∧ Carried g h numbers (es.reverse ++ links) b' := by
  induction es generalizing b links with
  | nil => exact ⟨b, rfl, hc⟩
  | cons e es ih =>
    obtain ⟨⟨hp, hm⟩, hes⟩ := List.forall_mem_cons.1 hes
    obtain ⟨p, hp, hpair⟩ := exists_number hp
    obtain ⟨c, hm, hpair'⟩ := exists_number hm
    obtain ⟨b', hrun, hc'⟩ := ih (hc.link hpair hpair') hes
    refine ⟨b', ?_, by rwa [List.reverse_cons, List.append_assoc]⟩
    rw [List.foldlM_cons, Plot.relink, hp, hm]
    exact hrun

theorem congr {g' : Forest} (hsame : ∀ pair ∈ numbers, g'.node? pair.1 = g.node? pair.1) :
    Carried g' h numbers links b where
  tidy := hc.tidy
  live pair hp := hsame pair hp ▸ hc.live pair hp
  nodes := by
    rw [hc.nodes]
    exact congrArg (· ++ h.nodes) (List.filterMap_congr fun pair hp => by rw [hsame pair hp])
  edges := hc.edges

end Steps

section Done

variable (hg : g.Sound) (hh : h.Sound) (hc : Carried g h numbers links b)
  (hnumbers : (numbers.map (·.1)).Perm (g.nodes.map (·.1))) (hlinks : links.Perm g.edges)
include hg hnumbers

omit hc in
theorem renumbered_eq {pair : NodeId × NodeId} (hp : pair ∈ numbers) : renumbered numbers pair.1 = pair.2 := by
  rw [renumbered, (Table.lookup_eq_some (hnumbers.nodup_iff.2 hg.numbers)).2 hp, Option.getD_some]

theorem mem_renumbered (hi : i ∈ g.live) : (i, renumbered numbers i) ∈ numbers := by
  obtain ⟨j, -, hj⟩ := exists_number (hnumbers.mem_iff.2 (Forest.mem_live.1 hi))
  have heq := renumbered_eq hg hnumbers hj
  exact heq ▸ hj

include hc

omit hg hnumbers in
theorem numbers_eq : b.forest.nodes.map (·.1) = numbers.map (·.2) ++ h.nodes.map (·.1) := by
  rw [hc.nodes, List.map_append]
  refine congrArg (· ++ h.nodes.map (·.1)) ?_
  have hlive := hc.live
  clear hc
  induction numbers with
  | nil => rfl
  | cons p numbers ih =>
    obtain ⟨hp, hlive⟩ := List.forall_mem_cons.1 hlive
    obtain ⟨n, hn⟩ := Option.ne_none_iff_exists'.1 hp
    simp [hn, ih hlive]

omit hg hnumbers in
theorem node?_eq_some {j : NodeId} : b.forest.node? j = some n ↔ (j, n) ∈ b.forest.nodes :=
  Table.lookup_eq_some hc.tidy.nodes.numbers

theorem node?_moved (hi : i ∈ g.live) : b.forest.node? (renumbered numbers i) = g.node? i := by
  obtain ⟨n, hn⟩ := Option.ne_none_iff_exists'.1 hi
  rw [hn, hc.node?_eq_some, hc.nodes]
  exact List.mem_append_left _ (List.mem_filterMap.2 ⟨_, mem_renumbered hg hnumbers hi, by simp [hn]⟩)

theorem edges_eq : b.forest.edges = links.map (Edge.rename (renumbered numbers)) ++ h.edges := by
  obtain ⟨linked, heq, hlinked⟩ := hc.edges
  have hsame : List.Forall₂ (· = ·) (links.map (Edge.rename (renumbered numbers))) linked := by
    refine List.forall₂_map_left_iff.2 (hlinked.imp fun e e' ⟨hp, hs, hm⟩ => ?_)
    obtain ⟨p, slot, c⟩ := e'
    obtain rfl : slot = e.slot := hs
    rw [Edge.rename, renumbered_eq hg hnumbers hp, renumbered_eq hg hnumbers hm]
  rw [List.forall₂_eq_eq_eq] at hsame
  rw [heq, hsame]

include hh hlinks

theorem joins : g.Joins h (renumbered numbers) b.forest := by
  -- no number is that of two entries, so the new numbers differ from each other and from those beside
  have hnew : (numbers.map (·.2) ++ h.nodes.map (·.1)).Nodup := hc.numbers_eq ▸ hc.tidy.nodes.numbers
  obtain ⟨hfirst, -, hdisjoint⟩ := List.nodup_append.1 hnew
  have hapart : ∀ i ∈ g.live, renumbered numbers i ∉ h.live := fun i hi hm =>
    hdisjoint _ (List.mem_map_of_mem (mem_renumbered hg hnumbers hi)) _ (Forest.mem_live.1 hm) rfl
  have hinj : Set.InjOn (renumbered numbers) g.live := fun i hi j hj heq =>
    congrArg Prod.fst
      (List.inj_on_of_nodup_map hfirst (mem_renumbered hg hnumbers hi) (mem_renumbered hg hnumbers hj) heq)
  have hmoved : ∀ i ∈ g.live, b.forest.node? (renumbered numbers i) = g.node? i := fun i hi =>
    hc.node?_moved hg hnumbers hi
  have hkept : ∀ j ∈ h.live, b.forest.node? j = h.node? j := fun j hj => by
    obtain ⟨n, hn⟩ := Option.ne_none_iff_exists'.1 hj
    rw [hn, hc.node?_eq_some, hc.nodes]
    exact List.mem_append_right _ (hh.mem_nodes.2 hn)
  have hedges := hc.edges_eq hg hnumbers
  refine ⟨hg.beside hh hc.tidy.nodes.numbers (fun i hi => hc.tidy.nodes.lt hi) hapart hinj hmoved hkept hlinks hedges,
    hapart, hinj, hmoved, hkept, fun j hj => ?_, fun e => ?_⟩
  · have hm := Forest.mem_live.1 hj
    rw [hc.numbers_eq, List.mem_append, List.mem_map] at hm
    rcases hm with ⟨pair, hpair, rfl⟩ | hold
    · exact .inr ⟨pair.1, hc.live pair hpair, renumbered_eq hg hnumbers hpair⟩
    · exact .inl (Forest.mem_live.2 hold)
  · rw [hedges, List.mem_append, List.mem_map, or_comm]
    simp only [hlinks.mem_iff]

end Done
end Carried

theorem Forest.without_nil (g : Forest) : g.without [] = g := by
  simp [Forest.without]

theorem Forest.without_without (g : Forest) (l l' : List NodeId) : (g.without l).without l' = g.without (l ++ l') := by
  have hnodes : ∀ e : NodeId × Node, (decide (e.1 ∉ l') && decide (e.1 ∉ l)) = decide (e.1 ∉ l ++ l') := fun e => by
    simp [Bool.and_comm]
  have hedges : ∀ e : Edge, (decide (e.parent ∉ l' ∧ e.child ∉ l') && decide (e.parent ∉ l ∧ e.child ∉ l)) =
      decide (e.parent ∉ l ++ l' ∧ e.child ∉ l ++ l') := fun e => by
    rw [Bool.eq_iff_iff]
    simp
    tauto
  simp only [Forest.without, List.filter_filter, hnodes, hedges]

namespace Removal

/-- The nodes that were moved are gone from the one plot and carried into the other. -/
structure Moved (g h : Forest) (links : List Edge) (m : Removal) (nodes : List NodeId) (m' : Removal) : Prop where
  tidy : m'.source.Tidy
  rest : m'.source.forest = m.source.forest.without nodes
  carried : Carried g h m'.numbers links m'.target
  numbers : m'.numbers.map (·.1) = nodes.reverse ++ m.numbers.map (·.1)

theorem moved {m : Removal} {nodes : List NodeId} (hs : m.source.Tidy) (hc : Carried g h m.numbers links m.target)
    (hnodup : nodes.Nodup) (hsame : ∀ i ∈ nodes, m.source.forest.node? i = g.node? i)
    (hlive : ∀ i ∈ nodes, i ∈ g.live) :
    m.Moved g h links nodes (nodes.foldl move m) := by
  induction nodes generalizing m with
  | nil => exact ⟨hs, (m.source.forest.without_nil).symm, hc, rfl⟩
  | cons i nodes ih =>
    obtain ⟨hnew, hnodup⟩ := List.nodup_cons.1 hnodup
    obtain ⟨hi, hsame⟩ := List.forall_mem_cons.1 hsame
    obtain ⟨hl, hlive⟩ := List.forall_mem_cons.1 hlive
    obtain ⟨n, hn⟩ := Option.ne_none_iff_exists'.1 hl
    obtain ⟨source, hremove⟩ : ∃ source, m.source.remove i = some (n, source) :=
      ⟨_, by rw [Plot.remove, show m.source.nodes.get? i = some n from hi.trans hn, Option.map_some]⟩
    obtain ⟨hs', -, hrest⟩ := hs.remove hremove
    have hmove : m.move i = ⟨source, (m.target.add n).2, (i, (m.target.add n).1) :: m.numbers⟩ := by
      rw [move, hremove]
    -- the nodes are listed once, so those still to come are where they were
    have hkept : ∀ j ∈ nodes, source.forest.node? j = g.node? j := fun j hj => by
      have hne : j ∉ [i] := fun hm => hnew (List.mem_singleton.1 hm ▸ hj)
      rw [hrest, Forest.node?_without, if_neg hne, hsame j hj]
    have h' := @ih ⟨source, (m.target.add n).2, (i, (m.target.add n).1) :: m.numbers⟩ hs' (hc.add hn) hnodup hkept hlive
    rw [List.foldl_cons, hmove]
    refine ⟨h'.tidy, ?_, h'.carried, ?_⟩
    · rw [h'.rest, hrest, Forest.without_without]
      rfl
    · rw [h'.numbers, List.reverse_cons, List.append_assoc]
      rfl

end Removal

namespace Plot

/-- All nodes of a forest are moved with its edges, from a plot where they stand into another one. -/
theorem transfer_joins {source target : Plot} {nodes : List NodeId} {edges : List Edge} {root : NodeId}
    (hs : source.Tidy) (ht : target.Tidy) (hg : g.Sound) (hh : target.forest.Sound)
    (hsame : ∀ i ∈ nodes, source.forest.node? i = g.node? i) (hnodes : nodes.Perm (g.nodes.map (·.1)))
    (hedges : edges.Perm g.edges) (hroot : root ∈ nodes) :
    ∃ f rest b, transfer nodes edges root source target = .ok (f root, rest, b) ∧ rest.Tidy ∧
      rest.forest = source.forest.without nodes ∧ b.Tidy ∧ g.Joins target.forest f b.forest := by
  have hlive : ∀ i ∈ nodes, i ∈ g.live := fun i hi => Forest.mem_live.2 (hnodes.subset hi)
  have hm := Removal.moved (m := ⟨source, target, []⟩) hs (.start ht) (hnodes.nodup_iff.2 hg.numbers) hsame hlive
  generalize hmoved : nodes.foldl Removal.move ⟨source, target, []⟩ = m at hm
  have hkeys : (m.numbers.map (·.1)).Perm nodes := by
    rw [hm.numbers]
    simp
  have hends : ∀ e ∈ edges, e.parent ∈ m.numbers.map (·.1) ∧ e.child ∈ m.numbers.map (·.1) := fun e he => by
    have he := hedges.subset he
    exact ⟨hkeys.mem_iff.2 (hnodes.mem_iff.2 (hg.parent_mem he)), hkeys.mem_iff.2 (hnodes.mem_iff.2 (hg.child_mem he))⟩
  obtain ⟨b, hrun, hc⟩ := hm.carried.relinked hends
  have hlinks : (edges.reverse ++ []).Perm g.edges := by simpa using (List.reverse_perm edges).trans hedges
  obtain ⟨new, hnew, -⟩ := exists_number (hkeys.mem_iff.2 hroot)
  have hroot' : renumbered m.numbers root = new := by rw [renumbered, hnew, Option.getD_some]
  refine ⟨renumbered m.numbers, m.source, b, ?_, hm.tidy, hm.rest, hc.tidy, hc.joins hg hh (hkeys.trans hnodes) hlinks⟩
  rw [transfer, hmoved, hroot', hrun, hnew]
  rfl

theorem walk_ok {stack listed : List NodeId} (hw : a.forest.Walks stack listed) {room : Nat}
    (hroom : listed.length ≤ room) : a.walk room stack = .ok listed := by
  induction hw generalizing room with
  | done => cases room <;> rfl
  | next _ ih =>
    cases room with
    | zero => cases hroom
    | succ room =>
      rw [walk, ih (Nat.le_of_succ_le_succ hroom)]
      rfl

section Copying

variable {level : List (NodeId × NodeId)}

theorem copyChildren_ok (hc : Carried a.forest h numbers links b) {old new : NodeId} (hpair : (old, new) ∈ numbers)
    (hes : ∀ e ∈ es, e.parent = old ∧ a.forest.node? e.child ≠ none) (next : List (NodeId × NodeId)) :
    ∃ b' added, es.foldlM (a.copyChild new) (b, next) = .ok (b', next ++ added) ∧ added.map (·.1) = es.map (·.child) ∧
      Carried a.forest h (added.reverse ++ numbers) (es.reverse ++ links) b' := by
  induction es generalizing b numbers links next with
  | nil => exact ⟨b, [], by rw [List.append_nil]; rfl, rfl, hc⟩
  | cons e es ih =>
    obtain ⟨⟨rfl, hlive⟩, hes⟩ := List.forall_mem_cons.1 hes
    obtain ⟨n, hn⟩ := Option.ne_none_iff_exists'.1 hlive
    have hlinked := (hc.add hn).link (List.mem_cons_of_mem _ hpair) List.mem_cons_self
    obtain ⟨b', added, hrun, hadded, hc'⟩ :=
      ih hlinked (List.mem_cons_of_mem _ hpair) hes (next ++ [(e.child, (b.add n).1)])
    refine ⟨b', (e.child, (b.add n).1) :: added, ?_, by rw [List.map_cons, List.map_cons, hadded], ?_⟩
    · rw [List.foldlM_cons, copyChild, show a.nodes.get? e.child = some n from hn]
      rw [List.append_assoc] at hrun
      exact hrun
    · simpa using hc'

theorem copyLevel_ok (ha : a.forest.Sound) (hc : Carried a.forest h numbers links b)
    (hlevel : ∀ pair ∈ level, pair ∈ numbers) (next : List (NodeId × NodeId)) :
    ∃ b' added, level.foldlM (fun c p => (a.forest.outgoing p.1).foldlM (a.copyChild p.2) c) (b, next) =
        .ok (b', next ++ added) ∧
      added.map (·.1) = (level.map (·.1)).flatMap (fun j => (a.forest.outgoing j).map (·.child)) ∧
      Carried a.forest h (added.reverse ++ numbers)
        (((level.map (·.1)).flatMap a.forest.outgoing).reverse ++ links) b' := by
  induction level generalizing b numbers links next with
  | nil => exact ⟨b, [], by rw [List.append_nil]; rfl, rfl, hc⟩
  | cons pair level ih =>
    obtain ⟨hpair, hlevel⟩ := List.forall_mem_cons.1 hlevel
    have hes : ∀ e ∈ a.forest.outgoing pair.1, e.parent = pair.1 ∧ a.forest.node? e.child ≠ none := fun e he => by
      obtain ⟨he, hp⟩ := Forest.mem_outgoing.1 he
      exact ⟨hp, ha.child_live he⟩
    obtain ⟨b₁, first, hrun₁, hfirst, hc₁⟩ := copyChildren_ok hc (show (pair.1, pair.2) ∈ numbers from hpair) hes next
    obtain ⟨b', rest, hrun, hrest, hc'⟩ :=
      ih hc₁ (fun p hp => List.mem_append_right _ (hlevel p hp)) (next ++ first)
    refine ⟨b', first ++ rest, ?_, by simp [hfirst, hrest], by simpa using hc'⟩
    rw [List.foldlM_cons, hrun₁, ← List.append_assoc]
    exact hrun

/-- Level by level, all that is below some nodes is copied, and every edge below them. -/
theorem copyLevels_ok (ha : a.forest.Sound) {olds copied : List NodeId} (hs : a.forest.Spreads olds copied)
    (hc : Carried a.forest h numbers links b) (hlevel : ∀ pair ∈ level, pair ∈ numbers) (holds : level.map (·.1) = olds)
    {room : Nat} (hroom : copied.length ≤ room) :
    ∃ b' added made, a.copyLevels room level b = .ok b' ∧ Carried a.forest h (added ++ numbers) (made ++ links) b' ∧
      (olds ++ added.map (·.1)).Perm copied ∧ made.Perm (copied.flatMap a.forest.outgoing) := by
  induction hs generalizing numbers links b level room with
  | done =>
    obtain rfl := List.map_eq_nil_iff.1 holds
    exact ⟨b, [], [], by cases room <;> rfl, hc, .refl _, .refl _⟩
  | @next i olds copied _ ih =>
    cases room with
    | zero => cases hroom
    | succ room =>
      -- the level is in the copy already, and the next one will be when its edges have been followed
      obtain ⟨b₁, next, hrun₁, hnext, hc₁⟩ := copyLevel_ok ha hc hlevel []
      rw [List.nil_append] at hrun₁
      rw [holds] at hnext hc₁
      have hroom' : copied.length ≤ room := by
        simp only [List.cons_append, List.length_cons, List.length_append] at hroom
        omega
      obtain ⟨b', added, made, hrun, hc', hadded, hmade⟩ :=
        ih hc₁ (fun p hp => List.mem_append_left _ (List.mem_reverse.2 hp)) hnext hroom'
      refine ⟨b', added ++ next.reverse, made ++ ((i :: olds).flatMap a.forest.outgoing).reverse, ?_,
        by simpa using hc', ?_, ?_⟩
      · obtain ⟨pair, level, rfl⟩ : ∃ pair level', level = pair :: level' := by
          cases level with
          | nil => cases holds
          | cons pair level => exact ⟨pair, level, rfl⟩
        rw [copyLevels, hrun₁]
        · exact hrun
        · nofun
      · rw [List.map_append, List.map_reverse, hnext]
        refine List.Perm.append_left _ (.trans ?_ hadded)
        exact List.perm_append_comm.trans (List.Perm.append_right _ (List.reverse_perm _))
      · rw [List.flatMap_append]
        exact (hmade.append (List.reverse_perm _)).trans List.perm_append_comm

end Copying

section Rebuilt

variable (ha : a.Sound) (hi : a.forest.node? i ≠ none)
include ha hi

theorem Sound.length_preorder_le : (a.forest.preorder i).length ≤ a.forest.size := by
  have h := ha.proper.severable hi
  obtain ⟨hsound, hlive, -⟩ := h.severed
  have hnodup : (a.forest.preorder i).Nodup := h.preorder_perm.nodup_iff.2 hsound.numbers
  have hsub : a.forest.preorder i ⊆ a.forest.nodes.map (·.1) := fun j hj =>
    h.sound.reached_mem h.live (h.mem_preorder.1 hj)
  simpa [Forest.size] using (hnodup.subperm hsub).length_le

theorem Sound.cutting_sound : (a.forest.cutting i).forest.Sound ∧
    (a.forest.preorder i).Perm ((a.forest.cutting i).forest.nodes.map (·.1)) := by
  have h := ha.proper.severable hi
  rw [h.cutting_eq]
  exact ⟨h.severed.1, h.preorder_perm⟩

/-- What is taken out is the subtree that the forest cuts out, and the rest is the forest's. -/
theorem Sound.take_ok : ∃ f part rest, a.take i = .ok (⟨part, f i⟩, rest) ∧ part.Tidy ∧
    (a.forest.cutting i).forest.Joins .empty f part.forest ∧ rest.Tidy ∧ rest.forest = (a.forest.take i).2 := by
  have h := ha.proper.severable hi
  obtain ⟨hsound, hperm⟩ := ha.cutting_sound hi
  have hwalk := walk_ok (ha.proper.loopless.walks h.sound h.live) (ha.length_preorder_le hi)
  have hsame : ∀ j ∈ a.forest.preorder i, a.forest.node? j = (a.forest.cutting i).forest.node? j := fun j hj => by
    rw [Forest.cutting, Forest.node?_restrict, if_pos hj]
  have hroot : i ∈ a.forest.preorder i := h.mem_preorder.2 (.refl _ i)
  obtain ⟨f, rest, part, hrun, hrest, heq, hpart, hj⟩ := transfer_joins ha.toTidy .empty
    hsound .empty hsame hperm (List.reverse_perm _).symm hroot
  refine ⟨f, part, rest, ?_, hpart, hj, hrest, heq⟩
  rw [take, hwalk]
  change (transfer _ _ i a .empty >>= _) = _
  rw [hrun]
  rfl

/-- And so is a copy. -/
theorem Sound.copy_ok : ∃ f part, a.copy i = .ok ⟨part, f i⟩ ∧ part.Tidy ∧
    (a.forest.cutting i).forest.Joins .empty f part.forest := by
  have h := ha.proper.severable hi
  obtain ⟨hsound, hperm⟩ := ha.cutting_sound hi
  obtain ⟨n, hn⟩ := Option.ne_none_iff_exists'.1 hi
  obtain ⟨copied, hspread, hcopied⟩ := ha.proper.loopless.spreads h.sound h.live
  have hstart : Carried a.forest .empty [(i, (empty.add n).1)] [] (empty.add n).2 :=
    (Carried.start .empty).add hn
  obtain ⟨part, added, made, hrun, hc, hadded, hmade⟩ := copyLevels_ok h.sound hspread hstart (fun _ hp => hp) rfl
    (hcopied.length_eq ▸ ha.length_preorder_le hi)
  have hkeys : ((added ++ [(i, (empty.add n).1)]).map (·.1)).Perm (a.forest.preorder i) := by
    rw [List.map_append]
    exact (List.perm_append_comm.trans hadded).trans hcopied
  have hmade : (made ++ []).Perm (a.forest.cutting i).forest.edges := by
    rw [List.append_nil]
    exact (hmade.trans (hcopied.flatMap_right _)).trans (List.reverse_perm _).symm
  have hcut : Carried (a.forest.cutting i).forest .empty (added ++ [(i, (empty.add n).1)]) (made ++ []) part :=
    hc.congr fun pair hp => by
      rw [Forest.cutting, Forest.node?_restrict, if_pos (hkeys.subset (List.mem_map_of_mem hp))]
  have hroot : renumbered (added ++ [(i, (empty.add n).1)]) i = (empty.add n).1 :=
    Carried.renumbered_eq hsound (hkeys.trans hperm) (List.mem_append_right _ List.mem_cons_self)
  refine ⟨_, part, ?_, hc.tidy, hcut.joins hsound .empty (hkeys.trans hperm) hmade⟩
  rw [copy, show a.nodes.get? i = some n from hn, hroot]
  change (a.copyLevels a.forest.size [(i, (empty.add n).1)] (empty.add n).2 >>= _) = _
  rw [hrun]
  rfl

omit hi in
theorem Sound.graft_ok {s : Seedling} (hs : s.plot.Sound) (hroot : s.root ∈ s.plot.forest.live) :
    ∃ f b, a.graft s = .ok (f s.root, b) ∧ b.Tidy ∧ s.plot.forest.Joins a.forest f b.forest := by
  have hnodes : (s.plot.nodes.inOrder.map (·.1)).Perm (s.plot.forest.nodes.map (·.1)) := (sortBy_perm _ _).map _
  have hedges : (s.plot.edges.inOrder.map (·.2)).Perm s.plot.forest.edges := (sortBy_perm _ _).map _
  obtain ⟨f, _, b, hrun, -, -, hb, hj⟩ := transfer_joins hs.toTidy ha.toTidy hs.proper.sound ha.proper.sound
    (fun _ _ => rfl) hnodes hedges (hnodes.mem_iff.2 (Forest.mem_live.1 hroot))
  refine ⟨f, b, ?_, hb, hj⟩
  rw [graft, hrun]
  rfl

end Rebuilt
end Plot

def Seedling.subtree (s : Seedling) : Subtree := ⟨s.plot.forest, s.root⟩

/-- The two are the same but for the numbers, root to root. -/
def Subtree.SameAs (s s' : Subtree) : Prop :=
  ∃ f, f s.root = s'.root ∧ s.forest.Corresponds s.forest.live f s'.forest s'.forest.live

/-- The subtree at a node of a plot and nothing besides, in a plot of its own that is in order. -/
structure Seedling.Copies (s : Seedling) (a : Plot) (i : NodeId) : Prop where
  tidy : s.plot.Tidy
  subtree : s.subtree.Copies a.forest i

/-- The subtree was grafted into the plot `b`, which is now `b'`, and stands below the node `new` there, beside all that
was there before. -/
structure Plot.Grafted (a : Plot) (i : NodeId) (b : Plot) (s : Seedling) (new : NodeId) (b' : Plot) : Prop where
  sound : b'.Sound
  parentless : b'.forest.parent? new = none
  same : a.forest.SameBelow i b'.forest new
  rest : b.forest.IsPart b'.forest (b'.forest.below new)ᶜ
  agrees : ∃ f, (∀ j ∈ b.forest.live, f j = j) ∧ f (b.forest.graft s.subtree).1 = new ∧
    (b.forest.graft s.subtree).2.Corresponds (b.forest.graft s.subtree).2.live f b'.forest b'.forest.live

section

variable {s : Seedling}

theorem Seedling.Copies.sound (hs : s.Copies a i) : s.plot.Sound := ⟨hs.tidy, hs.subtree.proper⟩

theorem Seedling.Copies.root_live (hs : s.Copies a i) : s.root ∈ s.plot.forest.live :=
  hs.subtree.spans ▸ Forest.Reaches.refl s.plot.forest s.root

/-- A rebuilt cutting is a copy. -/
theorem Plot.Sound.copies_of_joins (ha : a.Sound) (hi : a.forest.node? i ≠ none) {f : NodeId → NodeId} {part : Plot}
    (ht : part.Tidy) (hj : (a.forest.cutting i).forest.Joins .empty f part.forest) :
    Seedling.Copies ⟨part, f i⟩ a i ∧ (a.forest.cutting i).SameAs (Seedling.subtree ⟨part, f i⟩) := by
  have h := ha.proper.severable hi
  have hsound := (ha.cutting_sound hi).1
  have hcut : (a.forest.cutting i).Copies a.forest i := by
    rw [h.cutting_eq]
    exact h.copies_severed ha.proper.loopless
  exact ⟨⟨ht, hj.copies hsound hcut⟩, f, rfl, hj.corresponds hsound⟩

theorem Plot.Sound.grafted (hb : b.Sound) (hs : s.Copies a i) :
    ∃ new b', b.graft s = .ok (new, b') ∧ a.Grafted i b s new b' := by
  obtain ⟨f, b', hrun, htidy, hj⟩ := hb.graft_ok hs.sound hs.root_live
  have hsound := hs.sound.proper.sound
  have hgraft : s.plot.forest.Joins b.forest (· + b.forest.fresh) (b.forest.graft s.subtree).2 :=
    hb.proper.sound.joins_graft (s := s.subtree) hsound
  refine ⟨f s.root, b', hrun, ⟨htidy, hj.proper hsound hb.proper.sound hs.sound.proper.loopless hb.proper.loopless⟩, ?_,
    hs.subtree.same.trans (hj.sameBelow hsound hb.proper.sound hs.root_live),
    hj.isPart hsound hb.proper.sound hs.root_live hs.subtree.spans, _, fun j => Forest.Joins.across_kept,
    hgraft.across_moved hs.root_live, hgraft.corresponds_across hsound hb.proper.sound hj⟩
  exact Forest.parent?_eq_none.2 (hj.top hsound hb.proper.sound hs.root_live hs.subtree.top)

theorem Plot.Sound.returned (ha : a.Sound) (hi : a.forest.node? i ≠ none) (hs : s.Copies a i) {rest : Plot}
    (hrest : rest.Tidy) (heq : rest.forest = (a.forest.take i).2) {slot : Nat}
    (hp : a.forest.parent? i = some (p, slot)) :
    ∃ new b b', rest.graft s = .ok (new, b) ∧ b.setChild p slot new = .ok (none, b') ∧ b'.Sound ∧
      ∃ f, (∀ j ∈ a.forest.live, j ∉ a.forest.below i → f j = j) ∧
        a.forest.Corresponds a.forest.live f b'.forest b'.forest.live := by
  have h := ha.proper.severable hi
  have he := (Forest.parent?_eq_some h.sound.unshared).1 hp
  have huprooted : rest.forest = a.forest.uprooted i := heq.trans h.rest_eq
  have hrest : rest.Sound := ⟨hrest, huprooted ▸ h.proper_uprooted ha.proper.loopless⟩
  have hlive : ∀ j ∈ a.forest.live, j ∉ a.forest.below i → j ∈ rest.forest.live := fun j hj hout => by
    change rest.forest.node? j ≠ none
    rwa [huprooted, h.node?_uprooted hout]
  obtain ⟨new, b, hrun, hgrafted⟩ := hrest.grafted hs
  obtain ⟨φ, hkept, hnew, hφ⟩ := hgrafted.agrees
  -- the forest's own operations make up the forest that there was, and the plot does what they do
  obtain ⟨g', hset, hproper, f, hbeside, hf⟩ := ha.proper.returned hs.subtree he
  rw [← huprooted] at hset
  obtain ⟨r, hset', hr⟩ := hφ.setChild hgrafted.sound.proper.sound hset
  have hp' : φ p = p := hkept p (hlive p (h.sound.parent_live he) (h.not_reaches_parent he))
  have hfresh : rest.forest.fresh = a.forest.fresh := by
    rw [heq]
    rfl
  have hnew' : φ (s.subtree.root + a.forest.fresh) = new := hfresh ▸ hnew
  rw [hp', hnew'] at hset'
  obtain ⟨b', hplot, htidy, rfl⟩ := hgrafted.sound.setChild hset'
  have hsound : b'.forest.Sound := hgrafted.sound.proper.sound.setChild hset'
  have hloopless := (hr.joins hsound hproper.sound).loopless hproper.sound .empty hproper.loopless .empty
  refine ⟨new, b, b', hrun, hplot, ⟨htidy, hsound, hloopless⟩, φ ∘ f, fun j hj hout => ?_, hf.trans hr⟩
  rw [Function.comp_apply, hbeside j hout, hkept j (hlive j hj hout)]

end

/-- Taking out, copying and grafting lose nothing and make nothing twice, though every node and edge is made once more
and may get a number that was freed before. What is taken out at a node is the subtree there, and the rest is the
forest without it: only the edge into the node is gone besides. A copy is the subtree too. Grafted into any plot, it
stands below a node without a parent, beside all that was there. If the subtree is taken out, grafted and put into the
slot that it came from, the forest is as before but for the numbers of the nodes that were moved. And but for the
numbers all of this is what the forest's own operations do. -/
theorem subtrees_move_whole (ha : a.Sound) (hi : a.forest.node? i ≠ none) :
    ∃ taken rest copy, a.take i = .ok (taken, rest) ∧ a.copy i = .ok copy ∧
      (taken.Copies a i ∧ rest.Sound ∧ rest.forest.IsPart a.forest (a.forest.below i)ᶜ ∧
        ∀ e ∈ a.forest.edges, e ∉ rest.forest.edges ↔ e.child = i ∨ e.parent ∈ a.forest.below i) ∧
      copy.Copies a i ∧
      ((a.forest.take i).1.SameAs taken.subtree ∧ (a.forest.take i).2 = rest.forest ∧
        (a.forest.cutting i).SameAs copy.subtree) ∧
      ∀ s : Seedling, s.Copies a i →
        (∀ b : Plot, b.Sound → ∃ new b', b.graft s = .ok (new, b') ∧ a.Grafted i b s new b') ∧
        ∀ p slot, a.forest.parent? i = some (p, slot) →
          ∃ new b b', rest.graft s = .ok (new, b) ∧ b.setChild p slot new = .ok (none, b') ∧ b'.Sound ∧
            ∃ f, (∀ j ∈ a.forest.live, j ∉ a.forest.below i → f j = j) ∧
              a.forest.Corresponds a.forest.live f b'.forest b'.forest.live := by
  have h := ha.proper.severable hi
  obtain ⟨f, part, rest, htake, hpart, hj, hrest, heq⟩ := ha.take_ok hi
  obtain ⟨f', part', hcopy, hpart', hj'⟩ := ha.copy_ok hi
  obtain ⟨htaken, hsame⟩ := ha.copies_of_joins hi hpart hj
  obtain ⟨hcopied, hsame'⟩ := ha.copies_of_joins hi hpart' hj'
  have huprooted : rest.forest = a.forest.uprooted i := heq.trans h.rest_eq
  refine ⟨_, rest, _, htake, hcopy, ⟨htaken, ⟨hrest, ?_⟩, ?_, fun e he => ?_⟩, hcopied, ⟨hsame, heq.symm, hsame'⟩,
    fun s hs => ⟨fun b hb => hb.grafted hs, fun p slot hp => ha.returned hi hs hrest heq hp⟩⟩
  · exact huprooted ▸ h.proper_uprooted ha.proper.loopless
  · exact huprooted ▸ h.isPart_uprooted
  · rw [huprooted, h.mem_uprooted, not_and, not_not, imp_iff_right he]
    constructor
    · exact h.sound.unshared.reaches_child he
    · rintro (rfl | hp)
      · exact .refl _ _
      · exact Forest.Reaches.down hp he

def Nested.plot : Plot := .ofForest tree.forest

/-- The inner sum is taken out of the tree and put back. It gets the number 4, which was freed last, and its operands
get those that are left. -/
theorem subtrees_move_whole_nested : Nested.plot.Sound ∧ Nested.plot.forest.node? 2 ≠ none ∧
    ∃ taken rest copy, Nested.plot.take 2 = .ok (taken, rest) ∧ Nested.plot.copy 2 = .ok copy ∧
      taken.Copies Nested.plot 2 ∧ rest.forest.IsPart Nested.plot.forest (Nested.plot.forest.below 2)ᶜ ∧
      rest.nodes.spare = [4, 3, 2] ∧ copy.Copies Nested.plot 2 ∧
      (∃ new b, Nested.plot.graft copy = .ok (new, b) ∧ Nested.plot.Grafted 2 Nested.plot copy new b) ∧
      ∃ b b', rest.graft taken = .ok (4, b) ∧ b.setChild 0 1 4 = .ok (none, b') ∧
        ∃ f, (∀ j ∈ Nested.plot.forest.live, j ∉ Nested.plot.forest.below 2 → f j = j) ∧
          Nested.plot.forest.Corresponds Nested.plot.forest.live f b'.forest b'.forest.live := by
  have hsound : Nested.plot.Sound := .ofForest Nested.proper
  have hlive : Nested.plot.forest.node? 2 ≠ none := by decide +kernel
  obtain ⟨taken, rest, copy, htake, hcopy, ⟨htaken, -, hpart, -⟩, hcopied, -, hgraft⟩ :=
    subtrees_move_whole hsound hlive
  obtain ⟨new, b, b', hrun, hset, -, hf⟩ := (hgraft taken htaken).2 0 1 (by decide +kernel)
  have hspare : (Nested.plot.take 2).map (·.2.nodes.spare) = .ok [4, 3, 2] := by decide +kernel
  have hnew : (Nested.plot.take 2 >>= fun r => (r.2.graft r.1).map (·.1)) = .ok 4 := by decide +kernel
  rw [htake] at hspare hnew
  change (rest.graft taken).map (·.1) = .ok 4 at hnew
  rw [hrun] at hnew
  obtain rfl : new = 4 := Except.ok.inj hnew
  exact ⟨hsound, hlive, taken, rest, copy, htake, hcopy, htaken, hpart, Except.ok.inj hspare, hcopied,
    (hgraft copy hcopied).1 _ hsound, b, b', hrun, hset, hf⟩

end Grove
