import Grove.Proofs.Ascent
import Grove.Proofs.Trading
import Grove.Proofs.Visiting

/-! The traversals agree. Below a root where every slot is filled, the pre-order of a node is the node and the
pre-orders of its children, and has as many members as are counted; the depth of a node is the length of the way down
to it, and its height that of the longest way on from it. -/

namespace Grove

namespace Forest

variable {g : Forest} {r i j : NodeId} {k d room : Nat}

namespace Full

variable (h : g.Full r)
include h

theorem steps_lt (hi : g.Reaches r i) (hk : g.Steps i k j) : k < g.size :=
  h.sound.size_bound (h.severable hi).live (h.severable hi).not_loops hk

theorem climbs_depth (hk : g.Steps r k j) : g.depth j = k ∧ g.Climbs j k r :=
  ⟨h.sound.placed.depth_eq h.root h.top hk, hk.climbs h.sound.unshared h.top⟩

theorem flaw? (hi : g.Reaches r i) {n : Node} (hn : g.node? i = some n) : g.flaw? i = none :=
  h.sound.flaw?_eq_none hn (h.filled i n hi hn)

theorem complete (hi : g.Reaches r i) (hd : g.NoDeeper i d) (hroom : d < room) : (g.shapeTo room i).Complete := by
  induction room generalizing i d with
  | zero => cases hroom
  | succ room ih =>
    obtain ⟨n, hn⟩ := mem_numbers.1 (h.severable hi).live
    rw [shapeTo_filled hn (h.flaw? hi hn)]
    intro slot
    obtain ⟨c, hc⟩ := h.filled i n hi hn slot slot.isLt
    obtain ⟨d, rfl⟩ := NoDeeper.pos (e := ⟨i, slot, c⟩) hd hc
    have hkid : (g.child? i slot).getD i = c := by rw [h.sound.child?_eq_some.2 hc, Option.getD_some]
    change (g.shapeTo room ((g.child? i slot).getD i)).Complete
    rw [hkid]
    exact ih (hi.down hc) (hd.child (e := ⟨i, slot, c⟩) hc) (Nat.lt_of_succ_lt_succ hroom)

theorem exists_term (hi : g.Reaches r i) : ∃ d < g.size, g.NoDeeper i d ∧ ∃ e, (g.shape i).Denotes e := by
  have hpos : 0 < g.size := h.steps_lt hi .here
  have hdeep : g.NoDeeper i (g.size - 1) := fun k j hk => Nat.le_sub_one_of_lt (h.steps_lt hi hk)
  have hlt : g.size - 1 < g.size := Nat.sub_one_lt_of_lt hpos
  exact ⟨g.size - 1, hlt, hdeep, (h.complete hi hdeep hlt).denotes⟩

theorem exists_height (hi : g.Reaches r i) : ∃ x, g.height i = .ok x ∧ g.NoDeeper i x ∧ ∃ j, g.Steps i x j := by
  obtain ⟨-, -, -, e, he⟩ := h.exists_term hi
  have hdeep := (h.sound.noDeeper_iff he).2 (Nat.le_refl e.height)
  refine ⟨e.height, he.height, hdeep, ?_⟩
  cases hx : e.height with
  | zero => exact ⟨i, .here⟩
  | succ x =>
    -- else it would be no deeper than one less
    by_contra hnone
    have hless : g.NoDeeper i x := fun k j hk => by
      have hk' := hdeep k j hk
      rcases Nat.lt_or_ge x k with hlt | hle
      · exact absurd ⟨j, by rwa [show x + 1 = k by omega]⟩ hnone
      · exact hle
    have := (h.sound.noDeeper_iff he).1 hless
    omega

theorem count_eq (hi : g.Reaches r i) : g.count i = .ok (g.preorder i).length := by
  obtain ⟨-, -, -, e, he⟩ := h.exists_term hi
  rw [Forest.count, Shape.count_complete he.complete, Forest.preorder, h.sound.placed.preorderTo_eq he, shape]

theorem mem_preorder (hi : g.Reaches r i) : j ∈ g.preorder i ↔ g.Reaches i j :=
  (h.sound.preorder (Option.ne_none_iff_exists'.2 (mem_numbers.1 (h.severable hi).live))
    ((h.sound.ends_of_top h.root h.top).of_reaches hi)).2 j

theorem preorder_eq (hi : g.Reaches r i) : ∃ kids : List NodeId, g.children i = .ok (kids.map some) ∧
    g.preorder i = i :: kids.flatMap g.preorder := by
  obtain ⟨n, hn⟩ := mem_numbers.1 (h.severable hi).live
  obtain ⟨d, hd, hdeep, -⟩ := h.exists_term hi
  have hf := h.flaw? hi hn
  have ha : g.arity i = n.arity := by simp [arity, hn]
  obtain ⟨hstray, hfull⟩ := flaw?_eq_none.1 hf
  refine ⟨(g.slotsInOrder i).map (·.child), ?_, ?_⟩
  · have hnone : g.stray? i = none := by simpa [stray?, List.find?_eq_none, mem_outgoing] using hstray
    rw [children, hnone, h.sound.placed.children_in_order hn hf, ha]
    refine congrArg Except.ok (List.ext_getElem (by simp) fun slot hs hs' => ?_)
    obtain ⟨c, hc⟩ := hfull slot (by simpa [ha] using hs)
    simp [hc]
  · obtain ⟨size, hsize⟩ := Nat.exists_eq_add_one.2 (Nat.zero_lt_of_lt hd)
    rw [Forest.preorder, hsize, preorderTo_succ]
    refine congrArg (i :: ·) (List.flatMap_congr fun c hc => ?_)
    obtain ⟨e, he, rfl⟩ := List.mem_map.1 hc
    obtain ⟨hm, rfl⟩ := mem_slotsInOrder.1 he
    obtain ⟨d, rfl⟩ := hdeep.pos hm
    rw [Forest.preorder, hsize]
    exact ((hdeep.child hm).preorderTo (by omega) (by omega)).symm

theorem depth_below (hi : g.Reaches r i) (hk : g.Steps i k j) : g.depth j = g.depth i + k := by
  obtain ⟨d, hd⟩ := hi
  rw [(h.climbs_depth hd).1, (h.climbs_depth (hd.trans hk)).1]

theorem depth_le (hi : g.Reaches r i) (hj : j ∈ g.preorder i) : g.depth i ≤ g.depth j := by
  obtain ⟨k, hk⟩ := (h.mem_preorder hi).1 hj
  rw [h.depth_below hi hk]
  exact Nat.le_add_right _ k

theorem max_depth (hi : g.Reaches r i) : ∃ x, g.height i = .ok x ∧
    ((g.preorder i).map fun j => g.depth j - g.depth i).max? = some x := by
  obtain ⟨x, hx, hmost, far, hfar⟩ := h.exists_height hi
  have hdist : ∀ {k j}, g.Steps i k j → g.depth j - g.depth i = k := fun hk => by
    rw [h.depth_below hi hk, Nat.add_sub_cancel_left]
  refine ⟨x, hx, List.max?_eq_some_iff.2 ⟨?_, fun y hy => ?_⟩⟩
  · exact List.mem_map.2 ⟨far, (h.mem_preorder hi).2 ⟨x, hfar⟩, hdist hfar⟩
  · obtain ⟨j, hj, rfl⟩ := List.mem_map.1 hy
    obtain ⟨k, hk⟩ := (h.mem_preorder hi).1 hj
    rw [hdist hk]
    exact hmost k j hk

theorem depth_add_height_le (hi : g.Reaches r i) {x top : Nat} (hx : g.height i = .ok x) (htop : g.height r = .ok top) :
    g.depth i + x ≤ top := by
  obtain ⟨y, hy, -, far, hfar⟩ := h.exists_height hi
  obtain ⟨most, hmost, hdeepest, -⟩ := h.exists_height (.refl g r)
  obtain rfl := Except.ok.inj (hx.symm.trans hy)
  obtain rfl := Except.ok.inj (htop.symm.trans hmost)
  obtain ⟨d, hd⟩ := hi
  rw [(h.climbs_depth hd).1]
  exact hdeepest _ far (hd.trans hfar)

theorem deepest_leaf {top : Nat} (hdeepest : g.NoDeeper r top) (hi : g.Steps r top i) :
    g.children i = .ok [] ∧ g.height i = .ok 0 := by
  -- a child of it would be deeper
  have hnone : ∀ e ∈ g.edges, e.parent ≠ i := by
    rintro e he rfl
    exact Nat.not_succ_le_self top (hdeepest _ _ (hi.down he))
  constructor
  · obtain ⟨n, hn⟩ := mem_numbers.1 (h.severable ⟨top, hi⟩).live
    have ha : n.arity = 0 := Nat.eq_zero_of_not_pos fun hpos => by
      obtain ⟨c, hc⟩ := h.filled i n ⟨top, hi⟩ hn 0 hpos
      exact hnone _ hc rfl
    have hstray : g.stray? i = none := by
      simp only [stray?, List.find?_eq_none, mem_outgoing]
      exact fun e he => absurd he.2 (hnone e he.1)
    rw [children, hstray, arity, hn, Option.elim_some, ha]
    rfl
  · obtain ⟨x, hx, -, far, hfar⟩ := h.exists_height ⟨top, hi⟩
    have := hdeepest _ _ (hi.trans hfar)
    obtain rfl : x = 0 := by omega
    exact hx

end Full
end Forest

/-- At every node that the root of a tree reaches, with all slots filled below the root: the pre-order is the node and
the pre-orders of its children in turn, without repetition, and what a walk with a stack lists; it has as many members
as `count` finds; `depth` is the number of steps up to the root; and `height` is the greatest depth below the node,
counted from it. Depth and height add up to the height of the root at most, and at some leaf just to that. -/
theorem Tree.traversals_agree {t : Tree} {r : NodeId} (h : t.Upright r) :
    (∀ i, t.forest.Reaches r i →
      (∃ kids : List NodeId, t.forest.children i = .ok (kids.map some) ∧
        t.forest.preorder i = i :: kids.flatMap t.forest.preorder) ∧
      (t.forest.preorder i).Nodup ∧ t.forest.Walks [i] (t.forest.preorder i) ∧
      t.forest.count i = .ok (t.forest.preorder i).length ∧ t.forest.Climbs i (t.forest.depth i) r ∧
      (∀ j ∈ t.forest.preorder i, t.forest.depth i ≤ t.forest.depth j) ∧
      ∃ height top, t.forest.height i = .ok height ∧ t.forest.height r = .ok top ∧
        ((t.forest.preorder i).map fun j => t.forest.depth j - t.forest.depth i).max? = some height ∧
        t.forest.depth i + height ≤ top) ∧
    ∃ leaf height top, t.forest.Reaches r leaf ∧ t.forest.children leaf = .ok [] ∧ t.forest.height leaf = .ok height ∧
      t.forest.height r = .ok top ∧ t.forest.depth leaf + height = top := by
  have hf := h.full
  obtain ⟨top, htop, hdeepest, leaf, hleaf⟩ := hf.exists_height (.refl _ r)
  refine ⟨fun i hi => ?_, ?_⟩
  · have hcut := hf.severable hi
    obtain ⟨d, hd⟩ := id hi
    obtain ⟨hdepth, hclimb⟩ := hf.climbs_depth hd
    obtain ⟨bound, hbound, hdeep, -⟩ := hf.exists_term hi
    obtain ⟨x, hx, hmax⟩ := hf.max_depth hi
    have hwalk := Forest.Walks.preorderTo hdeep hbound .done
    rw [List.append_nil] at hwalk
    have hnodup := (hf.sound.unshared.preorder hcut.not_loops fun _ => hf.sound.reached_mem hcut.live).1
    exact ⟨hf.preorder_eq hi, hnodup, hwalk, hf.count_eq hi, hdepth ▸ hclimb, fun j => hf.depth_le hi, x, top, hx, htop,
      hmax, hf.depth_add_height_le hi hx htop⟩
  · obtain ⟨hchildren, hheight⟩ := hf.deepest_leaf hdeepest hleaf
    exact ⟨leaf, 0, top, ⟨top, hleaf⟩, hchildren, hheight, htop, (hf.climbs_depth hleaf).1⟩

namespace Nested

def term : Term :=
  .node (.arithmetic .add .int) fun
    | ⟨0, _⟩ => .node (.const (.int 1)) nofun
    | _ => .node (.arithmetic .add .int) fun
      | ⟨0, _⟩ => .node (.const (.int 2)) nofun
      | _ => .node (.const (.int 3)) nofun

def tree : Tree := ((Tree.planted ⟨none, .int, [], []⟩ term).add (.nop .int)).2

theorem upright : tree.Upright 0 :=
  (Tree.upright_planted ⟨by decide +kernel, by decide +kernel, by decide +kernel⟩).add _

end Nested

/-- The inner sum is one step down, and its operands are the deepest nodes. -/
theorem traversals_agree_nested : Nested.tree.Upright 0 ∧ Nested.tree.forest.Reaches 0 2 ∧
    (∃ kids : List NodeId, Nested.tree.forest.children 2 = .ok (kids.map some) ∧
      Nested.tree.forest.preorder 2 = 2 :: kids.flatMap Nested.tree.forest.preorder) ∧
    Nested.tree.forest.preorder 2 = [2, 3, 4] ∧ Nested.tree.forest.count 2 = .ok 3 ∧
    Nested.tree.forest.Climbs 2 1 0 ∧ Nested.tree.forest.Walks [2] [2, 3, 4] ∧
    (∃ height top, Nested.tree.forest.height 2 = .ok height ∧ Nested.tree.forest.height 0 = .ok top ∧
      ([2, 3, 4].map fun j => Nested.tree.forest.depth j - 1).max? = some height ∧ 1 + height ≤ top) ∧
    ∃ leaf height top, Nested.tree.forest.Reaches 0 leaf ∧ Nested.tree.forest.children leaf = .ok [] ∧
      Nested.tree.forest.height leaf = .ok height ∧ Nested.tree.forest.height 0 = .ok top ∧
      Nested.tree.forest.depth leaf + height = top := by
  have hreach : Nested.tree.forest.Reaches 0 2 := .edge (e := ⟨0, 1, 2⟩) (by decide +kernel)
  obtain ⟨hall, hleaf⟩ := Tree.traversals_agree Nested.upright
  obtain ⟨hkids, -, hwalk, hcount, hclimb, -, hheight⟩ := hall 2 hreach
  have hlist : Nested.tree.forest.preorder 2 = [2, 3, 4] := by decide +kernel
  have hdepth : Nested.tree.forest.depth 2 = 1 := by decide +kernel
  rw [hlist] at hwalk hcount hheight
  rw [hdepth] at hclimb hheight
  exact ⟨Nested.upright, hreach, hkids, hlist, hcount, hclimb, hwalk, hheight, hleaf⟩

end Grove
