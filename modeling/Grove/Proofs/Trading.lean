import Grove.Proofs.Exchange

/-! Trading subtrees. Two trees that are complete below their roots, whatever else their forests hold, exchange the
subtrees at two nodes that the roots reach just when each is accepted where the other stands; else both stay as they
are. After an exchange each tree has a copy of the other's subtree in the place of its own, what stood beside that is
as it was, and the nodes that the root does not reach are those that it did not reach before. -/

namespace Grove
namespace Tree

variable {f : Adapter} {t a b a' b' : Tree} {r ra rb i j k : NodeId} {m n : Node} {ty tyA tyB : Ty} {g' : Forest}

/-- A node of the forest that the root does not reach. -/
def Orphan (t : Tree) (k : NodeId) : Prop :=
  k ∈ t.forest.nodes.map (·.1) ∧ ∀ r, t.root = some r → ¬ t.forest.Reaches r k

/-- A tree once a copy of what is below a node of another tree stands where a node stood with all that was below it.
The copies are numbered past the nodes in use, and adapted to the signature. -/
structure Replaced (f : Adapter) (a : Tree) (i : NodeId) (b : Tree) (j : NodeId) (a' : Tree) : Prop where
  signature : a'.signature = a.signature
  root : a'.root = if a.root = some i then some (j + a.forest.fresh) else a.root
  outside : ∀ k < a.forest.fresh, ¬ a.forest.Reaches i k → a'.forest.node? k = a.forest.node? k
  removed : ∀ k < a.forest.fresh, a.forest.Reaches i k → a'.forest.node? k = none
  copied : ∀ k n, a'.forest.node? (k + a.forest.fresh) = some n ↔
    b.forest.Reaches j k ∧ ∃ m, b.forest.node? k = some m ∧ m.adapt f a.signature = n
  edges : ∀ e, e ∈ a'.forest.edges ↔ (e ∈ a.forest.edges ∧ ¬ a.forest.Reaches i e.child) ∨
    (∃ e' ∈ b.forest.edges, b.forest.Reaches j e'.parent ∧ e'.shift a.forest.fresh = e) ∨
    ∃ p slot, ⟨p, slot, i⟩ ∈ a.forest.edges ∧ e = ⟨p, slot, j + a.forest.fresh⟩
  upright : ∃ r, a'.Upright r
  orphans : ∀ k, a'.Orphan k ↔ a.Orphan k

theorem Upright.orphan_iff (h : t.Upright r) : t.Orphan k ↔ k ∈ t.forest.nodes.map (·.1) ∧ ¬ t.forest.Reaches r k := by
  simp [Orphan, h.root]

/-- A whole subtree in the place of one that was cut out leaves the root with the orphans that it had. -/
theorem Upright.orphans {s : Subtree} (h : a.Upright ra) (hi : a.forest.Reaches ra i) (hs : s.forest.Whole s.root)
    (ht : a.forest.Transplanted i s g') (sig : Signature) (k : NodeId) :
    Orphan ⟨sig, g', some (a.forest.rootAfter ra i s)⟩ k ↔ a.Orphan k := by
  have hafter : Upright ⟨sig, g', some (a.forest.rootAfter ra i s)⟩ (a.forest.rootAfter ra i s) :=
    ⟨rfl, ht.full h.full hs hi⟩
  rw [hafter.orphan_iff, h.orphan_iff, ht.mem_numbers_iff h.full.sound, ht.reaches_iff h.full hi]
  constructor
  · rintro ⟨⟨hk, hout⟩ | hk, hreach⟩
    · exact ⟨hk, fun hr => hreach (.inl ⟨hr, hout⟩)⟩
    · obtain ⟨k', hk', rfl⟩ := List.mem_map.1 hk
      exact absurd (.inr ⟨k', rfl, hs.spans k' hk'⟩) hreach
  · rintro ⟨hk, hreach⟩
    refine ⟨.inl ⟨hk, fun hr => hreach (hi.trans hr)⟩, ?_⟩
    rintro (⟨hr, -⟩ | ⟨k', rfl, -⟩)
    · exact hreach hr
    · exact h.full.sound.ne_moved hk k' rfl

theorem Upright.replaced (ha : a.Upright ra) (hb : b.Upright rb) (hi : a.forest.Reaches ra i)
    (hj : b.forest.Reaches rb j) (hf : f.Renumbers) (ht : a.forest.Transplanted i (b.cutFor f a.signature j) g') :
    a.Replaced f i b j ⟨a.signature, g', some (a.forest.rootAfter ra i (b.cutFor f a.signature j))⟩ := by
  have hcut := hb.whole_cutFor hj hf a.signature
  refine ⟨rfl, ?_, ht.kept, ht.gone, fun k n => ?_, fun e => ?_, ⟨_, rfl, ht.full ha.full hcut hi⟩,
    ha.orphans hi hcut ht a.signature⟩
  · rw [ha.root, Forest.rootAfter]
    by_cases hr : i = ra
    · rw [if_pos hr, if_pos (by rw [hr])]
      rfl
    · rw [if_neg hr, if_neg (by simpa using Ne.symm hr)]
  · rw [ht.moved, hb.node?_cutFor hj]
  · rw [ht.edges]
    have hedges : ∀ e',
        e' ∈ (b.cutFor f a.signature j).forest.edges ↔ e' ∈ b.forest.edges ∧ b.forest.Reaches j e'.parent :=
      fun e' => (hb.full.severable hj).mem_severed
    simp only [hedges, and_assoc]
    rfl

theorem checkLanding_refused (hty : t.landing i = .ok ty) (ha : ty.accepts n.returns = false) :
    t.checkLanding i n = .error (.refused (.childTypeMismatch ty n.returns)) := by
  rw [checkLanding, hty]
  change (liftM (checkSlot ty n.returns) : Except Failure Unit) = _
  rw [checkSlot_refused ha]
  rfl

/-- An exchange that either check refuses leaves both trees. -/
theorem exchange_refused {e : Failure} (hm : a.forest.node? i = some m) (hn : b.forest.node? j = some n)
    (h : a.checkLanding i n = .error e ∨ a.checkLanding i n = .ok () ∧ b.checkLanding j m = .error e) :
    a.exchange f i b j = (.error e, a, b) := by
  unfold exchange
  rw [hm, hn]
  dsimp only
  rcases h with h | ⟨h, h'⟩
  · rw [h]
  · rw [h, h']

/-- Two subtrees change places just when each is accepted where the other one stands; else the first that is not
is reported, and both trees stay as they are. What is exchanged is copied exactly, and the trees together have as many
nodes as before. -/
theorem exchange_exact (hf : f.Renumbers) (ha : a.Upright ra) (hb : b.Upright rb) (hi : a.forest.Reaches ra i)
    (hj : b.forest.Reaches rb j) : ∃ m n tyA tyB,
      a.forest.node? i = some m ∧ b.forest.node? j = some n ∧ a.landing i = .ok tyA ∧ b.landing j = .ok tyB ∧
      (tyA.accepts n.returns = false →
        a.exchange f i b j = (.error (.refused (.childTypeMismatch tyA n.returns)), a, b)) ∧
      (tyA.accepts n.returns = true → tyB.accepts m.returns = false →
        a.exchange f i b j = (.error (.refused (.childTypeMismatch tyB m.returns)), a, b)) ∧
      (tyA.accepts n.returns = true → tyB.accepts m.returns = true → ∃ a' b', a.exchange f i b j = (.ok (), a', b') ∧
        a.Replaced f i b j a' ∧ b.Replaced f j a i b' ∧
        a'.forest.size + b'.forest.size = a.forest.size + b.forest.size) := by
  obtain ⟨m, hm⟩ := Forest.mem_numbers.1 (ha.full.severable hi).live
  obtain ⟨n, hn⟩ := Forest.mem_numbers.1 (hb.full.severable hj).live
  obtain ⟨tyA, htyA⟩ := landing_total ha.full.sound i
  obtain ⟨tyB, htyB⟩ := landing_total hb.full.sound j
  refine ⟨m, n, tyA, tyB, hm, hn, htyA, htyB, fun hA => ?_, fun hA hB => ?_, fun hA hB => ?_⟩
  · exact exchange_refused hm hn (.inl (checkLanding_refused htyA hA))
  · exact exchange_refused hm hn (.inr ⟨checkLanding_ok htyA hA, checkLanding_refused htyB hB⟩)
  · obtain ⟨ga, gb, htA, htB, hexchange⟩ := ha.exchange hb hi hj hf hm hn htyA htyB hA hB
    refine ⟨_, _, hexchange, ha.replaced hb hi hj hf htA, hb.replaced ha hj hi hf htB, ?_⟩
    have hsizeA := ha.size hb hi hj hf htA
    have hsizeB := hb.size ha hj hi hf htB
    dsimp only
    omega

theorem Upright.add (h : t.Upright r) (n : Node) : (t.add n).2.Upright r := by
  refine ⟨h.root, h.full.sound.add n, List.mem_cons_of_mem _ h.full.root, h.full.top, fun i m hreach hm => ?_⟩
  have hsame : (t.add n).2.forest.Reaches r i ↔ t.forest.Reaches r i := Forest.reaches_congr fun _ _ => Iff.rfl
  have hreach := hsame.1 hreach
  have hi := h.full.sound.fresh i (h.full.severable hreach).live
  have hold : t.forest.node? i = some m := by
    change (t.forest.add n).2.node? i = some m at hm
    rwa [Forest.node?_add, if_neg (Nat.ne_of_lt hi)] at hm
  exact h.full.filled i m hreach hold

theorem upright_planted {sig : Signature} {e : Term} (h : sig.Admits e) :
    (planted sig e).Upright (Forest.empty.plant e).1 := by
  obtain ⟨r, hr⟩ := intact_iff.1 (intact_planted h)
  obtain rfl := Option.some.inj hr.root
  exact hr.upright

/-- A sum, and a number that its root does not reach. -/
def spared : Tree := (doubling.add (.const (.int 5))).2

/-- The second operand of the sum changes places with the root of the other tree. -/
theorem exchange_exact_spared : ∃ a' b', spared.exchange Node.remap 2 counter 0 = (.ok (), a', b') ∧
    spared.Replaced Node.remap 2 counter 0 a' ∧ counter.Replaced Node.remap 0 spared 2 b' ∧
    a'.Orphan 3 ∧ b'.root = some 3 := by
  have hdoubling : spared.Upright 0 := (upright_planted ⟨by decide, by decide, by decide⟩).add _
  have hcounter : counter.Upright 0 := upright_planted ⟨by decide, by decide, by decide⟩
  have hreach : spared.forest.Reaches 0 2 := .edge (e := ⟨0, 1, 2⟩) (by decide)
  obtain ⟨m, n, tyA, tyB, hm, hn, htyA, htyB, -, -, hdone⟩ :=
    exchange_exact Adapter.remap_renumbers hdoubling hcounter hreach (.refl _ 0)
  obtain rfl : Node.localVariable .int 1 = m := Option.some.inj hm
  obtain rfl : Node.localVariable .int 0 = n := Option.some.inj hn
  obtain rfl : Ty.int = tyA := Except.ok.inj htyA
  obtain rfl : Ty.int = tyB := Except.ok.inj htyB
  obtain ⟨a', b', hexchange, ha, hb, -⟩ := hdone (by decide) (by decide)
  have horphan : spared.Orphan 3 := by
    refine hdoubling.orphan_iff.2 ⟨by decide, fun h => ?_⟩
    have htop := h.eq_of_top (by decide)
    cases htop
  exact ⟨a', b', hexchange, ha, hb, (ha.orphans 3).2 horphan, hb.root⟩

end Tree
end Grove
