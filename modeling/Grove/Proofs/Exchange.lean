import Grove.Proofs.Selecting
import Grove.Proofs.Swapping
import Grove.Random.XorShift

/-! Crossovers. Whatever two trees are for, as long as each is intact, a crossover within a height succeeds and leaves
two intact trees: what one tree gains the other one loses, and neither gets higher than allowed. -/

namespace Grove

variable {σ : Type}

namespace Forest

variable {g g' : Forest} {s : Subtree} {r i j : NodeId}

theorem Transplanted.mem_numbers_iff (h : g.Sound) (ht : g.Transplanted i s g') : j ∈ g'.nodes.map (·.1) ↔
    (j ∈ g.nodes.map (·.1) ∧ ¬ g.Reaches i j) ∨ j ∈ (s.forest.nodes.map (·.1)).map (· + g.fresh) := by
  constructor
  · intro hj
    obtain ⟨n, hn⟩ := mem_numbers.1 hj
    rcases ht.nodes hn with ⟨-, hreach, hold⟩ | ⟨j', rfl, hmoved⟩
    · exact .inl ⟨mem_numbers.2 ⟨n, hold⟩, hreach⟩
    · exact .inr (List.mem_map_of_mem (mem_numbers.2 ⟨n, hmoved⟩))
  · rintro (⟨hj, hreach⟩ | hj)
    · rw [mem_numbers, ht.kept j (h.fresh j hj) hreach]
      exact mem_numbers.1 hj
    · obtain ⟨j', hj', rfl⟩ := List.mem_map.1 hj
      rw [mem_numbers, ht.moved]
      exact mem_numbers.1 hj'

/-- What was cut out and what stands there now add up to what there was and what came. -/
theorem Transplanted.size (h : g.Full r) (hi : g.Reaches r i) (hs : s.forest.Sound)
    (ht : g.Transplanted i s g') : g'.size + (g.severed i).forest.size = g.size + s.forest.size := by
  have hcut : ∀ j, j ∈ (g.severed i).forest.nodes.map (·.1) ↔ j ∈ g.nodes.map (·.1) ∧ g.Reaches i j := by
    intro j
    simp only [mem_numbers, (h.severable hi).node?_severed, exists_and_left, and_comm]
  have hold : ∀ j ∈ g.nodes.map (·.1), j ∉ (s.forest.nodes.map (·.1)).map (· + g.fresh) := by
    intro j hj hm
    obtain ⟨j', -, hj'⟩ := List.mem_map.1 hm
    exact h.sound.ne_moved hj j' hj'
  have hleft : (g'.nodes.map (·.1) ++ (g.severed i).forest.nodes.map (·.1)).Nodup := by
    refine List.nodup_append.2 ⟨ht.sound.numbers, (h.severed hi).sound.numbers, fun j hj k hk hjk => ?_⟩
    obtain ⟨hk, hreach⟩ := (hcut k).1 hk
    subst hjk
    rcases (ht.mem_numbers_iff h.sound).1 hj with ⟨-, hout⟩ | hm
    · exact hout hreach
    · exact hold j hk hm
  have hright : (g.nodes.map (·.1) ++ (s.forest.nodes.map (·.1)).map (· + g.fresh)).Nodup := by
    refine List.nodup_append.2 ⟨h.sound.numbers, hs.numbers.map fun _ _ => Nat.add_right_cancel,
      fun j hj k hk hjk => ?_⟩
    exact hold j hj (hjk ▸ hk)
  have hperm := (List.perm_ext_iff_of_nodup hleft hright).2 fun j => by
    rw [List.mem_append, List.mem_append, ht.mem_numbers_iff h.sound, hcut]
    by_cases hreach : g.Reaches i j
    · simp [hreach, or_comm]
    · simp [hreach]
  have := hperm.length_eq
  simpa [Forest.size] using this

end Forest

namespace Tree

variable {a b a' b' : Tree} {ra rb i j : NodeId} {m n : Node} {maxDepth : Nat}

/-- One tree after a subtree of another one took the place of one of its own. -/
structure Gained (a : Tree) (i : NodeId) (b : Tree) (j : NodeId) (a' : Tree) : Prop where
  intact : a'.Intact
  signature : a'.signature = a.signature
  size : a'.forest.size + (a.forest.severed i).forest.size = a.forest.size + (b.forest.severed j).forest.size
  low : ∀ {maxDepth height : Nat}, b.forest.NoDeeper j height → a.forest.depth i + height ≤ maxDepth →
    a.Low maxDepth → a'.Low maxDepth
  valid : a.signature = b.signature → a.ValidFor a.signature → b.ValidFor b.signature → a'.ValidFor a.signature

theorem Upright.size {f : Adapter} {g' : Forest} (ha : a.Upright ra) (hb : b.Upright rb)
    (hi : a.forest.Reaches ra i) (hj : b.forest.Reaches rb j) (hf : f.Renumbers)
    (ht : a.forest.Transplanted i (b.cutFor f a.signature j) g') :
    g'.size + (a.forest.severed i).forest.size = a.forest.size + (b.forest.severed j).forest.size := by
  have hkept : (b.cutFor f a.signature j).forest.size = (b.forest.severed j).forest.size := List.length_map ..
  rw [ht.size ha.full hi (hb.whole_cutFor hj hf a.signature).sound, hkept]

/-- Where a node is of the type of another, the subtree of the one may take the place of the other's. -/
theorem Standing.gained {g' : Forest} (ha : a.Standing ra) (hb : b.Standing rb) (hm : a.forest.node? i = some m)
    (hn : b.forest.node? j = some n) (hret : n.returns = m.returns)
    (ht : a.forest.Transplanted i (b.cutFor Node.remap a.signature j) g') :
    a.Gained i b j ⟨a.signature, g', some (a.forest.rootAfter ra i (b.cutFor Node.remap a.signature j))⟩ := by
  have hi := Forest.mem_numbers.2 ⟨m, hm⟩
  have hj := Forest.mem_numbers.2 ⟨n, hn⟩
  have hreach := hb.whole.spans j hj
  have hcut := hb.upright.whole_cutFor hreach Adapter.remap_renumbers a.signature
  have hsize := ha.upright.size hb.upright (ha.whole.spans i hi) hreach Adapter.remap_renumbers ht
  have hsuits := hb.suits_cutFor Adapter.remap_renumbers hm hn hret a.signature
  refine ⟨intact_iff.2 ⟨_, ha.transplant ht hi hsuits hcut⟩, rfl, hsize, fun hheight hle hlow => ?_,
    fun hsig hva hvb => ?_⟩
  · exact ha.transplant_low ht hi hsuits hcut (hb.noDeeper_cutFor hj hheight Node.remap a.signature) hle hlow
  · refine ha.transplant_valid ht hi hsuits hcut (fun k p hp => ?_) hva
    -- what comes from a tree for the same signature is declared as it is
    obtain ⟨-, q, hq, rfl⟩ := (hb.upright.node?_cutFor hreach _ _).1 hp
    have hfits := hb.validFor_iff.1 hvb k q hq
    rw [← hsig] at hfits
    rwa [Node.adapt_remap hfits]

/-- Two trees after subtrees of theirs changed places. -/
structure Exchanged (maxDepth : Nat) (a b a' b' : Tree) : Prop where
  left : a'.Intact
  right : b'.Intact
  signatures : a'.signature = a.signature ∧ b'.signature = b.signature
  size : a'.forest.size + b'.forest.size = a.forest.size + b.forest.size
  low : a.Low maxDepth → b.Low maxDepth → a'.Low maxDepth ∧ b'.Low maxDepth
  valid : a.signature = b.signature → a.ValidFor a.signature → b.ValidFor b.signature →
    a'.ValidFor a.signature ∧ b'.ValidFor b.signature

theorem Exchanged.refl (ha : a.Intact) (hb : b.Intact) : Exchanged maxDepth a b a b :=
  ⟨ha, hb, ⟨rfl, rfl⟩, rfl, fun hla hlb => ⟨hla, hlb⟩, fun _ hva hvb => ⟨hva, hvb⟩⟩

theorem Gained.exchanged {ha hb : Nat} (hA : a.Gained i b j a') (hB : b.Gained j a i b')
    (hdeepA : a.forest.NoDeeper i ha) (hdeepB : b.forest.NoDeeper j hb) (hle : a.forest.depth i + hb ≤ maxDepth)
    (hle' : b.forest.depth j + ha ≤ maxDepth) : Exchanged maxDepth a b a' b' where
  left := hA.intact
  right := hB.intact
  signatures := ⟨hA.signature, hB.signature⟩
  size := by
    have := hA.size
    have := hB.size
    omega
  low hla hlb := ⟨hA.low hdeepB hle hla, hB.low hdeepA hle' hlb⟩
  valid hsig hva hvb := ⟨hA.valid hsig hva hvb, hB.valid hsig.symm hvb hva⟩

theorem Standing.exchange {l : PairLimits} (ha : a.Standing ra) (hb : b.Standing rb) {p : NodeId × NodeId}
    (hp : l.Pair a ra b rb p) :
    ∃ a' b', a.swap Node.remap p.1 b p.2 = .ok (a', b') ∧ Exchanged l.maxDepth a b a' b' := by
  obtain ⟨x, hx, y, hy, hofx, hofy, rfl, hswap⟩ := hp
  obtain ⟨m, hm, hmret⟩ := hofx.node
  obtain ⟨n, hn, hnret⟩ := hofy.node
  have hret : n.returns = m.returns := hnret.trans (hswap.returns.trans hmret.symm)
  obtain ⟨ga, gb, htA, htB, heq⟩ := ha.swap hb Adapter.remap_renumbers hm hn hret
  have hdx : a.forest.depth x.id = x.depth :=
    ha.whole.sound.unshared.steps_unique (Forest.not_loops_of_top ha.whole.top)
      (ha.whole.steps_depth (Forest.mem_numbers.2 ⟨m, hm⟩)) hofx.depth
  have hdy : b.forest.depth y.id = y.depth :=
    hb.whole.sound.unshared.steps_unique (Forest.not_loops_of_top hb.whole.top)
      (hb.whole.steps_depth (Forest.mem_numbers.2 ⟨n, hn⟩)) hofy.depth
  refine ⟨_, _, heq,
    (ha.gained hb hm hn hret htA).exchanged (hb.gained ha hn hm hret.symm htB) hofx.deep hofy.deep ?_ ?_⟩
  · exact hdx ▸ hswap.left
  · exact hdy ▸ hswap.right

theorem intact_planted {sig : Signature} {e : Term} (h : sig.Admits e) : (planted sig e).Intact :=
  intact_of_wellTyped h.root h.slots

section Crossover

variable {f : Adapter} {select : Tree → Tree → Draw σ (Option (NodeId × NodeId))} {s s₁ : σ}

theorem crossover_none (h : select a b s = .ok (none, s₁)) : (crossover f select a b).run s = .ok (.ok (a, b), s₁) :=
  Result.bind_ok.2 ⟨_, Result.bind_ok.2 ⟨_, h, rfl⟩, rfl⟩

theorem crossover_some {r : Tree × Tree} (h : select a b s = .ok (some (i, j), s₁)) (hswap : a.swap f i b j = .ok r) :
    (crossover f select a b).run s = .ok (.ok r, s₁) := by
  refine Result.bind_ok.2 ⟨_, Result.bind_ok.2 ⟨_, h, rfl⟩, ?_⟩
  dsimp only [ExceptT.bindCont]
  rw [hswap]
  rfl

end Crossover

variable [WordSource σ]

/-- A crossover of intact trees within a height, with local variables renumbered, succeeds from any state of the
source. It leaves two intact trees for the signatures that they had, which together hold as many nodes as before. If
both trees were within the height they still are; if both were valid for one signature they still are; and where no
pair is selected they are those that there were. -/
theorem crossover_intact (l : PairLimits) (ha : a.Intact) (hb : b.Intact) (s : σ) :
    ∃ a' b' s', (Tree.crossover Node.remap l.selectPair a b).run s = .ok (.ok (a', b'), s') ∧
      Exchanged l.maxDepth a b a' b' ∧
      ∀ s₁, l.selectPair a b s = .ok (none, s₁) → a' = a ∧ b' = b ∧ s' = s₁ := by
  obtain ⟨ra, hra⟩ := intact_iff.1 ha
  obtain ⟨rb, hrb⟩ := intact_iff.1 hb
  have hsel : Gives (fun _ => False) (l.selectPair a b : Draw σ (Option (NodeId × NodeId)))
      fun o => ∀ p ∈ o, l.Pair a ra b rb p := l.selectPair_gives hra hrb
  cases hs : l.selectPair a b s with
  | error v => exact (hsel.breaks hs).elim
  | ok drawn =>
    obtain ⟨o, s₁⟩ := drawn
    cases o with
    | none =>
      exact ⟨a, b, s₁, crossover_none hs, .refl ha hb, fun _ h => ⟨rfl, rfl, congrArg Prod.snd (Except.ok.inj h)⟩⟩
    | some p =>
      obtain ⟨a', b', hswap, hex⟩ := hra.exchange hrb (hsel.returns hs p rfl)
      exact ⟨a', b', s₁, crossover_some hs hswap, hex, fun _ h => nomatch congrArg Prod.fst (Except.ok.inj h)⟩

/-- A sum of variables in a tree that numbers its integer second. -/
def doubling : Tree :=
  .planted ⟨none, .int, [], [.float, .int]⟩ (.node (.arithmetic .add .int) fun _ => .node (.localVariable .int 1) nofun)

/-- And one that numbers it first. -/
def counter : Tree := .planted ⟨none, .int, [.bool], [.int]⟩ (.node (.localVariable .int 0) nofun)

theorem crossover_intact_doubling : doubling.Intact ∧ counter.Intact ∧
    ∃ a' b' s', (Tree.crossover Node.remap (PairLimits.selectPair ⟨3, 2⟩) doubling counter).run (XorShift.ofSeed 7) =
        .ok (.ok (a', b'), s') ∧ Exchanged 3 doubling counter a' b' ∧
      ∀ s₁, PairLimits.selectPair ⟨3, 2⟩ doubling counter (XorShift.ofSeed 7) = .ok (none, s₁) →
        a' = doubling ∧ b' = counter ∧ s' = s₁ := by
  have ha : doubling.Intact := intact_planted ⟨by decide, by decide, by decide⟩
  have hb : counter.Intact := intact_planted ⟨by decide, by decide, by decide⟩
  exact ⟨ha, hb, crossover_intact ⟨3, 2⟩ ha hb (XorShift.ofSeed 7)⟩

end Tree
end Grove
