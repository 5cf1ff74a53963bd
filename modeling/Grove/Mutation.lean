import Grove.Generation

/-! Mutation: the subtree at a node gives way to a newly grown one, which may be as high as the depth
of the node leaves room for. The new subtree grows in the forest of the tree. A mutation that is refused
takes away what has grown; one that breaks a promise leaves what had grown by then, and it hangs
nowhere. -/

namespace Grove

namespace Tree

/-- Hangs a node in the place of another and returns the one displaced. -/
def supplant (t : Tree) (old new : NodeId) : Except Failure (Option NodeId × Tree) :=
  match t.forest.parent? old with
  | some (p, slot) => t.setChild p slot new
  | none => t.setRoot new

/-- Hangs a subtree in the place of another, and takes away the one displaced, or else the new one where
that is refused. -/
def substitute (t : Tree) (old new : NodeId) : Tree × Except Failure Unit :=
  match t.supplant old new with
  | .ok (displaced, t) => (displaced.elim t t.prune, .ok ())
  | .error (.refused e) => (t.prune new, .error (.refused e))
  | .error (.violated v) => (t, .error (.violated v))

variable {σ : Type}

/-- The tree once something has grown in its forest for the place of a node. -/
def settle (t : Tree) (i : NodeId) : Except (Violation × Forest) (Except Error NodeId × (Forest × σ)) →
    Tree × Except Violation (Except Error Unit × σ)
  | .error (v, forest) => ({ t with forest }, .error v)
  | .ok (.error e, (forest, s)) => ({ t with forest }, .ok (.error e, s))
  | .ok (.ok new, (forest, s)) =>
    match substitute { t with forest } i new with
    | (t, .ok _) => (t, .ok (.ok (), s))
    | (t, .error (.refused e)) => (t, .ok (.error e, s))
    | (t, .error (.violated v)) => (t, .error v)

/-- Mutates the node that a selector draws, if it draws one. The tree comes first, as it is afterwards,
and then how it went. -/
def mutate [WordSource σ] (g : Generator σ) (select : Tree → Draw σ (Option NodeId)) (maxDepth : Nat) (t : Tree)
    (s : σ) : Tree × Except Violation (Except Error Unit × σ) :=
  match select t s with
  | .error v => (t, .error v)
  | .ok (none, s) => (t, .ok (.ok (), s))
  | .ok (some i, s) =>
    match t.forest.node? i with
    | none => (t, .error .missingNode)
    | some n =>
      let budget := maxDepth - t.forest.depth i
      t.settle i ((g.subtree t.signature .grow budget n.returns).run (t.forest, s))

end Tree
end Grove
