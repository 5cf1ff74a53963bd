import Grove.Proofs.Cuts
import Grove.Proofs.Limits
import Grove.Proofs.Result

/-! The first status stands. Once a child has ended the frame, its node ends in the very state that the child left,
and so does every node above it in the frame; only a loop takes a frame back, which its body broke off or
continued. That a child is evaluated from a state is read off the node: what the child does from there matters. -/

namespace Grove

/-- Evaluates a node with these computations for its children. -/
def World.evalNode (w : World) (room : Nat) (id : NodeId) (n : Node) (kid : Fin n.arity → Exec Yield) : Exec Yield :=
  Exec.entering w.limits id n.returns (Exec.conclude n (Exec.produce (w.call (w.below room)) n kid))

theorem World.run_node (w : World) (room : Nat) (id : NodeId) (n : Node) (kids : Fin n.arity → Shape) :
    w.run room (.node id n kids) = w.evalNode room id n fun i => w.run room (kids i) := by
  rw [run_eq, Exec.eval_node]
  rfl

/-- While the node is evaluated from `r`, its child in the slot is evaluated from `r₁`: if it did something else
there, and only there, the node could end differently. -/
def World.Descends (w : World) (room : Nat) (id : NodeId) {n : Node} (kids : Fin n.arity → Shape) (r : Run)
    (slot : Fin n.arity) (r₁ : Run) : Prop :=
  ∃ kid : Exec Yield, (∀ r', r' ≠ r₁ → kid.runFrom r' = (w.run room (kids slot)).runFrom r') ∧
    (w.evalNode room id n fun i => if i = slot then kid else w.run room (kids i)).runFrom r ≠
      (w.run room (.node id n kids)).runFrom r

/-- In the frame in which a shape is evaluated from a state, a shape below is evaluated from another. -/
inductive World.Reaches (w : World) (room : Nat) : Shape → Run → Shape → Run → Prop
  | here (s : Shape) (r : Run) : Reaches w room s r s r
  | into {id : NodeId} {n : Node} {kids : Fin n.arity → Shape} {r r₁ r' : Run} {slot : Fin n.arity} {s : Shape}
      (h : w.Descends room id kids r slot r₁) (hs : Reaches w room (kids slot) r₁ s r') :
      Reaches w room (.node id n kids) r s r'

theorem Node.absorbs_of_ne {s : Status} (hb : s ≠ .breakCalled) (hc : s ≠ .continueCalled) (n : Node) (slot : Nat) :
    n.absorbs slot s = false := by
  unfold absorbs
  split
  · simp [hb, hc]
  · rfl

namespace Exec

variable {w : World} {room : Nat}

/-- Nodes that differ in children which end their frame in one of some states, and not otherwise, do the same or
end in such a state. -/
theorem evalNode_cut {E : Run → Prop} (hE : ∀ e, E e → e.frame.status ≠ .evaluating) {id : NodeId} {n : Node}
    {kid kid' : Fin n.arity → Exec Yield}
    (h : ∀ (i : Fin n.arity) (r : Run), r.frame.isEvaluating = true → (kid i).runFrom r = (kid' i).runFrom r ∨
      ∃ y e, (kid i).runFrom r = (.ok y, e) ∧ E e ∧ n.absorbs i e.frame.status = false) (r : Run) :
    (w.evalNode room id n kid).runFrom r = (w.evalNode room id n kid').runFrom r ∨
      ∃ e, (w.evalNode room id n kid).runFrom r = (.ok (.ofType n.returns), e) ∧ E e := by
  have stays : ∀ {r r' : Run} {o : Option Violation}, Stays (fun e _ => E e) (fun _ => True) r o r' :=
    ⟨fun _ he => he, fun _ _ => trivial⟩
  have hD : Paced w.limits (Stays (fun e _ => E e) fun _ => True) :=
    (paced_bounded w.limits 0).imp (fun _ => stays) fun _ _ => stays
  have hcall : ∀ c xs, Cuts (fun e _ => E e) (fun _ => True) (fun _ => True) (w.call (w.below room) c xs)
      (w.call (w.below room) c xs) :=
    fun c xs => ⟨fun r _ _ => .inl ⟨rfl, fun _ _ => trivial⟩, fun _ => stays⟩
  have hkids : ∀ i : Fin n.arity, CutsChild (fun e _ => E e) (fun _ => True) n i (kid i) (kid' i) := by
    intro i
    refine ⟨fun r hr _ => (h i r hr).imp_right ?_, fun _ => stays⟩
    rintro ⟨y, e, hrun, he, ha⟩
    rw [hrun]
    exact ⟨⟨y, rfl⟩, hE e he, ha, he⟩
  have hnode := CutsNode.entering hD
    (Cuts.conclude hD.toClosed
      (Congruence.produce (Cuts.congruence hD.toClosed) n (fun _ => Cuts.leap hD) (fun c _ => hcall c) hkids)
      (fun {e _} he => by simpa [Frame.isEvaluating] using hE e he) n)
    (Nat.le_refl _) (fun r _ h h' => absurd h' (by omega)) id
  cases hr : r.frame.isEvaluating with
  | true => exact hnode.run r hr trivial
  | false =>
    left
    rw [World.evalNode, World.evalNode, runFrom_entering, runFrom_entering, if_pos hr, if_pos hr]

theorem run_ended {s : Shape} {r : Run} (hr : r.frame.isEvaluating = false) :
    (w.run room s).runFrom r = (.ok (.ofType s.label.returns), r) := by
  rw [World.run_eq]
  cases s with
  | node id n kids =>
    rw [eval_node, runFrom_entering, if_pos hr]
    rfl
  | torn id n why =>
    rw [eval_torn, runFrom_entering, if_pos hr]
    rfl

/-- Children are evaluated only while the frame is. -/
theorem evaluating_of_descends {id : NodeId} {n : Node} {kids : Fin n.arity → Shape} {r r₁ : Run} {slot : Fin n.arity}
    (h : w.Descends room id kids r slot r₁) : r₁.frame.status = .evaluating := by
  obtain ⟨kid, hagree, hne⟩ := h
  by_cases hs : r₁.frame.status = .evaluating
  · exact hs
  rw [World.run_node] at hne
  have hcut := @evalNode_cut w room (fun _ => False) (fun e he => he.elim) id n (fun i => w.run room (kids i))
    (fun i => if i = slot then kid else w.run room (kids i)) ?_ r
  · rcases hcut with hsame | ⟨e, -, he⟩
    · exact absurd hsame.symm hne
    · exact he.elim
  · intro i r' hr'
    left
    by_cases hi : i = slot
    · have hr : r' ≠ r₁ := by
        rintro rfl
        exact hs (by simpa [Frame.isEvaluating] using hr')
      subst hi
      simp [hagree r' hr]
    · simp [hi]

/-- The node ends where the child ended the frame. -/
theorem run_of_descends {id : NodeId} {n : Node} {kids : Fin n.arity → Shape} {r r₁ r₂ : Run} {slot : Fin n.arity}
    {y : Yield} (h : w.Descends room id kids r slot r₁) (hchild : (w.run room (kids slot)).runFrom r₁ = (.ok y, r₂))
    (hs : r₂.frame.status ≠ .evaluating) (ha : n.absorbs slot r₂.frame.status = false) :
    (w.run room (.node id n kids)).runFrom r = (.ok (.ofType n.returns), r₂) := by
  obtain ⟨kid, hagree, hne⟩ := h
  rw [World.run_node] at hne ⊢
  have hcut := @evalNode_cut w room (· = r₂) (fun e he => he ▸ hs) id n (fun i => w.run room (kids i))
    (fun i => if i = slot then kid else w.run room (kids i)) ?_ r
  · rcases hcut with hsame | ⟨e, hrun, rfl⟩
    · exact absurd hsame.symm hne
    · exact hrun
  · intro i r' _
    by_cases hi : i = slot
    · subst hi
      by_cases hr : r' = r₁
      · exact .inr ⟨y, r₂, hr ▸ hchild, rfl, ha⟩
      · exact .inl (by simp [hagree r' hr])
    · exact .inl (by simp [hi])

theorem run_of_reaches {s s' : Shape} {r r' r₂ : Run} {y : Yield} (h : w.Reaches room s r s' r')
    (hrun : (w.run room s').runFrom r' = (.ok y, r₂)) (hs : r₂.frame.status ≠ .evaluating)
    (hb : r₂.frame.status ≠ .breakCalled) (hc : r₂.frame.status ≠ .continueCalled) :
    ∃ y', (w.run room s).runFrom r = (.ok y', r₂) := by
  induction h with
  | here => exact ⟨y, hrun⟩
  | into hdescends _ ih =>
    obtain ⟨y', hchild⟩ := ih hrun
    exact ⟨_, run_of_descends hdescends hchild hs (Node.absorbs_of_ne hb hc _ _)⟩

theorem finish_ended {r : Run} (hs : r.frame.status ≠ .evaluating) (y : Yield) :
    ((finish y).runFrom r).1 =
      .ok ⟨r.frame.status, if r.frame.status = .valueReturned then r.frame.returned else none⟩ := by
  rw [runFrom_finish]
  cases h : r.frame.status <;> simp_all

end Exec

/-- A status that ends a frame stands. A node ends in the state in which one of its children ended the frame, unless
it is a loop that takes the frame back; no child is evaluated in a frame that has ended; an end that no loop takes
back is how the whole frame ends; and in a frame that has ended a node does nothing. -/
theorem first_status_stands (w : World) (room : Nat) :
    (∀ (id : NodeId) (n : Node) (kids : Fin n.arity → Shape) (r r₁ r₂ : Run) (slot : Fin n.arity) (y : Yield),
      w.Descends room id kids r slot r₁ → (w.run room (kids slot)).runFrom r₁ = (.ok y, r₂) →
      r₂.frame.status ≠ .evaluating → n.absorbs slot r₂.frame.status = false →
        (w.run room (.node id n kids)).runFrom r = (.ok (.ofType n.returns), r₂)) ∧
      (∀ (id : NodeId) (n : Node) (kids : Fin n.arity → Shape) (r r₁ : Run) (slot : Fin n.arity),
        w.Descends room id kids r slot r₁ → r₁.frame.status = .evaluating) ∧
      (∀ (s s' : Shape) (r r' r₂ : Run) (y : Yield),
        w.Reaches room s r s' r' → (w.run room s').runFrom r' = (.ok y, r₂) →
        r₂.frame.status ≠ .evaluating → r₂.frame.status ≠ .breakCalled → r₂.frame.status ≠ .continueCalled →
          ((w.run room s).runFrom r).2 = r₂ ∧
            ((w.run room s >>= Exec.finish).runFrom r).1 =
              .ok ⟨r₂.frame.status, if r₂.frame.status = .valueReturned then r₂.frame.returned else none⟩) ∧
      ∀ (s : Shape) (r : Run), r.frame.status ≠ .evaluating →
        (w.run room s).runFrom r = (.ok (.ofType s.label.returns), r) := by
  refine ⟨fun id n kids r r₁ r₂ slot y => Exec.run_of_descends,
    fun id n kids r r₁ slot => Exec.evaluating_of_descends, ?_, ?_⟩
  · intro s s' r r' r₂ y h hrun hs hb hc
    obtain ⟨y', hend⟩ := Exec.run_of_reaches h hrun hs hb hc
    refine ⟨by rw [hend], ?_⟩
    rw [Exec.runFrom_bind_ok hend]
    exact Exec.finish_ended hs y'
  · intro s r hs
    exact Exec.run_ended (by simpa [Frame.isEvaluating] using hs)

/-- Does what `x` does, but for breaking off in one state. -/
def Exec.breakingAt (r₁ : Run) (x : Exec Yield) : Exec Yield := do
  let r ← get
  if r = r₁ then violate .endless else x

/-- A child is evaluated from a state if breaking it off there breaks the node off. -/
theorem World.descends_of_break {w : World} {room : Nat} {id : NodeId} {n : Node} {kids : Fin n.arity → Shape}
    {r r₁ : Run} {slot : Fin n.arity}
    (hbreak : Halt.broken? ((w.evalNode room id n fun i =>
      if i = slot then Exec.breakingAt r₁ (w.run room (kids slot)) else w.run room (kids i)).runFrom r).1 =
        some .endless)
    (h : Halt.broken? ((w.run room (.node id n kids)).runFrom r).1 ≠ some .endless) :
    w.Descends room id kids r slot r₁ := by
  refine ⟨_, fun r' hr => ?_, fun hsame => h (hsame ▸ hbreak)⟩
  rw [Exec.breakingAt, Exec.runFrom_bind_ok (Exec.runFrom_get r'), if_neg hr]

namespace Leaving

/-- Returns seven, and would then write one through its argument. -/
def kids : Fin 2 → Shape
  | ⟨0, _⟩ => .node 1 (.returnValue .int) fun _ => .node 2 (.const (.int 7)) Fin.elim0
  | _ => .node 3 (.substitute .int) fun
    | ⟨0, _⟩ => .node 4 (.argument Ty.int.leftHand 0) Fin.elim0
    | _ => .node 5 (.const (.int 1)) Fin.elim0

def world : World := ⟨⟨100, 10⟩, .empty⟩

def start : Run := .start (.start [(Variable.new (.int 3) .empty).1] []) (Variable.new (.int 3) .empty).2

def entered : Run := { start with steps := 1, journal := [.entered 0] }

def left : Run := ((world.run 10 (kids ⟨0, Nat.zero_lt_two⟩)).runFrom entered).2

theorem descends : world.Descends 10 0 (n := .progn .int 2) kids start (0 : Fin 2) entered :=
  World.descends_of_break (by decide +kernel) (by decide +kernel)

end Leaving

/-- The first child returns, and the second does not write. -/
theorem first_status_stands_return :
    Leaving.world.Descends 10 0 (n := .progn .int 2) Leaving.kids Leaving.start (0 : Fin 2) Leaving.entered ∧
      Leaving.left.frame.status = .valueReturned ∧
      (Leaving.world.run 10 (.node 0 (.progn .int 2) Leaving.kids)).runFrom Leaving.start =
        (.ok (.ofType .int), Leaving.left) ∧
      Leaving.left.steps = 3 ∧ Leaving.left.store = Leaving.start.store := by
  have hchild : (Leaving.world.run 10 (Leaving.kids 0)).runFrom Leaving.entered =
      (.ok (.value (.int 7)), Leaving.left) :=
    Prod.ext (Result.toOption_some.1 (by decide +kernel)) rfl
  have hstatus : Leaving.left.frame.status = .valueReturned := by decide +kernel
  have hends :=
    (first_status_stands Leaving.world 10).1 0 (.progn .int 2) Leaving.kids _ _ _ (0 : Fin 2) _ Leaving.descends
    hchild (by rw [hstatus]; decide) rfl
  exact ⟨Leaving.descends, hstatus, hends, by decide +kernel, by decide +kernel⟩

end Grove
