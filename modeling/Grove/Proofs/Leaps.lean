import Grove.Proofs.Calls
import Grove.Proofs.Cuts
import Grove.Proofs.Planting
import Grove.Proofs.Result

/-! Breaks and continues. A shape can leave its frame broken off or continued only by a node in it that does so on
its own account, or by a call whose body does, where no loop of the shape is around it. So in trees where all such
nodes stand in the bodies of loops, no frame ends with either status. -/

namespace Grove

variable {s : Status} {n : Node}

/-- The nodes that stand in the shape where no loop of the shape takes back the status. -/
def Shape.loose (s : Status) : Shape → List Node
  | .node _ n kids =>
    n :: (List.ofFn fun slot : Fin n.arity => if n.absorbs slot s then [] else (kids slot).loose s).flatten
  | .torn .. => []

/-- The shape can leave a frame in the status: a loose node of it does, or the body of a loose call. -/
inductive Registry.Leaks (g : Registry) (s : Status) : Shape → Prop
  | own {shape : Shape} {n : Node} (h : n ∈ shape.loose s) (hn : n.leap? = some s) : Leaks g s shape
  | call {shape inner : Shape} {c : Callee} {body : Tree} (h : .call c ∈ shape.loose s)
      (hb : g.body? c.name = some body) (hs : body.shape? = some inner) (hl : Leaks g s inner) : Leaks g s shape

/-- Every node of the tree that leaves a loop stands in the body of one. -/
def Tree.Contained (t : Tree) : Prop :=
  ∀ shape, t.shape? = some shape → ∀ s, ∀ n ∈ shape.loose s, n.leap? ≠ some s

/-- And so it is in every body. -/
def Registry.Contained (g : Registry) : Prop := ∀ name body, g.body? name = some body → body.Contained

theorem Status.ne_of_isLeap {s' : Status} (hs : s.isLeap = true) (h : s'.isLeap = false) : s' ≠ s := by
  rintro rfl
  rw [hs] at h
  cases h

theorem Node.absorbs_of_leap (hs : s.isLeap = true) (n : Node) (slot : Nat) : n.absorbs slot s = n.loops slot := by
  cases n with
  | repeatTimes ty =>
    match slot with
    | 0 | _ + 2 => rfl
    | 1 => cases s <;> first | rfl | cases hs
  | _ => rfl

section Leaks

variable {g : Registry} {shape : Shape} {id : NodeId} {kids : Fin n.arity → Shape}

theorem Shape.mem_loose_self : n ∈ (Shape.node id n kids).loose s := List.mem_cons_self

theorem Shape.mem_loose_kid {slot : Fin n.arity} {m : Node} (ha : n.absorbs slot s = false)
    (h : m ∈ (kids slot).loose s) : m ∈ (Shape.node id n kids).loose s := by
  refine List.mem_cons_of_mem n (List.mem_flatten.2 ⟨_, List.mem_ofFn.2 ⟨slot, rfl⟩, ?_⟩)
  rwa [ha]

/-- What leaks from a child leaks from its node, unless the node takes it back. -/
theorem Registry.Leaks.of_kid {slot : Fin n.arity} (ha : n.absorbs slot s = false) (h : g.Leaks s (kids slot)) :
    g.Leaks s (.node id n kids) := by
  cases h with
  | own hm hn => exact .own (Shape.mem_loose_kid ha hm) hn
  | call hm hb hs hi => exact .call (Shape.mem_loose_kid ha hm) hb hs hi

theorem Registry.Contained.not_leaks (hg : g.Contained) (h : ∀ n ∈ shape.loose s, n.leap? ≠ some s) :
    ¬ g.Leaks s shape := by
  intro hl
  induction hl with
  | own hm hn => exact h _ hm hn
  | call _ hb hs _ ih => exact ih (hg _ _ hb _ hs s)

end Leaks

namespace Exec

/-- A frame that is not in the status does not get into it. -/
def Avoids (s : Status) (r : Run) (o : Option Violation) (r' : Run) : Prop :=
  o = none → r.frame.status ≠ s → r'.frame.status ≠ s

theorem Avoids.of_eq {r r' : Run} {o : Option Violation} (h : r'.frame.status = r.frame.status) : Avoids s r o r' :=
  fun _ hr => h ▸ hr

theorem Avoids.signal {r : Run} {o : Option Violation} {s' : Status} (h : s' ≠ s) :
    Avoids s r o { r with frame := r.frame.signal s' } :=
  fun _ hr heq => hr (Frame.status_of_signal heq h)

theorem stepped_avoids (l : Limits) (hs : s.isLeap = true) : Stepped l (Avoids s) where
  refl _ := .of_eq rfl
  trans h h' ho hr := h' ho (h rfl hr)
  store _ _ := .of_eq rfl
  note _ _ _ := .of_eq rfl
  signal r s' hs' := .signal (Status.ne_of_isLeap hs (by cases s' <;> first | rfl | cases hs'))
  returnWith r v _ hr := by
    unfold Frame.returnWith
    split
    · exact Status.ne_of_isLeap hs rfl
    · exact hr
  resume r _ _ _ := Status.ne_of_isLeap hs rfl
  enter _ _ _ _ := .of_eq rfl
  exhaust r _ _ := .signal (Status.ne_of_isLeap hs rfl)

/-- A loop takes a break and a continue of its body back, and ends with any other status. -/
theorem avoids_rounds (hs : s.isLeap = true) {body : Exec Yield} (h : Settles body) (n : Nat) (last : Yield) :
    Moves (Avoids s) (rounds body n last) := by
  induction n generalizing last with
  | zero => exact Moves.pure (stepped_avoids ⟨0, 0⟩ hs).toClosed last
  | succ n ih =>
    intro r
    rw [runFrom_rounds]
    rcases hb : body.runFrom r with ⟨(_ | v) | y, r'⟩
    · exact absurd (congrArg Prod.fst hb) (h r)
    · exact nofun
    · intro ho _
      dsimp only at ho ⊢
      cases hst : r'.frame.status with
      | evaluating =>
        rw [hst] at ho
        exact ih y r' ho (hst ▸ Status.ne_of_isLeap hs rfl)
      | continueCalled =>
        rw [hst] at ho
        exact ih last _ ho (Status.ne_of_isLeap hs rfl)
      | breakCalled => exact Status.ne_of_isLeap hs rfl
      | _ =>
        change r'.frame.status ≠ s
        rw [hst]
        exact Status.ne_of_isLeap hs rfl

theorem avoids_congruence (hs : s.isLeap = true) :
    Congruence (fun _ x => Moves (Avoids s) x) (fun _ x => Moves (Avoids s) x)
      fun n i _ k => Settles k ∧ (n.loops i = false → Moves (Avoids s) k) :=
  have hQ := (stepped_avoids ⟨0, 0⟩ hs).toClosed
  { Moves.congruence hQ with
    operand := fun hi h => Moves.operand hQ (h.2 hi)
    rounds := fun h => avoids_rounds hs h.1 }

variable {w : World} {room : Nat}

theorem avoids_finish {y : Yield} {r r' : Run} {o : Outcome} (hs : s.isLeap = true) (hr : r.frame.status ≠ s)
    (h : (finish y).runFrom r = (.ok o, r')) : o.status ≠ s := by
  have hQ := (stepped_avoids ⟨0, 0⟩ hs).toClosed
  have hran := Moves.finish hQ (fun _ => .of_eq rfl) y r
  rw [h] at hran
  rcases (finish_ok h).2 with ho | ⟨-, ho⟩
  · rw [ho]
    exact Status.ne_of_isLeap hs rfl
  · exact ho ▸ hran rfl hr

theorem avoids_call (hs : s.isLeap = true) {c : Callee} (hbody : ∀ k, room = k + 1 → ∀ body shape,
    w.registry.body? c.name = some body → body.shape? = some shape → Moves (Avoids s) (w.run k shape))
    (xs : List Variable) : Moves (Avoids s) (w.call (w.below room) c xs) := by
  intro r
  cases call_ends w room c xs r with
  | missing h =>
    rw [h]
    exact .signal (Status.ne_of_isLeap hs rfl)
  | refused _ h =>
    rw [h]
    exact .signal (Status.ne_of_isLeap hs rfl)
  | wild _ _ _ _ h =>
    rw [h]
    exact nofun
  | broken _ _ _ _ _ h =>
    rw [h]
    exact nofun
  | @back k body shape locals st y ended after o hroom hb hsh _ hrun hfin h =>
    have hran := hbody k hroom body shape hb hsh (r.callee c xs locals st)
    rw [hrun] at hran
    have ho := avoids_finish hs (hran rfl (Status.ne_of_isLeap hs rfl)) hfin
    rw [h]
    rcases hand_cases o with ⟨v, -, hand⟩ | ⟨-, hand⟩ | ⟨-, hand⟩ <;> rw [hand]
    · exact Avoids.of_eq rfl
    · exact Avoids.signal (Status.ne_of_isLeap hs rfl)
    · exact Avoids.signal ho

/-- A node does not leave its frame in the status if it does not leave a loop with it, if its children do not leave
the frame in it unless the node takes that back, and if the body it calls does not. -/
theorem avoids_node (hs : s.isLeap = true) {id : NodeId} {kids : Fin n.arity → Shape} (hn : n.leap? ≠ some s)
    (hkids : ∀ i : Fin n.arity, n.absorbs i s = false → Moves (Avoids s) (w.run room (kids i)))
    (hcall : ∀ c, n = .call c → ∀ xs, Moves (Avoids s) (w.call (w.below room) c xs)) :
    Moves (Avoids s) (w.run room (.node id n kids)) := by
  have hQ := stepped_avoids w.limits hs
  have hleap : ∀ s', n.leap? = some s' → Moves (Avoids s) (fault s' : Exec Yield) := by
    intro s' hs' r
    exact Avoids.signal fun heq => hn (heq ▸ hs')
  have hproduce := @Congruence.produce _ _ _ (avoids_congruence hs) (w.call (w.below room)) _ n hleap hcall
    (fun i => w.run room (kids i)) _ fun i =>
      ⟨settles_run w room (kids i), fun hi => hkids i ((n.absorbs_of_leap hs i).trans hi)⟩
  rw [World.run_eq] at hproduce ⊢
  rw [eval_node]
  exact Moves.entering hQ (Moves.conclude hQ.toClosed hproduce n) id n.returns

theorem avoids_run (w : World) (hs : s.isLeap = true) (room : Nat) (shape : Shape) (h : ¬ w.registry.Leaks s shape) :
    Moves (Avoids s) (w.run room shape) := by
  induction room using Nat.strongRecOn generalizing shape with
  | ind room ihroom =>
    induction shape with
    | node id n kids ih =>
      refine avoids_node hs (fun hn => h (.own Shape.mem_loose_self hn))
        (fun i ha => ih i fun hl => h (hl.of_kid ha)) ?_
      rintro c rfl xs
      refine avoids_call hs (fun k hk body inner hb hsh => ?_) xs
      exact ihroom k (by omega) inner fun hl => h (.call Shape.mem_loose_self hb hsh hl)
    | torn id n why =>
      have hbreak : Moves (Avoids s) (violate why : Exec Yield) := fun r => nofun
      rw [World.run_eq, eval_torn]
      exact Moves.entering (stepped_avoids w.limits hs) hbreak id n.returns

theorem avoids_activate (w : World) (hs : s.isLeap = true) {body : Tree} {shape : Shape}
    (h : ¬ w.registry.Leaks s shape)
    {xs : List Variable} {r r' : Run} {o : Outcome}
    (hrun : (World.activate (w.run room) body shape xs).runFrom r = (.ok o, r')) : o.status ≠ s := by
  cases hf : freshCells body.signature.locals r.store with
  | error v =>
    unfold World.activate at hrun
    rw [runFrom_bind_ok (runFrom_get r), hf] at hrun
    cases hrun
  | ok a =>
    rw [runFrom_activate hf] at hrun
    have hran := avoids_run w hs room shape h { r with frame := .start xs a.1, store := a.2, depth := r.depth + 1 }
    rcases hbody : (w.run room shape).runFrom _ with ⟨e | y, ended⟩ <;> rw [hbody] at hran
    · rw [runFrom_bind_error hbody] at hrun
      cases hrun
    · obtain ⟨o', after, hfin⟩ := finish_total y ended
      rw [runFrom_bind_ok hbody, hfin] at hrun
      cases hrun
      exact avoids_finish hs (hran rfl (Status.ne_of_isLeap hs rfl)) hfin

theorem avoids_evaluate (w : World) (hs : s.isLeap = true) {t : Tree} {xs : List Variable} {st : Store} {r' : Run}
    {o : Outcome} (h : ∀ shape, t.shape? = some shape → ¬ w.registry.Leaks s shape)
    (hrun : t.evaluate w xs st = (.ok o, r')) : o.status ≠ s := by
  cases hrun ▸ t.evaluate_ends w xs st with
  | rootless _ h => cases h
  | wild _ h => cases h
  | broken _ _ _ h => cases h
  | @ended shape locals st' _ _ _ _ hsh _ hbody hfin heq =>
    cases heq
    have hran := avoids_run w hs w.limits.maxDepth shape (h shape hsh) (.start (.start xs locals) st')
    rw [hbody] at hran
    exact avoids_finish hs (hran rfl (Status.ne_of_isLeap hs rfl)) hfin

end Exec

/-- Breaks and continues do not escape their loops. A shape leaves a frame in either status only if it leaks it: if
it holds a node that leaves a loop, and no loop of the shape around it, or such a call of a body that leaks it. So
where in a tree and in all bodies every such node stands in the body of a loop, no evaluation of the tree ends in
either status, whatever its arguments and the limits, and no body that is called hands one on. -/
theorem leaps_contained (w : World) :
    (w.registry.Contained →
      (∀ t : Tree, t.Contained → ∀ xs st o r', t.evaluate w xs st = (.ok o, r') →
        o.status ≠ .breakCalled ∧ o.status ≠ .continueCalled) ∧
      ∀ name body shape, w.registry.body? name = some body → body.shape? = some shape → ∀ room xs r o r',
        (World.activate (w.run room) body shape xs).runFrom r = (.ok o, r') →
          o.status ≠ .breakCalled ∧ o.status ≠ .continueCalled) ∧
    ∀ s, s = .breakCalled ∨ s = .continueCalled → ∀ room shape r y r', r.frame.status ≠ s →
      (w.run room shape).runFrom r = (.ok y, r') → r'.frame.status = s → w.registry.Leaks s shape := by
  refine ⟨fun hg => ⟨fun t ht xs st o r' h => ?_, fun name body shape hb hsh room xs r o r' h => ?_⟩, ?_⟩
  · have hleaks : ∀ s shape, t.shape? = some shape → ¬ w.registry.Leaks s shape :=
      fun s shape hsh => hg.not_leaks (ht shape hsh s)
    exact ⟨Exec.avoids_evaluate w rfl (hleaks _) h, Exec.avoids_evaluate w rfl (hleaks _) h⟩
  · have hleaks : ∀ s, ¬ w.registry.Leaks s shape := fun s => hg.not_leaks (hg name body hb shape hsh s)
    exact ⟨Exec.avoids_activate w rfl (hleaks _) h, Exec.avoids_activate w rfl (hleaks _) h⟩
  · intro s hs room shape r y r' hr hrun hr'
    have hleap : s.isLeap = true := by rcases hs with rfl | rfl <;> rfl
    apply Classical.byContradiction
    intro hl
    have hran := Exec.avoids_run w hleap room shape hl r
    rw [hrun] at hran
    exact hran rfl hr hr'

namespace Escaping

/-- Calls itself from the body of a loop that breaks off at once, so that no call is ever made. -/
def seek : Callee := ⟨"Seek", .int, []⟩

def body : Term :=
  .node (.repeatTimes .int) fun
    | ⟨0, _⟩ => .node (.const (.int 3)) nofun
    | _ => .node (.progn .int 2) fun
      | ⟨0, _⟩ => .node (.breakLoop .int) nofun
      | _ => .node (.call seek) nofun

/-- Calls `Seek` in each of two rounds, and does not end either of them. -/
def term : Term :=
  .node (.repeatTimes .int) fun
    | ⟨0, _⟩ => .node (.const (.int 2)) nofun
    | _ => .node (.progn .int 2) fun
      | ⟨0, _⟩ => .node (.call seek) nofun
      | _ => .node (.continueLoop .int) nofun

def signature : Signature := ⟨none, .int, [], []⟩

def tree : Tree := .planted signature term

def world : World := ⟨⟨100, 3⟩, ⟨[("Seek", ⟨seek, some (.planted signature body)⟩)]⟩⟩

theorem contained_planted {e : Term} (h : ∀ s ∈ Status.all, ∀ n ∈ (e.numbered 0).loose s, n.leap? ≠ some s) :
    (Tree.planted signature e).Contained := by
  intro shape hs s
  obtain rfl := Option.some.inj ((Tree.shape?_planted signature e).symm.trans hs)
  exact h s (by cases s <;> decide)

theorem contained_registry : world.registry.Contained := by
  intro name body h
  by_cases hname : name = "Seek"
  · subst hname
    obtain rfl := Option.some.inj h
    exact contained_planted (by decide +kernel)
  · simp [world, Registry.body?, Registry.entry?, List.lookup_cons, beq_false_of_ne hname] at h

end Escaping

/-- Both leave loops all the time, and none of it is seen from outside. A break by itself is. -/
theorem leaps_contained_seek : Escaping.world.registry.Contained ∧ Escaping.tree.Contained ∧
    (∀ xs st o r', Escaping.tree.evaluate Escaping.world xs st = (.ok o, r') →
      o.status ≠ .breakCalled ∧ o.status ≠ .continueCalled) ∧
    (Escaping.tree.evaluate Escaping.world [] .empty).1.toOption = some (.returned (.int 0)) ∧
    Escaping.world.registry.Leaks .breakCalled (.node 0 (.breakLoop .int) nofun) := by
  have ht : Escaping.tree.Contained := Escaping.contained_planted (by decide +kernel)
  obtain ⟨hcontained, hleaks⟩ := leaps_contained Escaping.world
  have hbreak := hleaks .breakCalled (.inl rfl) 0 (.node 0 (.breakLoop .int) nofun) (.start (.start [] []) .empty)
    (.ofType .int) _ (by decide) (Prod.ext (Result.toOption_some.1 (by decide +kernel)) rfl) (by decide +kernel)
  exact ⟨Escaping.contained_registry, ht, (hcontained Escaping.contained_registry).1 _ ht, by decide +kernel, hbreak⟩

end Grove
