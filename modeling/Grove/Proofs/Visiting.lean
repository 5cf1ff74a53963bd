import Grove.Proofs.Isomorphism
import Grove.Proofs.Moves
import Grove.Proofs.Relevance
import Grove.Proofs.Result
import Mathlib.Data.List.FinRange

/-! The order of an evaluation. Without loops and calls a node goes through its children once, from the left to the
right, and may leave some of them out. So the nodes that are entered appear in the tree's pre-order, each at most
once; there are no more steps than nodes, and a limit that allows that many is never hit. -/

namespace Grove

/-- Neither a loop nor a call, the two ways to evaluate a node more than once. -/
def Node.isStraight : Node → Bool
  | repeatTimes _ | call _ => false
  | _ => true

def Event.entry? : Event → Option NodeId
  | entered i => some i
  | _ => none

theorem Event.entry?_of_isOwn {e : Event} (h : e.isOwn = true) : e.entry? = none := by
  cases e with
  | entered i => cases h
  | _ => rfl

/-- The nodes that a run has entered, oldest first. -/
def Run.visited (r : Run) : List NodeId := (r.journal.filterMap Event.entry?).reverse

/-- From `r` to `r'` some of the nodes in the list were entered, in its order, and the limit was hit only if it was
too low for all of them. -/
structure Run.Visits (maxSteps : Nat) (l : List NodeId) (r r' : Run) : Prop where
  visited : ∃ new, new.Sublist l ∧ r'.visited = r.visited ++ new ∧ r'.steps = r.steps + new.length
  stepsExceeded : r'.frame.status = .stepsExceeded →
    r.frame.status = .stepsExceeded ∨ maxSteps < r.steps + l.length

namespace Run.Visits

variable {max : Nat} {l l' : List NodeId} {r r' r'' : Run}

theorem steps_le (h : Visits max l r r') : r'.steps ≤ r.steps + l.length := by
  obtain ⟨new, hsub, -, hsteps⟩ := h.visited
  have := hsub.length_le
  omega

theorem trans (h : Visits max l r r') (h' : Visits max l' r' r'') : Visits max (l ++ l') r r'' where
  visited := by
    obtain ⟨new, hsub, hvisited, hsteps⟩ := h.visited
    obtain ⟨new', hsub', hvisited', hsteps'⟩ := h'.visited
    refine ⟨new ++ new', hsub.append hsub', ?_, ?_⟩
    · rw [hvisited', hvisited, List.append_assoc]
    · rw [hsteps', hsteps, List.length_append, Nat.add_assoc]
  stepsExceeded hs := by
    have hle := h.steps_le
    rw [List.length_append]
    rcases h'.stepsExceeded hs with hs | hmax
    · exact (h.stepsExceeded hs).imp_right fun hmax => by omega
    · exact .inr (by omega)

theorem mono (h : Visits max l r r') (hl : l.Sublist l') : Visits max l' r r' where
  visited := by
    obtain ⟨new, hsub, hrest⟩ := h.visited
    exact ⟨new, hsub.trans hl, hrest⟩
  stepsExceeded hs := (h.stepsExceeded hs).imp_right fun hmax => by
    have := hl.length_le
    omega

theorem quiet (hj : r'.visited = r.visited) (hs : r'.steps = r.steps)
    (hf : r'.frame.status = .stepsExceeded → r.frame.status = .stepsExceeded) : Visits max [] r r' where
  visited := ⟨[], .slnil, by rw [hj, List.append_nil], hs⟩
  stepsExceeded h := .inl (hf h)

theorem enter (r : Run) (i : NodeId) :
    Visits max [i] r { r with steps := r.steps + 1, journal := .entered i :: r.journal } where
  visited := ⟨[i], .refl _, by simp [Run.visited, Event.entry?], rfl⟩
  stepsExceeded := .inl

end Run.Visits

namespace Exec

variable {α β : Type} {max : Nat} {l l' : List NodeId}

/-- However the computation ends. -/
def Visits (max : Nat) (l : List NodeId) (x : Exec α) : Prop := Moves (fun r _ r' => r.Visits max l r') x

theorem closed_visits (max : Nat) : Closed fun r _ r' => r.Visits max [] r' where
  refl _ := .quiet rfl rfl id
  trans h h' := h.trans h'
  store _ _ := .quiet rfl rfl id
  note r e he := .quiet (by simp [Run.visited, Event.entry?_of_isOwn he]) rfl id
  signal _ s hs := .quiet rfl rfl fun h => Frame.status_of_signal h fun heq => by simp [heq, Status.isOwn] at hs
  returnWith r v := .quiet rfl rfl fun h => by
    unfold Frame.returnWith at h
    split at h
    · cases h
    · exact h
  resume _ _ := .quiet rfl rfl nofun

theorem visits_congruence (max : Nat) : Congruence (fun _ x => Visits max [] x) (fun _ x => Visits max [] x)
    fun _ _ _ k => Visits max [] k :=
  Moves.congruence (closed_visits max)

theorem Visits.mono {x : Exec α} (h : Visits max l x) (hl : l.Sublist l') : Visits max l' x := fun r => (h r).mono hl

theorem Visits.bind {x : Exec α} {f : α → Exec β} (hx : Visits max l x) (hf : ∀ a, Visits max l' (f a)) :
    Visits max (l ++ l') (x >>= f) := by
  intro r
  have h := hx r
  rcases hr : x.runFrom r with ⟨e | a, r'⟩ <;> rw [hr] at h
  · rw [runFrom_bind_error hr]
    exact h.mono (List.sublist_append_left l l')
  · rw [runFrom_bind_ok hr]
    exact h.trans (hf a r')

theorem Visits.after {x : Exec α} {f : α → Exec β} (hx : Visits max [] x) (hf : ∀ a, Visits max l (f a)) :
    Visits max l (x >>= f) :=
  hx.bind hf

theorem Visits.before {x : Exec α} {f : α → Exec β} (hx : Visits max l x) (hf : ∀ a, Visits max [] (f a)) :
    Visits max l (x >>= f) :=
  List.append_nil l ▸ hx.bind hf

theorem Visits.operand {child : Exec Yield} (h : Visits max l child) : Visits max l (operand child) :=
  h.before fun y => Moves.bind (closed_visits max) (Moves.isEvaluating (closed_visits max)) fun b => by
    cases b
    · exact (visits_congruence max).stop
    · exact (visits_congruence max).pure y

theorem Visits.value {child : Exec Yield} (h : Visits max l child) : Visits max l (value child) :=
  h.operand.before (visits_congruence max).read_stop

theorem Visits.handle {child : Exec Yield} (h : Visits max l child) : Visits max l (handle child) :=
  h.operand.before fun y => by
    cases y.handle? with
    | none => exact (visits_congruence max).mismatch
    | some h => exact (visits_congruence max).pure h

theorem Visits.foldlM {ι : Type} {f : α → ι → Exec α} {lists : ι → List NodeId}
    (h : ∀ a i, Visits max (lists i) (f a i)) (is : List ι) (a : α) :
    Visits max (is.map lists).flatten (is.foldlM f a) := by
  induction is generalizing a with
  | nil => exact (visits_congruence max).pure a
  | cons i is ih =>
    rw [List.foldlM_cons]
    exact (h a i).bind ih

section Kinds

variable {call : Callee → List Variable → Exec Yield}

theorem flatten_one (lists : Fin 1 → List NodeId) : (List.ofFn lists).flatten = lists 0 := by simp

theorem flatten_two (lists : Fin 2 → List NodeId) : (List.ofFn lists).flatten = lists 0 ++ lists 1 := by simp

theorem flatten_three (lists : Fin 3 → List NodeId) :
    (List.ofFn lists).flatten = lists 0 ++ (lists 1 ++ lists 2) := by simp

theorem visits_ifElse {ty : Ty} {kid : Fin 3 → Exec Yield} {lists : Fin 3 → List NodeId}
    (h : ∀ i, Visits max (lists i) (kid i)) :
    Visits max (List.ofFn lists).flatten (produce call (.ifElse ty) kid) := by
  rw [flatten_three]
  refine (h 0).value.bind fun x => Visits.after ((visits_congruence max).expectBool x) fun b => ?_
  cases b
  · exact (h 2).operand.mono (List.sublist_append_right _ _)
  · exact (h 1).operand.mono (List.sublist_append_left _ _)

theorem visits_substitute {b : Base} {kid : Fin 2 → Exec Yield} {lists : Fin 2 → List NodeId}
    (h : ∀ i, Visits max (lists i) (kid i)) :
    Visits max (List.ofFn lists).flatten (produce call (.substitute b) kid) := by
  have C := visits_congruence max
  rw [flatten_two]
  refine (h 0).handle.bind fun l => (h 1).value.before fun v => ?_
  cases hl : l.isBound with
  | false => exact C.fault rfl
  | true =>
    refine Visits.after (C.assign l v) fun done => ?_
    cases done with
    | false => exact C.mismatch
    | true => exact C.pure _

theorem visits_increment {b : Base} {kid : Fin 1 → Exec Yield} {lists : Fin 1 → List NodeId}
    (h : ∀ i, Visits max (lists i) (kid i)) :
    Visits max (List.ofFn lists).flatten (produce call (.increment b) kid) := by
  have C := visits_congruence max
  have put : ∀ (l : Handle) (v : Value), Visits max [] (do let _ ← Exec.assign l v; return Yield.value v) :=
    fun l v => Visits.after (C.assign l v) fun _ => C.pure (Yield.value v)
  rw [flatten_one]
  refine (h 0).handle.before fun l => Visits.after (C.store (.get l)) fun v => ?_
  match v with
  | none => exact C.fault rfl
  | some (.int _) | some (.float _) => exact put l _
  | some (.bool _) | some (.ints _) => exact C.mismatch

theorem visits_elementAt {b : Base} {kid : Fin 2 → Exec Yield} {lists : Fin 2 → List NodeId}
    (h : ∀ i, Visits max (lists i) (kid i)) :
    Visits max (List.ofFn lists).flatten (produce call (.elementAt b) kid) := by
  have C := visits_congruence max
  rw [flatten_two]
  refine (h 0).value.bind fun x => Visits.after (C.expectInts x) fun xs => (h 1).value.before fun y => ?_
  refine Visits.after (C.expectInt y) fun i => ?_
  by_cases hi : i < 0
  · simpa [hi, invalid_bind] using C.invalid
  · cases hx : xs[i.toInt.toNat]? with
    | none => simpa [hi, hx] using C.invalid
    | some x => simpa [hi, hx] using C.pure (Yield.value (.int x))

theorem visits_compare {op : Comparison} {b : Base} {kid : Fin 2 → Exec Yield} {lists : Fin 2 → List NodeId}
    (h : ∀ i, Visits max (lists i) (kid i)) :
    Visits max (List.ofFn lists).flatten (produce call (.comparison op b) kid) := by
  have C := visits_congruence max
  rw [flatten_two]
  refine (h 0).value.bind fun x => (h 1).value.before fun y => ?_
  by_cases hb : x.base = y.base
  · simpa [hb] using C.pure _
  · simpa [hb] using Visits.after (C.note (e := .mismatched) rfl) fun _ => C.pure _

/-- Leaving a loop enters nothing, and no limit is hit. -/
theorem visits_leap {n : Node} {s : Status} (h : n.leap? = some s) : Visits max [] (fault s : Exec Yield) := fun r =>
  .quiet rfl rfl fun hs => Frame.status_of_signal hs fun heq => by
    have := Node.isLeap_of_leap h
    simp [heq, Status.isLeap] at this

/-- A node that is neither a loop nor a call goes through its children from the left to the right. -/
theorem visits_produce {n : Node} (hn : n.isStraight = true) {kid : Fin n.arity → Exec Yield}
    {lists : Fin n.arity → List NodeId} (h : ∀ i, Visits max (lists i) (kid i)) :
    Visits max (List.ofFn lists).flatten (produce call n kid) := by
  have C := visits_congruence max
  cases n with
  | const v => exact C.pure _
  | argument ty i => exact C.find (f := access ty) (fun f => f.arguments[i]?) (C.access ty)
  | localVariable ty i => exact C.find (f := access ty) (fun f => f.locals[i]?) (C.access ty)
  | progn ty k =>
    cases k with
    | zero => exact C.stop
    | succ k =>
      rw [List.ofFn_eq_map]
      exact Visits.foldlM (fun _ i => (h i).operand) _ _
  | nop ty => exact C.pure _
  | arithmetic op b =>
    refine flatten_two lists ▸ (h (0 : Fin 2)).value.bind fun x => (h (1 : Fin 2)).value.before fun y => ?_
    exact Visits.after (C.arithmetic op b x y) fun _ => C.pure _
  | comparison op b => exact visits_compare h
  | logic op =>
    cases op with
    | not =>
      refine flatten_one lists ▸ (h (0 : Fin 1)).value.before fun x => ?_
      exact Visits.after (C.expectBool x) fun _ => C.pure _
    | _ =>
      refine flatten_two lists ▸ (h (0 : Fin 2)).value.bind fun x => Visits.after (C.expectBool x) fun _ => ?_
      exact (h (1 : Fin 2)).value.before fun y => Visits.after (C.expectBool y) fun _ => C.pure _
  | ifElse ty => exact visits_ifElse h
  | repeatTimes ty => cases hn
  | substitute b => exact visits_substitute h
  | increment b => exact visits_increment h
  | elementAt b => exact visits_elementAt h
  | size b =>
    refine flatten_one lists ▸ (h (0 : Fin 1)).value.before fun x => ?_
    exact Visits.after (C.expectInts x) fun _ => C.pure _
  | breakLoop ty => exact visits_leap (n := .breakLoop ty) rfl
  | continueLoop ty => exact visits_leap (n := .continueLoop ty) rfl
  | returnValue ty => exact flatten_one lists ▸ (h (0 : Fin 1)).value.before C.returnWith
  | call c => cases hn

end Kinds

theorem Visits.conclude {x : Exec Yield} (h : Visits max l x) (n : Node) : Visits max l (conclude n x) :=
  Visits.before (Moves.orElse h _) (Moves.tell (closed_visits max) n)

theorem Visits.entering {l : Limits} {is : List NodeId} {x : Exec Yield} (h : Visits l.maxSteps is x) (i : NodeId)
    (ty : Ty) : Visits l.maxSteps (i :: is) (entering l i ty x) := by
  intro r
  rw [runFrom_entering]
  split
  · exact (Run.Visits.quiet rfl rfl id).mono (List.nil_sublist _)
  · split
    · refine ⟨⟨[], List.nil_sublist _, (List.append_nil _).symm, rfl⟩, fun _ => .inr ?_⟩
      rw [List.length_cons]
      omega
    · exact (Run.Visits.enter r i).trans (h _)

theorem visits_eval (w : World) (call : Callee → List Variable → Exec Yield) {s : Shape}
    (hs : ∀ n ∈ s.nodes, n.isStraight = true) : Visits w.limits.maxSteps s.ids (w.eval call s) := by
  induction s with
  | node i n kids ih =>
    rw [eval_node]
    refine Visits.entering (Visits.conclude (visits_produce (hs n Shape.mem_nodes_self) fun slot => ?_) n) i n.returns
    exact ih slot fun m hm => hs m (Shape.mem_nodes_kid slot hm)
  | torn i n why =>
    rw [eval_torn]
    exact Visits.entering (fun r => .quiet rfl rfl id) i n.returns

theorem visits_run (w : World) (room : Nat) {s : Shape} (hs : ∀ n ∈ s.nodes, n.isStraight = true) :
    Visits w.limits.maxSteps s.ids (w.run room s) := by
  rw [World.run_eq]
  exact visits_eval w _ hs

theorem visits_finish (y : Yield) : Visits max [] (finish y) :=
  Moves.finish (closed_visits max) (fun _ => .quiet rfl rfl id) y

end Exec

/-- A whole evaluation seen as one run through the nodes of its shape. -/
theorem Tree.evaluate_visits (w : World) {t : Tree} {shape : Shape} (hs : t.shape? = some shape)
    (hstraight : ∀ n ∈ shape.nodes, n.isStraight = true) (xs : List Variable) (s : Store) :
    ∃ r : Run, r.visited = [] ∧ r.steps = 0 ∧ r.frame.status = .evaluating ∧
      r.Visits w.limits.maxSteps shape.ids (t.evaluate w xs s).2 ∧
      ∀ o, (t.evaluate w xs s).1 = .ok o →
        o.status = .valueReturned ∨ o.status = (t.evaluate w xs s).2.frame.status := by
  cases t.evaluate_ends w xs s with
  | rootless hnone => rw [hs] at hnone; cases hnone
  | wild _ h =>
    rw [h]
    exact ⟨_, rfl, rfl, rfl, (Run.Visits.quiet rfl rfl id).mono (List.nil_sublist _), nofun⟩
  | @broken shape' locals s' v after hs' _ hrun h =>
    obtain rfl := Option.some.inj (hs.symm.trans hs')
    have hran := Exec.visits_run w w.limits.maxDepth hstraight (.start (.start xs locals) s')
    rw [hrun] at hran
    rw [h]
    exact ⟨_, rfl, rfl, rfl, hran, nofun⟩
  | @ended shape' locals s' y last after o hs' _ hrun hfin h =>
    obtain rfl := Option.some.inj (hs.symm.trans hs')
    have hran :=
      (Exec.visits_run w w.limits.maxDepth hstraight).before Exec.visits_finish (.start (.start xs locals) s')
    rw [Exec.runFrom_bind_ok hrun, hfin] at hran
    rw [h]
    refine ⟨_, rfl, rfl, rfl, hran, ?_⟩
    rintro _ ⟨⟩
    exact (Exec.finish_ok hfin).2.imp_right And.right

section Listing

variable {g : Forest} {i : NodeId} {room : Nat} {e : Term}

theorem foldlM_count {ι : Type} {f : ι → Except Violation Nat} {lists : ι → List NodeId}
    (h : ∀ i, f i = .ok (lists i).length) (is : List ι) (k : Nat) :
    is.foldlM (fun sum i => (f i).map fun c => sum + c) k = .ok (k + (is.map lists).flatten.length) := by
  induction is generalizing k with
  | nil => rfl
  | cons i is ih =>
    rw [List.foldlM_cons, h i]
    change is.foldlM _ (k + (lists i).length) = _
    rw [ih, List.map_cons, List.flatten_cons, List.length_append, Nat.add_assoc]

theorem Shape.count_complete {s : Shape} (h : s.Complete) : s.count = .ok s.ids.length := by
  induction s with
  | node i n kids ih =>
    rw [Shape.count, foldlM_count fun slot => ih slot (h slot)]
    rw [Shape.ids, List.ofFn_eq_map, List.length_cons, Nat.add_comm]
  | torn => exact h.elim

theorem Forest.Placed.children_in_order (h : g.Placed) {n : Node} (hn : g.node? i = some n) (hf : g.flaw? i = none) :
    (g.slotsInOrder i).map (·.child) = List.ofFn fun slot : Fin n.arity => (g.child? i slot).getD i := by
  have ha : g.arity i = n.arity := by simp [Forest.arity, hn]
  obtain ⟨hstray, hfull⟩ := Forest.flaw?_eq_none.1 hf
  have hascending : ((g.slotsInOrder i).map Edge.slot).Pairwise (· < ·) :=
    List.pairwise_map.2 (h.slotsInOrder_ascending i)
  have hslots : (g.slotsInOrder i).map Edge.slot = List.range n.arity := by
    refine ((List.perm_ext_iff_of_nodup (hascending.imp Nat.ne_of_lt) List.nodup_range).2 fun slot => ?_).eq_of_pairwise
      (fun a b _ _ hab hba => absurd hba (Nat.lt_asymm hab)) hascending List.pairwise_lt_range
    rw [h.mem_slots, List.mem_range, ← ha]
    constructor
    · intro hs
      obtain ⟨c, hc⟩ := Option.isSome_iff_exists.1 hs
      exact hstray _ (Forest.child?_mem hc) rfl
    · intro hs
      obtain ⟨c, hc⟩ := hfull slot hs
      rw [hc]
      rfl
  calc (g.slotsInOrder i).map (·.child)
      = ((g.slotsInOrder i).map Edge.slot).map fun slot => (g.child? i slot).getD i := by
        rw [List.map_map]
        exact List.map_congr_left fun e he => by simp [(h.mem_slotsInOrder.1 he).2]
    _ = _ := by
      rw [hslots]
      exact List.ext_getElem (by simp) (by simp)

theorem Forest.Placed.preorderTo_eq (h : g.Placed) (hs : (g.shapeTo room i).Denotes e) :
    g.preorderTo room i = (g.shapeTo room i).ids := by
  induction room generalizing i e with
  | zero => cases hs
  | succ room ih =>
    obtain ⟨_, n, kids, hroom, -, hn, hslots, hshape, hkids⟩ := Forest.shapeTo_denotes hs
    obtain rfl := Nat.succ.inj hroom
    have ha : g.arity i = n.arity := by simp [Forest.arity, hn]
    have hf : g.flaw? i = none := Forest.flaw?_eq_none.2 ⟨ha ▸ hslots, fun slot hlt => by
      obtain ⟨c, hc, -⟩ := hkids ⟨slot, ha ▸ hlt⟩
      exact ⟨c, hc⟩⟩
    have hlists : ∀ slot : Fin n.arity, g.preorderTo room ((g.child? i slot).getD i) =
        (g.shapeTo room ((g.child? i slot).getD i)).ids := fun slot => by
      obtain ⟨c, hc, hkid⟩ := hkids slot
      rw [hc]
      exact ih hkid
    rw [hshape, Shape.ids, Forest.preorderTo_succ, h.children_in_order hn hf, List.flatMap, List.map_ofFn]
    simp only [Function.comp_def, hlists]

variable {t : Tree} {s : Shape}

theorem Tree.Placed.nodes_eq (h : t.Placed) (hs : t.shape? = some s) (he : s.Denotes e) :
    t.nodes = s.ids ∧ ∃ i, t.root = some i ∧ t.forest.count i = .ok t.nodes.length := by
  obtain ⟨i, hi, rfl⟩ := Option.map_eq_some_iff.1 hs
  have hnodes : t.nodes = (t.forest.shape i).ids := by
    rw [Tree.nodes, hi]
    exact h.forest.preorderTo_eq he
  exact ⟨hnodes, i, hi, hnodes ▸ Shape.count_complete he.complete⟩

end Listing

/-- Without loops and calls an evaluation enters nodes in the pre-order of the tree, each at most once. So it takes no
more steps than the tree has nodes, and steps are not exceeded where the limit allows that many. The same holds from
any state that a run may be in, whatever its variables are and the steps it took before. -/
theorem straight_visits {t : Tree} {e : Term} (w : World) (ht : t.Placed) (h : t.Denotes e)
    (hstraight : ∀ n ∈ e.nodes, n.isStraight = true) :
    ∃ i c, t.root = some i ∧ t.forest.count i = .ok c ∧
      (∀ xs s, (t.evaluate w xs s).2.visited.Sublist t.nodes ∧
        (t.evaluate w xs s).2.steps = (t.evaluate w xs s).2.visited.length ∧ (t.evaluate w xs s).2.steps ≤ c ∧
        (c ≤ w.limits.maxSteps → ∀ o, (t.evaluate w xs s).1 = .ok o → o.status ≠ .stepsExceeded)) ∧
      ∀ room r, ∃ new, new.Sublist t.nodes ∧
        ((w.run room (t.forest.shape i)).runFrom r).2.visited = r.visited ++ new ∧
        ((w.run room (t.forest.shape i)).runFrom r).2.steps = r.steps + new.length ∧
        (r.steps + c ≤ w.limits.maxSteps → r.frame.status ≠ .stepsExceeded →
          ((w.run room (t.forest.shape i)).runFrom r).2.frame.status ≠ .stepsExceeded) := by
  obtain ⟨shape, hs, he⟩ := h
  obtain ⟨hnodes, i, hi, hcount⟩ := ht.nodes_eq hs he
  have hshape : t.forest.shape i = shape := by simpa [Tree.shape?, hi] using hs
  rw [← he.nodes_eq] at hstraight
  refine ⟨i, t.nodes.length, hi, hcount, fun xs s => ?_, fun room r => ?_⟩
  · obtain ⟨r, hvisited, hsteps, hstatus, hvisits, hend⟩ := t.evaluate_visits w hs hstraight xs s
    rw [← hnodes] at hvisits
    obtain ⟨new, hsub, hnew, hcounted⟩ := hvisits.visited
    obtain rfl : (t.evaluate w xs s).2.visited = new := by rw [hnew, hvisited, List.nil_append]
    refine ⟨hsub, by omega, by simpa [hsteps] using hvisits.steps_le, fun hc o ho hexceeded => ?_⟩
    have hframe : (t.evaluate w xs s).2.frame.status = .stepsExceeded := by
      rw [← hexceeded]
      exact ((hend o ho).resolve_left (by simp [hexceeded])).symm
    rcases hvisits.stepsExceeded hframe with h | h
    · rw [hstatus] at h
      cases h
    · omega
  · have hran := Exec.visits_run w room hstraight r
    rw [← hnodes, ← hshape] at hran
    obtain ⟨new, hsub, hnew, hcounted⟩ := hran.visited
    refine ⟨new, hsub, hnew, hcounted, fun hc hr hexceeded => ?_⟩
    rcases hran.stepsExceeded hexceeded with h | h
    · exact hr h
    · omega

namespace Branching

def term : Term :=
  .node (.ifElse .int) fun
    | ⟨0, _⟩ => .node (.comparison .greater .int) fun
      | ⟨0, _⟩ => .node (.argument .int 0) nofun
      | _ => .node (.const (.int 0)) nofun
    | ⟨1, _⟩ => .node (.arithmetic .div .int) fun
      | ⟨0, _⟩ => .node (.argument .int 0) nofun
      | _ => .node (.const (.int 100)) nofun
    | _ => .node (.arithmetic .sub .int) fun
      | ⟨0, _⟩ => .node (.const (.int 0)) nofun
      | _ => .node (.argument .int 0) nofun

def tree : Tree := .planted ⟨none, .int, [.int], []⟩ term

theorem placed : tree.Placed where
  forest := ⟨by decide +kernel, by decide +kernel, by unfold Forest.Unshared; decide +kernel⟩
  root := by decide +kernel
  top := by decide +kernel

def world : World := ⟨⟨10, 0⟩, .empty⟩

def arguments : List Variable := [⟨.int, 0, Base.int_ne_any⟩]

def run (i : Int32) : Except Violation Outcome × Run := tree.evaluate world arguments ⟨#[some (.int i)]⟩

end Branching

/-- Either branch is left out. -/
theorem straight_visits_branching : Branching.tree.Placed ∧ Branching.tree.Denotes Branching.term ∧
    (∀ n ∈ Branching.term.nodes, n.isStraight = true) ∧ Branching.tree.nodes = List.range 10 ∧
    (Branching.run 700).1.toOption = some (.returned (.int 7)) ∧
    (Branching.run 700).2.visited = [0, 1, 2, 3, 4, 5, 6] ∧
    (Branching.run (-3)).1.toOption = some (.returned (.int 3)) ∧
    (Branching.run (-3)).2.visited = [0, 1, 2, 3, 7, 8, 9] ∧
    ∀ i, (Branching.run i).2.visited.Sublist Branching.tree.nodes ∧ (Branching.run i).2.steps ≤ 10 ∧
      ∀ o, (Branching.run i).1 = .ok o → o.status ≠ .stepsExceeded := by
  have hdenotes : Branching.tree.Denotes Branching.term := Tree.denotes_planted _ _
  have hstraight : ∀ n ∈ Branching.term.nodes, n.isStraight = true := by decide +kernel
  obtain ⟨i, c, hi, hcount, hevaluate, -⟩ := straight_visits Branching.world Branching.placed hdenotes hstraight
  obtain rfl : i = 0 := Option.some.inj (hi.symm.trans (by decide +kernel))
  obtain rfl : c = 10 := Except.ok.inj (hcount.symm.trans (Result.toOption_some.1 (by decide +kernel)))
  refine ⟨Branching.placed, hdenotes, hstraight, by decide +kernel, by decide +kernel, by decide +kernel,
    by decide +kernel, by decide +kernel, fun i => ?_⟩
  obtain ⟨hsub, -, hle, hlimit⟩ := hevaluate Branching.arguments ⟨#[some (.int i)]⟩
  exact ⟨hsub, hle, hlimit (Nat.le_refl 10)⟩

end Grove
