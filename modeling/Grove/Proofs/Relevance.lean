import Grove.Proofs.Calls
import Grove.Proofs.Loading
import Grove.Proofs.Planting

/-! What a program can call. Only the bodies of the names that a tree calls, those that these bodies call, and so on,
take part in an evaluation. Where two registries hold the same under all those names, evaluation is the same, to the
last event; subroutines that are not among them may come and go. -/

namespace Grove

/-- A node that the root reaches calls the name. -/
def Tree.Calls (t : Tree) (name : String) : Prop :=
  ∃ s c, t.shape? = some s ∧ Node.call c ∈ s.nodes ∧ c.name = name

/-- The names that a tree calls, and those that the bodies under such names call. -/
inductive Registry.Involves (g : Registry) (t : Tree) : String → Prop
  | own {name : String} (h : t.Calls name) : Involves g t name
  | body {name name' : String} {b : Tree} (h : Involves g t name) (hb : g.body? name = some b) (hc : b.Calls name') :
      Involves g t name'

theorem Tree.Denotes.calls_iff {t : Tree} {e : Term} (h : t.Denotes e) {name : String} :
    t.Calls name ↔ ∃ c, Node.call c ∈ e.nodes ∧ c.name = name := by
  obtain ⟨s, hs, hd⟩ := h
  constructor
  · rintro ⟨s', c, hs', hc, hname⟩
    obtain rfl : s = s' := Option.some.inj (hs.symm.trans hs')
    exact ⟨c, hd.nodes_eq ▸ hc, hname⟩
  · rintro ⟨c, hc, hname⟩
    exact ⟨s, c, hs, hd.nodes_eq ▸ hc, hname⟩

namespace Shape

variable {id : NodeId} {n m : Node} {kids : Fin n.arity → Shape}

theorem mem_nodes_self : n ∈ (Shape.node id n kids).nodes := by simp [nodes]

theorem mem_nodes_kid (i : Fin n.arity) (h : m ∈ (kids i).nodes) : m ∈ (Shape.node id n kids).nodes := by
  simp only [nodes, List.mem_cons, List.mem_flatten, List.mem_ofFn]
  exact .inr ⟨_, ⟨i, rfl⟩, h⟩

end Shape

/-- A node looks at the calls of its own callee only. -/
theorem Exec.produce_congr {call call' : Callee → List Variable → Exec Yield} {n : Node}
    (h : ∀ c, n = .call c → call' c = call c) (kid : Fin n.arity → Exec Yield) :
    Exec.produce call' n kid = Exec.produce call n kid := by
  cases n with
  | call c => simp only [Exec.produce, h c rfl]
  | progn ty k => cases k <;> rfl
  | logic op => cases op <;> rfl
  | _ => rfl

namespace World

variable {w w' : World}

theorem eval_congr (hl : w'.limits = w.limits) {call call' : Callee → List Variable → Exec Yield} {s : Shape}
    (h : ∀ c, .call c ∈ s.nodes → call' c = call c) : w'.eval call' s = w.eval call s := by
  induction s with
  | node id n kids ih =>
    have hkids : (fun i => w'.eval call' (kids i)) = fun i => w.eval call (kids i) :=
      funext fun i => ih i fun c hc => h c (Shape.mem_nodes_kid i hc)
    rw [Exec.eval_node, Exec.eval_node, hl, hkids, Exec.produce_congr fun c hc => h c (hc ▸ Shape.mem_nodes_self)]
  | torn id n why => rw [Exec.eval_torn, Exec.eval_torn, hl]

theorem call_none_congr {c : Callee} (hb : w'.registry.body? c.name = w.registry.body? c.name) :
    w'.call none c = w.call none c := by
  funext xs
  unfold World.call
  rw [hb]

theorem call_congr {c : Callee} (hb : w'.registry.body? c.name = w.registry.body? c.name) {f f' : Shape → Exec Yield}
    (hf : ∀ b s, w.registry.body? c.name = some b → b.shape? = some s → f' s = f s) :
    w'.call (some f') c = w.call (some f) c := by
  funext xs
  unfold World.call
  rw [hb]
  cases hbody : w.registry.body? c.name with
  | none => rfl
  | some b =>
    cases hs : b.shape? with
    | none => simp only [hs]
    | some s => simp only [hs, activate, hf b s hbody hs]

theorem run_congr {t : Tree} (hl : w'.limits = w.limits)
    (hg : ∀ name, w.registry.Involves t name → w'.registry.body? name = w.registry.body? name) (room : Nat) {s : Shape}
    (hs : ∀ c, .call c ∈ s.nodes → w.registry.Involves t c.name) : w'.run room s = w.run room s := by
  induction room generalizing s with
  | zero => exact eval_congr hl fun c hc => call_none_congr (hg c.name (hs c hc))
  | succ room ih =>
    refine eval_congr hl fun c hc => call_congr (hg c.name (hs c hc)) fun b shape hb hshape => ih fun c' hc' => ?_
    exact .body (hs c hc) hb ⟨shape, c', hshape, hc', rfl⟩

end World

namespace Registry

variable {g g' : Registry} {t : Tree}

theorem evaluate_congr (hg : ∀ name, g.Involves t name → g'.body? name = g.body? name) (limits : Limits)
    (xs : List Variable) (s : Store) : t.evaluate ⟨limits, g'⟩ xs s = t.evaluate ⟨limits, g⟩ xs s := by
  unfold Tree.evaluate
  cases hs : t.shape? with
  | none => rfl
  | some shape =>
    have hl : (World.mk limits g').limits = (World.mk limits g).limits := rfl
    have hrun := World.run_congr hl hg limits.maxDepth fun c hc => .own ⟨shape, c, hs, hc, rfl⟩
    simp only [World.runFrame, hrun]

theorem body?_remove (g : Registry) {name name' : String} (h : name' ≠ name) :
    (g.remove name).2.body? name' = g.body? name' := by
  rw [remove, body?, body?, rollback, entry?, Table.lookup_drop, if_neg h]
  rfl

theorem body?_stored (g : Registry) {c : Callee} {name : String} (h : name ≠ c.name) (body : Option Tree) :
    (g.stored c body).body? name = g.body? name := by
  rw [body?, body?, entry?_stored, if_neg h]

theorem register_ok {u : Tree} {c : Callee} (h : g.register u = .ok (c, g')) : g' = g.stored c (some u) :=
  (register_iff.1 h).2.2

end Registry

/-- An evaluation is the same, to the last event, under registries that hold the same bodies, or none, under the names
that the tree involves. So a subroutine whose name is not among them may be loaded, registered or removed. -/
theorem evaluate_involved (g : Registry) (t : Tree) (limits : Limits) (xs : List Variable) (s : Store) :
    (∀ g' : Registry, (∀ name, g.Involves t name → g'.body? name = g.body? name) →
      t.evaluate ⟨limits, g'⟩ xs s = t.evaluate ⟨limits, g⟩ xs s) ∧
    (∀ catalog text, (∀ c, (g.loadDocument catalog text).1 = .ok c → ¬ g.Involves t c.name) →
      t.evaluate ⟨limits, (g.loadDocument catalog text).2⟩ xs s = t.evaluate ⟨limits, g⟩ xs s) ∧
    (∀ u c g', g.register u = .ok (c, g') → ¬ g.Involves t c.name →
      t.evaluate ⟨limits, g'⟩ xs s = t.evaluate ⟨limits, g⟩ xs s) ∧
    ∀ name, ¬ g.Involves t name → t.evaluate ⟨limits, (g.remove name).2⟩ xs s = t.evaluate ⟨limits, g⟩ xs s := by
  have same : ∀ {g' : Registry}, (∀ name, g.Involves t name → g'.body? name = g.body? name) →
      t.evaluate ⟨limits, g'⟩ xs s = t.evaluate ⟨limits, g⟩ xs s := fun hg => Registry.evaluate_congr hg limits xs s
  -- under a name that is not involved anything may be stored
  have stored : ∀ {c : Callee} (body : Option Tree), ¬ g.Involves t c.name →
      t.evaluate ⟨limits, g.stored c body⟩ xs s = t.evaluate ⟨limits, g⟩ xs s := fun body hc =>
    same fun name hname => g.body?_stored (fun heq => hc (heq ▸ hname)) body
  refine ⟨fun _ => same, fun catalog text hc => ?_, fun u c g' hr hc => ?_, fun name hname => ?_⟩
  · have h := Registry.loadDocument_ends g catalog text
    generalize g.loadDocument catalog text = res at h hc
    cases h with
    | refused => rfl
    | loaded => exact stored _ (hc _ rfl)
  · obtain rfl := Registry.register_ok hr
    exact stored _ hc
  · exact same fun other hother => g.body?_remove fun heq => hname (heq ▸ hother)

namespace Parity

def callee (name : String) : Callee := ⟨name, .bool, [.int]⟩

/-- What is returned for zero, or else what another subroutine returns for the number before. -/
def body (zero : Bool) (other : String) : Term :=
  let number := .node (.argument .int 0) Fin.elim0
  let isZero := .node (.comparison .equal .int) fun i => [number].getD i (.node (.const (.int 0)) Fin.elim0)
  let before := .node (.arithmetic .sub .int) fun i => [number].getD i (.node (.const (.int 1)) Fin.elim0)
  let rest := .node (.call (callee other)) fun _ => before
  .node (.ifElse .bool) fun i => [isZero, .node (.const (.bool zero)) Fin.elim0].getD i rest

def tree : Tree := .planted ⟨none, .bool, [.int], []⟩ (body true "Odd")

def subroutine (name : String) (zero : Bool) (other : String) : String × Entry :=
  (name, ⟨callee name, some (.planted ⟨some name, .bool, [.int], []⟩ (body zero other))⟩)

def registry : Registry :=
  ⟨[subroutine "Stray" true "Odd", subroutine "Odd" false "Even", subroutine "Even" true "Odd"]⟩

theorem calls_body {sig : Signature} {zero : Bool} {other name : String}
    (h : (Tree.planted sig (body zero other)).Calls name) : name = other := by
  obtain ⟨c, hc, rfl⟩ := (Tree.denotes_planted sig _).calls_iff.1 h
  have hnodes : (body zero other).nodes = [.ifElse .bool, .comparison .equal .int, .argument .int 0, .const (.int 0),
    .const (.bool zero), .call (callee other), .arithmetic .sub .int, .argument .int 0, .const (.int 1)] := rfl
  obtain rfl : c = callee other := by simpa [hnodes] using hc
  rfl

theorem involves {name : String} (h : registry.Involves tree name) : name = "Even" ∨ name = "Odd" := by
  induction h with
  | own h => exact .inr (calls_body h)
  | body _ hb hc ih =>
    rcases ih with rfl | rfl
    · obtain rfl := Option.some.inj hb
      exact .inr (calls_body hc)
    · obtain rfl := Option.some.inj hb
      exact .inl (calls_body hc)

theorem evaluate_involved_parity :
    (tree.evaluate ⟨⟨100, 10⟩, registry⟩ [⟨.int, 0, nofun⟩] ⟨#[some (.int 3)]⟩).1.toOption =
      some (.returned (.bool false)) ∧
    ¬ registry.Involves tree "Stray" ∧
    tree.evaluate ⟨⟨100, 10⟩, (registry.remove "Stray").2⟩ [⟨.int, 0, nofun⟩] ⟨#[some (.int 3)]⟩ =
      tree.evaluate ⟨⟨100, 10⟩, registry⟩ [⟨.int, 0, nofun⟩] ⟨#[some (.int 3)]⟩ := by
  have stray : ¬ registry.Involves tree "Stray" := fun h => by simpa using involves h
  obtain ⟨-, -, -, hremove⟩ := evaluate_involved registry tree ⟨100, 10⟩ [⟨.int, 0, nofun⟩] ⟨#[some (.int 3)]⟩
  exact ⟨by decide +kernel, stray, hremove "Stray" stray⟩

end Parity

end Grove
