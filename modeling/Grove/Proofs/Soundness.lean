import Grove.Proofs.Activation

/-! Soundness of evaluation. A tree is well formed when it holds a term that its signature admits, made of
nodes that may stand in it, and a registry when every body in it is well formed and declares what its calls
promise. Then every node yields for its type, in frames at any depth: by induction on the term within a
frame, and on the room that is left below it for calls. -/

namespace Grove

variable {stray cs : List Base} {d : Ty}

/-- Every cell can be given a base that its content has, and each of the variables on it. -/
def Store.Supports (s : Store) (xs : List Variable) : Prop := ∃ cs, s.Typed cs ∧ ∀ x ∈ xs, x.Typed cs

theorem Store.supports_empty : Store.empty.Supports [] :=
  ⟨[], ⟨rfl, fun h => by simp [empty, content] at h⟩, by simp⟩

theorem Store.Supports.new {s : Store} {xs : List Variable} (h : s.Supports xs) (v : Value) :
    (Variable.new v s).2.Supports ((Variable.new v s).1 :: xs) := by
  obtain ⟨cs, hs, hxs⟩ := h
  obtain ⟨ha, hv⟩ := hs.alloc v.base (c := some v) (by simp)
  exact ⟨_, ha, List.forall_mem_cons.2 ⟨hv, fun x hx => (hxs x hx).mono (List.prefix_append _ _)⟩⟩

/-- The tree holds a term that its signature admits, and whose nodes may stand in it. -/
structure Tree.WellFormed (stray : List Base) (r : Registry) (t : Tree) : Prop where
  locals : ∀ ty ∈ t.signature.locals, ty.base ≠ .any
  term : ∃ e, t.Denotes e ∧ t.signature.Admits e ∧ ∀ n ∈ e.nodes, n.Sits stray r t.signature.returns

structure Entry.WellFormed (stray : List Base) (r : Registry) (e : Entry) : Prop where
  concrete : e.callee.Concrete
  body : ∀ t ∈ e.body, t.signature.callee? = some e.callee ∧ t.WellFormed stray r

def Registry.WellFormed (stray : List Base) (r : Registry) : Prop :=
  ∀ {name e}, r.entry? name = some e → e.WellFormed stray r

namespace Exec

variable {w : World}

theorem Keeps.eval {call : Callee → List Variable → Exec Yield} (hc : CallsYield stray d w.registry call)
    {s : Shape} {e : Term}
    (h : s.Denotes e) (he : e.WellTyped) (hn : ∀ n ∈ e.nodes, n.Sits stray w.registry d) :
    Keeps stray d cs (Yields stray e.returns) (w.eval call s) := by
  induction h generalizing cs with
  | @node id n kids terms hk ih =>
    have hkids : KidsYield stray d cs n fun i => w.eval call (kids i) := fun i =>
      (ih i (he i).2 fun m hm => hn m (Term.mem_nodes_kid i hm)).accepted (he i).1
    unfold World.eval
    refine Keeps.bind (Keeps.enter _ _) fun cs₁ b h₁ _ => ?_
    cases b
    · exact Keeps.pure fun _ _ => yields_ofType _
    · have hp := (Keeps.produce (hn n (Term.mem_nodes_self terms)) hc hkids).mono h₁
      refine Keeps.bind hp.orElse fun cs₂ y _ hy => Keeps.bind Keeps.isEvaluating fun cs₃ b h₃ _ => ?_
      cases b
      · exact Keeps.pure fun _ h₄ => hy.mono (h₃.trans h₄)
      · refine Keeps.seq (Keeps.note (e := .yielded n y) hy.2) ?_
        exact Keeps.pure fun _ h₄ => hy.mono (h₃.trans h₄)

/-- A way to run bodies with room below the caller. -/
def BodiesYield (stray : List Base) (r : Registry) (inner : Shape → Exec Yield) : Prop :=
  ∀ {t : Tree} {s : Shape}, t.WellFormed stray r → t.shape? = some s →
    Settles (inner s) ∧ ∀ cs, Keeps stray t.signature.returns cs (Yields stray t.signature.returns) (inner s)

theorem callsYield_call (hr : w.registry.WellFormed stray) {inner : Option (Shape → Exec Yield)}
    (hi : ∀ f ∈ inner, BodiesYield stray w.registry f) : CallsYield stray d w.registry (w.call inner) := by
  intro c cs xs hc hcc hxs
  unfold World.call
  cases hb : w.registry.body? c.name with
  | none => exact Keeps.invalid
  | some body =>
    obtain ⟨e, he, hbody⟩ := Option.bind_eq_some_iff.1 hb
    have hcallee : e.callee = c := by simpa [Registry.callee?, he] using hc
    obtain ⟨hsig, hsound⟩ := (hr he).body body hbody
    have hreturns : body.signature.returns = c.returns := by
      rw [hcallee, Signature.callee?, Option.map_eq_some_iff] at hsig
      obtain ⟨name, -, rfl⟩ := hsig
      rfl
    dsimp only
    cases hs : body.shape? with
    | none => exact Keeps.invalid
    | some shape =>
      cases inner with
      | none => exact Keeps.fault _
      | some f =>
        obtain ⟨settles, keeps⟩ := hi f rfl hsound hs
        have hret : body.signature.returns.base ≠ .any := hreturns ▸ hcc.returns
        refine Keeps.bind Keeps.get fun cs₁ r h₁ _ => ?_
        refine Keeps.bind (Keeps.note (e := .called c.name (r.depth + 1)) trivial) fun cs₂ _ h₂ _ => ?_
        have hxs₂ : ∀ x ∈ xs, x.Typed cs₂ := fun x hx => (hxs x hx).mono (h₁.trans h₂)
        refine Keeps.bind (Keeps.activate hsound.locals hret hxs₂ settles fun _ => keeps _)
          fun cs₃ o _ ho => ?_
        rcases o with ⟨status, _ | v⟩
        · cases status <;> first | exact Keeps.invalid | exact Keeps.fault _
        · cases status <;> try exact Keeps.fault _
          rw [Ty.eq_plain hcc.plain, ← hreturns]
          exact Keeps.yieldValue (ho v rfl)

theorem keeps_root {t : Tree} {s : Shape} (ht : t.WellFormed stray w.registry) (hs : t.shape? = some s)
    {call : Callee → List Variable → Exec Yield} (hc : CallsYield stray t.signature.returns w.registry call) :
    Keeps stray t.signature.returns cs (Yields stray t.signature.returns) (w.eval call s) := by
  obtain ⟨e, ⟨s', hs', he⟩, hadmits, hsits⟩ := ht.term
  obtain rfl : s = s' := Option.some.inj (hs.symm.trans hs')
  exact (Keeps.eval hc he hadmits.slots hsits).accepted hadmits.root

theorem bodiesYield_run (hr : w.registry.WellFormed stray) (room : Nat) :
    BodiesYield stray w.registry (w.run room) := by
  induction room with
  | zero => exact fun ht hs => ⟨settles_run w 0 _, fun _ => keeps_root ht hs (callsYield_call hr (by simp))⟩
  | succ room ih =>
    refine fun ht hs => ⟨settles_run w (room + 1) _, fun _ => keeps_root ht hs (callsYield_call hr ?_)⟩
    rintro _ ⟨⟩
    exact ih

end Exec

/-- A sound tree ends its frame with what fits its declared type, and leaves a typed state behind. -/
theorem Tree.WellFormed.evaluate {w : World} {t : Tree} (ht : t.WellFormed stray w.registry)
    (hr : w.registry.WellFormed stray)
    (hd : t.signature.returns.base ≠ .any) {xs : List Variable} {s : Store} (hs : s.Supports xs) :
    ∃ o cs, (t.evaluate w xs s).1 = .ok o ∧ (∀ v ∈ o.value, v.Fits stray t.signature.returns.base) ∧
      (t.evaluate w xs s).2.Typed stray t.signature.returns cs := by
  obtain ⟨e, ⟨shape, hshape, -⟩, -⟩ := ht.term
  obtain ⟨cs, hst, hxs⟩ := hs
  obtain ⟨locals, s', cs', hf, hc, hst', hlocals⟩ := freshCells_typed ht.locals hst
  have hstart : Run.Typed stray t.signature.returns cs' (.start (.start xs locals) s') :=
    ⟨hst', fun x hx => (hxs x hx).mono hc, hlocals, by simp [Run.start, Frame.start], by simp [Run.start]⟩
  obtain ⟨settles, keeps⟩ := Exec.bodiesYield_run hr w.limits.maxDepth ht hshape
  obtain ⟨cs₂, -, ht₂, he⟩ :=
    Exec.Keeps.bind (keeps cs') (fun _ _ _ hy => Exec.Keeps.finish hd hy) cs' _ (List.prefix_refl _) hstart
  have settled := Exec.Settles.bind settles Exec.settles_finish (.start (.start xs locals) s')
  have heval : t.evaluate w xs s = (w.runFrame shape).outcome (.start (.start xs locals) s') := by
    simp [Tree.evaluate, hshape, hf]
  have hrun : (w.runFrame shape).run (.start (.start xs locals) s') =
      (w.run w.limits.maxDepth shape >>= Exec.finish).runFrom (.start (.start xs locals) s') := rfl
  rw [heval, Exec.outcome, hrun]
  revert ht₂ he settled
  rcases (w.run w.limits.maxDepth shape >>= Exec.finish).runFrom (.start (.start xs locals) s')
    with ⟨(_ | v) | o, r⟩ <;> intro ht₂ he settled
  · exact absurd rfl settled
  · exact he.elim
  · exact ⟨o, cs₂, rfl, he, ht₂⟩

end Grove
