import Grove.Proofs.Loading
import Grove.Proofs.RoundTrip

/-! The base of what a tree returns. A tree that was read with a standard catalog and a registry filled from
documents returns its declared base, or else an integer: what stands in a `Return` is checked against the node
and not against the tree. So the declared base is certain for trees that return integers and for no others,
and it is kept by every tree in which, as in the bodies of the registry, returns are of the declared base. -/

namespace Grove

/-- Every return in the tree is of the base that the tree declares. -/
def Tree.ReturnsAsDeclared (t : Tree) : Prop :=
  ∀ e, t.Denotes e → ∀ ty, Node.returnValue ty ∈ e.nodes → ty.base = t.signature.returns.base

def Registry.ReturnsAsDeclared (r : Registry) : Prop := ∀ name t, r.body? name = some t → t.ReturnsAsDeclared

/-- A tree was read with a standard catalog and a registry of documents, and returned a value. -/
structure Returns (sig : Signature) (t : Tree) (r : Registry) (v : Value) : Prop where
  loaded : r.Loaded
  read : ∃ types arguments locals catalog text, NodeCatalog.standard types arguments locals = .ok catalog ∧
    Vocabulary.readTree ⟨catalog, r⟩ text sig = .ok t
  run : ∃ limits xs s, s.Supports xs ∧ (t.evaluate ⟨limits, r⟩ xs s).1 = .ok (.returned v)

theorem Node.Sits.strict {stray : List Base} {r : Registry} {d : Ty} {n : Node} (h : n.Sits stray r d)
    (hr : ∀ ty, n = .returnValue ty → ty.base = d.base) : n.Sits [] r d :=
  ⟨h.operable, fun hn => .inl (hr _ hn), h.called⟩

theorem Tree.WellFormed.strict {stray : List Base} {r : Registry} {t : Tree} (h : t.WellFormed stray r)
    (hr : t.ReturnsAsDeclared) : t.WellFormed [] r := by
  obtain ⟨e, he, ha, hs⟩ := h.term
  exact ⟨h.locals, e, he, ha, fun n hn => (hs n hn).strict fun ty h => hr e he ty (h ▸ hn)⟩

theorem Registry.WellFormed.strict {stray : List Base} {r : Registry} (h : r.WellFormed stray)
    (hr : r.ReturnsAsDeclared) : r.WellFormed [] := by
  intro name e he
  refine ⟨(h he).concrete, fun t ht => ?_⟩
  obtain ⟨hsig, hwf⟩ := (h he).body t ht
  exact ⟨hsig, hwf.strict (hr name t (by simp [body?, he, Option.mem_def.1 ht]))⟩

theorem concrete_of_evaluate {w : World} {t : Tree} {xs : List Variable} {s : Store} {o : Outcome}
    (h : (t.evaluate w xs s).1 = .ok o) : ∀ ty ∈ t.signature.locals, ty.base ≠ .any := by
  unfold Tree.evaluate at h
  split at h
  · cases h
  split at h
  · cases h
  · rename_i hf
    exact concrete_of_freshCells hf

theorem Returns.wellFormed {sig : Signature} {t : Tree} {r : Registry} {v : Value} (h : Returns sig t r v) :
    t.signature = sig ∧ t.WellFormed [.int] r ∧ r.WellFormed [.int] := by
  obtain ⟨types, arguments, locals, catalog, text, hc, hread⟩ := h.read
  obtain ⟨limits, xs, s, -, hrun⟩ := h.run
  have hsig := signature_of_readTree hread
  have stocked := h.loaded.stocked
  have hstandard : ∀ n ∈ catalog.nodes, n.Standard := fun n hn =>
    Node.standard_of_mem ((NodeCatalog.standard_ok hc).2.2 ▸ hn)
  refine ⟨hsig, ?_, stocked.wellFormed⟩
  exact readTree_wellFormed (v := ⟨catalog, r⟩) hstandard
    (fun he => ⟨stocked.keyed he, (stocked.wellFormed he).concrete⟩) (hsig ▸ concrete_of_evaluate hrun) hread

theorem Returns.fits {stray : List Base} {sig : Signature} {t : Tree} {r : Registry} {v : Value}
    (h : Returns sig t r v) (hd : sig.returns.base ≠ .any) (ht : t.WellFormed stray r) (hr : r.WellFormed stray) :
    v.Fits stray sig.returns.base := by
  obtain ⟨limits, xs, s, hs, hrun⟩ := h.run
  rw [← h.wellFormed.1] at hd ⊢
  obtain ⟨o, cs, ho, hv, -⟩ := Tree.WellFormed.evaluate (w := ⟨limits, r⟩) ht hr hd hs
  obtain rfl : o = .returned v := Except.ok.inj (ho.symm.trans hrun)
  exact hv v rfl

/-- Returns five from the middle of a sequence, whatever its type. -/
def strayTerm (ty : Ty) : Term :=
  let five := .node (.const (.int 5)) Fin.elim0
  .node (.progn ty 2) fun i => [.node (.returnValue .int) fun _ => five].getD i (.node (.nop ty) Fin.elim0)

def straySignature (ty : Ty) : Signature := ⟨none, ty, [], []⟩

def strayTree (ty : Ty) : Tree := .planted (straySignature ty) (strayTerm ty)

theorem strayTree_runs (ty : Ty) (h : ty.base ≠ .any) :
    ((strayTree ty).evaluate ⟨⟨10, 0⟩, .empty⟩ [] .empty).1.toOption = some (.returned (.int 5)) := by
  obtain ⟨b, q⟩ := ty
  cases b <;> cases q <;> first | exact absurd rfl h | decide +kernel

theorem straySignature_admits (ty : Ty) (h : ty.base ≠ .any) : (straySignature ty).Admits (strayTerm ty) := by
  obtain ⟨b, q⟩ := ty
  cases b <;> cases q <;>
    first | exact absurd rfl h | exact ⟨by decide +kernel, by decide +kernel, by decide +kernel⟩

theorem exists_returns_int (ty : Ty) (h : ty.base ≠ .any) : ∃ t, Returns (straySignature ty) t .empty (.int 5) := by
  have hsome : (NodeCatalog.standard .standard [] []).toOption.isSome = true := by decide +kernel
  obtain ⟨c, hc⟩ := Option.isSome_iff_exists.1 hsome
  replace hc := Result.toOption_some.1 hc
  obtain ⟨htypes, -, hnodes⟩ := NodeCatalog.standard_ok hc
  have ha := straySignature_admits ty h
  have hk : ∀ n ∈ (strayTerm ty).nodes, Vocabulary.Knows ⟨c, .empty⟩ n ∧ n.Legible := by
    obtain ⟨name, hname⟩ := name_of_concrete ty h
    obtain ⟨int, hint⟩ := name_of_concrete .int (by decide)
    have hns : (strayTerm ty).nodes = [.progn ty 2, .returnValue .int, .const (.int 5), .nop ty] := rfl
    rw [hns]
    simp only [List.forall_mem_cons]
    refine ⟨?_, ?_, ?_, ?_, by simp⟩
    · exact ⟨.member trivial (htypes ▸ hname), by decide, by decide⟩
    · exact ⟨.prototype (by rw [hnodes]; decide +kernel) nofun, trivial⟩
    · exact ⟨.member trivial (htypes ▸ hint), nofun⟩
    · exact ⟨.member trivial (htypes ▸ hname), trivial⟩
  have spelled := (NodeCatalog.Stocked.standard hc).spelled
  obtain ⟨text, -, hread⟩ := Vocabulary.readTree_planted spelled hk (Tree.denotes_planted (straySignature ty) _) ha
  exact ⟨strayTree ty, .empty, ⟨_, _, _, c, text, hc, hread⟩,
    ⟨_, _, _, Store.supports_empty, Result.toOption_some.1 (strayTree_runs ty h)⟩⟩

theorem returned_base (ty : Ty) (h : ty.base ≠ .any) :
    ((∀ sig t r v, sig.returns = ty → Returns sig t r v → v.base = ty.base) ↔ ty.base = .int) ∧
      ∀ sig t r v, sig.returns = ty → Returns sig t r v →
        (v.base = ty.base ∨ v.base = .int) ∧ (t.ReturnsAsDeclared → r.ReturnsAsDeclared → v.base = ty.base) := by
  have general : ∀ sig t r v, sig.returns = ty → Returns sig t r v → v.base = ty.base ∨ v.base = .int := by
    rintro sig t r v rfl hv
    obtain ⟨-, ht, hr⟩ := hv.wellFormed
    simpa [Value.Fits] using hv.fits h ht hr
  refine ⟨⟨fun hbase => ?_, fun hint sig t r v hs hv => ?_⟩, fun sig t r v hs hv => ⟨general sig t r v hs hv, ?_⟩⟩
  · obtain ⟨t, ht⟩ := exists_returns_int ty h
    exact (hbase _ t _ _ rfl ht).symm
  · simpa [hint] using general sig t r v hs hv
  · subst hs
    intro ht hr
    obtain ⟨-, hwt, hwr⟩ := hv.wellFormed
    simpa [Value.Fits] using hv.fits h (hwt.strict ht) (hwr.strict hr)

theorem returned_base_int : Ty.int.base ≠ .any ∧
    ∃ t, Returns (straySignature .int) t .empty (.int 5) ∧ (Value.int 5).base = Ty.int.base := by
  obtain ⟨t, ht⟩ := exists_returns_int .int (by decide)
  exact ⟨by decide, t, ht, (returned_base .int (by decide)).1.2 rfl _ t _ _ rfl ht⟩

/-- A tree that declares a truth value and returns five. -/
theorem returned_base_stray : (∃ t, Returns (straySignature .bool) t .empty (.int 5)) ∧
    ¬ ∀ sig t r v, sig.returns.base ≠ .any → Returns sig t r v → v.base = sig.returns.base := by
  obtain ⟨t, ht⟩ := exists_returns_int .bool (by decide)
  exact ⟨⟨t, ht⟩, fun h => absurd (h _ t _ _ (by decide) ht) (by decide)⟩

end Grove
