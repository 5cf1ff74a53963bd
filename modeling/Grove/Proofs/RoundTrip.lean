import Grove.Proofs.Grammar
import Grove.Proofs.Lines
import Grove.Proofs.Standard
import Grove.Proofs.Resolution

/-! Trees survive their text. A valid tree whose nodes a vocabulary knows can be written, and reading the text
gives a valid tree of the same signature over the same term. The vocabulary is a standard one over the standard
types, perhaps with the calls of registries added, so long as their names have no bracket. -/

namespace Grove

namespace NodeCatalog

/-- The standard catalogs over the standard types, and those that calls of registries were added to. -/
inductive Stocked : NodeCatalog → Prop
  | standard {arguments locals : List Ty} {c : NodeCatalog}
      (h : standard .standard arguments locals = .ok c) : Stocked c
  | subroutines {c : NodeCatalog} (h : Stocked c) (r : Registry)
      (hr : ∀ callee, .call callee ∈ r.calls → '<' ∉ callee.name.toList) : Stocked (c.registerAll r.calls).1

theorem Stocked.spelled {c : NodeCatalog} (h : c.Stocked) : c.Spelled := by
  induction h with
  | standard h =>
    obtain ⟨ht, hn, hnodes⟩ := standard_ok h
    exact ⟨ht, hn, fun callee hc => False.elim (Node.standard_of_mem (n := .call callee) (hnodes ▸ hc))⟩
  | @subroutines c _ r hr ih =>
    obtain ⟨ms, hp, hnodes, -⟩ := nodes_registerAll r.calls c
    refine ⟨(types_registerAll _ c).trans ih.types, ih.named.registerAll, fun callee hc => ?_⟩
    rw [hnodes, List.mem_append] at hc
    exact hc.elim (ih.calls callee) fun hc => hr callee (hp.subset hc)

end NodeCatalog

namespace Vocabulary

variable {v : Vocabulary} {sig : Signature} {e : Term} {t : Tree}

theorem map_node_of_names {names : List String} {ns : List Node} (h : names.map .ok = ns.map (·.name .standard))
    (hk : ∀ n ∈ ns, ∃ name, n.name .standard = .ok name ∧ v.node name = .ok n) : names.map v.node = ns.map .ok := by
  induction ns generalizing names with
  | nil =>
    obtain rfl : names = [] := by simpa using h
    rfl
  | cons n ns ih =>
    rw [List.map_cons, List.map_eq_cons_iff] at h
    obtain ⟨name, names, rfl, hn, hns⟩ := h
    obtain ⟨⟨name', hname, hnode⟩, hk⟩ := List.forall_mem_cons.1 hk
    obtain rfl : name = name' := Except.ok.inj (hn.trans hname)
    rw [List.map_cons, List.map_cons, hnode, ih hns hk]

theorem readTree_planted (hc : v.catalog.Spelled) (hk : ∀ n ∈ e.nodes, v.Knows n ∧ n.Legible) (hd : t.Denotes e)
    (ha : sig.Admits e) :
    ∃ text, t.text .standard = .ok text ∧ v.readTree text sig = .ok (.planted sig e) := by
  have hnamed := fun n hn => (hk n hn).1.named hc (hk n hn).2
  obtain ⟨text, ht, hnames⟩ := hd.text fun n hn =>
    let ⟨name, hname, _, hclean, hline⟩ := hnamed n hn
    ⟨name, hname, hclean, hline⟩
  refine ⟨text, ht, readTree_ok.2 ⟨e, map_node_of_names hnames fun n hn => ?_, ha, rfl⟩⟩
  obtain ⟨name, hname, hnode, -⟩ := hnamed n hn
  exact ⟨name, hname, hnode⟩

end Vocabulary

/-- What is written of a valid tree of known nodes is read as that tree, up to the numbers of the nodes. -/
theorem readTree_text {v : Vocabulary} {sig : Signature} {t : Tree} {ns : List Node} (hc : v.catalog.Stocked)
    (ht : t.ValidFor sig) (hns : t.Lists ns) (hk : ∀ n ∈ ns, v.Knows n ∧ n.Legible) :
    ∃ text t', t.text v.catalog.types = .ok text ∧ v.readTree text sig = .ok t' ∧ t'.ValidFor sig ∧ t'.Alike t := by
  obtain ⟨e, hd, ha⟩ := ht.term
  obtain rfl := hd.lists.1 hns
  obtain ⟨text, htext, hread⟩ := Vocabulary.readTree_planted hc.spelled hk hd ha
  have alike : (Tree.planted sig e).Alike t := ⟨ht.signature.symm, e, Tree.denotes_planted sig e, hd⟩
  exact ⟨text, _, by rwa [hc.spelled.types], hread, Tree.validFor_planted ha, alike⟩

/-- Steps of every sort: an array literal with a comma in it, an operator, a variable and a call. -/
def sampleTerm : Term :=
  let array := .node (.const (.ints [1, -2])) Fin.elim0
  let element := .node (.elementAt .int) fun i => [array].getD i (.node (.argument .int 0) Fin.elim0)
  let call := .node (.call ⟨"double", .int, [.int]⟩) fun _ => .node (.const (.int 5)) Fin.elim0
  .node (.progn .int 3) fun i => [.node (.nop .float) Fin.elim0, element].getD i call

def sampleSignature : Signature := ⟨none, .int, [.int], []⟩

def sampleTree : Tree := .planted sampleSignature sampleTerm

def sampleRegistry : Registry := ⟨[("double", ⟨⟨"double", .int, [.int]⟩, none⟩)]⟩

theorem sampleTerm_known : ∃ c, NodeCatalog.standard .standard [.int] [] = .ok c ∧
    ∀ n ∈ sampleTerm.nodes, Vocabulary.Knows ⟨c, sampleRegistry⟩ n ∧ n.Legible := by
  have hcatalog : ((NodeCatalog.standard .standard [.int] []).toOption.map (·.get? "double")) = some none := by
    decide +kernel
  obtain ⟨c, hc, hnone⟩ := Option.map_eq_some_iff.1 hcatalog
  replace hc := Result.toOption_some.1 hc
  obtain ⟨htypes, -, hnodes⟩ := NodeCatalog.standard_ok hc
  have hns : sampleTerm.nodes = [.progn .int 3, .nop .float, .elementAt .int, .const (.ints [1, -2]), .argument .int 0,
    .call ⟨"double", .int, [.int]⟩, .const (.int 5)] := by decide +kernel
  have member : ∀ {n : Node}, n.Familial → (TypeCatalog.standard.name n.returns).toOption.isSome = true →
      Vocabulary.Knows ⟨c, sampleRegistry⟩ n := by
    intro n hf ht
    obtain ⟨tyName, ht⟩ := Option.isSome_iff_exists.1 ht
    exact .member hf (htypes ▸ Result.toOption_some.1 ht)
  have hcall : Vocabulary.Calls ⟨c, sampleRegistry⟩ ⟨"double", .int, [.int]⟩ :=
    ⟨by rw [hnone]; rfl, by decide +kernel, by decide +kernel, by decide +kernel⟩
  refine ⟨c, hc, ?_⟩
  rw [hns]
  simp only [List.forall_mem_cons]
  refine ⟨?_, ?_, ?_, ?_, ?_, ?_, ?_, by simp⟩
  · exact ⟨member trivial (by decide +kernel), by decide, by decide⟩
  · exact ⟨member trivial (by decide +kernel), trivial⟩
  · exact ⟨.prototype (by rw [hnodes]; decide +kernel) nofun, trivial⟩
  · exact ⟨member trivial (by decide +kernel), nofun⟩
  · exact ⟨member trivial (by decide +kernel), (by decide : 0 < words64)⟩
  · exact ⟨.call hcall, trivial⟩
  · exact ⟨member trivial (by decide +kernel), nofun⟩

theorem sampleTree_reads : ∃ c, NodeCatalog.standard .standard [.int] [] = .ok c ∧
    ∃ text t', sampleTree.text c.types = .ok text ∧
    Vocabulary.readTree ⟨c, sampleRegistry⟩ text sampleSignature = .ok t' ∧
      t'.ValidFor sampleSignature ∧ t'.Alike sampleTree := by
  obtain ⟨c, hc, hk⟩ := sampleTerm_known
  have ha : sampleSignature.Admits sampleTerm := ⟨by decide +kernel, by decide +kernel, by decide +kernel⟩
  exact ⟨c, hc, readTree_text (v := ⟨c, sampleRegistry⟩) (.standard hc) (Tree.validFor_planted ha)
    ((Tree.denotes_planted _ _).lists.2 rfl) hk⟩

end Grove
