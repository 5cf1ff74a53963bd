import Grove.Proofs.Loading
import Mathlib.Logic.Relation

/-! What a text reads as stays. A registration adds a call under a name that was free and changes none that is there,
and the registry is asked last, when neither the catalog nor the families answer. So a name that stands for a node
stands for it after any registrations, whatever names they took, and a text that was read is read as the same tree. -/

namespace Grove

namespace Vocabulary

variable {catalog : NodeCatalog} {r r' : Registry}

theorem node_mono (h : r.Extends r') {name : String} {n : Node} (hn : node ⟨catalog, r⟩ name = .ok n) :
    node ⟨catalog, r'⟩ name = .ok n := by
  obtain ⟨found, hf, hn⟩ := Result.bind_ok.1 hn
  refine Result.bind_ok.2 ⟨found, hf, ?_⟩
  cases found with
  | some m => exact hn
  | none =>
    obtain ⟨m, hm, hn⟩ := Result.elim_ok.1 hn
    obtain ⟨c, hc, rfl⟩ := Option.map_eq_some_iff.1 hm
    exact Result.elim_ok.2 ⟨.call c, Option.map_eq_some_iff.2 ⟨c, h hc, rfl⟩, hn⟩

theorem map_node_mono (h : r.Extends r') {names : List String} {ns : List Node}
    (hns : names.map (node ⟨catalog, r⟩) = ns.map .ok) : names.map (node ⟨catalog, r'⟩) = ns.map .ok := by
  refine Eq.trans (List.map_congr_left fun name hname => ?_) hns
  have hmem : node ⟨catalog, r⟩ name ∈ ns.map .ok := hns ▸ List.mem_map_of_mem hname
  obtain ⟨n, -, hn⟩ := List.mem_map.1 hmem
  rw [node_mono h hn.symm, ← hn]

theorem readTree_mono (h : r.Extends r') {text : String} {s : Signature} {t : Tree}
    (hread : readTree ⟨catalog, r⟩ text s = .ok t) : readTree ⟨catalog, r'⟩ text s = .ok t := by
  obtain ⟨e, hnames, ha, rfl⟩ := readTree_ok.1 hread
  exact readTree_ok.2 ⟨e, map_node_mono h hnames, ha, rfl⟩

end Vocabulary

namespace Registry

/-- A registration that succeeds. -/
inductive Gains : Registry → Registry → Prop
  | load {r r' : Registry} {catalog : NodeCatalog} {text : String} {c : Callee}
      (h : r.loadDocument catalog text = (.ok c, r')) : Gains r r'
  | register {r r' : Registry} {t : Tree} {c : Callee} (h : r.register t = .ok (c, r')) : Gains r r'
  | reserve {r r' : Registry} {c : Callee} (h : r.reserve c = .ok r') : Gains r r'

variable {r r' : Registry}

theorem Extends.refl (r : Registry) : r.Extends r := id

theorem Extends.trans {r'' : Registry} (h : r.Extends r') (h' : r'.Extends r'') : r.Extends r'' := fun hc => h' (h hc)

theorem Gains.extends (h : r.Gains r') : r.Extends r' := by
  cases h with
  | @load catalog text c h =>
    cases h ▸ r.loadDocument_ends catalog text with
    | loaded hp hs hn hread => exact extends_stored hn _
  | register h =>
    obtain ⟨-, hn, rfl⟩ := register_iff.1 h
    exact extends_stored hn _
  | reserve h =>
    obtain ⟨hn, rfl⟩ := reserve_ok.1 h
    exact extends_stored hn _

theorem extends_of_gains (h : Relation.ReflTransGen Gains r r') : r.Extends r' := by
  induction h with
  | refl => exact Extends.refl r
  | tail _ hstep ih => exact ih.trans hstep.extends

end Registry

/-- Whatever was loaded, registered and reserved since, with whatever catalogs, a text that was read for a signature is
read as the same tree: the same nodes, calls included, in the same places. -/
theorem read_texts_persist {catalog : NodeCatalog} {r r' : Registry}
    (h : Relation.ReflTransGen Registry.Gains r r') {text : String} {s : Signature} {t : Tree}
    (hread : Vocabulary.readTree ⟨catalog, r⟩ text s = .ok t) : Vocabulary.readTree ⟨catalog, r'⟩ text s = .ok t :=
  Vocabulary.readTree_mono (Registry.extends_of_gains h) hread

/-- The call of a subroutine that takes an integer. -/
def halfOf : Callee := ⟨"Half", .int, [.int]⟩

/-- A document that takes the name of a constant. -/
def fiveText : String := "[tree]\nname = \"Const<int,5>\"\nreturn_type = \"bool\"\ntree_entity = \"+--Nop<bool>\"\n"

/-- A call and a constant are read as before when a document has taken the name of the constant and a reservation that
of its kind. -/
theorem read_texts_persist_half : ∃ r r' r'' c t, Registry.empty.reserve halfOf = .ok r ∧
    r.loadDocument (.empty .standard) fiveText = (.ok c, r') ∧ r'.reserve ⟨"Const", .bool, []⟩ = .ok r'' ∧
    Vocabulary.readTree ⟨.empty .standard, r⟩ "+--Half\n+--Const<int,5>" ⟨none, .int, [], []⟩ = .ok t ∧
    Vocabulary.readTree ⟨.empty .standard, r''⟩ "+--Half\n+--Const<int,5>" ⟨none, .int, [], []⟩ = .ok t := by
  have hruns : (let r := Registry.empty.stored halfOf none
      let loaded := r.loadDocument (.empty .standard) fiveText
      (loaded.1.toOption, loaded.2.contains "Const",
        (Vocabulary.readTree ⟨.empty .standard, r⟩ "+--Half\n+--Const<int,5>" ⟨none, .int, [], []⟩).toOption.isSome)) =
      (some ⟨"Const<int,5>", .bool, []⟩, false, true) := by decide +kernel
  obtain ⟨hload, hfree, hread⟩ := Prod.mk.inj hruns |>.imp_right Prod.mk.inj
  rcases hrun : (Registry.empty.stored halfOf none).loadDocument (.empty .standard) fiveText with ⟨res, r'⟩
  rw [hrun] at hload hfree
  obtain rfl := Result.toOption_some.1 hload
  have hreserve : r'.reserve ⟨"Const", .bool, []⟩ = .ok (r'.stored ⟨"Const", .bool, []⟩ none) :=
    Registry.reserve_ok.2 ⟨Option.isNone_iff_eq_none.1 (Option.isSome_eq_false_iff.1 hfree), rfl⟩
  obtain ⟨t, ht⟩ := Option.isSome_iff_exists.1 hread
  replace ht := Result.toOption_some.1 ht
  have hgains := Relation.ReflTransGen.tail (.single (.load hrun)) (Registry.Gains.reserve hreserve)
  exact ⟨_, r', _, _, t, Registry.reserve_ok.2 ⟨rfl, rfl⟩, hrun, hreserve, ht, read_texts_persist hgains ht⟩

end Grove
