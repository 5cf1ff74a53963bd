import Grove.Proofs.Identity
import Grove.Proofs.RoundTrip
import Mathlib.Data.List.Nodup

/-! The standard catalogs are consistent. Nodes with names of their own are all registered, since no two of them have
one name. The standard nodes are such nodes: the constants, the variables in their three forms, and the operators. So a
standard catalog can be made for all variables that have types, and each of its nodes is what its name stands for. -/

namespace Grove

namespace Node

variable {n : Node}

/-- A node that has a name of its own over the standard types. -/
structure Proper (n : Node) : Prop where
  kind : n.kind ≠ .subroutine
  told : n.Told
  type : n.typeParameter.base ≠ .any

theorem Proper.named (h : n.Proper) : ∃ name, n.name .standard = .ok name := by
  obtain ⟨tyName, ht⟩ := name_of_concrete _ h.type
  unfold Node.name
  split
  · exact absurd rfl h.kind
  · obtain ⟨count, hcount⟩ := name_of_concrete .int (by decide)
    exact ⟨_, Result.bind_ok.2 ⟨count, hcount, Result.bind_ok.2 ⟨tyName, ht, rfl⟩⟩⟩
  · cases n.property? <;> exact ⟨_, Result.bind_ok.2 ⟨tyName, ht, rfl⟩⟩

/-- Proper nodes have names, and different ones have different names. -/
theorem names_of_proper {ns : List Node} (hp : ∀ n ∈ ns, n.Proper) (hd : ns.Nodup) :
    ∃ names : List String, ns.map (·.name .standard) = names.map .ok ∧ names.Nodup := by
  induction ns with
  | nil => exact ⟨[], rfl, List.nodup_nil⟩
  | cons n ns ih =>
    obtain ⟨hn, hns⟩ := List.forall_mem_cons.1 hp
    obtain ⟨hnew, hd⟩ := List.nodup_cons.1 hd
    obtain ⟨name, hname⟩ := hn.named
    obtain ⟨names, hnames, hnodup⟩ := ih hns hd
    refine ⟨name :: names, ?_, List.nodup_cons.2 ⟨fun hmem => ?_, hnodup⟩⟩
    · rw [List.map_cons, List.map_cons, hname, hnames]
    have htaken : Except.ok name ∈ ns.map (·.name .standard) := hnames ▸ List.mem_map_of_mem hmem
    obtain ⟨m, hm, hsame⟩ := List.mem_map.1 htaken
    obtain rfl := eq_of_name (hns m hm).kind hn.kind (hns m hm).told hn.told hsame hname
    exact hnew hm

end Node

namespace NodeCatalog

theorem registerAll_total {ns : List Node} {names : List String} {c : NodeCatalog}
    (hn : ns.map (·.name c.types) = names.map .ok) (hd : (c.names ++ names).Nodup) : (c.registerAll ns).2 = none := by
  induction ns generalizing c names with
  | nil => rfl
  | cons n ns ih =>
    obtain ⟨name, names, rfl, hname, hnames⟩ := List.map_eq_cons_iff.1 hn.symm
    have hnew : name ∉ c.names := fun hmem => (List.nodup_append.1 hd).2.2 _ hmem _ List.mem_cons_self rfl
    unfold registerAll
    rw [register_ok.2 ⟨name, hname.symm, hnew, rfl⟩]
    refine ih hnames.symm ?_
    simpa [NodeCatalog.names] using hd

def constantNodes : List Node := (Base.concrete.filterMap Value.default?).map Node.const

/-- The nodes that read variables of some types, in the three forms of each type. -/
def variableNodes (read : Ty → Nat → Node) (tys : List Ty) : List Node :=
  tys.zipIdx.flatMap fun (ty, i) => ty.forms.map (read · i)

def operatorNodes : List Node :=
  ([Ty.bool, .int, .float].flatMap fun ty => [Node.progn ty 2, .ifElse ty])
    ++ ([Base.int, .float].flatMap fun b => Arithmetic.all.map (Node.arithmetic · b)
      ++ Comparison.all.map (Node.comparison · b) ++ [.substitute b, .increment b])
    ++ [.logic .and, .logic .or, .logic .not, .repeatTimes .int, .elementAt .int, .size .int,
        .breakLoop .int, .continueLoop .int, .returnValue .int]

theorem standardNodes_eq (arguments locals : List Ty) : standardNodes arguments locals =
    constantNodes ++ (variableNodes .argument arguments ++ (variableNodes .localVariable locals ++ operatorNodes)) := by
  simp only [standardNodes, constantNodes, variableNodes, operatorNodes, List.append_assoc]

variable {read : Ty → Nat → Node} {tys arguments locals : List Ty} {n : Node}

theorem mem_variableNodes (h : n ∈ variableNodes read tys) : ∃ ty i, n = read ty i ∧ ∃ of ∈ tys, ty.base = of.base := by
  obtain ⟨⟨of, i⟩, hof, h⟩ := List.mem_flatMap.1 h
  obtain ⟨ty, hty, rfl⟩ := List.mem_map.1 h
  refine ⟨ty, i, rfl, of, List.fst_mem_of_mem_zipIdx hof, ?_⟩
  simp only [Ty.forms, List.mem_cons, List.not_mem_nil, or_false] at hty
  rcases hty with rfl | rfl | rfl <;> rfl

theorem nodup_forms (ty : Ty) : ty.forms.Nodup := by
  simp [Ty.forms, Ty.strip, Ty.plain, Ty.leftHand, Ty.reference]

theorem nodup_variableNodes (h : Function.Injective2 read) (tys : List Ty) : (variableNodes read tys).Nodup := by
  refine List.nodup_flatMap.2 ⟨fun p _ => (nodup_forms p.1).map fun ty ty' he => (h he).1, ?_⟩
  have hnumbers : (tys.zipIdx.map (·.2)).Nodup := by
    rw [List.zipIdx_map_snd]
    exact List.nodup_range'
  refine (List.pairwise_map.1 hnumbers).imp fun {p q} hne m hp hq => ?_
  obtain ⟨ty, -, rfl⟩ := List.mem_map.1 hp
  obtain ⟨ty', -, he⟩ := List.mem_map.1 hq
  exact hne (h he).2.symm

theorem nodup_append_of_kind {l l' : List Node} (kind : NodeKind) (hl : l.Nodup) (hl' : l'.Nodup)
    (h : ∀ n ∈ l, n.kind = kind) (h' : ∀ n ∈ l', n.kind ≠ kind) : (l ++ l').Nodup :=
  List.nodup_append.2 ⟨hl, hl', fun m hm n hn he => h' n hn (he ▸ h m hm)⟩

theorem kind_operatorNodes : ∀ n ∈ operatorNodes, n.kind = .normal ∨ n.kind = .progn := by decide +kernel

theorem kind_variableNodes {kind : NodeKind} (h : ∀ ty i, (read ty i).kind = kind) (hn : n ∈ variableNodes read tys) :
    n.kind = kind := by
  obtain ⟨ty, i, rfl, -⟩ := mem_variableNodes hn
  exact h ty i

theorem nodup_standardNodes (arguments locals : List Ty) : (standardNodes arguments locals).Nodup := by
  have hargument : ∀ n ∈ variableNodes .argument arguments, n.kind = .argument := fun n =>
    kind_variableNodes fun _ _ => rfl
  have hlocal : ∀ n ∈ variableNodes .localVariable locals, n.kind = .localVariable := fun n =>
    kind_variableNodes fun _ _ => rfl
  have hlater : ∀ n ∈ variableNodes .localVariable locals ++ operatorNodes, n.kind ≠ .argument ∧ n.kind ≠ .const := by
    intro n hn
    rcases List.mem_append.1 hn with hn | hn
    · simp [hlocal n hn]
    · rcases kind_operatorNodes n hn with hk | hk <;> simp [hk]
  have hlocals : (variableNodes .localVariable locals ++ operatorNodes).Nodup := by
    refine nodup_append_of_kind .localVariable (nodup_variableNodes ?_ locals) (by decide +kernel) hlocal fun n hn => ?_
    · simp [Function.Injective2]
    · rcases kind_operatorNodes n hn with hk | hk <;> simp [hk]
  have hvariables : (variableNodes .argument arguments ++
      (variableNodes .localVariable locals ++ operatorNodes)).Nodup := by
    refine nodup_append_of_kind .argument (nodup_variableNodes ?_ arguments) hlocals hargument fun n hn => ?_
    · simp [Function.Injective2]
    · exact (hlater n hn).1
  rw [standardNodes_eq]
  refine nodup_append_of_kind .const (by decide +kernel) hvariables (fun n hn => ?_) fun n hn => ?_
  · obtain ⟨v, -, rfl⟩ := List.mem_map.1 hn
    rfl
  · rcases List.mem_append.1 hn with hn | hn
    · simp [hargument n hn]
    · exact (hlater n hn).2

theorem proper_constantNodes (h : n ∈ constantNodes) : n.Proper ∧ n.Legible := by
  obtain ⟨v, hv, rfl⟩ := List.mem_map.1 h
  have hlegible : v.Legible := by
    rintro x rfl
    obtain rfl : x = 0.0 := by simpa [Base.concrete, Value.default?] using hv
    decide +kernel
  exact ⟨⟨nofun, hlegible, v.base_ne_any⟩, hlegible⟩

theorem proper_operatorNodes (h : n ∈ operatorNodes) : n.Proper ∧ n.Legible := by
  have hproper : ∀ n ∈ operatorNodes, n.kind ≠ .subroutine ∧ n.typeParameter.base ≠ .any := by decide +kernel
  have htold : ∀ n ∈ operatorNodes, n.Told ∧ n.Legible := by
    simp [operatorNodes, Node.Told, Node.Legible, Arithmetic.all, Comparison.all, words64]
  exact ⟨⟨(hproper n h).1, (htold n h).1, (hproper n h).2⟩, (htold n h).2⟩

theorem proper_variableNodes (hn : n ∈ variableNodes read tys) (ht : ∀ ty ∈ tys, ty.base ≠ .any)
    (h : ∀ ty i, (read ty i).kind ≠ .subroutine ∧ (read ty i).Told ∧ (read ty i).typeParameter = ty) : n.Proper := by
  obtain ⟨ty, i, rfl, of, hof, hbase⟩ := mem_variableNodes hn
  obtain ⟨hkind, htold, htype⟩ := h ty i
  refine ⟨hkind, htold, ?_⟩
  rw [htype, hbase]
  exact ht of hof

theorem mem_standardNodes : n ∈ standardNodes arguments locals ↔ n ∈ constantNodes ∨
    n ∈ variableNodes .argument arguments ∨ n ∈ variableNodes .localVariable locals ∨ n ∈ operatorNodes := by
  simp only [standardNodes_eq, List.mem_append]

theorem proper_standardNodes (ha : ∀ ty ∈ arguments, ty.base ≠ .any) (hl : ∀ ty ∈ locals, ty.base ≠ .any)
    (h : n ∈ standardNodes arguments locals) : n.Proper := by
  rcases mem_standardNodes.1 h with h | h | h | h
  · exact (proper_constantNodes h).1
  · exact proper_variableNodes h ha fun _ _ => ⟨nofun, trivial, rfl⟩
  · exact proper_variableNodes h hl fun _ _ => ⟨nofun, trivial, rfl⟩
  · exact (proper_operatorNodes h).1

theorem legible_standardNodes (h : n ∈ standardNodes arguments locals)
    (hi : ∀ i, n.property? = some (.index i) → i < words64) : n.Legible := by
  rcases mem_standardNodes.1 h with h | h | h | h
  · exact (proper_constantNodes h).2
  · obtain ⟨ty, i, rfl, -⟩ := mem_variableNodes h
    exact hi i rfl
  · obtain ⟨ty, i, rfl, -⟩ := mem_variableNodes h
    exact hi i rfl
  · exact (proper_operatorNodes h).2

/-- Over the standard types there is a standard catalog for any lists of variables with types of concrete bases. It
holds the standard nodes under names that are all different, and makes each node from its name. The number of a
variable is a word of 64 bits, so it has to fit one. -/
theorem standard_consistent (ha : ∀ ty ∈ arguments, ty.base ≠ .any) (hl : ∀ ty ∈ locals, ty.base ≠ .any) :
    ∃ c, standard .standard arguments locals = .ok c ∧ c.nodes = standardNodes arguments locals ∧
      c.nodes.map (·.name .standard) = c.names.map .ok ∧ c.names.Nodup ∧
      ∀ n ∈ c.nodes, (∀ i, n.property? = some (.index i) → i < words64) →
        ∃ name, n.name .standard = .ok name ∧ c.instantiate name = .ok (some n) := by
  have hproper : ∀ n ∈ standardNodes arguments locals, n.Proper := fun n hn => proper_standardNodes ha hl hn
  obtain ⟨names, hnames, hnodup⟩ := Node.names_of_proper hproper (nodup_standardNodes arguments locals)
  have hall := registerAll_total (c := .empty .standard) hnames hnodup
  obtain ⟨c, hc⟩ : ∃ c, standard .standard arguments locals = .ok c := ⟨_, standard_iff.2 (Prod.ext rfl hall)⟩
  obtain ⟨ht, hnamed, hnodes⟩ := standard_ok hc
  refine ⟨c, hc, hnodes, ?_, hnamed.nodup, fun n hn hi => ?_⟩
  · rw [nodes, NodeCatalog.names, List.map_map, List.map_map]
    exact List.map_congr_left fun p hp => ht ▸ hnamed.names p hp
  · rw [hnodes] at hn
    exact (Stocked.standard hc).spelled.instantiate_prototype (hnodes ▸ hn) (hproper n hn).kind
      (legible_standardNodes hn hi)

/-- Variables of all qualifiers, an array among them. -/
theorem standard_consistent_mixed :
    (∀ ty ∈ [Ty.int.leftHand, .ints], ty.base ≠ .any) ∧ (∀ ty ∈ [Ty.float.reference], ty.base ≠ .any) ∧
    ∃ c, standard .standard [Ty.int.leftHand, .ints] [Ty.float.reference] = .ok c ∧
      .argument Ty.ints.reference 1 ∈ c.nodes ∧ c.instantiate "Argument<ref[array[int]],1>" =
        .ok (some (.argument Ty.ints.reference 1)) := by
  have ha : ∀ ty ∈ [Ty.int.leftHand, .ints], ty.base ≠ .any := by decide
  have hl : ∀ ty ∈ [Ty.float.reference], ty.base ≠ .any := by decide
  obtain ⟨c, hc, hnodes, -, -, hread⟩ := standard_consistent ha hl
  have hn : Node.argument Ty.ints.reference 1 ∈ c.nodes := by rw [hnodes]; decide +kernel
  obtain ⟨name, hname, hmade⟩ := hread _ hn fun i hi => by cases hi; decide
  have hspelled : (Node.argument Ty.ints.reference 1).name .standard = .ok "Argument<ref[array[int]],1>" :=
    Result.toOption_some.1 (by decide +kernel)
  obtain rfl := Except.ok.inj (hname.symm.trans hspelled)
  exact ⟨ha, hl, c, hc, hn, hmade⟩

end NodeCatalog
end Grove
