import Grove.Proofs.Catalog
import Grove.Proofs.Loading
import Grove.Proofs.Requests
import Grove.Proofs.Sorted
import Mathlib.Data.String.Basic

/-! The index of a catalog. Prototypes stand in the order of registration, and an index tells the position of each under
its name. Registration changes both in turn, and over any history, refused requests included, they stay in step, so
that a name leads to the one prototype that bears it. Calls are registered in the order of their names, up to the first
one that is taken. -/

namespace Grove

namespace Registry

/-- The registries that requests lead to. Removal forgets a name too, and documents are loaded by reservation, then
commitment or rollback. -/
inductive Built : Registry → Prop
  | empty : Built empty
  | reserve {r r' : Registry} {c : Callee} (h : Built r) (hr : r.reserve c = .ok r') : Built r'
  | commit {r r' : Registry} {name : String} {t : Tree} (h : Built r) (hr : r.commit name t = .ok r') : Built r'
  | rollback {r : Registry} (h : Built r) (name : String) : Built (r.rollback name)
  | register {r r' : Registry} {c : Callee} {t : Tree} (h : Built r) (hr : r.register t = .ok (c, r')) : Built r'

/-- Calls are stored once, under their own names. -/
structure Keyed (r : Registry) : Prop where
  nodup : (r.entries.map (·.1)).Nodup
  callee : ∀ {name c}, r.callee? name = some c → c.name = name

variable {r : Registry} {name : String} {e : Entry}

theorem Keyed.put (h : r.Keyed) (he : e.callee.name = name) : Keyed ⟨Table.put name e r.entries⟩ := by
  refine ⟨Table.nodup_put h.nodup, fun {other c} hc => ?_⟩
  rw [callee?, entry?_put] at hc
  split at hc
  · rename_i hother
    cases hc
    exact he.trans hother.symm
  · exact h.callee hc

theorem Keyed.rollback (h : r.Keyed) (name : String) : (r.rollback name).Keyed := by
  refine ⟨Table.nodup_drop h.nodup, fun {other c} hc => ?_⟩
  rw [callee?, entry?, Registry.rollback, Table.lookup_drop] at hc
  split at hc
  · cases hc
  · exact h.callee hc

theorem Built.keyed (h : r.Built) : r.Keyed := by
  induction h with
  | empty => exact ⟨List.nodup_nil, nofun⟩
  | reserve _ hr ih =>
    obtain ⟨-, rfl⟩ := reserve_ok.1 hr
    exact ih.put rfl
  | @commit r r' name t _ hr ih =>
    unfold Registry.commit at hr
    split at hr
    · rename_i e he
      cases hr
      have hc : r.callee? name = some e.callee := by rw [callee?, he, Option.map_some]
      exact ih.put (ih.callee hc)
    · cases hr
  | rollback _ name ih => exact ih.rollback name
  | register _ hr ih =>
    obtain ⟨-, -, rfl⟩ := register_iff.1 hr
    exact ih.put rfl

theorem Keyed.mem_names (h : r.Keyed) : name ∈ r.names ↔ (r.body? name).isSome := by
  unfold names
  rw [(sortBy_perm _ _).mem_iff, List.mem_map]
  constructor
  · rintro ⟨⟨name, e⟩, he, rfl⟩
    obtain ⟨hmem, hbody⟩ := List.mem_filter.1 he
    rw [body?, entry?, (Table.lookup_eq_some h.nodup).2 hmem]
    exact hbody
  · intro hbody
    obtain ⟨t, ht⟩ := Option.isSome_iff_exists.1 hbody
    obtain ⟨e, he, hbody⟩ := Option.bind_eq_some_iff.1 ht
    refine ⟨(name, e), List.mem_filter.2 ⟨(Table.lookup_eq_some h.nodup).1 he, ?_⟩, rfl⟩
    rw [hbody]
    rfl

theorem Keyed.names_ascend (h : r.Keyed) : r.names.Pairwise (· < ·) := by
  apply sortBy_ascending id
  rw [List.map_id]
  exact h.nodup.sublist (List.filter_sublist.map _)

theorem Keyed.prototype? (h : r.Keyed) (types : TypeCatalog) (hn : name ∈ r.names) :
    ∃ n, r.prototype? name = some n ∧ n.name types = .ok name := by
  obtain ⟨t, ht⟩ := Option.isSome_iff_exists.1 (h.mem_names.1 hn)
  obtain ⟨e, he, -⟩ := Option.bind_eq_some_iff.1 ht
  have hc : r.callee? name = some e.callee := by rw [callee?, he, Option.map_some]
  refine ⟨.call e.callee, by rw [Registry.prototype?, hc, Option.map_some], ?_⟩
  exact congrArg Except.ok (h.callee hc)

end Registry

namespace NodeCatalog

theorem nodes_append (c : NodeCatalog) (name : String) (n : Node) :
    nodes { c with prototypes := c.prototypes ++ [(name, n)] } = c.nodes ++ [n] := by simp [nodes]

theorem names_append (c : NodeCatalog) (name : String) (n : Node) :
    names { c with prototypes := c.prototypes ++ [(name, n)] } = c.names ++ [name] := by simp [names]

variable {c c' : NodeCatalog} {n : Node} {name : String} {f : String → Option Node}

theorem register_taken (hn : n.name c.types = .ok name) (h : name ∈ c.names) :
    c.register n = .error (.duplicatePrototype name) := by
  unfold register
  rw [hn]
  exact if_pos h

/-- What comes of registering the nodes of some names: those of the first names, all of which are new, come last, and if
a name is left, the next one is taken and the registration ends with it. -/
structure Appends (c : NodeCatalog) (f : String → Option Node) (added rest : List String)
    (result : NodeCatalog × Option Error) : Prop where
  new : ∀ name ∈ added, name ∉ c.names
  taken : ∀ name ∈ rest.head?, name ∈ c.names
  names : result.1.names = c.names ++ added
  nodes : result.1.nodes = c.nodes ++ added.filterMap f
  error : result.2 = rest.head?.map .duplicatePrototype

theorem registerAll_cons_ok {ns : List Node} (h : c.register n = .ok c') :
    c.registerAll (n :: ns) = c'.registerAll ns := by
  rw [registerAll, h]

theorem registerAll_cons_error {ns : List Node} {e : Error} (h : c.register n = .error e) :
    c.registerAll (n :: ns) = (c, some e) := by
  rw [registerAll, h]

theorem Appends.cons {result : NodeCatalog × Option Error} {added rest : List String} (h : name ∉ c.names)
    (hf : f name = some n) (hrest : name ∉ rest)
    (hadds : Appends { c with prototypes := c.prototypes ++ [(name, n)] } f added rest result) :
    c.Appends f (name :: added) rest result := by
  obtain ⟨new, taken, names, nodes, error⟩ := hadds
  rw [names_append] at new taken names
  rw [nodes_append] at nodes
  refine ⟨List.forall_mem_cons.2 ⟨h, ?_⟩, ?_, by simp [names], by simp [nodes, hf], error⟩
  · intro other hother hmem
    exact new other hother (List.mem_append_left _ hmem)
  · intro other hother
    rcases List.mem_append.1 (taken other hother) with hmem | hlast
    · exact hmem
    · obtain rfl := List.mem_singleton.1 hlast
      exact absurd (List.mem_of_head? hother) hrest

theorem registerAll_appends {names : List String} (hn : names.Nodup)
    (hf : ∀ name ∈ names, ∃ n, f name = some n ∧ n.name c.types = .ok name) :
    ∃ added rest, names = added ++ rest ∧ c.Appends f added rest (c.registerAll (names.filterMap f)) := by
  induction names generalizing c with
  | nil => exact ⟨[], [], rfl, nofun, nofun, by simp [registerAll], by simp [registerAll], rfl⟩
  | cons name names ih =>
    obtain ⟨hnew, hn⟩ := List.nodup_cons.1 hn
    obtain ⟨⟨n, hfn, hname⟩, hf⟩ := List.forall_mem_cons.1 hf
    rw [List.filterMap_cons_some hfn]
    by_cases h : name ∈ c.names
    · rw [registerAll_cons_error (register_taken hname h)]
      refine ⟨[], name :: names, rfl, nofun, ?_, by simp, by simp, rfl⟩
      intro other hother
      obtain rfl := Option.some.inj hother
      exact h
    · have hr := register_ok.2 ⟨name, hname, h, rfl⟩
      rw [registerAll_cons_ok hr]
      obtain ⟨added, rest, rfl, hadds⟩ := @ih { c with prototypes := c.prototypes ++ [(name, n)] } hn hf
      exact ⟨name :: added, rest, rfl, hadds.cons h hfn fun hrest => hnew (List.mem_append_right _ hrest)⟩

theorem Named.mapM_name (h : c.Named) : c.nodes.mapM (Node.name c.types) = .ok c.names := by
  rw [Result.mapM_ok, NodeCatalog.nodes, NodeCatalog.names, List.map_map, List.map_map]
  exact List.map_congr_left h.names

/-- A request to a catalog. -/
inductive Act
  | register (n : Node)
  | registerCalls (r : Registry) (built : r.Built)

def after (c : NodeCatalog) : Act → NodeCatalog
  | .register n => (c.register n).toOption.getD c
  | .registerCalls r _ => (c.registerAll r.calls).1

end NodeCatalog

/-- Prototypes in the order of registration, and the position of each under its name. -/
structure Index where
  types : TypeCatalog
  prototypes : List Node
  positions : List (String × Nat)

namespace Index

open NodeCatalog

def empty (types : TypeCatalog) : Index := ⟨types, [], []⟩

def register (n : Node) : EStateM Error Index Unit := do
  let x ← get
  let name ← MonadExcept.ofExcept (n.name x.types)
  if (x.positions.lookup name).isSome then throw (.duplicatePrototype name)
  modify fun x => { x with positions := Table.put name x.prototypes.length x.positions }
  modify fun x => { x with prototypes := x.prototypes ++ [n] }

/-- Registers the call under every name that has a body. -/
def registerCalls (r : Registry) : EStateM Error Index Unit :=
  forM r.names fun name =>
    match r.prototype? name with
    | some n => register n
    | none => return ()

def standard (arguments locals : List Ty) : EStateM Error Index Unit :=
  forM (NodeCatalog.standardNodes arguments locals) register

def get? (x : Index) (name : String) : Option Node :=
  (x.positions.lookup (trimmed name)).bind fun i => x.prototypes[i]?

/-- What is left by a request, and the error that ended it. -/
def left : EStateM.Result Error Index Unit → Index × Option Error
  | .ok _ x => (x, none)
  | .error e x => (x, some e)

/-- Prototypes stand where they stand in the catalog, and the positions are those of the names. -/
structure InStep (x : Index) (c : NodeCatalog) : Prop where
  types : x.types = c.types
  prototypes : x.prototypes = c.nodes
  positions : ∀ {name i}, x.positions.lookup name = some i ↔ c.names[i]? = some name

variable {types : TypeCatalog} {x x' : Index} {c c' : NodeCatalog} {n : Node} {name : String}

theorem inStep_empty (types : TypeCatalog) : InStep (empty types) (.empty types) :=
  ⟨rfl, rfl, by simp [empty, NodeCatalog.empty, NodeCatalog.names]⟩

theorem InStep.isSome_iff (h : InStep x c) : (x.positions.lookup name).isSome ↔ name ∈ c.names := by
  rw [Option.isSome_iff_exists, List.mem_iff_getElem?]
  exact exists_congr fun i => h.positions

theorem InStep.append (h : InStep x c) (hnew : name ∉ c.names) :
    InStep ⟨x.types, x.prototypes ++ [n], Table.put name x.prototypes.length x.positions⟩
      { c with prototypes := c.prototypes ++ [(name, n)] } := by
  have hlength : x.prototypes.length = c.names.length := by
    rw [h.prototypes, NodeCatalog.nodes, NodeCatalog.names, List.length_map, List.length_map]
  refine ⟨h.types, ?_, fun {other i} => ?_⟩
  · rw [h.prototypes, NodeCatalog.nodes_append]
  · rw [Table.lookup_put, NodeCatalog.names_append, hlength, List.getElem?_append]
    -- the new name is at no old position, since none of the old names is it
    split
    · rename_i hother
      subst hother
      by_cases hi : i < c.names.length
      · have hother : c.names[i]? ≠ some other := fun hi => hnew (List.mem_of_getElem? hi)
        rw [if_pos hi, Option.some.injEq]
        exact ⟨fun he => absurd hi (by omega), fun he => absurd he hother⟩
      · rw [if_neg hi, List.getElem?_singleton]
        simp
        omega
    · rename_i hother
      rw [h.positions]
      by_cases hi : i < c.names.length
      · rw [if_pos hi]
      · rw [if_neg hi, List.getElem?_eq_none (by omega), List.getElem?_singleton]
        simp [Ne.symm hother]

/-- A prototype is registered in both, or refused by both and neither has changed. -/
theorem InStep.performs_register (h : InStep x c) (n : Node) : Performs InStep (register n) x (c.register n) := by
  apply Performs.get
  unfold NodeCatalog.register
  rw [h.types]
  apply Performs.check
  intro name _
  apply Performs.guard h.isSome_iff
  intro hnew
  exact ⟨_, rfl, h.append hnew⟩

/-- What comes of registering a prototype in a catalog and its index: it is refused if it has no name, or one that is
taken, and the index is as it was; else it comes last. -/
inductive Enters (c : NodeCatalog) (x : Index) (n : Node) :
    Except Error NodeCatalog → EStateM.Result Error Index Unit → Prop
  | unnamed {e : Error} (h : n.name c.types = .error e) : Enters c x n (.error e) (.error e x)
  | taken {name : String} (h : n.name c.types = .ok name) (ht : name ∈ c.names) :
      Enters c x n (.error (.duplicatePrototype name)) (.error (.duplicatePrototype name) x)
  | last {name : String} {c' : NodeCatalog} {x' : Index} (h : n.name c.types = .ok name) (hn : name ∉ c.names)
      (nodes : c'.nodes = c.nodes ++ [n]) (names : c'.names = c.names ++ [name]) (inStep : InStep x' c') :
      Enters c x n (.ok c') (.ok () x')

theorem InStep.enters (h : InStep x c) (n : Node) : Enters c x n (c.register n) ((register n).run x) := by
  have hstep := h.performs_register n
  cases hn : n.name c.types with
  | error e =>
    have hr : c.register n = .error e := by
      unfold NodeCatalog.register
      rw [hn]
      rfl
    rw [hr] at hstep ⊢
    rw [hstep]
    exact .unnamed hn
  | ok name =>
    by_cases ht : name ∈ c.names
    · have hr := NodeCatalog.register_taken hn ht
      rw [hr] at hstep ⊢
      rw [hstep]
      exact .taken hn ht
    · have hr := NodeCatalog.register_ok.2 ⟨name, hn, ht, rfl⟩
      rw [hr] at hstep ⊢
      obtain ⟨x', hx, h'⟩ := hstep
      rw [hx]
      exact .last hn ht (c.nodes_append name n) (c.names_append name n) h'

theorem InStep.registerAll (h : InStep x c) (ns : List Node) :
    InStep (left ((forM ns register).run x)).1 (c.registerAll ns).1 ∧
      (left ((forM ns register).run x)).2 = (c.registerAll ns).2 := by
  induction ns generalizing x c with
  | nil => exact ⟨h, rfl⟩
  | cons n ns ih =>
    have hstep := h.performs_register n
    rw [List.forM_cons]
    unfold NodeCatalog.registerAll
    cases hr : c.register n with
    | error e =>
      rw [hr] at hstep
      rw [run_seq_error hstep]
      exact ⟨h, rfl⟩
    | ok c' =>
      rw [hr] at hstep
      obtain ⟨x', hx, h'⟩ := hstep
      rw [run_seq_ok hx]
      exact ih h'

theorem registerCalls_eq (r : Registry) : registerCalls r = forM r.calls register := by
  unfold registerCalls Registry.calls
  induction r.names with
  | nil => rfl
  | cons name names ih =>
    rw [List.forM_cons, ih]
    cases hp : r.prototype? name with
    | none => rw [List.filterMap_cons_none hp]; rfl
    | some n => rw [List.filterMap_cons_some hp, List.forM_cons]

theorem InStep.get? (h : InStep x c) (hc : c.Named) (name : String) : x.get? name = c.get? name := by
  have hfound : ∀ p, x.get? name = some p ↔ c.get? name = some p := by
    intro p
    rw [Index.get?, NodeCatalog.get?, Table.lookup_eq_some hc.nodup, Option.bind_eq_some_iff, List.mem_iff_getElem?]
    refine exists_congr fun i => ?_
    rw [h.positions, h.prototypes, NodeCatalog.names, NodeCatalog.nodes, List.getElem?_map, List.getElem?_map]
    cases c.prototypes[i]? with
    | none => simp
    | some e => simp [Prod.ext_iff]
  exact Option.ext hfound

def after (x : Index) : Act → Index
  | .register n => (left ((register n).run x)).1
  | .registerCalls r _ => (left ((registerCalls r).run x)).1

/-- A catalog as it is opened, with its index. -/
inductive Opened (types : TypeCatalog) : NodeCatalog → Index → Prop
  | empty : Opened types (.empty types) (empty types)
  | standard {arguments locals : List Ty} {c : NodeCatalog}
      (hc : NodeCatalog.standard types arguments locals = .ok c) :
      Opened types c (left ((standard arguments locals).run (empty types))).1

/-- In step with a catalog of these types where each prototype bears its own name and no other. -/
structure Keeps (types : TypeCatalog) (x : Index) (c : NodeCatalog) : Prop where
  inStep : InStep x c
  named : c.Named
  types : c.types = types

theorem Opened.keeps (h : Opened types c x) : Keeps types x c := by
  cases h with
  | empty => exact ⟨inStep_empty types, named_empty types, rfl⟩
  | @standard arguments locals _ hc =>
    have hsteps := (inStep_empty types).registerAll (standardNodes arguments locals)
    rw [standard_iff.1 hc] at hsteps
    obtain ⟨htypes, hnamed, -⟩ := standard_ok hc
    exact ⟨hsteps.1, hnamed, htypes⟩

theorem Keeps.after (h : Keeps types x c) (a : Act) : Keeps types (x.after a) (c.after a) := by
  cases a with
  | register n =>
    have hstep := h.inStep.performs_register n
    unfold Index.after NodeCatalog.after
    dsimp only
    cases hr : c.register n with
    | error e =>
      rw [hr] at hstep
      rw [hstep]
      exact h
    | ok c' =>
      rw [hr] at hstep
      obtain ⟨x', hx, h'⟩ := hstep
      rw [hx]
      obtain ⟨_, -, -, rfl⟩ := register_ok.1 hr
      exact ⟨h', h.named.register hr, h.types⟩
  | registerCalls r built =>
    unfold Index.after NodeCatalog.after
    dsimp only
    rw [registerCalls_eq]
    refine ⟨(h.inStep.registerAll r.calls).1, h.named.registerAll, ?_⟩
    rw [types_registerAll, h.types]

theorem Keeps.run (h : Keeps types x c) (acts : List Act) :
    Keeps types (acts.foldl Index.after x) (acts.foldl NodeCatalog.after c) := by
  induction acts generalizing x c with
  | nil => exact h
  | cons a acts ih => exact ih (h.after a)

/-- However a catalog was opened, and whatever was requested of it since, its index is in step: prototypes have names
that differ, the index has the position of each, and a text leads to the prototype whose name it is, blanks at its ends
aside. A prototype that is refused changes neither. Calls are appended in the ascending order of the names that have
bodies, up to the first one that is taken. -/
theorem index_in_step {c₀ : NodeCatalog} {x₀ : Index} (start : Opened types c₀ x₀) (acts : List Act) :
    let c := acts.foldl NodeCatalog.after c₀
    let x := acts.foldl Index.after x₀
    InStep x c ∧ c.nodes.mapM (Node.name types) = .ok c.names ∧ c.names.Nodup ∧
    (∀ s n, x.get? s = c.get? s ∧ (c.get? s = some n ↔ n ∈ c.nodes ∧ n.name types = .ok (trimmed s))) ∧
    (∀ n, Enters c x n (c.register n) ((register n).run x)) ∧
    ∀ r : Registry, r.Built → r.names.Pairwise (· < ·) ∧ (∀ name, name ∈ r.names ↔ (r.body? name).isSome) ∧
      ∃ added rest, r.names = added ++ rest ∧ c.Appends r.prototype? added rest (c.registerAll r.calls) ∧
        InStep (left ((registerCalls r).run x)).1 (c.registerAll r.calls).1 ∧
        (left ((registerCalls r).run x)).2 = (c.registerAll r.calls).2 := by
  intro c x
  obtain ⟨hstep, hnamed, rfl⟩ := start.keeps.run acts
  refine ⟨hstep, hnamed.mapM_name, hnamed.nodup, fun s n => ⟨hstep.get? hnamed s, hnamed.get?_iff⟩, hstep.enters,
    fun r hr => ?_⟩
  have hkeyed := hr.keyed
  have hnodup : r.names.Nodup := hkeyed.names_ascend.imp ne_of_lt
  have hcalls : ∀ name ∈ r.names, ∃ n, r.prototype? name = some n ∧ n.name c.types = .ok name :=
    fun _ hn => hkeyed.prototype? c.types hn
  obtain ⟨added, rest, hsplit, hadds⟩ := registerAll_appends hnodup hcalls
  refine ⟨hkeyed.names_ascend, fun name => hkeyed.mem_names, added, rest, hsplit, hadds, ?_⟩
  rw [registerCalls_eq]
  exact hstep.registerAll r.calls

section Sample

def one (name : String) : Tree := .planted ⟨some name, .int, [], []⟩ (.node (.const (.int 1)) nofun)

def sample : Registry :=
  ["Third", "Add", "Half"].foldl (fun r name => r.stored ⟨name, .int, []⟩ (some (one name)))
    (Registry.empty.stored ⟨"Fourth", .int, []⟩ none)

theorem built_one {r : Registry} {name : String} (h : r.Built) (hn : r.entry? name = none) :
    (r.stored ⟨name, .int, []⟩ (some (one name))).Built :=
  h.register (Registry.register_iff.2 ⟨rfl, hn, rfl⟩)

theorem built_sample : sample.Built := by
  have hreserved : (Registry.empty.stored ⟨"Fourth", .int, []⟩ none).Built :=
    Registry.Built.empty.reserve (Registry.reserve_ok.2 ⟨rfl, rfl⟩)
  exact built_one (built_one (built_one hreserved (by decide)) (by decide)) (by decide)

def sampleActs : List Act :=
  [.register (.const (.int 0)), .register (.call ⟨"Half", .bool, []⟩), .register (.const (.int 0))]

theorem index_in_step_sample :
    Opened .standard (.empty .standard) (empty .standard) ∧ sample.Built ∧
    (sampleActs.foldl Index.after (empty .standard)).get? " Half\n" = some (.call ⟨"Half", .bool, []⟩) ∧
    (left ((registerCalls sample).run (sampleActs.foldl Index.after (empty .standard)))).1.prototypes =
      [.const (.int 0), .call ⟨"Half", .bool, []⟩, .call ⟨"Add", .int, []⟩] ∧
    (left ((registerCalls sample).run (sampleActs.foldl Index.after (empty .standard)))).2 =
      some (.duplicatePrototype "Half") := by
  have hopened : Opened .standard (.empty .standard) (empty .standard) := .empty
  obtain ⟨-, -, -, hget, -, hcalls⟩ := index_in_step hopened sampleActs
  obtain ⟨-, -, _, _, -, -, hstep, herror⟩ := hcalls sample built_sample
  refine ⟨hopened, built_sample, ?_, ?_, ?_⟩
  · rw [(hget " Half\n" (.call ⟨"Half", .bool, []⟩)).1]
    decide +kernel
  · rw [hstep.prototypes]
    decide +kernel
  · rw [herror]
    decide +kernel

end Sample

end Index
end Grove
