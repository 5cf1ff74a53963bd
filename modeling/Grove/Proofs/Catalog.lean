import Grove.Catalog
import Grove.Proofs.Naming

/-! Catalogs of prototypes. Every prototype stands under its own name and no name is taken twice, so a
prototype is found under its name. A node of a catalog whose prototypes are of the standard kinds is of a
standard kind too, since a family changes properties only. -/

namespace Grove

namespace NodeCatalog

/-- Prototypes stand under their names, each name once. -/
structure Named (c : NodeCatalog) : Prop where
  names : ∀ p ∈ c.prototypes, p.2.name c.types = .ok p.1
  nodup : c.names.Nodup

theorem named_empty (types : TypeCatalog) : (empty types).Named := ⟨by simp [empty], by simp [empty, names]⟩

theorem register_ok {c c' : NodeCatalog} {n : Node} : c.register n = .ok c' ↔
    ∃ name, n.name c.types = .ok name ∧ name ∉ c.names ∧ c' =
    { c with prototypes := c.prototypes ++ [(name, n)] } := by
  unfold register
  rw [Result.bind_ok]
  refine exists_congr fun name => and_congr_right fun _ => ?_
  by_cases h : name ∈ c.names
  · simp only [h, if_true, not_true, false_and, iff_false]
    rintro ⟨⟩
  · simp only [h, if_false, not_false_eq_true, true_and]
    constructor
    · rintro ⟨⟩
      rfl
    · rintro rfl
      rfl

theorem Named.register {c c' : NodeCatalog} {n : Node} (h : c.Named) (hr : c.register n = .ok c') : c'.Named := by
  obtain ⟨name, hn, hnew, rfl⟩ := register_ok.1 hr
  refine ⟨?_, ?_⟩
  · intro p hp
    rcases List.mem_append.1 hp with hp | hp
    · exact h.names p hp
    · obtain rfl := List.mem_singleton.1 hp
      exact hn
  · simp only [NodeCatalog.names, List.map_append, List.map_cons, List.map_nil]
    exact List.nodup_append.2 ⟨h.nodup, by simp, fun a ha b hb => by
      obtain rfl := List.mem_singleton.1 hb
      rintro rfl
      exact hnew ha⟩

theorem Named.registerAll {ns : List Node} {c : NodeCatalog} (h : c.Named) : (c.registerAll ns).1.Named := by
  induction ns generalizing c with
  | nil => exact h
  | cons n ns ih =>
    unfold NodeCatalog.registerAll
    cases hr : c.register n with
    | error e => exact h
    | ok c' => exact ih (h.register hr)

theorem types_registerAll (ns : List Node) (c : NodeCatalog) : (c.registerAll ns).1.types = c.types := by
  induction ns generalizing c with
  | nil => rfl
  | cons n ns ih =>
    unfold registerAll
    cases hr : c.register n with
    | error e => rfl
    | ok c' =>
      obtain ⟨name, -, -, rfl⟩ := register_ok.1 hr
      exact ih _

theorem nodes_registerAll (ns : List Node) (c : NodeCatalog) :
    ∃ ms, ms <+: ns ∧ (c.registerAll ns).1.nodes = c.nodes ++ ms ∧ ((c.registerAll ns).2 = none → ms = ns) := by
  induction ns generalizing c with
  | nil => exact ⟨[], List.prefix_refl _, by simp [registerAll], fun _ => rfl⟩
  | cons n ns ih =>
    unfold registerAll
    cases hr : c.register n with
    | error e => exact ⟨[], List.nil_prefix, by simp, by simp⟩
    | ok c' =>
      obtain ⟨name, -, -, rfl⟩ := register_ok.1 hr
      obtain ⟨ms, hp, hn, he⟩ := ih { c with prototypes := c.prototypes ++ [(name, n)] }
      refine ⟨n :: ms, List.cons_prefix_cons.2 ⟨rfl, hp⟩, ?_, fun h => by rw [he h]⟩
      simpa [nodes] using hn

/-- The catalogs that registrations lead to. -/
inductive Reached (types : TypeCatalog) : NodeCatalog → Prop
  | empty : Reached types (.empty types)
  | register {c c' : NodeCatalog} {n : Node} (h : Reached types c) (hr : c.register n = .ok c') : Reached types c'

theorem Reached.registerAll {types : TypeCatalog} {c : NodeCatalog} (h : Reached types c) (ns : List Node) :
    Reached types (c.registerAll ns).1 := by
  induction ns generalizing c with
  | nil => exact h
  | cons n ns ih =>
    unfold NodeCatalog.registerAll
    cases hr : c.register n with
    | error e => exact h
    | ok c' => exact ih (h.register hr)

theorem Reached.types {types : TypeCatalog} {c : NodeCatalog} (h : Reached types c) : c.types = types := by
  induction h with
  | empty => rfl
  | register _ hr ih =>
    obtain ⟨_, -, -, rfl⟩ := register_ok.1 hr
    exact ih

theorem Reached.named {types : TypeCatalog} {c : NodeCatalog} (h : Reached types c) : c.Named := by
  induction h with
  | empty => exact named_empty types
  | register _ hr ih => exact ih.register hr

section Standard

variable {types : TypeCatalog} {arguments locals : List Ty} {c : NodeCatalog}

theorem standard_iff : standard types arguments locals = .ok c ↔
    (empty types).registerAll (standardNodes arguments locals) = (c, none) := by
  unfold standard
  rcases (empty types).registerAll (standardNodes arguments locals) with ⟨c', _ | e⟩ <;> simp

theorem Reached.standard (h : standard types arguments locals = .ok c) : Reached types c := by
  have hreached : Reached types ((NodeCatalog.empty types).registerAll (standardNodes arguments locals)).1 :=
    Reached.empty.registerAll _
  rwa [standard_iff.1 h] at hreached

theorem standard_ok (h : standard types arguments locals = .ok c) :
    c.types = types ∧ c.Named ∧ c.nodes = standardNodes arguments locals := by
  obtain ⟨ms, -, hn, he⟩ := nodes_registerAll (standardNodes arguments locals) (empty types)
  have hreached := Reached.standard h
  rw [standard_iff.1 h] at hn he
  exact ⟨hreached.types, hreached.named, by simpa [nodes, empty, he rfl] using hn⟩

end Standard

theorem Named.get?_iff {c : NodeCatalog} (h : c.Named) {s : String} {n : Node} :
    c.get? s = some n ↔ n ∈ c.nodes ∧ n.name c.types = .ok (trimmed s) := by
  rw [NodeCatalog.get?, Table.lookup_eq_some h.nodup]
  constructor
  · intro hmem
    exact ⟨List.mem_map_of_mem hmem, h.names _ hmem⟩
  · rintro ⟨hn, hname⟩
    obtain ⟨⟨own, n⟩, hmem, rfl⟩ := List.mem_map.1 hn
    obtain rfl := Except.ok.inj ((h.names _ hmem).symm.trans hname)
    exact hmem

theorem Named.get? {c : NodeCatalog} (h : c.Named) {n : Node} (hn : n ∈ c.nodes) {name : String}
    (hname : n.name c.types = .ok name)
    (ht : trimmed name = name) : c.get? name = some n := by
  rw [h.get?_iff, ht]
  exact ⟨hn, hname⟩

/-- A name leads to a prototype, or else to a member of a family, which then takes its property from the name. -/
theorem instantiate_some {c : NodeCatalog} {name : String} {n : Node} : c.instantiate name = .ok (some n) ↔
    ∃ m,
    (c.get? name = some m ∨ c.get? name = none ∧ c.family? name = .ok (some m)) ∧ m.rename c.types name = .ok n := by
  have renamed : ∀ {m : Node}, (do return some (← m.rename c.types name) : Except Error (Option Node)) = .ok (some n) ↔
      m.rename c.types name = .ok n := by
    intro m
    cases m.rename c.types name <;> simp [bind, Except.bind, pure, Except.pure]
  unfold instantiate
  cases hg : c.get? name with
  | some m => simpa using renamed
  | none =>
    cases hf : c.family? name with
    | error e => simp [bind, Except.bind]
    | ok found =>
      cases found with
      | none => simp [bind, Except.bind, pure, Except.pure]
      | some m =>
        simp only [reduceCtorEq, Option.some.injEq, Except.ok.injEq, true_and, false_or, exists_eq_left']
        exact renamed

theorem instantiate_none {c : NodeCatalog} {name : String} (hg : c.get? name = none)
    (hf : c.family? name = .ok none) : c.instantiate name = .ok none := by
  unfold instantiate
  rw [hg, hf]
  rfl

theorem familial_of_family? {c : NodeCatalog} {name : String} {n : Node} (h : c.family? name = .ok (some n)) :
    n.Familial := by
  have arm : ∀ {x : Except Error Ty} {f : Ty → Node}, (∀ ty, (f ty).Familial) →
      (do return some (f (← x))) = Except.ok (ε := Error) (some n) → n.Familial := by
    intro x f hf h
    obtain ⟨ty, -, h⟩ := Result.bind_ok.1 h
    cases h
    exact hf ty
  unfold family? at h
  obtain ⟨parts, -, h⟩ := Result.bind_ok.1 h
  cases hf : parts.first with
  | none => rw [hf] at h; cases h
  | some first =>
    rw [hf] at h
    dsimp only at h
    split at h
    · obtain ⟨ty, -, h⟩ := Result.bind_ok.1 h
      obtain ⟨m, hm, h⟩ := Result.bind_ok.1 h
      cases h
      unfold constantOf at hm
      split at hm
      · split at hm <;> cases hm
        trivial
      · cases hm
    split at h
    · exact arm (f := (.argument · 0)) (fun _ => trivial) h
    split at h
    · exact arm (f := (.localVariable · 0)) (fun _ => trivial) h
    split at h
    · exact arm (f := (.progn · 2)) (fun _ => trivial) h
    split at h
    · exact arm (f := .nop) (fun _ => trivial) h
    · cases h

end NodeCatalog
end Grove
