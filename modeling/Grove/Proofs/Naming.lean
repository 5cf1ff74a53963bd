import Grove.Node.Name
import Grove.Proofs.Result

/-! Names of nodes. A node without a property takes no name but its own; any other takes the names of its
kind and type, each with the property that it gives. -/

namespace Grove.Node

variable {types : TypeCatalog} {name : String} {n n' : Node}

theorem rename_fixed (h : n.property? = none) :
    n.rename types name = .ok n' ↔ n.name types = .ok (trimmed name) ∧ n' = n := by
  unfold rename
  rw [h]
  constructor
  · intro hr
    obtain ⟨own, ho, hr⟩ := Result.bind_ok.1 hr
    split at hr
    · rename_i he
      cases hr
      exact ⟨he ▸ ho, rfl⟩
    · cases hr
  · rintro ⟨hn, rfl⟩
    exact Result.bind_ok.2 ⟨_, hn, by simp [pure, Except.pure]⟩

/-- The parts of a name that fit a node of which a property is read. -/
structure Takes (n : Node) (types : TypeCatalog) (name : String) (datum : List Char) (parts : NameParts) : Prop where
  parse : NameParts.parse name = .ok parts
  kind : parts.kind = n.kindName.toList
  type : types.lookup (String.ofList (parts.first.getD [])) = .ok n.returns
  datum : parts.second = some datum

theorem rename_property {q : Property} (h : n.property? = some q) : n.rename types name = .ok n' ↔
    ∃ parts datum p, n.Takes types name datum parts ∧ n.readProperty datum = .ok p ∧ n.setProperty p = .ok n' := by
  unfold rename
  rw [h]
  constructor
  · intro hr
    obtain ⟨parts, hp, hr⟩ := Result.bind_ok.1 hr
    by_cases hk : parts.kind = n.kindName.toList
    · simp only [hk, ne_eq, not_true, if_false] at hr
      obtain ⟨ty, ht, hr⟩ := Result.bind_ok.1 hr
      by_cases hty : ty = n.returns
      · simp only [hty, not_true, if_false] at hr
        cases hs : parts.second with
        | none => rw [hs] at hr; cases hr
        | some datum =>
          rw [hs] at hr
          obtain ⟨p, hread, hset⟩ := Result.bind_ok.1 hr
          exact ⟨parts, datum, p, ⟨hp, hk, hty ▸ ht, hs⟩, Result.mapError_ok.1 hread, hset⟩
      · simp only [hty, not_false_eq_true, if_true] at hr
        cases hr
    · simp only [hk, ne_eq, not_false_eq_true, if_true] at hr
      cases hr
  · rintro ⟨parts, datum, p, ht, hread, hset⟩
    refine Result.bind_ok.2 ⟨parts, ht.parse, ?_⟩
    simp only [ht.kind, ne_eq, not_true, if_false]
    refine Result.bind_ok.2 ⟨_, ht.type, ?_⟩
    simp only [not_true, if_false, ht.datum]
    exact Result.bind_ok.2 ⟨p, Result.mapError_ok.2 hread, hset⟩

theorem property?_of_set {p : Property} (h : n.setProperty p = .ok n') : n'.property? = some p := by
  unfold setProperty at h
  split at h
  · split at h <;> cases h
    rfl
  · cases h
    rfl
  · cases h
    rfl
  · split at h <;> cases h
    rfl
  · cases h

/-- The nodes that have a name whether or not a catalog holds them. -/
def Familial : Node → Prop
  | const _ => True
  | argument .. => True
  | localVariable .. => True
  | progn .. => True
  | nop _ => True
  | _ => False

theorem kind_of_familial (h : n.Familial) : n.kind ≠ .subroutine := by
  cases n <;> first | exact h.elim | nofun

theorem kind_of_not_call (h : ∀ c, n ≠ .call c) : n.kind ≠ .subroutine := by
  cases n with
  | call c => exact absurd rfl (h c)
  | _ => nofun

end Grove.Node
