import Grove.Proofs.Identity
import Grove.Proofs.Legibility
import Grove.Proofs.Requests

/-! What a name gives to a node. A node takes the property of any name that it accepts in place, and what it is refused
shows before it is changed, so it is changed as a whole or not at all. Among the members of a family the name of each
gives its property, and over the standard types a name is borne by one node only, calls aside. -/

namespace Grove.Node

/-- Puts a property in the place of the former one. -/
def assign (p : Property) : EStateM Error Node Unit := do
  let n ← get
  let flawed (f : Flaw) : EStateM Error Node Unit := throw (.malformedName n.kindName f)
  match n, p with
  | const v, .literal new => if new.base ≠ v.base then flawed (.otherLiteral new.render) else set (const new)
  | argument ty _, .index i => set (argument ty i)
  | localVariable ty _, .index i => set (localVariable ty i)
  | progn ty _, .arity k => if k < 2 then flawed .shortSequence else set (progn ty k)
  | _, p => flawed (.noSuchProperty p)

/-- Takes the property of a node from a name, in place. -/
def takeName (types : TypeCatalog) (name : String) : EStateM Error Node Unit := do
  let n ← get
  let flawed (f : Flaw) := Error.malformedName name f
  match n.property? with
  | none =>
    let own ← MonadExcept.ofExcept (n.name types)
    if own = trimmed name then return () else throw (flawed (.expectedName own))
  | some _ =>
    let parts ← MonadExcept.ofExcept (NameParts.parse name)
    if parts.kind ≠ n.kindName.toList then throw (flawed (.expectedKind n.kindName))
    let ty ← MonadExcept.ofExcept (types.lookup (String.ofList (parts.first.getD [])))
    if ty ≠ n.returns then throw (flawed (.expectedType n.returns))
    match parts.second with
    | none => throw (flawed .missingProperty)
    | some datum =>
      let p ← MonadExcept.ofExcept ((n.readProperty datum).mapError flawed)
      assign p

theorem performs_assign (n : Node) (p : Property) : Performs Eq (assign p) n (n.setProperty p) := by
  apply Performs.get
  unfold setProperty
  cases n with
  | const v =>
    cases p with
    | literal new =>
      by_cases h : new.base = v.base
      · simp only [h, ne_eq, not_true, if_false, if_true]
        exact .set rfl
      · simp only [h, ne_eq, not_false_eq_true, if_false, if_true]
        exact .throw
    | _ => exact .throw
  | argument ty i =>
    cases p with
    | index j => exact .set rfl
    | _ => exact .throw
  | localVariable ty i =>
    cases p with
    | index j => exact .set rfl
    | _ => exact .throw
  | progn ty k =>
    cases p with
    | arity k' =>
      by_cases h : k' < 2
      · simp only [h, if_true]
        exact .throw
      · simp only [h, if_false]
        exact .set rfl
    | _ => exact .throw
  | _ => exact .throw

/-- All that can be refused is found out before the property is put in place. -/
theorem performs_takeName (types : TypeCatalog) (n : Node) (name : String) :
    Performs Eq (takeName types name) n (n.rename types name) := by
  apply Performs.get
  unfold rename
  dsimp only
  cases n.property? with
  | none =>
    apply Performs.check
    intro own _
    by_cases h : own = trimmed name
    · simp only [h, if_true]
      exact .pure rfl
    · simp only [h, if_false]
      exact .throw
  | some q =>
    apply Performs.check
    intro parts _
    apply Performs.guard Iff.rfl
    intro _
    apply Performs.check
    intro ty _
    apply Performs.guard Iff.rfl
    intro _
    cases parts.second with
    | none => exact .throw
    | some datum =>
      apply Performs.check
      intro p _
      exact performs_assign n p

variable {m n n' : Node} {types : TypeCatalog} {name tyName : String}

theorem Sibling.kind_eq (h : m.Sibling n) : m.kind = n.kind := by
  cases h <;> rfl

theorem Sibling.familial (h : m.Sibling n) : n.Familial := by
  cases h <;> trivial

theorem Sibling.returns_eq (h : m.Sibling n) : m.returns = n.returns := by
  cases h with
  | const h => exact congrArg Ty.plain h
  | _ => rfl

theorem sibling_of_set {p : Property} (h : n.setProperty p = .ok n') : n.Sibling n' := by
  unfold setProperty at h
  split at h
  · split at h
    · rename_i hb
      cases h
      exact .const hb.symm
    · cases h
  · cases h
    exact .argument ..
  · cases h
    exact .localVariable ..
  · split at h <;> cases h
    exact .progn ..
  · cases h

theorem rename_keeps (h : n.rename types name = .ok n') :
    n'.kind = n.kind ∧ n'.returns = n.returns ∧ (n.property? = none → n' = n) := by
  cases hp : n.property? with
  | none =>
    obtain ⟨-, rfl⟩ := (rename_fixed hp).1 h
    exact ⟨rfl, rfl, fun _ => rfl⟩
  | some q =>
    obtain ⟨_, _, _, -, -, hset⟩ := (rename_property hp).1 h
    have hs := sibling_of_set hset
    exact ⟨hs.kind_eq.symm, hs.returns_eq.symm, nofun⟩

theorem name_of_returns (hf : n.Familial) (h : types.name n.returns = .ok tyName) :
    ∃ name, n.name types = .ok name := by
  cases n <;> first
    | exact hf.elim
    | exact ⟨_, Result.bind_ok.2 ⟨tyName, h, rfl⟩⟩

/-- Numbers fit the words of 64 bits that hold them, and sequences are of two nodes at least. -/
def Sized : Node → Prop
  | argument _ i => i < words64
  | localVariable _ i => i < words64
  | progn _ k => 2 ≤ k ∧ k < words64
  | _ => True

theorem Sized.legible (h : n.Sized) : n.Legible := by
  cases n with
  | const v => exact v.legible
  | _ => exact h

/-- Over the standard types the name of a member makes that member of any other in its family. Whatever the types and
the name are, a node that refuses it stays as it is, with nothing changed before the refusal, and one that accepts it
keeps its kind and its type, and all that it is if it has no property. -/
theorem property_of_name :
    (∀ {n m : Node} {tyName : String}, n.Sibling m → m.Sized → TypeCatalog.standard.name m.returns = .ok tyName →
      ∃ name, m.name .standard = .ok name ∧ n.rename .standard name = .ok m ∧
        (takeName .standard name).run n = .ok () m) ∧
    ∀ (types : TypeCatalog) (n : Node) (name : String),
      (∃ e, n.rename types name = .error e ∧ (takeName types name).run n = .error e n) ∨
      ∃ n', n.rename types name = .ok n' ∧ (takeName types name).run n = .ok () n' ∧
        n'.kind = n.kind ∧ n'.returns = n.returns ∧ (n.property? = none → n' = n) := by
  constructor
  · intro n m tyName hs hm ht
    obtain ⟨name, hname⟩ := name_of_returns hs.familial ht
    have hrename := hs.rename hm.legible hname
    have hruns := performs_takeName .standard n name
    rw [hrename] at hruns
    obtain ⟨n', hrun, rfl⟩ := hruns
    exact ⟨name, hname, hrename, hrun⟩
  · intro types n name
    have hruns := performs_takeName types n name
    cases hr : n.rename types name with
    | error e =>
      rw [hr] at hruns
      exact .inl ⟨e, rfl, hruns⟩
    | ok n' =>
      rw [hr] at hruns
      obtain ⟨_, hrun, rfl⟩ := hruns
      exact .inr ⟨_, rfl, hrun, rename_keeps hr⟩

theorem property_of_name_array :
    (const (.ints [3])).Sibling (const (.ints [1, -2147483648])) ∧ (const (.ints [1, -2147483648])).Sized ∧
      TypeCatalog.standard.name (.plain .ints) = .ok "array[int]" ∧
      (const (.ints [3])).rename .standard "Const<array[int],[1,-2147483648]>" =
        .ok (const (.ints [1, -2147483648])) := by
  have ht : TypeCatalog.standard.name (.plain .ints) = .ok "array[int]" := Result.toOption_some.1 (by decide +kernel)
  have hname : (const (.ints [1, -2147483648])).name .standard = .ok "Const<array[int],[1,-2147483648]>" :=
    Result.toOption_some.1 (by decide +kernel)
  have hs : (const (.ints [3])).Sibling (const (.ints [1, -2147483648])) := .const rfl
  obtain ⟨name, hn, hr, -⟩ := property_of_name.1 hs trivial ht
  obtain rfl := Except.ok.inj (hname.symm.trans hn)
  exact ⟨hs, trivial, ht, hr⟩

/-- Arrays that are read are of integers. -/
def OfInts : Node → Prop
  | elementAt b => b = .int
  | size b => b = .int
  | _ => True

theorem OfInts.told (h : n.OfInts) : n.Told := by
  cases n with
  | const v => exact v.legible
  | _ => exact h

/-- The name of a node is that of no other. -/
theorem name_identifies (hm : m.kind ≠ .subroutine) (hn : n.kind ≠ .subroutine) (im : m.OfInts) (jn : n.OfInts)
    (h : m.name .standard = .ok name) : n.name .standard = .ok name ↔ n = m := by
  constructor
  · intro h'
    exact eq_of_name hn hm jn.told im.told h' h
  · rintro rfl
    exact h

theorem name_identifies_array : (const (.ints [1, -2])).name .standard = .ok "Const<array[int],[1,-2]>" ∧
    (const (.ints [1, 2])).name .standard ≠ .ok "Const<array[int],[1,-2]>" := by
  have hname : (const (.ints [1, -2])).name .standard = .ok "Const<array[int],[1,-2]>" :=
    Result.toOption_some.1 (by decide +kernel)
  have hother : const (.ints [1, 2]) ≠ const (.ints [1, -2]) := by decide
  have hm : (const (.ints [1, -2])).kind ≠ .subroutine := by decide
  have hn : (const (.ints [1, 2])).kind ≠ .subroutine := by decide
  exact ⟨hname, fun h => hother ((name_identifies hm hn trivial trivial hname).1 h)⟩

-- Without the condition on arrays two nodes share a name.
example : (elementAt .ints).name .standard = (elementAt .int).name .standard := by
  have named : ∀ b ∈ [Base.ints, .int], ((elementAt b).name .standard).toOption = some "At<array[int]>" := by
    decide +kernel
  rw [Result.toOption_some.1 (named .ints (by decide)), Result.toOption_some.1 (named .int (by decide))]

end Grove.Node
