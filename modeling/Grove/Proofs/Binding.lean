import Grove.Proofs.Result
import Grove.Type.Catalog

/-! Names that read back. Whatever types are bound, a name that is found is the one that its type has. The converse
holds just as long as no type is given the name of another: that one keeps a name under which it is not found, and
when it is bound anew, its former name is forgotten, although it is the name of another type by then. -/

namespace Grove
namespace TypeCatalog

def bindAll (c : TypeCatalog) (bs : List (Ty × String)) : TypeCatalog := bs.foldl (fun c b => c.bind b.1 b.2) c

/-- Every name that is found is that of the type found. -/
def Consistent (c : TypeCatalog) : Prop := ∀ t n, trimmed n = n → c.lookup n = .ok t → c.name t = .ok n

/-- A name is found just when a type has it, and then that type is found. -/
def OneToOne (c : TypeCatalog) : Prop := ∀ t n, trimmed n = n → (c.lookup n = .ok t ↔ c.name t = .ok n)

/-- No type is given a name that another one has at the time. -/
def Undisputed : TypeCatalog → List (Ty × String) → Prop
  | _, [] => True
  | c, (ty, name) :: bs => (∀ t, c.name t = .ok name → t = ty) ∧ Undisputed (c.bind ty name) bs

variable {c : TypeCatalog} {t ty : Ty} {n name : String} {bs : List (Ty × String)}

section Bind

theorem name_ok : c.name t = .ok n ↔ c.names.lookup t = some n := by
  simp [TypeCatalog.name, Result.elim_ok]

theorem lookup_ok (hn : trimmed n = n) : c.lookup n = .ok t ↔ c.byName.lookup n = some t := by
  simp [TypeCatalog.lookup, hn, Result.elim_ok]

theorem name_bind : (c.bind ty name).name t = .ok n ↔ if t = ty then n = name else c.name t = .ok n := by
  rw [name_ok, bind, Table.lookup_put]
  split
  · simp [eq_comm]
  · exact name_ok.symm

theorem lookup_released : (c.released ty).lookup n = some t ↔ c.name ty ≠ .ok n ∧ c.byName.lookup n = some t := by
  unfold released
  rw [ne_eq, name_ok]
  cases hformer : c.names.lookup ty with
  | none => simp
  | some former => simp [Table.lookup_drop, eq_comm]

theorem lookup_bind (hn : trimmed n = n) : (c.bind ty name).lookup n = .ok t ↔
    (n = name ∧ t = ty) ∨ (n ≠ name ∧ c.name ty ≠ .ok n ∧ c.lookup n = .ok t) := by
  rw [lookup_ok hn, bind, Table.lookup_put]
  split
  · rename_i heq
    simp [heq, eq_comm]
  · rename_i hne
    rw [lookup_released, lookup_ok hn]
    simp [hne]

end Bind

theorem Consistent.bind (h : c.Consistent) (ty : Ty) (name : String) : (c.bind ty name).Consistent := by
  intro t n hn hfound
  rw [name_bind]
  rcases (lookup_bind hn).1 hfound with ⟨rfl, rfl⟩ | ⟨-, hformer, hfound⟩
  · simp
  · have ht := h t n hn hfound
    split
    · rename_i heq
      exact absurd (heq ▸ ht) hformer
    · exact ht

theorem Consistent.bindAll (h : c.Consistent) (bs : List (Ty × String)) : (c.bindAll bs).Consistent := by
  induction bs generalizing c with
  | nil => exact h
  | cons b bs ih => exact ih (h.bind b.1 b.2)

theorem OneToOne.consistent (h : c.OneToOne) : c.Consistent := fun t n hn => (h t n hn).1

theorem OneToOne.unique (h : c.OneToOne) (hn : trimmed n = n) (ht : c.name t = .ok n) (hty : c.name ty = .ok n) :
    t = ty := by
  have hfound := (h t n hn).2 ht
  rw [(h ty n hn).2 hty] at hfound
  exact (Except.ok.inj hfound).symm

theorem OneToOne.bind (h : c.OneToOne) (hfree : ∀ t, c.name t = .ok name → t = ty) : (c.bind ty name).OneToOne := by
  intro t n hn
  refine ⟨h.consistent.bind ty name t n hn, fun hnamed => (lookup_bind hn).2 ?_⟩
  rw [name_bind] at hnamed
  split at hnamed
  · rename_i heq
    exact .inl ⟨hnamed, heq⟩
  · rename_i hne
    refine .inr ⟨fun heq => hne (hfree t (heq ▸ hnamed)), fun hformer => ?_, (h t n hn).2 hnamed⟩
    exact hne (h.unique hn hnamed hformer)

theorem OneToOne.sole_of_bind (h : (c.bind ty name).OneToOne) (hname : trimmed name = name) (ht : c.name t = .ok name) :
    t = ty := by
  have hnamed : (c.bind ty name).name t = .ok name := by
    rw [name_bind]
    split
    · rfl
    · exact ht
  exact h.unique hname hnamed (by rw [name_bind, if_pos rfl])

/-- A bind keeps names and types one to one just when no other type has the name. -/
theorem OneToOne.bind_iff (h : c.OneToOne) (hname : trimmed name = name) :
    (c.bind ty name).OneToOne ↔ ∀ t, c.name t = .ok name → t = ty :=
  ⟨fun hafter _ ht => hafter.sole_of_bind hname ht, h.bind⟩

theorem OneToOne.free (h : c.OneToOne) (hname : trimmed name = name) (hl : c.byName.lookup name = none) :
    c.name t ≠ .ok name := by
  intro ht
  have hfound := (lookup_ok hname).1 ((h t name hname).2 ht)
  rw [hl] at hfound
  cases hfound

theorem OneToOne.bindAll_iff (h : c.OneToOne) (hb : ∀ b ∈ bs, trimmed b.2 = b.2) :
    (∀ front, front <+: bs → (c.bindAll front).OneToOne) ↔ c.Undisputed bs := by
  induction bs generalizing c with
  | nil =>
    refine iff_of_true (fun front hfront => ?_) trivial
    rw [List.prefix_nil.1 hfront]
    exact h
  | cons b bs ih =>
    obtain ⟨ty, name⟩ := b
    obtain ⟨hname, hb⟩ := List.forall_mem_cons.1 hb
    rw [Undisputed, ← h.bind_iff hname]
    constructor
    · intro hall
      have hfirst : (c.bind ty name).OneToOne := hall [(ty, name)] ⟨bs, rfl⟩
      refine ⟨hfirst, (ih hfirst hb).1 fun front hfront => ?_⟩
      exact hall ((ty, name) :: front) (List.prefix_cons_inj _ |>.2 hfront)
    · rintro ⟨hfirst, hrest⟩ front hfront
      rcases List.prefix_cons_iff.1 hfront with rfl | ⟨front, rfl, hfront⟩
      · exact h
      · exact (ih hfirst hb).2 hrest front (List.prefix_cons_inj _ |>.1 hfront)

section Standard

theorem oneToOne_empty : empty.OneToOne := fun t n hn => by
  rw [lookup_ok hn, name_ok]
  exact ⟨nofun, nofun⟩

theorem undisputed_of_nodup (hb : (bs.map (·.2)).Nodup) (hc : ∀ t, ∀ b ∈ bs, c.name t ≠ .ok b.2) : c.Undisputed bs := by
  induction bs generalizing c with
  | nil => trivial
  | cons b bs ih =>
    obtain ⟨ty, name⟩ := b
    obtain ⟨hname, hb⟩ := List.nodup_cons.1 hb
    refine ⟨fun t ht => absurd ht (hc t _ List.mem_cons_self), ih hb fun t b hmem ht => ?_⟩
    rw [name_bind] at ht
    split at ht
    · exact hname (List.mem_map.2 ⟨b, hmem, ht⟩)
    · exact hc t b (List.mem_cons_of_mem _ hmem) ht

theorem standard_eq : standard = empty.bindAll (standardTypes.map fun ty => (ty, ty.name)) := by
  rw [standard, bindAll, List.foldl_map]

theorem oneToOne_standard : standard.OneToOne := by
  have hdistinct : ((standardTypes.map fun ty => (ty, ty.name)).map (·.2)).Nodup := by decide +kernel
  have htrimmed : ∀ b ∈ standardTypes.map fun ty => (ty, ty.name), trimmed b.2 = b.2 := by decide +kernel
  rw [standard_eq]
  apply (oneToOne_empty.bindAll_iff htrimmed).2
  · exact undisputed_of_nodup hdistinct fun _ _ _ => nofun
  · exact List.prefix_refl _

end Standard

/-- Binds that begin with the empty or the standard catalog leave names that lead to the types that have them. After
each of them all names are found, one to one, just when none of them gives a type the name of another. The name bound
last is always found, and the one that it replaces is not. -/
theorem names_read_back (hc : c = .empty ∨ c = .standard) (hb : ∀ b ∈ bs, trimmed b.2 = b.2) :
    (c.bindAll bs).Consistent ∧
    ((∀ front, front <+: bs → (c.bindAll front).OneToOne) ↔ c.Undisputed bs) ∧
    ∀ ty name, trimmed name = name →
      ((c.bindAll bs).bind ty name).lookup name = .ok ty ∧ ((c.bindAll bs).bind ty name).name ty = .ok name ∧
      ∀ former t, trimmed former = former → former ≠ name → (c.bindAll bs).name ty = .ok former →
        ((c.bindAll bs).bind ty name).lookup former ≠ .ok t := by
  have hfirst : c.OneToOne := by
    rcases hc with rfl | rfl
    · exact oneToOne_empty
    · exact oneToOne_standard
  refine ⟨hfirst.consistent.bindAll bs, hfirst.bindAll_iff hb, fun ty name hname => ⟨?_, ?_, ?_⟩⟩
  · exact (lookup_bind hname).2 (.inl ⟨rfl, rfl⟩)
  · rw [name_bind, if_pos rfl]
  · intro former t hformer hne hname hfound
    rcases (lookup_bind hformer).1 hfound with ⟨heq, -⟩ | ⟨-, hreplaced, -⟩
    · exact hne heq
    · exact hreplaced hname

/-- A name that is free again may go to another type. -/
def passedOn : List (Ty × String) := [(.int, "i32"), (.bool, "int")]

theorem names_read_back_passedOn : (∀ b ∈ passedOn, trimmed b.2 = b.2) ∧ standard.Undisputed passedOn ∧
    (standard.bindAll passedOn).OneToOne ∧ (standard.bindAll passedOn).lookup "int" = .ok .bool := by
  have hb : ∀ b ∈ passedOn, trimmed b.2 = b.2 := by decide +kernel
  have hint : trimmed "int" = "int" := by decide +kernel
  obtain ⟨-, hiff, -⟩ := names_read_back (.inr rfl) hb
  have hi32 : ∀ t, standard.name t ≠ .ok "i32" :=
    fun _ => oneToOne_standard.free (by decide +kernel) (by decide +kernel)
  have hrenamed : (standard.bind .int "i32").OneToOne :=
    (oneToOne_standard.bind_iff (by decide +kernel)).2 fun t ht => absurd ht (hi32 t)
  have hfree : ∀ t, (standard.bind .int "i32").name t ≠ .ok "int" := fun _ => hrenamed.free hint (by decide +kernel)
  have hundisputed : standard.Undisputed passedOn :=
    ⟨fun t ht => absurd ht (hi32 t), fun t ht => absurd ht (hfree t), trivial⟩
  exact ⟨hb, hundisputed, hiff.2 hundisputed passedOn (List.prefix_refl _), (lookup_bind hint).2 (.inl ⟨rfl, rfl⟩)⟩

/-- Where a type is given the name of another one, its name is lost when that one is bound anew. -/
theorem taken_name_lost : let c := standard.bindAll [(.bool, "int"), (.int, "i32")]
    c.name .bool = .ok "int" ∧ c.lookup "int" = .error (.unknownType "int") ∧ ¬ c.OneToOne := by
  intro c
  have hname : c.name .bool = .ok "int" := name_ok.2 (by decide +kernel)
  have hnone : c.byName.lookup (trimmed "int") = none := by decide +kernel
  refine ⟨hname, by rw [TypeCatalog.lookup, hnone]; rfl, fun hone => ?_⟩
  exact hone.free (by decide +kernel) (by decide +kernel) hname

end TypeCatalog
end Grove
