import Grove.Proofs.Result
import Grove.Reader

/-! What a text is refused for. A name is refused for its spelling or its types, a node for its slot or its variable,
and a text for where it ends. So nothing that goes wrong in a text is put as an error of a declaration or of the name
of a subroutine. -/

namespace Grove

/-- What can be wrong with a text. -/
def Error.OfText : Error → Prop
  | unknownType _ | unnamedType _ | unknownNode _ | malformedName .. => True
  | childTypeMismatch .. | variableOutOfRange .. | variableTypeMismatch .. => True
  | unexpectedEnd _ | emptyTree | trailingNode _ => True
  | _ => False

/-- What is refused is refused for something that can be wrong with a text. -/
def FaultsOfText {α : Type} (x : Except Error α) : Prop := ∀ e, x = .error e → e.OfText

namespace FaultsOfText

variable {α β ε : Type} {x : Except Error α} {v : Vocabulary} {types : TypeCatalog} {catalog : NodeCatalog}
  {n : Node} {s : Signature}

theorem ok (a : α) : FaultsOfText (.ok a) := nofun

theorem error {e : Error} (h : e.OfText) : FaultsOfText (.error e : Except Error α) := by
  rintro _ ⟨⟩
  exact h

theorem bind {f : α → Except Error β} (hx : FaultsOfText x) (hf : ∀ a, FaultsOfText (f a)) :
    FaultsOfText (x >>= f) := by
  intro e he
  rcases Result.bind_error.1 he with he | ⟨a, -, he⟩
  · exact hx e he
  · exact hf a e he

theorem elim {o : Option β} {f : β → Except Error α} {e : Error} (he : e.OfText) (hf : ∀ b, FaultsOfText (f b)) :
    FaultsOfText (o.elim (.error e) f) := by
  cases o with
  | none => exact error he
  | some b => exact hf b

theorem malformed {x : Except ε α} (name : String) (flaw : ε → Flaw) :
    FaultsOfText (x.mapError fun e => Error.malformedName name (flaw e)) := by
  cases x with
  | error e => exact error trivial
  | ok a => exact ok a

theorem lookup (types : TypeCatalog) (name : String) : FaultsOfText (types.lookup name) := elim trivial ok

theorem typeName (types : TypeCatalog) (ty : Ty) : FaultsOfText (types.name ty) := elim trivial ok

theorem parts (name : String) : FaultsOfText (NameParts.parse name) := by
  unfold NameParts.parse
  split
  · exact ok _
  · split
    · exact ok _
    · exact error trivial

theorem name (types : TypeCatalog) (n : Node) : FaultsOfText (n.name types) := by
  unfold Node.name
  split
  · exact ok _
  · exact (typeName types _).bind fun _ => (typeName types _).bind fun _ => ok _
  · refine (typeName types _).bind fun _ => ?_
    split <;> exact ok _

theorem setProperty (n : Node) (p : Property) : FaultsOfText (n.setProperty p) := by
  unfold Node.setProperty
  dsimp only
  split
  · split
    · exact ok _
    · exact error trivial
  · exact ok _
  · exact ok _
  · split
    · exact error trivial
    · exact ok _
  · exact error trivial

theorem rename (types : TypeCatalog) (n : Node) (name : String) : FaultsOfText (n.rename types name) := by
  unfold Node.rename
  dsimp only
  split
  · refine (FaultsOfText.name types n).bind fun own => ?_
    split
    · exact ok _
    · exact error trivial
  · refine (parts name).bind fun parts => ?_
    split
    · exact error trivial
    refine (lookup types _).bind fun ty => ?_
    split
    · exact error trivial
    split
    · exact error trivial
    · exact (malformed name id).bind fun p => setProperty n p

theorem constantOf (name : String) (ty : Ty) : FaultsOfText (NodeCatalog.constantOf name ty) := by
  unfold NodeCatalog.constantOf
  split
  · split
    · exact error trivial
    · exact ok _
  · exact error trivial

theorem family (catalog : NodeCatalog) (name : String) : FaultsOfText (catalog.family? name) := by
  have member : ∀ (first : List Char) (f : Ty → Node),
      FaultsOfText (do return some (f (← catalog.types.lookup (String.ofList first)))) := fun first f =>
    (lookup _ _).bind fun ty => ok (some (f ty))
  unfold NodeCatalog.family?
  refine (parts name).bind fun parts => ?_
  split
  · exact ok _
  · rename_i first _
    dsimp only
    split
    · exact (lookup _ _).bind fun ty => (constantOf name ty).bind fun n => ok (some n)
    split
    · exact member first _
    split
    · exact member first _
    split
    · exact member first _
    split
    · exact member first _
    · exact ok none

theorem instantiate (catalog : NodeCatalog) (name : String) : FaultsOfText (catalog.instantiate name) := by
  have renamed : ∀ n : Node, FaultsOfText (do return some (← n.rename catalog.types name)) := fun n =>
    (rename catalog.types n name).bind fun n => ok (some n)
  unfold NodeCatalog.instantiate
  dsimp only
  split
  · exact renamed _
  · refine (family catalog name).bind fun found => ?_
    cases found with
    | none => exact ok none
    | some n => exact renamed n

theorem node (v : Vocabulary) (name : String) : FaultsOfText (v.node name) := by
  refine (instantiate v.catalog name).bind fun found => ?_
  cases found with
  | none => exact elim trivial ok
  | some n => exact ok n

theorem checkSlot (slot child : Ty) : FaultsOfText (checkSlot slot child) := by
  unfold Grove.checkSlot
  split
  · exact ok ()
  · exact error trivial

theorem checkVariable (n : Node) (name : String) (s : Signature) : FaultsOfText (checkVariable n name s) := by
  have declared : ∀ table tys ty i, FaultsOfText (checkDeclared name table tys ty i) := by
    intro table tys ty i
    unfold checkDeclared
    split
    · exact error trivial
    split
    · exact ok ()
    · exact error trivial
  unfold Grove.checkVariable
  split
  · exact declared _ _ _ _
  · exact declared _ _ _ _
  · exact ok ()

theorem readSlots {read : List String → Except Error (Term × List String)} (hread : ∀ names, FaultsOfText (read names))
    (left : Nat) (names : List String) : FaultsOfText (readSlots n read left names) := by
  induction left generalizing names with
  | zero => exact ok _
  | succ left ih => exact (hread names).bind fun _ => (checkSlot _ _).bind fun _ => (ih _).bind fun _ => ok _

theorem readTerm (v : Vocabulary) (s : Signature) (room : Nat) (parent : String) (names : List String) :
    FaultsOfText (v.readTerm s room parent names) := by
  induction room generalizing parent names with
  | zero => exact error trivial
  | succ room ih =>
    cases names with
    | nil => exact error trivial
    | cons name names =>
      exact (node v name).bind fun n => (checkVariable n name s).bind fun _ =>
        (readSlots (ih name) n.arity names).bind fun _ => ok _

theorem readTree (v : Vocabulary) (text : String) (s : Signature) : FaultsOfText (v.readTree text s) := by
  unfold Vocabulary.readTree
  dsimp only
  split
  · exact error trivial
  · refine (readTerm v s _ "" _).bind fun p => ?_
    have built : FaultsOfText (Tree.ofTerm s p.1) := (checkSlot _ _).bind fun _ => ok _
    refine built.bind fun t => ?_
    split
    · exact ok t
    · exact error trivial

end FaultsOfText
end Grove
