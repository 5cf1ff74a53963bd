import Grove.Proofs.Planting
import Grove.Proofs.Soundness

/-! Type safety. Where every return stands in a tree of its own type, no base is stray: as long as its frame
goes on, a node yields the base of its type, through a handle of its qualifier if it has one, and no node is
ever handed what it cannot take. -/

namespace Grove

theorem evaluation_typed {w : World} {t : Tree} (ht : t.WellFormed [] w.registry) (hr : w.registry.WellFormed [])
    (hd : t.signature.returns.base ≠ .any) {xs : List Variable} {s : Store} (hs : s.Supports xs) :
    (∀ n y, Event.yielded n y ∈ (t.evaluate w xs s).2.journal → n.returns.base ≠ .any →
      y.base? = some n.returns.base ∧ (n.returns.isQualified = true → y.qualifier? = some n.returns.qualifier)) ∧
        Event.mismatched ∉ (t.evaluate w xs s).2.journal := by
  obtain ⟨o, cs, -, -, hrun⟩ := ht.evaluate hr hd hs
  refine ⟨fun n y h => ?_, fun h => ?_⟩
  · exact Yield.conforms_nil.1 (hrun.journal _ h)
  · exact hrun.journal _ h rfl

/-! A subroutine that doubles its argument in place and returns it, and a tree that calls it. -/

namespace Doubling

def callee : Callee := ⟨"Double", .int, [Ty.int.leftHand]⟩

def body : Term :=
  .ofList (.returnValue .int) [.ofList (.substitute .int) [
    .ofList (.argument Ty.int.leftHand 0) [] rfl,
    .ofList (.arithmetic .add .int) [.ofList (.argument .int 0) [] rfl, .ofList (.argument .int 0) [] rfl] rfl] rfl] rfl

def caller : Term :=
  .ofList (.progn .int 2) [
    .ofList (.call callee) [.ofList (.argument Ty.int.leftHand 0) [] rfl] rfl,
    .ofList (.argument .int 0) [] rfl] rfl

def signature : Signature := ⟨some "Double", .int, [Ty.int.leftHand], []⟩

def registry : Registry := ⟨[("Double", ⟨callee, some (.planted signature body)⟩)]⟩

def world : World := ⟨⟨100, 10⟩, registry⟩

/-- What a node must be to stand in a tree that returns an integer, with this registry. -/
def sitsHere (n : Node) : Bool :=
  n.Operable && match n with
    | .returnValue ty => ty = .int
    | .call c => c = callee
    | _ => true

theorem sits_of_sitsHere {n : Node} (h : sitsHere n = true) : n.Sits [] registry .int := by
  obtain ⟨ho, h⟩ := Bool.and_eq_true_iff.1 h
  refine ⟨of_decide_eq_true ho, ?_, ?_⟩
  · rintro ty rfl
    exact .inl (by rw [of_decide_eq_true h])
  · rintro c rfl
    rw [of_decide_eq_true h]
    exact ⟨rfl, rfl, by decide, by decide⟩

theorem wellFormed_tree {sig : Signature} {e : Term} (hd : sig.returns = .int)
    (hl : ∀ ty ∈ sig.locals, ty.base ≠ .any) (ha : sig.Admits e) (hn : ∀ n ∈ e.nodes, sitsHere n = true) :
    (Tree.planted sig e).WellFormed [] registry :=
  ⟨hl, e, Tree.denotes_planted sig e, ha, fun n h => hd ▸ sits_of_sitsHere (hn n h)⟩

theorem wellFormed_registry : registry.WellFormed [] := by
  intro name e he
  obtain ⟨rfl, rfl⟩ : name = "Double" ∧ e = ⟨callee, some (.planted signature body)⟩ := by
    by_cases hname : name = "Double"
    · subst hname
      exact ⟨rfl, (Option.some.inj he).symm⟩
    · simp [registry, Registry.entry?, List.lookup_cons, beq_false_of_ne hname] at he
  refine ⟨⟨rfl, by decide, by decide⟩, ?_⟩
  rintro _ ⟨⟩
  exact ⟨rfl, wellFormed_tree rfl (by decide) ⟨by decide, by decide, by decide⟩ (by decide)⟩

def callerTree : Tree := .planted ⟨none, .int, [.int], []⟩ caller

def three : Variable × Store := Variable.new (.int 3) .empty

theorem supports_three : three.2.Supports [three.1] := Store.supports_empty.new (.int 3)

end Doubling

/-- The argument is doubled through the handle, and every node on the way yields for its type. -/
theorem evaluation_typed_doubling :
    Doubling.callerTree.WellFormed [] Doubling.world.registry ∧ Doubling.world.registry.WellFormed [] ∧
      Doubling.three.2.Supports [Doubling.three.1] ∧
      (Doubling.callerTree.evaluate Doubling.world [Doubling.three.1] Doubling.three.2).1.toOption =
        some (.returned (.int 6)) ∧
      (∀ n y, Event.yielded n y ∈
          (Doubling.callerTree.evaluate Doubling.world [Doubling.three.1] Doubling.three.2).2.journal →
        n.returns.base ≠ .any →
          y.base? = some n.returns.base ∧ (n.returns.isQualified = true → y.qualifier? = some n.returns.qualifier)) ∧
      Event.mismatched ∉
        (Doubling.callerTree.evaluate Doubling.world [Doubling.three.1] Doubling.three.2).2.journal := by
  have ht : Doubling.callerTree.WellFormed [] Doubling.world.registry :=
    Doubling.wellFormed_tree rfl (by decide) ⟨by decide, by decide, by decide⟩ (by decide)
  exact ⟨ht, Doubling.wellFormed_registry, Doubling.supports_three, by decide +kernel,
    evaluation_typed ht Doubling.wellFormed_registry (by decide) Doubling.supports_three⟩

end Grove
