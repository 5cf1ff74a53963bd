import Grove.Proofs.Moves

/-! Computations that are cut short. One computation cuts another short when it does the same, or else stops
where its frame has ended, with the other one going on from there. A node whose children and calls cut those
of another short does so too: once a child has ended the frame, the node stops without doing anything more. A
loop alone goes on, after a body that broke it off or continued it. -/

namespace Grove

/-- Whether the node takes a frame back that the child in the slot left in this status. -/
def Node.absorbs : Node → (slot : Nat) → Status → Bool
  | repeatTimes _, 1, s => s = .breakCalled || s = .continueCalled
  | _, _, _ => false

namespace Exec

variable {α β : Type} {D : Run → Run → Prop} {P : Run → Prop} {B : Run → Prop}

def Alive (r : Run) : Prop := r.frame.isEvaluating = true

/-- What has been cut short stays so whatever is done after it, and the state stays of its sort. -/
structure Stays (D : Run → Run → Prop) (P : Run → Prop) (r : Run) (o : Option Violation) (r' : Run) : Prop where
  cut : ∀ e, D e r → D e r'
  kept : o = none → P r → P r'

/-- In a state of the given sort `x` does what `x'` does, and a result leaves `B`; or it stops where `D` holds of
its state and the one after `x'`. -/
structure Cuts (D : Run → Run → Prop) (P B : Run → Prop) (x x' : Exec α) : Prop where
  run : ∀ r, Alive r → P r →
    (x.runFrom r = x'.runFrom r ∧ ∀ a, (x.runFrom r).1 = .ok a → B (x.runFrom r).2) ∨
      (x.runFrom r).1 = .error .stopped ∧ D (x.runFrom r).2 (x'.runFrom r).2
  later : Moves (Stays D P) x'

/-- The same of children in a slot, which end their frame without being stopped by that. -/
structure CutsChild (D : Run → Run → Prop) (P : Run → Prop) (n : Node) (slot : Nat) (x x' : Exec Yield) : Prop where
  run : ∀ r, Alive r → P r →
    x.runFrom r = x'.runFrom r ∨
      (∃ y, (x.runFrom r).1 = .ok y) ∧ (x.runFrom r).2.frame.status ≠ .evaluating ∧
        n.absorbs slot (x.runFrom r).2.frame.status = false ∧ D (x.runFrom r).2 (x'.runFrom r).2
  later : Moves (Stays D P) x'

theorem stays_bind {x : Exec α} {f : α → Exec β} (hf : ∀ a, Moves (Stays D P) (f a)) {r e : Run}
    (he : D e (x.runFrom r).2) : D e ((x >>= f).runFrom r).2 := by
  rcases hx : x.runFrom r with ⟨h | a, r'⟩ <;> rw [hx] at he
  · rwa [runFrom_bind_error hx]
  · rw [runFrom_bind_ok hx]
    exact (hf a r').cut e he

/-- A loop stops at a status that it does not take back. -/
theorem rounds_stopped {k : Exec Yield} {ty : Ty} {r r' : Run} {z : Yield} (hk : k.runFrom r = (.ok z, r'))
    (hs : r'.frame.status ≠ .evaluating) (ha : (Node.repeatTimes ty).absorbs 1 r'.frame.status = false) (m : Nat)
    (y : Yield) : (rounds k (m + 1) y).runFrom r = (.error .stopped, r') := by
  rw [runFrom_rounds, hk]
  dsimp only
  cases hst : r'.frame.status <;> simp_all [Node.absorbs]

theorem Cuts.self {x : Exec α} (hx : Moves (Stays D P) x)
    (hs : ∀ r, Alive r → ∀ a, (x.runFrom r).1 = .ok a → B (x.runFrom r).2) : Cuts D P B x x :=
  ⟨fun r hr _ => .inl ⟨rfl, hs r hr⟩, hx⟩

theorem Cuts.last {x x' : Exec α} (h : Cuts D P Alive x x') : Cuts D P (fun _ => True) x x' :=
  ⟨fun r hr hp => (h.run r hr hp).imp_left fun h => ⟨h.1, fun _ _ => trivial⟩, h.later⟩

theorem Cuts.leap {l : Limits} (hD : Paced l (Stays D P)) {n : Node} {s : Status} (h : n.leap? = some s) :
    Cuts D P Alive (Exec.fault s : Exec α) (Exec.fault s) :=
  .self (Moves.leap hD h) fun _ _ _ h => by cases h

section Rules

variable (hD : Closed (Stays D P))
include hD

theorem stays_rounds {k : Exec Yield} (hk : Moves (Stays D P) k) (m : Nat) (y : Yield) {r e : Run}
    (he : D e (k.runFrom r).2) : D e ((rounds k (m + 1) y).runFrom r).2 := by
  rw [runFrom_rounds]
  rcases hr : k.runFrom r with ⟨h | z, r'⟩ <;> rw [hr] at he
  · exact he
  · dsimp only
    split
    · exact (Moves.rounds hD hk m z r').cut e he
    · rename_i hs
      exact (Moves.rounds hD hk m y _).cut e ((hD.resume r' (.inr hs)).cut e he)
    · rename_i hs
      exact (hD.resume r' (.inl hs)).cut e he
    · exact he

theorem Cuts.bind {x x' : Exec α} {f f' : α → Exec β} (hx : Cuts D P Alive x x')
    (hf : ∀ a, Cuts D P B (f a) (f' a)) : Cuts D P B (x >>= f) (x' >>= f') := by
  refine ⟨fun r hr hp => ?_, Moves.bind hD hx.later fun a => (hf a).later⟩
  rcases hx.run r hr hp with ⟨hsame, hok⟩ | ⟨hstop, hd⟩
  · have hkept := (hx.later r).kept
    rcases hrun : x.runFrom r with ⟨e | a, r'⟩
    · rw [runFrom_bind_error hrun, runFrom_bind_error (hsame ▸ hrun)]
      exact .inl ⟨rfl, nofun⟩
    · rw [← hsame, hrun] at hkept
      rw [runFrom_bind_ok hrun, runFrom_bind_ok (hsame ▸ hrun)]
      rw [hrun] at hok
      exact (hf a).run r' (hok a rfl) (hkept rfl hp)
  · right
    rcases hrun : x.runFrom r with ⟨e | a, r₁⟩ <;> rw [hrun] at hstop hd
    · rw [runFrom_bind_error hrun]
      exact ⟨by simpa using hstop, stays_bind (fun a => (hf a).later) hd⟩
    · cases hstop

theorem Cuts.stop : Cuts D P Alive (Exec.stop : Exec α) Exec.stop := .self hD.refl fun _ _ _ h => by cases h

theorem Cuts.fault {s : Status} (hs : s.isOwn = true) : Cuts D P Alive (fault s : Exec α) (fault s) :=
  .self (Moves.fault hD hs) fun _ _ _ h => by cases h

theorem Cuts.operand {n : Node} {slot : Nat} {k k' : Exec Yield} (h : CutsChild D P n slot k k') :
    Cuts D P Alive (operand k) (operand k') := by
  refine ⟨fun r hr hp => ?_, Moves.operand hD h.later⟩
  rw [runFrom_operand, runFrom_operand]
  rcases h.run r hr hp with hsame | ⟨⟨y, hy⟩, hs, -, hd⟩
  · rw [← hsame]
    left
    rcases hrun : k.runFrom r with ⟨e | y, r'⟩
    · exact ⟨rfl, nofun⟩
    · refine ⟨rfl, fun _ h => ?_⟩
      cases he : r'.frame.isEvaluating <;> simp only [he] at h
      · cases h
      · exact he
  · right
    rcases hrun : k.runFrom r with ⟨e | y', r₁⟩ <;> rw [hrun] at hy hs hd
    · cases hy
    · have he : r₁.frame.isEvaluating = false := by simpa [Frame.isEvaluating] using hs
      refine ⟨by simp [he], ?_⟩
      rcases hrun' : k'.runFrom r with ⟨e | y, r₂⟩ <;> rw [hrun'] at hd <;> exact hd

theorem Cuts.readOr {other : Exec Value} (hm : Moves (Stays D P) other) (ho : ∀ r v, (other.runFrom r).1 ≠ .ok v)
    (y : Yield) : Cuts D P Alive (readOr other y) (readOr other y) := by
  refine .self (Moves.readOr hD hm y) fun r hr v hv => ?_
  obtain ⟨o, r', hrun, hframe⟩ := runFrom_read? y r
  rw [Exec.readOr, runFrom_bind_ok hrun] at hv ⊢
  cases o with
  | none => exact absurd hv (ho r' v)
  | some w =>
    change r'.frame.isEvaluating = true
    rw [hframe.resolve_right (by simp)]
    exact hr

theorem Cuts.rounds {ty : Ty} {k k' : Exec Yield} (h : CutsChild D P (.repeatTimes ty) 1 k k') (m : Nat) (y : Yield) :
    Cuts D P (fun _ => True) (rounds k m y) (rounds k' m y) := by
  refine ⟨fun r hr hp => ?_, Moves.rounds hD h.later m y⟩
  induction m generalizing y r with
  | zero => exact .inl ⟨rfl, fun _ _ => trivial⟩
  | succ m ih =>
    rcases h.run r hr hp with hsame | ⟨⟨z, hz⟩, hs, ha, hd⟩
    · have hkept := (h.later r).kept
      rw [runFrom_rounds, runFrom_rounds, ← hsame]
      rcases hrun : k.runFrom r with ⟨e | z, r'⟩
      · exact .inl ⟨rfl, nofun⟩
      · rw [← hsame, hrun] at hkept
        have hp' := hkept rfl hp
        dsimp only
        cases hs : r'.frame.status with
        | evaluating => exact ih z r' (by simp [Alive, Frame.isEvaluating, hs]) hp'
        | continueCalled => exact ih y { r' with frame := r'.frame.resume } rfl ((hD.resume r' (.inr hs)).kept rfl hp')
        | _ => exact .inl ⟨rfl, fun _ _ => trivial⟩
    · have hend := stays_rounds hD h.later m y hd
      rcases hrun : k.runFrom r with ⟨e | z', r₁⟩ <;> rw [hrun] at hz hs ha hend
      · cases hz
      · rw [rounds_stopped hrun hs ha m y]
        exact .inr ⟨rfl, hend⟩

theorem Cuts.congruence : Congruence (Cuts D P Alive) (Cuts D P fun _ => True) (CutsChild D P) where
  pure a := .self (Moves.pure hD a) fun _ hr _ _ => hr
  bind hx hf := Cuts.bind hD hx hf
  bind_last hx hf := Cuts.bind hD hx hf
  last := Cuts.last
  stop := Cuts.stop hD
  fault hs := Cuts.fault hD hs
  note he := .self (Moves.note hD he) fun _ hr _ _ => hr
  store _ := .self (Moves.onStore hD _) fun _ hr _ _ => hr
  find _ _ _ h := Cuts.bind hD (.self hD.refl fun _ hr _ _ => hr) fun _ => h _
  read_stop := Cuts.readOr hD hD.refl (by simp [runFrom_stop])
  read_invalid := Cuts.readOr hD (Moves.fault hD rfl) (by simp [invalid, runFrom_fault])
  returnWith v := ⟨fun _ _ _ => .inl ⟨rfl, fun _ _ => trivial⟩,
    Moves.bind hD (fun r => hD.returnWith r v) fun _ => Moves.pure hD _⟩
  operand _ h := Cuts.operand hD h
  rounds h := Cuts.rounds hD h

end Rules

/-- The same of whole nodes, which yield the default of their type when they are cut short. -/
structure CutsNode (D : Run → Run → Prop) (P : Run → Prop) (ty : Ty) (x x' : Exec Yield) : Prop where
  run : ∀ r, Alive r → P r →
    x.runFrom r = x'.runFrom r ∨ ∃ e, x.runFrom r = (.ok (.ofType ty), e) ∧ D e (x'.runFrom r).2
  later : Moves (Stays D P) x'

theorem CutsNode.child {ty : Ty} {x x' : Exec Yield} (h : CutsNode D P ty x x') {n : Node} {slot : Nat}
    (hend : ∀ {e r}, D e r → e.frame.status ≠ .evaluating ∧ n.absorbs slot e.frame.status = false) :
    CutsChild D P n slot x x' := by
  refine ⟨fun r hr hp => (h.run r hr hp).imp_right ?_, h.later⟩
  rintro ⟨e, hx, hd⟩
  rw [hx]
  exact ⟨⟨_, rfl⟩, (hend hd).1, (hend hd).2, hd⟩

theorem Cuts.conclude {x x' : Exec Yield} (hD : Closed (Stays D P)) (h : Cuts D P (fun _ => True) x x')
    (hend : ∀ {e r}, D e r → e.frame.isEvaluating = false) (n : Node) :
    CutsNode D P n.returns (conclude n x) (conclude n x') := by
  refine ⟨fun r hr hp => ?_, Moves.conclude hD h.later n⟩
  rcases h.run r hr hp with ⟨hsame, -⟩ | ⟨hstop, hd⟩
  · left
    rw [Exec.conclude, Exec.conclude, runFrom_bind, runFrom_bind, runFrom_orElse, runFrom_orElse, hsame]
  · rcases hx : x.runFrom r with ⟨res, e⟩
    rw [hx] at hstop hd
    obtain rfl : res = .error .stopped := hstop
    have ho : D e ((orElse x' (.ofType n.returns)).runFrom r).2 := by rwa [orElse_state]
    exact .inr ⟨e, conclude_stopped hx (hend hd), stays_bind (Moves.tell hD n) ho⟩

theorem CutsNode.entering {l l' : Limits} {ty : Ty} {x x' : Exec Yield} (hD : Paced l' (Stays D P))
    (h : CutsNode D P ty x x') (hl : l.maxSteps ≤ l'.maxSteps)
    (hexhaust : ∀ r, Alive r → l.maxSteps ≤ r.steps → r.steps < l'.maxSteps →
      D { r with frame := r.frame.signal .stepsExceeded } r) (id : NodeId) :
    CutsNode D P ty (entering l id ty x) (entering l' id ty x') := by
  have hlater := Moves.entering hD.toStepped h.later id ty
  refine ⟨fun r hr hp => ?_, hlater⟩
  have hrest := (hlater r).cut
  have he : ¬ r.frame.isEvaluating = false := by simp [show r.frame.isEvaluating = true from hr]
  rw [runFrom_entering, if_neg he] at hrest ⊢
  rw [runFrom_entering, if_neg he]
  by_cases hs : l.maxSteps ≤ r.steps
  · by_cases hs' : l'.maxSteps ≤ r.steps
    · rw [if_pos hs, if_pos hs']
      exact .inl rfl
    · rw [if_pos hs]
      exact .inr ⟨_, rfl, hrest _ (hexhaust r hr hs (by omega))⟩
  · rw [if_neg hs, if_neg (by omega)]
    exact h.run _ hr ((hD.enter r id hr (by omega)).kept rfl hp)

end Exec
end Grove
