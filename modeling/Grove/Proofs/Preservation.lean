import Grove.Proofs.Operands

/-! What each kind of node does to a typed run. If the children of a node yield for its slots, the node
yields for its own type; what it returns from the frame fits the type that the frame declares. -/

namespace Grove

def Base.IsNumeric (b : Base) : Prop := b = .int ∨ b = .float

instance (b : Base) : Decidable b.IsNumeric := inferInstanceAs (Decidable (b = .int ∨ b = .float))

/-- Operators are at numbers, array access is at arrays of numbers, and what a frame returns is plain. -/
def Node.Operable : Node → Prop
  | .arithmetic _ b => b.IsNumeric
  | .comparison _ b => b.IsNumeric
  | .substitute b => b.IsNumeric
  | .increment b => b.IsNumeric
  | .elementAt b => b = .int
  | .size b => b = .int
  | .returnValue ty => ty.qualifier = .plain ∧ ty.base ≠ .any
  | _ => True

instance : (n : Node) → Decidable n.Operable
  | .arithmetic _ b | .comparison _ b | .substitute b | .increment b => inferInstanceAs (Decidable b.IsNumeric)
  | .elementAt b | .size b => inferInstanceAs (Decidable (b = .int))
  | .returnValue ty => inferInstanceAs (Decidable (ty.qualifier = .plain ∧ ty.base ≠ .any))
  | .const _ | .argument .. | .localVariable .. | .progn .. | .nop _ | .logic _ | .ifElse _ | .repeatTimes _
  | .breakLoop _ | .continueLoop _ | .call _ => isTrue trivial

/-- Calls have plain results, and no slot of the wildcard base. -/
structure Callee.Concrete (c : Callee) : Prop where
  plain : c.returns.qualifier = .plain
  returns : c.returns.base ≠ .any
  arguments : ∀ ty ∈ c.arguments, ty.base ≠ .any

/-- The node may stand in a tree that returns `d`, with these subroutines to call. -/
structure Node.Sits (stray : List Base) (r : Registry) (d : Ty) (n : Node) : Prop where
  operable : n.Operable
  returned : ∀ {ty}, n = .returnValue ty → ty.base = d.base ∨ ty.base ∈ stray
  called : ∀ {c}, n = .call c → r.callee? c.name = some c ∧ c.Concrete

theorem Base.IsNumeric.ne_any {b : Base} (h : b.IsNumeric) : b ≠ .any := by
  rcases h with rfl | rfl <;> simp

theorem Ty.eq_plain {ty : Ty} (h : ty.qualifier = .plain) : ty = .plain ty.base := by
  cases ty
  simp_all [Ty.plain]

theorem Value.Fits.widen {stray : List Base} {b b' : Base} {v : Value} (h : v.Fits stray b)
    (hb : b = b' ∨ b ∈ stray) :
    v.Fits stray b' := by
  rcases h with rfl | h
  · exact hb
  · exact .inr h

namespace Exec

variable {stray cs : List Base} {d ty : Ty}

theorem Keeps.seq {α β : Type} {P : List Base → α → Prop} {Q : List Base → β → Prop} {x : Exec α} {y : Exec β}
    (hx : Keeps stray d cs P x) (hy : Keeps stray d cs Q y) : Keeps stray d cs Q (do let _ ← x; y) :=
  Keeps.bind hx fun _ _ h _ => hy.mono h

theorem Keeps.operands {ι : Type} (slot : ι → Ty) {kid : ι → Exec Yield} (l : List ι) (y : Yield)
    (h : ∀ i ∈ l, Keeps stray d cs (Yields stray (slot i)) (kid i)) :
    Keeps stray d cs (fun _ _ => True) (l.foldlM (fun _ i => Exec.operand (kid i)) y) := by
  induction l generalizing y with
  | nil => exact Keeps.pure fun _ _ => trivial
  | cons i l ih =>
    rw [List.foldlM_cons]
    exact Keeps.bind (h i (by simp)).operand fun _ y h₁ _ => (ih y fun j hj => h j (by simp [hj])).mono h₁

theorem Keeps.sequence {n : Nat} {kid : Fin (n + 1) → Exec Yield} {slot : Fin (n + 1) → Ty}
    (hl : slot (Fin.last n) = ty)
    (h : ∀ i, Keeps stray d cs (Yields stray (slot i)) (kid i)) :
    Keeps stray d cs (Yields stray ty) ((List.finRange (n + 1)).foldlM (fun _ i => Exec.operand (kid i)) .void) := by
  rw [List.finRange_succ_last, List.foldlM_append]
  refine Keeps.bind (Keeps.operands slot _ _ fun i _ => h i) fun cs₁ y h₁ _ => ?_
  rw [List.foldlM_cons]
  refine Keeps.bind (((h (Fin.last n)).mono h₁).operand) fun cs₂ y _ hy => ?_
  exact Keeps.pure fun cs₃ h₃ => (hl ▸ hy).mono h₃

theorem Keeps.rounds {body : Exec Yield} (h : Keeps stray d cs (Yields stray ty) body) (n : Nat)
    {cs₁ : List Base} (last : Yield)
    (h₁ : cs <+: cs₁) (hl : Yields stray ty cs₁ last) : Keeps stray d cs₁ (Yields stray ty) (rounds body n last) := by
  induction n generalizing cs₁ last with
  | zero => exact Keeps.pure fun _ h₂ => hl.mono h₂
  | succ n ih =>
    unfold Exec.rounds
    refine Keeps.bind (h.mono h₁) fun cs₂ y h₂ hy => ?_
    refine Keeps.bind Keeps.status fun cs₃ s h₃ _ => ?_
    have again : ∀ {cs₄} {z : Yield}, cs₁ <+: cs₄ → Yields stray ty cs₄ z →
        Keeps stray d cs₄ (Yields stray ty) (Exec.rounds body n z) :=
      fun h₄ hz => ih _ (h₁.trans h₄) hz
    cases s with
    | evaluating => exact again (h₂.trans h₃) (hy.mono h₃)
    | continueCalled =>
      exact Keeps.bind Keeps.resume fun cs₄ _ h₄ _ =>
        have h₅ := h₂.trans (h₃.trans h₄)
        again h₅ (hl.mono h₅)
    | breakCalled =>
      exact Keeps.bind Keeps.resume fun cs₄ _ h₄ _ =>
        Keeps.pure fun _ h₅ => hl.mono (h₂.trans (h₃.trans (h₄.trans h₅)))
    | _ => exact Keeps.stop

theorem Keeps.arithmetic {b : Base} (hb : b.IsNumeric) (op : Arithmetic) {x y : Value} (hx : x.Fits stray b)
    (hy : y.Fits stray b) : Keeps stray d cs (fun _ v => v.Fits stray b) (Exec.arithmetic op b x y) := by
  rcases hb with rfl | rfl
  · refine Keeps.bind (Keeps.expectInt hx) fun _ i _ _ => Keeps.bind (Keeps.expectInt hy) fun _ j _ _ => ?_
    cases op.onInts i j with
    | none => exact Keeps.invalid
    | some k => exact Keeps.pure fun _ _ => .inl rfl
  · refine Keeps.bind (Keeps.expectFloat hx) fun _ i _ _ => Keeps.bind (Keeps.expectFloat hy) fun _ j _ _ => ?_
    cases op.onFloats i j with
    | none => exact Keeps.invalid
    | some k => exact Keeps.pure fun _ _ => .inl rfl

theorem Keeps.returnWith {v : Value} (h : v.Fits stray d.base) :
    Keeps stray d cs (fun _ _ => True) (modifyFrame (·.returnWith v)) := by
  refine Keeps.of_run _ _ (runFrom_modifyFrame _) (fun cs₁ r _ hr => ?_) fun _ _ => trivial
  unfold Frame.returnWith
  split
  · exact ⟨hr.store, hr.arguments, hr.locals, by simpa using h, hr.journal⟩
  · exact hr

theorem Keeps.onHandle {h : Handle} (hh : h.Typed cs) :
    Keeps stray d cs (fun _ o => ∀ v ∈ o, v.base = h.base) (Exec.onStore h.get) :=
  Keeps.onStore fun cs₁ _ h₁ hs =>
    have := (hh.mono h₁).get hs
    ⟨cs₁, List.prefix_refl _, this.2, this.1⟩

section Kinds

variable {r : Registry} {call : Callee → List Variable → Exec Yield}

/-- The children of a node yield for its slots. -/
def KidsYield (stray : List Base) (d : Ty) (cs : List Base) (n : Node) (kid : Fin n.arity → Exec Yield) : Prop :=
  ∀ i : Fin n.arity, Keeps stray d cs (Yields stray (n.slotType i)) (kid i)

/-- Calls of the registry's subroutines yield what they declare. -/
def CallsYield (stray : List Base) (d : Ty) (r : Registry) (call : Callee → List Variable → Exec Yield) : Prop :=
  ∀ {c} {cs : List Base} {xs}, r.callee? c.name = some c → c.Concrete → (∀ x ∈ xs, x.Typed cs) →
    Keeps stray d cs (Yields stray c.returns) (call c xs)

theorem Keeps.substitute {b : Base} (hb : b ≠ .any) {kid : Fin 2 → Exec Yield}
    (h : KidsYield stray d cs (.substitute b) kid) :
    Keeps stray d cs (Yields stray (.plain b)) (produce call (.substitute b) kid) := by
  refine Keeps.bind (Keeps.handle hb (h (0 : Fin 2))) fun cs₁ l h₁ hl => ?_
  refine Keeps.bind ((h (1 : Fin 2)).mono h₁ |>.value hb) fun cs₂ v h₂ hv => ?_
  have hl₂ := hl.1.mono h₂
  cases hbound : l.isBound
  · exact Keeps.bind (Keeps.fault (P := fun _ _ => False) _) fun _ _ _ h => h.elim
  · change Keeps stray d cs₂ _ (do if ← Exec.assign l v then return Yield.value v else Exec.mismatch)
    refine Keeps.bind (Keeps.assign hl₂ v) fun cs₃ done _ hd => ?_
    cases done
    · -- a refused value is a stray one
      refine Keeps.mismatch (hv.stray_ne fun he => ?_)
      simp [hbound, hl.2, he, Ty.plain, Node.slotType] at hd
    · exact Keeps.yieldValue hv

theorem Keeps.increment {b : Base} (hb : b.IsNumeric) {kid : Fin 1 → Exec Yield}
    (h : KidsYield stray d cs (.increment b) kid) :
    Keeps stray d cs (Yields stray (.plain b)) (produce call (.increment b) kid) := by
  refine Keeps.bind (Keeps.handle hb.ne_any (h (0 : Fin 1))) fun cs₁ l _ hl => ?_
  refine Keeps.bind (Keeps.onHandle hl.1) fun cs₂ o h₂ ho => ?_
  have store : ∀ v : Value, v.base = b → Keeps stray d cs₂ (Yields stray (.plain b)) (do
      let _ ← Exec.assign l v
      return .value v) :=
    fun v hv => Keeps.seq (Keeps.assign (hl.1.mono h₂) v) (Keeps.yieldValue (.inl hv))
  cases o with
  | none => exact Keeps.fault _
  | some v =>
    have hv : v.base = b := (ho v rfl).trans hl.2
    cases v with
    | int i => exact store _ hv
    | float x => exact store _ hv
    | _ => rcases hb with rfl | rfl <;> simp [Value.base] at hv

theorem Keeps.expect {α β : Type} {Q : List Base → β → Prop} {child : Exec Yield} {sort : Value → Exec α}
    {f : α → Exec β}
    (ha : ty.base ≠ .any) (h : Keeps stray d cs (Yields stray ty) child)
    (hs : ∀ {cs₁ v}, v.Fits stray ty.base → Keeps stray d cs₁ (fun _ _ => True) (sort v))
    (hf : ∀ {cs₁} a, cs <+: cs₁ → Keeps stray d cs₁ Q (f a)) :
    Keeps stray d cs Q (do
      let v ← Exec.value child
      let a ← sort v
      f a) :=
  Keeps.bind (h.value ha) fun _ _ h₁ hv => Keeps.bind (hs hv) fun _ a h₂ _ => hf a (h₁.trans h₂)

theorem Keeps.compare {op : Comparison} {b : Base} (hb : b ≠ .any) {kid : Fin 2 → Exec Yield}
    (h : KidsYield stray d cs (.comparison op b) kid) :
    Keeps stray d cs (Yields stray .bool) (produce call (.comparison op b) kid) := by
  refine Keeps.bind ((h (0 : Fin 2)).value hb) fun cs₁ x h₁ hx => ?_
  refine Keeps.bind (((h (1 : Fin 2)).mono h₁).value hb) fun cs₂ y _ hy => ?_
  have yield : ∀ {cs₃ : List Base},
      Keeps stray d cs₃ (Yields stray .bool) (Pure.pure (.value (.bool (op.holds (x.compare? y))))) :=
    Keeps.yieldValue (.inl rfl)
  by_cases hxy : x.base = y.base
  · simpa [hxy] using yield
  · have hs : stray ≠ [] := by
      rintro rfl
      simp [Value.Fits] at hx hy
      exact hxy (hx.trans hy.symm)
    simpa [hxy] using Keeps.seq (Keeps.note (e := .mismatched) hs) yield

theorem Keeps.logic {op : Logic} {kid : Fin (Node.logic op).arity → Exec Yield}
    (h : KidsYield stray d cs (.logic op) kid) :
    Keeps stray d cs (Yields stray .bool) (produce call (.logic op) kid) := by
  have hb : Ty.bool.base ≠ .any := by simp [Ty.bool, Ty.plain]
  cases op with
  | not => exact Keeps.expect hb (h (0 : Fin 1)) Keeps.expectBool fun _ _ => Keeps.yieldValue (.inl rfl)
  | and =>
    exact Keeps.expect hb (h (0 : Fin 2)) Keeps.expectBool fun _ h₁ =>
      Keeps.expect hb ((h (1 : Fin 2)).mono h₁) Keeps.expectBool fun _ _ => Keeps.yieldValue (.inl rfl)
  | or =>
    exact Keeps.expect hb (h (0 : Fin 2)) Keeps.expectBool fun _ h₁ =>
      Keeps.expect hb ((h (1 : Fin 2)).mono h₁) Keeps.expectBool fun _ _ => Keeps.yieldValue (.inl rfl)

theorem Keeps.repeatTimes {kid : Fin 2 → Exec Yield} (h : KidsYield stray d cs (.repeatTimes ty) kid) :
    Keeps stray d cs (Yields stray ty) (produce call (.repeatTimes ty) kid) := by
  refine Keeps.expect (by simp [Node.slotType, Ty.int, Ty.plain]) (h (0 : Fin 2)) Keeps.expectInt fun n h₁ => ?_
  by_cases hn : n < 0
  · simpa [hn] using Keeps.bind (Keeps.invalid (P := fun _ _ => False)) fun _ _ _ h => h.elim
  · have body : Keeps stray d cs (Yields stray ty) (kid 1) := h (1 : Fin 2)
    simpa [hn] using Keeps.rounds body n.toInt.toNat _ h₁ (yields_ofType ty)

theorem Keeps.elementAt {kid : Fin 2 → Exec Yield} (h : KidsYield stray d cs (.elementAt .int) kid) :
    Keeps stray d cs (Yields stray .int) (produce call (.elementAt .int) kid) := by
  refine Keeps.expect (by simp [Node.slotType, Base.arrayOf, Ty.plain]) (h (0 : Fin 2)) Keeps.expectInts fun xs h₁ => ?_
  refine Keeps.expect (by simp [Node.slotType, Ty.int, Ty.plain]) ((h (1 : Fin 2)).mono h₁) Keeps.expectInt
    @fun cs₂ i _ => ?_
  by_cases hi : i < 0
  · simpa [hi] using Keeps.bind (Keeps.invalid (P := fun _ _ => False)) fun _ _ _ h => h.elim
  · cases hx : xs[i.toInt.toNat]? with
    | none => simpa [hi, hx] using Keeps.invalid
    | some x =>
      have : Keeps stray d cs₂ (Yields stray .int) (Pure.pure (.value (.int x))) := Keeps.yieldValue (.inl rfl)
      simpa [hi, hx] using this

/-- A node over children that yield for its slots yields for its type. -/
theorem Keeps.produce {n : Node} (hn : n.Sits stray r d) (hc : CallsYield stray d r call)
    {kid : Fin n.arity → Exec Yield}
    (h : KidsYield stray d cs n kid) : Keeps stray d cs (Yields stray n.returns) (produce call n kid) := by
  cases n with
  | const v => exact Keeps.yieldValue (.inl rfl)
  | argument ty i =>
    exact Keeps.bind Keeps.get fun _ s _ hs => Keeps.access (fun x hx => hs.arguments x (List.mem_of_getElem? hx)) ty
  | localVariable ty i =>
    exact Keeps.bind Keeps.get fun _ s _ hs => Keeps.access (fun x hx => hs.locals x (List.mem_of_getElem? hx)) ty
  | progn ty k =>
    cases k with
    | zero => exact Keeps.stop
    | succ k => exact Keeps.sequence (by simp [Node.slotType, Node.returns]) h
  | nop ty => exact Keeps.pure fun _ _ => yields_ofType ty
  | arithmetic op b =>
    have hb := hn.operable.ne_any
    refine Keeps.bind ((h (0 : Fin 2)).value hb) fun cs₁ x h₁ hx => ?_
    refine Keeps.bind (((h (1 : Fin 2)).mono h₁).value hb) fun cs₂ y _ hy => ?_
    exact Keeps.bind (Keeps.arithmetic hn.operable op hx hy) fun _ _ _ hv => Keeps.yieldValue hv
  | comparison op b => exact Keeps.compare hn.operable.ne_any h
  | logic op => exact Keeps.logic h
  | ifElse ty =>
    refine Keeps.expect (by simp [Node.slotType, Ty.bool, Ty.plain]) (h (0 : Fin 3)) Keeps.expectBool fun x h₁ => ?_
    cases x
    · exact ((h (2 : Fin 3)).mono h₁).operand
    · exact ((h (1 : Fin 3)).mono h₁).operand
  | repeatTimes ty => exact Keeps.repeatTimes h
  | substitute b => exact Keeps.substitute hn.operable.ne_any h
  | increment b => exact Keeps.increment hn.operable h
  | elementAt b =>
    obtain rfl : b = .int := hn.operable
    exact Keeps.elementAt h
  | size b =>
    obtain rfl : b = .int := hn.operable
    exact Keeps.expect (by simp [Node.slotType, Base.arrayOf, Ty.plain]) (h (0 : Fin 1)) Keeps.expectInts fun _ _ =>
      Keeps.yieldValue (.inl rfl)
  | breakLoop ty => exact Keeps.fault _
  | continueLoop ty => exact Keeps.fault _
  | returnValue ty =>
    obtain ⟨hp, ha⟩ := hn.operable
    refine Keeps.bind ((h (0 : Fin 1)).value ha) fun cs₁ v h₁ hv => ?_
    refine Keeps.seq (Keeps.returnWith (hv.widen (hn.returned rfl))) ?_
    rw [Node.returns, Ty.eq_plain hp]
    exact Keeps.yieldValue hv
  | call c =>
    obtain ⟨hr, hcc⟩ := hn.called rfl
    refine Keeps.bind (Keeps.mapM (P := fun cs₁ x => x.Typed cs₁) (fun h hx => hx.mono h) _ fun i _ => ?_)
      fun cs₁ xs _ hxs => hc hr hcc hxs
    have hi : c.arguments.getD i.val .any = c.arguments[i] := by simp [List.getD, i.isLt]
    exact Keeps.bindArgument (hcc.arguments _ (List.getElem_mem i.isLt)) (hi ▸ h i)

end Kinds
end Exec
end Grove
