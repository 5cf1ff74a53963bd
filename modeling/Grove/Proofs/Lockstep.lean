import Grove.Proofs.Calls
import Grove.Proofs.Congruence
import Mathlib.Data.List.Forall2

/-! Evaluations in lockstep. Two runs over shapes that are alike but for the numbers of their nodes do the same, step
for step, where the variables of one are paired with those of the other: what one reads, the other reads too, and what
one yields or writes is paired with what the other does. How the two stores are related is left open, as long as
reading, writing and making cells keep it so. -/

namespace Grove

section Pairs

variable (pair : Variable → Variable → Prop)

inductive Handle.Alike : Handle → Handle → Prop
  | unbound (b : Base) : Alike (.unbound b) (.unbound b)
  | bound {x x' : Variable} (h : pair x x') : Alike (.bound x) (.bound x')

inductive Yield.Alike : Yield → Yield → Prop
  | void : Alike .void .void
  | value (v : Value) : Alike (.value v) (.value v)
  | leftHand {h h' : Handle} (hh : h.Alike pair h') : Alike (.leftHand h) (.leftHand h')
  | reference {h h' : Handle} (hh : h.Alike pair h') : Alike (.reference h) (.reference h')

structure Frame.Alike (f f' : Frame) : Prop where
  arguments : List.Forall₂ pair f.arguments f'.arguments
  locals : List.Forall₂ pair f.locals f'.locals
  status : f'.status = f.status
  returned : f'.returned = f.returned

end Pairs

/-- What keeps two runs in lockstep: which variables are paired, how the stores are related, and which broken promises
count as the same. -/
structure Lockstep where
  pair : Variable → Variable → Prop
  store : Store → Store → Prop
  breach : Violation → Violation → Prop
  base : ∀ {x x'}, pair x x' → x'.base = x.base
  reads : ∀ {x x' s s'}, pair x x' → store s s' → (x'.get s').1 = (x.get s).1 ∧ store (x.get s).2 (x'.get s').2
  writes : ∀ {x x' s s'} {v : Value}, pair x x' → v.base = x.base → store s s' →
    store (s.write x.cell v) (s'.write x'.cell v)
  makes : ∀ {s s'}, store s s' → ∀ c, store (s.alloc c).2 (s'.alloc c).2 ∧
    ∀ b h, pair ⟨b, (s.alloc c).1, h⟩ ⟨b, (s'.alloc c).1, h⟩
  breach_refl : ∀ v, breach v v

/-- Alike but for the numbers of the nodes. -/
inductive Shape.Alike (breach : Violation → Violation → Prop) : Shape → Shape → Prop
  | node {i i' : NodeId} {n : Node} {kids kids' : Fin n.arity → Shape} (h : ∀ k, (kids k).Alike breach (kids' k)) :
      Alike breach (.node i n kids) (.node i' n kids')
  | torn {i i' : NodeId} {n : Node} {why why' : Violation} (h : breach why why') :
      Alike breach (.torn i n why) (.torn i' n why')

/-- The same result, or two failures that count as the same. -/
inductive SameResult {ε α : Type} (alike : ε → ε → Prop) : Except ε α → Except ε α → Prop
  | ok (a : α) : SameResult alike (.ok a) (.ok a)
  | error {e e' : ε} (h : alike e e') : SameResult alike (.error e) (.error e')

/-- Trees that an evaluation cannot tell apart. -/
structure Tree.SameProgram (breach : Violation → Violation → Prop) (t t' : Tree) : Prop where
  locals : t'.signature.locals = t.signature.locals
  shape : Option.Rel (Shape.Alike breach) t.shape? t'.shape?

/-- Under each name there is the same program, or none. -/
def Registry.SamePrograms (breach : Violation → Violation → Prop) (g g' : Registry) : Prop :=
  ∀ name, Option.Rel (Tree.SameProgram breach) (g.body? name) (g'.body? name)

section Refl

variable {breach : Violation → Violation → Prop} (h : ∀ v, breach v v)
include h

theorem Shape.Alike.refl (s : Shape) : s.Alike breach s := by
  induction s with
  | node i n kids ih => exact .node ih
  | torn i n why => exact .torn (h why)

theorem Tree.SameProgram.refl (t : Tree) : t.SameProgram breach t := by
  refine ⟨rfl, ?_⟩
  cases t.shape? with
  | none => exact .none
  | some s => exact .some (.refl h s)

theorem Registry.SamePrograms.refl (g : Registry) : g.SamePrograms breach g := fun name => by
  cases g.body? name with
  | none => exact .none
  | some b => exact .some (.refl h b)

end Refl

namespace Lockstep

variable (L : Lockstep)

/-- The journal is left out. -/
structure State (r r' : Run) : Prop where
  frame : r.frame.Alike L.pair r'.frame
  store : L.store r.store r'.store
  steps : r'.steps = r.steps
  depth : r'.depth = r.depth

/-- Two ends of the same kind, with paired results. -/
inductive Ends {α : Type} (S : α → α → Prop) : Except Halt α × Run → Except Halt α × Run → Prop
  | done {a a' : α} {r r' : Run} (ha : S a a') (hr : L.State r r') : Ends S (.ok a, r) (.ok a', r')
  | stopped {r r' : Run} (hr : L.State r r') : Ends S (.error .stopped, r) (.error .stopped, r')
  | broken {v v' : Violation} {r r' : Run} (hv : L.breach v v') (hr : L.State r r') :
      Ends S (.error (.violated v), r) (.error (.violated v'), r')

/-- Two evaluations with the same outcome and as many steps, and with stores that are related. -/
structure Agrees (e e' : Except Violation Outcome × Run) : Prop where
  outcome : SameResult L.breach e.1 e'.1
  steps : e'.2.steps = e.2.steps
  store : L.store e.2.store e'.2.store

/-- From states in lockstep the two computations come to such ends. -/
def Runs {α : Type} (S : α → α → Prop) (x x' : Exec α) : Prop :=
  ∀ r r', L.State r r' → L.Ends S (x.runFrom r) (x'.runFrom r')

end Lockstep

section Variables

variable {pair : Variable → Variable → Prop}

theorem Yield.alike_ofType (ty : Ty) : (Yield.ofType ty).Alike pair (.ofType ty) := by
  unfold Yield.ofType
  cases ty.qualifier with
  | plain =>
    cases Value.default? ty.base with
    | none => exact .void
    | some v => exact .value v
  | leftHand => exact .leftHand (.unbound _)
  | reference => exact .reference (.unbound _)

theorem Yield.Alike.handle? {y y' : Yield} (h : y.Alike pair y') :
    Option.Rel (Handle.Alike pair) y.handle? y'.handle? := by
  cases h with
  | void => exact .none
  | value v => exact .none
  | leftHand hh => exact .some hh
  | reference hh => exact .some hh

theorem Handle.Alike.isBound {h h' : Handle} (hh : h.Alike pair h') : h'.isBound = h.isBound := by
  cases hh <;> rfl

theorem getElem?_of_forall₂ {α : Type} {R : α → α → Prop} {l l' : List α} (h : List.Forall₂ R l l') (i : Nat) :
    Option.Rel R l[i]? l'[i]? := by
  induction h generalizing i with
  | nil => exact .none
  | cons ha _ ih =>
    cases i with
    | zero => exact .some ha
    | succ i => exact ih i

theorem Frame.Alike.isEvaluating {f f' : Frame} (h : f.Alike pair f') : f'.isEvaluating = f.isEvaluating := by
  rw [Frame.isEvaluating, Frame.isEvaluating, h.status]

theorem Frame.Alike.signal {f f' : Frame} (h : f.Alike pair f') (s : Status) :
    (f.signal s).Alike pair (f'.signal s) := by
  unfold Frame.signal
  rw [h.isEvaluating]
  split
  · exact ⟨h.arguments, h.locals, rfl, h.returned⟩
  · exact h

theorem Frame.Alike.resume {f f' : Frame} (h : f.Alike pair f') : f.resume.Alike pair f'.resume :=
  ⟨h.arguments, h.locals, rfl, h.returned⟩

theorem Frame.Alike.returnWith {f f' : Frame} (h : f.Alike pair f') (v : Value) :
    (f.returnWith v).Alike pair (f'.returnWith v) := by
  unfold Frame.returnWith
  rw [h.isEvaluating]
  split
  · exact ⟨h.arguments, h.locals, rfl, rfl⟩
  · exact h

end Variables

namespace Lockstep

variable {L : Lockstep} {α β : Type} {S : α → α → Prop} {T : β → β → Prop}

theorem State.frame_to {r r' : Run} (h : L.State r r') {f f' : Frame} (hf : f.Alike L.pair f') :
    L.State { r with frame := f } { r' with frame := f' } :=
  ⟨hf, h.store, h.steps, h.depth⟩

theorem State.store_to {r r' : Run} (h : L.State r r') {s s' : Store} (hs : L.store s s') :
    L.State { r with store := s } { r' with store := s' } :=
  ⟨h.frame, hs, h.steps, h.depth⟩

theorem State.journal_to {r r' : Run} (h : L.State r r') (es es' : List Event) :
    L.State { r with journal := es } { r' with journal := es' } :=
  ⟨h.frame, h.store, h.steps, h.depth⟩

section Rules

theorem Runs.pure {a a' : α} (h : S a a') : L.Runs S (pure a) (pure a') := fun _ _ hr => .done h hr

theorem Runs.bind {x x' : Exec α} {f f' : α → Exec β} (hx : L.Runs S x x')
    (hf : ∀ a a', S a a' → L.Runs T (f a) (f' a')) :
    L.Runs T (x >>= f) (x' >>= f') := by
  intro r r' hr
  have h := hx r r' hr
  rw [Exec.runFrom_bind, Exec.runFrom_bind]
  generalize x.runFrom r = res at h
  generalize x'.runFrom r' = res' at h
  cases h with
  | done ha hr => exact hf _ _ ha _ _ hr
  | stopped hr => exact .stopped hr
  | broken hv hr => exact .broken hv hr

theorem Runs.seq {x x' : Exec α} {f f' : α → Exec β} (hx : L.Runs Eq x x') (hf : ∀ a, L.Runs T (f a) (f' a)) :
    L.Runs T (x >>= f) (x' >>= f') :=
  hx.bind fun a _ h => h ▸ hf a

theorem Runs.stop : L.Runs S (Exec.stop : Exec α) Exec.stop := fun _ _ hr => .stopped hr

theorem Runs.violate {v v' : Violation} (h : L.breach v v') : L.Runs S (Exec.violate v : Exec α) (Exec.violate v') :=
  fun _ _ hr => .broken h hr

theorem Runs.signal (s : Status) : L.Runs Eq (Exec.signal s) (Exec.signal s) :=
  fun _ _ hr => .done rfl (hr.frame_to (hr.frame.signal s))

theorem Runs.fault (s : Status) : L.Runs S (Exec.fault s : Exec α) (Exec.fault s) :=
  (Runs.signal s).seq fun _ => Runs.stop

theorem Runs.invalid : L.Runs S (Exec.invalid : Exec α) Exec.invalid := Runs.fault _

theorem Runs.note (e e' : Event) : L.Runs Eq (Exec.note e) (Exec.note e') := fun _ _ hr => .done rfl (hr.journal_to _ _)

theorem Runs.mismatch : L.Runs S (Exec.mismatch : Exec α) Exec.mismatch := (Runs.note _ _).seq fun _ => Runs.invalid

theorem Runs.isEvaluating : L.Runs Eq Exec.isEvaluating Exec.isEvaluating :=
  fun _ _ hr => .done hr.frame.isEvaluating.symm hr

theorem Runs.status : L.Runs Eq Exec.status Exec.status := fun _ _ hr => .done hr.frame.status.symm hr

theorem Runs.resume : L.Runs Eq (Exec.modifyFrame Frame.resume) (Exec.modifyFrame Frame.resume) :=
  fun _ _ hr => .done rfl (hr.frame_to hr.frame.resume)

theorem Runs.returnWith (v : Value) :
    L.Runs Eq (Exec.modifyFrame (·.returnWith v)) (Exec.modifyFrame (·.returnWith v)) :=
  fun _ _ hr => .done rfl (hr.frame_to (hr.frame.returnWith v))

theorem Runs.get : L.Runs L.State get get := fun _ _ hr => .done hr hr

theorem Runs.onStore {f f' : Store → α × Store}
    (h : ∀ s s', L.store s s' → S (f s).1 (f' s').1 ∧ L.store (f s).2 (f' s').2) :
    L.Runs S (Exec.onStore f) (Exec.onStore f') := by
  intro r r' hr
  obtain ⟨ha, hs⟩ := h _ _ hr.store
  exact .done ha (hr.store_to hs)

theorem Runs.enter (l : Limits) (i i' : NodeId) : L.Runs Eq (Exec.enter l i) (Exec.enter l i') := by
  intro r r' hr
  rw [Exec.runFrom_enter, Exec.runFrom_enter, hr.frame.isEvaluating, hr.steps]
  split
  · exact .done rfl hr
  split
  · exact .done rfl ⟨hr.frame.signal _, hr.store, rfl, hr.depth⟩
  · exact .done rfl ⟨hr.frame, hr.store, rfl, hr.depth⟩

theorem Runs.mapM {ι : Type} {f f' : ι → Exec α} (h : ∀ i, L.Runs S (f i) (f' i)) (l : List ι) :
    L.Runs (List.Forall₂ S) (l.mapM f) (l.mapM f') := by
  induction l with
  | nil =>
    rw [List.mapM_nil, List.mapM_nil]
    exact Runs.pure .nil
  | cons i l ih =>
    rw [List.mapM_cons, List.mapM_cons]
    exact (h i).bind fun _ _ ha => ih.bind fun _ _ has => Runs.pure (.cons ha has)

theorem Runs.foldlM {ι : Type} {f f' : α → ι → Exec α} (h : ∀ a a' i, S a a' → L.Runs S (f a i) (f' a' i)) (l : List ι)
    {a a' : α} (ha : S a a') : L.Runs S (l.foldlM f a) (l.foldlM f' a') := by
  induction l generalizing a a' with
  | nil => exact Runs.pure ha
  | cons i l ih =>
    rw [List.foldlM_cons, List.foldlM_cons]
    exact (h _ _ i ha).bind fun _ _ hb => ih hb

theorem Runs.orElse {x x' : Exec Yield} {y y' : Yield} (h : L.Runs (Yield.Alike L.pair) x x') (hy : y.Alike L.pair y') :
    L.Runs (Yield.Alike L.pair) (Exec.orElse x y) (Exec.orElse x' y') := by
  intro r r' hr
  have h := h r r' hr
  rw [Exec.runFrom_orElse, Exec.runFrom_orElse]
  generalize x.runFrom r = res at h
  generalize x'.runFrom r' = res' at h
  cases h with
  | done ha hr => exact .done ha hr
  | stopped hr => exact .done hy hr
  | broken hv hr => exact .broken hv hr

end Rules

section Operands

variable {k k' : Exec Yield}

theorem Runs.read {h h' : Handle} (hh : h.Alike L.pair h') : L.Runs Eq (Exec.onStore h.get) (Exec.onStore h'.get) :=
  Runs.onStore fun s s' hs => by
    cases hh with
    | unbound b => exact ⟨rfl, hs⟩
    | bound hx =>
      obtain ⟨hv, hs'⟩ := L.reads hx hs
      exact ⟨congrArg some hv.symm, hs'⟩

theorem Runs.assign {h h' : Handle} (hh : h.Alike L.pair h') (v : Value) :
    L.Runs Eq (Exec.assign h v) (Exec.assign h' v) := by
  refine Runs.seq (Runs.onStore fun s s' hs => ?_) fun done => ?_
  · cases hh with
    | unbound b => exact ⟨rfl, hs⟩
    | @bound x x' hx =>
      by_cases hv : v.base = x.base
      · simpa [Handle.set, L.base hx, hv] using L.writes hx hv hs
      · simpa [Handle.set, L.base hx, hv] using hs
  · cases done
    · exact Runs.pure rfl
    · cases hh with
      | unbound b => exact Runs.pure rfl
      | bound hx => exact (Runs.note _ _).seq fun _ => Runs.pure rfl

theorem Runs.operand (h : L.Runs (Yield.Alike L.pair) k k') :
    L.Runs (Yield.Alike L.pair) (Exec.operand k) (Exec.operand k') :=
  h.bind fun _ _ hy => Runs.isEvaluating.seq fun b => by
    cases b
    · exact Runs.stop
    · exact Runs.pure hy

theorem Runs.read? {y y' : Yield} (hy : y.Alike L.pair y') : L.Runs Eq (Exec.read? y) (Exec.read? y') := by
  have through : ∀ {h h' : Handle} (s : Status), h.Alike L.pair h' → L.Runs Eq (do
      let v ← Exec.onStore h.get
      if v.isNone then Exec.signal s
      return v) (do
      let v ← Exec.onStore h'.get
      if v.isNone then Exec.signal s
      return v) := fun s hh => (Runs.read hh).seq fun v => by
    cases v with
    | none => exact (Runs.signal s).seq fun _ => Runs.pure rfl
    | some v => exact Runs.pure rfl
  cases hy with
  | void => exact (Runs.note _ _).seq fun _ => Runs.pure rfl
  | value v => exact Runs.pure rfl
  | leftHand hh => exact through _ hh
  | reference hh => exact through _ hh

theorem Runs.readOr {other : Exec Value} (ho : L.Runs Eq other other) {y y' : Yield} (hy : y.Alike L.pair y') :
    L.Runs Eq (Exec.readOr other y) (Exec.readOr other y') :=
  (Runs.read? hy).seq fun v => by
    cases v with
    | none => exact ho
    | some v => exact Runs.pure rfl

theorem Runs.value (h : L.Runs (Yield.Alike L.pair) k k') : L.Runs Eq (Exec.value k) (Exec.value k') :=
  h.operand.bind fun _ _ hy => Runs.readOr Runs.stop hy

theorem Runs.handle (h : L.Runs (Yield.Alike L.pair) k k') :
    L.Runs (Handle.Alike L.pair) (Exec.handle k) (Exec.handle k') :=
  h.operand.bind fun y y' hy => by
    have hh := hy.handle?
    generalize y.handle? = o at hh
    generalize y'.handle? = o' at hh
    cases hh with
    | none => exact Runs.mismatch
    | some hh => exact Runs.pure hh

theorem Runs.expectBool (v : Value) : L.Runs Eq (Exec.expectBool v) (Exec.expectBool v) := by
  cases v <;> first | exact Runs.pure rfl | exact Runs.mismatch

theorem Runs.expectInt (v : Value) : L.Runs Eq (Exec.expectInt v) (Exec.expectInt v) := by
  cases v <;> first | exact Runs.pure rfl | exact Runs.mismatch

theorem Runs.expectFloat (v : Value) : L.Runs Eq (Exec.expectFloat v) (Exec.expectFloat v) := by
  cases v <;> first | exact Runs.pure rfl | exact Runs.mismatch

theorem Runs.expectInts (v : Value) : L.Runs Eq (Exec.expectInts v) (Exec.expectInts v) := by
  cases v <;> first | exact Runs.pure rfl | exact Runs.mismatch

theorem Runs.expect {sort : Value → Exec α} {f f' : α → Exec β} (h : L.Runs (Yield.Alike L.pair) k k')
    (hs : ∀ v, L.Runs Eq (sort v) (sort v)) (hf : ∀ a, L.Runs T (f a) (f' a)) :
    L.Runs T (do
      let v ← Exec.value k
      let a ← sort v
      f a) (do
      let v ← Exec.value k'
      let a ← sort v
      f' a) :=
  h.value.seq fun v => (hs v).seq hf

theorem Runs.access {x x' : Option Variable} (hx : Option.Rel L.pair x x') (ty : Ty) :
    L.Runs (Yield.Alike L.pair) (Exec.access ty x) (Exec.access ty x') := by
  have hf : Option.Rel L.pair (x.filter (·.base = ty.base)) (x'.filter (·.base = ty.base)) := by
    cases hx with
    | none => exact .none
    | @some a a' ha =>
      by_cases hb : a.base = ty.base
      · simpa [Option.filter, L.base ha, hb] using Option.Rel.some ha
      · rw [Option.filter_some_neg (by simpa using hb), Option.filter_some_neg (by simpa [L.base ha] using hb)]
        exact .none
  unfold Exec.access
  generalize x.filter (·.base = ty.base) = z at hf
  generalize x'.filter (·.base = ty.base) = z' at hf
  have hh : (z.elim (Handle.unbound ty.base) .bound).Alike L.pair (z'.elim (Handle.unbound ty.base) .bound) := by
    cases hf with
    | none => exact .unbound _
    | some ha => exact .bound ha
  cases ty.qualifier with
  | leftHand => exact Runs.pure (.leftHand hh)
  | reference => exact Runs.pure (.reference hh)
  | plain =>
    cases hf with
    | none => exact Runs.invalid
    | some ha =>
      refine Runs.seq (Runs.onStore fun s s' hs => ?_) fun v => Runs.pure (.value v)
      exact ⟨(L.reads ha hs).1.symm, (L.reads ha hs).2⟩

theorem Runs.arithmetic (op : Arithmetic) (b : Base) (v w : Value) :
    L.Runs Eq (Exec.arithmetic op b v w) (Exec.arithmetic op b v w) := by
  cases b with
  | int =>
    refine (Runs.expectInt v).seq fun i => (Runs.expectInt w).seq fun j => ?_
    cases op.onInts i j with
    | none => exact Runs.invalid
    | some k => exact Runs.pure rfl
  | float =>
    refine (Runs.expectFloat v).seq fun i => (Runs.expectFloat w).seq fun j => ?_
    cases op.onFloats i j with
    | none => exact Runs.invalid
    | some k => exact Runs.pure rfl
  | _ => exact Runs.mismatch

theorem Runs.rounds (h : L.Runs (Yield.Alike L.pair) k k') (m : Nat) {y y' : Yield} (hy : y.Alike L.pair y') :
    L.Runs (Yield.Alike L.pair) (Exec.rounds k m y) (Exec.rounds k' m y') := by
  induction m generalizing y y' with
  | zero => exact Runs.pure hy
  | succ m ih =>
    unfold Exec.rounds
    refine h.bind fun _ _ hz => Runs.status.seq fun s => ?_
    cases s with
    | evaluating => exact ih hz
    | continueCalled => exact Runs.resume.seq fun _ => ih hy
    | breakCalled => exact Runs.resume.seq fun _ => Runs.pure hy
    | _ => exact Runs.stop

theorem Runs.bindArgument (slot : Ty) (h : L.Runs (Yield.Alike L.pair) k k') :
    L.Runs L.pair (Exec.bindArgument slot k) (Exec.bindArgument slot k') := by
  cases hq : slot.isQualified with
  | true =>
    unfold Exec.bindArgument
    rw [hq]
    refine h.operand.bind fun y y' hy => ?_
    have hh := hy.handle?
    generalize y.handle? = o at hh
    generalize y'.handle? = o' at hh
    cases hh with
    | none => exact Runs.mismatch
    | some hh =>
      cases hh with
      | unbound b => exact Runs.invalid
      | bound hx => exact Runs.pure hx
  | false =>
    rw [Exec.bindArgument_plain hq, Exec.bindArgument_plain hq]
    refine h.operand.bind fun _ _ hy => (Runs.readOr Runs.invalid hy).seq fun v => Runs.onStore fun s s' hs => ?_
    obtain ⟨hs', hx⟩ := L.makes hs (some v)
    exact ⟨hx _ _, hs'⟩

end Operands

section Kinds

variable {call call' : Callee → List Variable → Exec Yield}

theorem Runs.substitute {b : Base} {kid kid' : Fin 2 → Exec Yield}
    (h : ∀ i, L.Runs (Yield.Alike L.pair) (kid i) (kid' i)) :
    L.Runs (Yield.Alike L.pair) (Exec.produce call (.substitute b) kid) (Exec.produce call' (.substitute b) kid') := by
  refine (h 0).handle.bind fun l l' hl => (h 1).value.seq fun v => ?_
  dsimp only
  rw [hl.isBound]
  cases l.isBound
  · exact (Runs.fault (S := fun _ _ => False) _).bind fun _ _ h => h.elim
  · refine (Runs.assign hl v).seq fun done => ?_
    cases done
    · exact Runs.mismatch
    · exact Runs.pure (.value v)

theorem Runs.increment {b : Base} {kid kid' : Fin 1 → Exec Yield}
    (h : ∀ i, L.Runs (Yield.Alike L.pair) (kid i) (kid' i)) :
    L.Runs (Yield.Alike L.pair) (Exec.produce call (.increment b) kid) (Exec.produce call' (.increment b) kid') := by
  refine (h 0).handle.bind fun l l' hl => (Runs.read hl).seq fun o => ?_
  have put : ∀ v : Value, L.Runs (Yield.Alike L.pair) (do let _ ← Exec.assign l v; return Yield.value v)
      (do let _ ← Exec.assign l' v; return Yield.value v) := fun v =>
    (Runs.assign hl v).seq fun _ => Runs.pure (.value v)
  cases o with
  | none => exact Runs.fault _
  | some v =>
    cases v with
    | int i => exact put _
    | float x => exact put _
    | _ => exact Runs.mismatch

theorem Runs.elementAt {b : Base} {kid kid' : Fin 2 → Exec Yield}
    (h : ∀ i, L.Runs (Yield.Alike L.pair) (kid i) (kid' i)) :
    L.Runs (Yield.Alike L.pair) (Exec.produce call (.elementAt b) kid) (Exec.produce call' (.elementAt b) kid') := by
  refine (h 0).expect Runs.expectInts fun xs => (h 1).expect Runs.expectInt fun i => ?_
  by_cases hi : i < 0
  · simpa [hi, Exec.invalid_bind] using Runs.invalid
  · cases hx : xs[i.toInt.toNat]? with
    | none => simpa [hi, hx] using Runs.invalid
    | some x => simpa [hi, hx] using Runs.pure (Yield.Alike.value (.int x))

theorem Runs.compare {op : Comparison} {b : Base} {kid kid' : Fin 2 → Exec Yield}
    (h : ∀ i, L.Runs (Yield.Alike L.pair) (kid i) (kid' i)) :
    L.Runs (Yield.Alike L.pair) (Exec.produce call (.comparison op b) kid)
      (Exec.produce call' (.comparison op b) kid') := by
  refine (h 0).value.seq fun x => (h 1).value.seq fun y => ?_
  have yields : L.Runs (Yield.Alike L.pair) _ _ := Runs.pure (Yield.Alike.value (.bool (op.holds (x.compare? y))))
  by_cases hb : x.base = y.base
  · simpa [hb] using yields
  · simpa [hb] using (Runs.note _ _).seq fun _ => yields

theorem Runs.repeatTimes {ty : Ty} {kid kid' : Fin 2 → Exec Yield}
    (h : ∀ i, L.Runs (Yield.Alike L.pair) (kid i) (kid' i)) :
    L.Runs (Yield.Alike L.pair) (Exec.produce call (.repeatTimes ty) kid)
      (Exec.produce call' (.repeatTimes ty) kid') := by
  refine (h 0).expect Runs.expectInt fun n => ?_
  by_cases hn : n < 0
  · simpa [hn, Exec.invalid_bind] using Runs.invalid
  · simpa [hn] using (h 1).rounds n.toInt.toNat (Yield.alike_ofType ty)

/-- Nodes of one kind are in lockstep if their children and calls are. -/
theorem Runs.produce
    (hcall : ∀ c xs xs', List.Forall₂ L.pair xs xs' → L.Runs (Yield.Alike L.pair) (call c xs) (call' c xs')) (n : Node)
    {kid kid' : Fin n.arity → Exec Yield} (h : ∀ i, L.Runs (Yield.Alike L.pair) (kid i) (kid' i)) :
    L.Runs (Yield.Alike L.pair) (Exec.produce call n kid) (Exec.produce call' n kid') := by
  cases n with
  | const v => exact Runs.pure (.value v)
  | argument ty i =>
    exact Runs.get.bind fun r r' hr => Runs.access (getElem?_of_forall₂ hr.frame.arguments i) ty
  | localVariable ty i =>
    exact Runs.get.bind fun r r' hr => Runs.access (getElem?_of_forall₂ hr.frame.locals i) ty
  | progn ty k =>
    cases k with
    | zero => exact Runs.stop
    | succ k => exact Runs.foldlM (fun _ _ i _ => (h i).operand) _ .void
  | nop ty => exact Runs.pure (Yield.alike_ofType ty)
  | arithmetic op b =>
    refine (h (0 : Fin 2)).value.seq fun x => (h (1 : Fin 2)).value.seq fun y => ?_
    exact (Runs.arithmetic op b x y).seq fun v => Runs.pure (.value v)
  | comparison op b => exact Runs.compare h
  | logic op =>
    cases op with
    | not => exact (h (0 : Fin 1)).expect Runs.expectBool fun _ => Runs.pure (.value _)
    | _ =>
      exact (h (0 : Fin 2)).expect Runs.expectBool fun _ => (h (1 : Fin 2)).expect Runs.expectBool fun _ =>
        Runs.pure (.value _)
  | ifElse ty => exact (h (0 : Fin 3)).expect Runs.expectBool fun _ => (h _).operand
  | repeatTimes ty => exact Runs.repeatTimes h
  | substitute b => exact Runs.substitute h
  | increment b => exact Runs.increment h
  | elementAt b => exact Runs.elementAt h
  | size b => exact (h (0 : Fin 1)).expect Runs.expectInts fun _ => Runs.pure (.value _)
  | breakLoop ty => exact Runs.fault _
  | continueLoop ty => exact Runs.fault _
  | returnValue ty =>
    exact (h (0 : Fin 1)).value.seq fun v => (Runs.returnWith v).seq fun _ => Runs.pure (.value v)
  | call c => exact (Runs.mapM (fun i => Runs.bindArgument _ (h i)) _).bind fun xs xs' hxs => hcall c xs xs' hxs

end Kinds

section Frames

theorem Runs.conclude {x x' : Exec Yield} (h : L.Runs (Yield.Alike L.pair) x x') (n : Node) :
    L.Runs (Yield.Alike L.pair) (Exec.conclude n x) (Exec.conclude n x') :=
  (h.orElse (Yield.alike_ofType n.returns)).bind fun _ _ hy => Runs.isEvaluating.seq fun b => by
    cases b
    · exact Runs.pure hy
    · exact (Runs.note _ _).seq fun _ => Runs.pure hy

theorem Runs.entering {x x' : Exec Yield} (h : L.Runs (Yield.Alike L.pair) x x') (l : Limits) (i i' : NodeId)
    (ty : Ty) :
    L.Runs (Yield.Alike L.pair) (Exec.entering l i ty x) (Exec.entering l i' ty x') :=
  (Runs.enter l i i').seq fun b => by
    cases b
    · exact Runs.pure (Yield.alike_ofType ty)
    · exact h

theorem Runs.eval {w w' : World} (hl : w'.limits = w.limits) {call call' : Callee → List Variable → Exec Yield}
    (hcall : ∀ c xs xs', List.Forall₂ L.pair xs xs' → L.Runs (Yield.Alike L.pair) (call c xs) (call' c xs'))
    {s s' : Shape} (hs : s.Alike L.breach s') : L.Runs (Yield.Alike L.pair) (w.eval call s) (w'.eval call' s') := by
  induction hs with
  | node _ ih =>
    rw [Exec.eval_node, Exec.eval_node, hl]
    exact ((Runs.produce hcall _ ih).conclude _).entering _ _ _ _
  | torn h =>
    rw [Exec.eval_torn, Exec.eval_torn, hl]
    exact (Runs.violate h).entering _ _ _ _

theorem Runs.finish {y y' : Yield} (hy : y.Alike L.pair y') : L.Runs Eq (Exec.finish y) (Exec.finish y') := by
  intro r r' hr
  rw [Exec.runFrom_finish, Exec.runFrom_finish, hr.frame.status]
  cases r.frame.status with
  | evaluating =>
    have hread := Runs.read? hy r r' hr
    dsimp only
    generalize (Exec.read? y).runFrom r = res at hread
    generalize (Exec.read? y').runFrom r' = res' at hread
    cases hread with
    | @done o o' a a' ho hr =>
      obtain rfl := ho
      cases o with
      | none =>
        have hf := hr.frame.signal .invalidValue
        exact .done (by rw [hf.status]) (hr.frame_to hf)
      | some v => exact .done rfl hr
    | stopped hr => exact .stopped hr
    | broken hv hr => exact .broken hv hr
  | valueReturned =>
    exact .done (by rw [hr.frame.returned]) (hr.frame_to ⟨hr.frame.arguments, hr.frame.locals, hr.frame.status, rfl⟩)
  | _ => exact .done rfl hr

theorem Runs.hand (o : Outcome) : L.Runs (Yield.Alike L.pair) o.hand o.hand := by
  rcases Exec.hand_cases o with ⟨v, -, h⟩ | ⟨-, h⟩ | ⟨-, h⟩ <;> rw [h]
  · exact Runs.pure (.value v)
  · exact Runs.invalid
  · exact Runs.fault _

theorem freshCells_alike (tys : List Ty) {s s' : Store} (hs : L.store s s') :
    (∃ xs xs' u u', freshCells tys s = .ok (xs, u) ∧ freshCells tys s' = .ok (xs', u') ∧
      List.Forall₂ L.pair xs xs' ∧ L.store u u') ∨
      ∃ v, freshCells tys s = .error v ∧ freshCells tys s' = .error v := by
  induction tys generalizing s s' with
  | nil => exact .inl ⟨_, _, _, _, rfl, rfl, .nil, hs⟩
  | cons ty tys ih =>
    simp only [freshCells, Variable.newEmpty]
    by_cases hb : ty.base = .any
    · exact .inr ⟨.wildcardVariable, by simp [hb, bind, Except.bind], by simp [hb, bind, Except.bind]⟩
    · obtain ⟨halloc, hx⟩ := L.makes hs none
      simp only [hb, dite_false, bind, Except.bind]
      rcases ih halloc with ⟨xs, xs', u, u', h, h', hxs, hu⟩ | ⟨v, h, h'⟩
      · exact .inl ⟨_, _, _, _, by rw [h]; rfl, by rw [h']; rfl, .cons (hx ty.base hb) hxs, hu⟩
      · exact .inr ⟨v, by rw [h], by rw [h']⟩

theorem State.back {r r' after after' : Run} (hr : L.State r r') (h : L.State after after') :
    L.State (after.back r) (after'.back r') :=
  ⟨hr.frame, h.store, h.steps, by rw [Run.back, Run.back, h.depth]⟩

theorem Runs.call {w w' : World} (hg : w.registry.SamePrograms L.breach w'.registry) {f f' : Shape → Exec Yield}
    (hf : ∀ {s s' : Shape}, s.Alike L.breach s' → L.Runs (Yield.Alike L.pair) (f s) (f' s')) (c : Callee)
    {xs xs' : List Variable} (hxs : List.Forall₂ L.pair xs xs') :
    L.Runs (Yield.Alike L.pair) (w.call (some f) c xs) (w'.call (some f') c xs') := by
  have hbodies := hg c.name
  rcases hb : w.registry.body? c.name with _ | body <;> rcases hb' : w'.registry.body? c.name with _ | body' <;>
    rw [hb, hb'] at hbodies <;> cases hbodies
  · simp only [World.call, hb, hb']
    exact Runs.invalid
  · rename_i hbody
    have hshapes := hbody.shape
    rcases hs : body.shape? with _ | shape <;> rcases hs' : body'.shape? with _ | shape' <;>
      rw [hs, hs'] at hshapes <;> cases hshapes
    · simp only [World.call, hb, hb', hs, hs']
      exact Runs.invalid
    · rename_i hshape
      intro r r' hr
      rw [Exec.runFrom_call hb hs, Exec.runFrom_call hb' hs', hbody.locals]
      rcases freshCells_alike body.signature.locals hr.store with ⟨ls, ls', u, u', h, h', hls, hu⟩ | ⟨v, h, h'⟩
        <;> rw [h, h']
      · have hcallee : L.State (r.callee c xs ls u) (r'.callee c xs' ls' u') :=
          ⟨⟨hxs, hls, rfl, rfl⟩, hu, hr.steps, by rw [Run.callee, Run.callee, hr.depth]⟩
        have hrun := Runs.bind (hf hshape) (fun _ _ => Runs.finish) _ _ hcallee
        dsimp only
        generalize (f shape >>= Exec.finish).runFrom (r.callee c xs ls u) = res at hrun
        generalize (f' shape' >>= Exec.finish).runFrom (r'.callee c xs' ls' u') = res' at hrun
        cases hrun with
        | done ho hafter => exact ho ▸ Runs.hand _ _ _ (hr.back hafter)
        | stopped hafter => exact .stopped hafter
        | broken hv hafter => exact .broken hv hafter
      · exact .broken (L.breach_refl v) (hr.journal_to _ _)

theorem Runs.call_refused {w w' : World} (hg : w.registry.SamePrograms L.breach w'.registry) (c : Callee)
    (xs xs' : List Variable) : L.Runs (Yield.Alike L.pair) (w.call none c xs) (w'.call none c xs') := by
  have hbodies := hg c.name
  rcases hb : w.registry.body? c.name with _ | body <;> rcases hb' : w'.registry.body? c.name with _ | body' <;>
    rw [hb, hb'] at hbodies <;> cases hbodies
  · simp only [World.call, hb, hb']
    exact Runs.invalid
  · rename_i hbody
    have hshapes := hbody.shape
    rcases hs : body.shape? with _ | shape <;> rcases hs' : body'.shape? with _ | shape' <;>
      rw [hs, hs'] at hshapes <;> cases hshapes
    · simp only [World.call, hb, hb', hs, hs']
      exact Runs.invalid
    · rw [Exec.call_refused hb hs, Exec.call_refused hb' hs']
      exact Runs.fault _

theorem Runs.run {w w' : World} (hl : w'.limits = w.limits) (hg : w.registry.SamePrograms L.breach w'.registry)
    (room : Nat)
    {s s' : Shape} (hs : s.Alike L.breach s') : L.Runs (Yield.Alike L.pair) (w.run room s) (w'.run room s') := by
  induction room generalizing s s' with
  | zero => exact Runs.eval hl (fun c xs xs' _ => Runs.call_refused hg c xs xs') hs
  | succ room ih => exact Runs.eval hl (fun c _ _ hxs => Runs.call hg ih c hxs) hs

theorem Ends.state {res res' : Except Halt α × Run} (h : L.Ends S res res') : L.State res.2 res'.2 := by
  cases h <;> assumption

theorem Ends.outcome {x x' : Exec Outcome} {r r' : Run} (h : L.Ends Eq (x.runFrom r) (x'.runFrom r')) :
    L.Agrees (x.outcome r) (x'.outcome r') := by
  rw [Exec.outcome, Exec.outcome, show x.run r = x.runFrom r from rfl, show x'.run r' = x'.runFrom r' from rfl]
  generalize x.runFrom r = res at h
  generalize x'.runFrom r' = res' at h
  cases h with
  | done ho hr => exact ho ▸ ⟨.ok _, hr.steps, hr.store⟩
  | stopped hr => exact ⟨.error (L.breach_refl _), hr.steps, hr.store⟩
  | broken hv hr => exact ⟨.error hv, hr.steps, hr.store⟩

theorem evaluate {w w' : World} (hl : w'.limits = w.limits) (hg : w.registry.SamePrograms L.breach w'.registry)
    {t t' : Tree} (ht : t.SameProgram L.breach t') {xs xs' : List Variable} (hxs : List.Forall₂ L.pair xs xs')
    {s s' : Store} (hs : L.store s s') : L.Agrees (t.evaluate w xs s) (t'.evaluate w' xs' s') := by
  have hshapes := ht.shape
  rcases ho : t.shape? with _ | shape <;> rcases ho' : t'.shape? with _ | shape' <;> rw [ho, ho'] at hshapes <;>
    cases hshapes
  · simp only [Tree.evaluate, ho, ho']
    exact ⟨.error (L.breach_refl _), rfl, hs⟩
  · rename_i hshape
    rcases freshCells_alike t.signature.locals hs with ⟨ls, ls', u, u', h, h', hls, hu⟩ | ⟨v, h, h'⟩
    · rw [← ht.locals] at h'
      rw [Tree.evaluate_of_shape ho h, Tree.evaluate_of_shape ho' h', hl]
      have hstart : L.State (.start (.start xs ls) u) (.start (.start xs' ls') u') :=
        ⟨⟨hxs, hls, rfl, rfl⟩, hu, rfl, rfl⟩
      exact Ends.outcome (Runs.bind (Runs.run hl hg w.limits.maxDepth hshape) (fun _ _ => Runs.finish) _ _ hstart)
    · rw [← ht.locals] at h'
      simp only [Tree.evaluate, ho, ho', h, h']
      exact ⟨.error (L.breach_refl v), rfl, hs⟩

end Frames
end Lockstep

end Grove
