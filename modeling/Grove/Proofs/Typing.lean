import Grove.Proofs.Exec

/-! What is typed while a tree is evaluated. `cs` gives each cell the base that its variables have and its
content must have; new cells extend it. A yield conforms to the type of its node when it is a plain value or
a handle of that base, and a handle of that very sort if the type is qualified. Frames may return values of
some `stray` bases besides the declared one; without stray bases, values have the declared base everywhere. -/

namespace Grove

variable {stray cs cs' : List Base} {ty : Ty}

/-- The value may stand where a value of base `b` is due. -/
def Value.Fits (stray : List Base) (b : Base) (v : Value) : Prop := v.base = b ∨ v.base ∈ stray

theorem Base.int_ne_any : Base.int ≠ .any := nofun

def Variable.Typed (cs : List Base) (x : Variable) : Prop := cs[x.cell]? = some x.base

def Handle.Typed (cs : List Base) (h : Handle) : Prop := ∀ x ∈ h.target?, x.Typed cs

structure Store.Typed (cs : List Base) (s : Store) : Prop where
  size : cs.length = s.cells.size
  content : ∀ {i v}, s.content i = some v → cs[i]? = some v.base

def Yield.Typed (cs : List Base) (y : Yield) : Prop := ∀ h ∈ y.handle?, h.Typed cs

/-- Slots and nodes of the wildcard base take and yield anything. -/
def Yield.Conforms (stray : List Base) (ty : Ty) (y : Yield) : Prop :=
  ty.base ≠ .any →
    match y with
    | .void => False
    | .value v => ty.qualifier = .plain ∧ v.Fits stray ty.base
    | .leftHand h => h.base = ty.base ∧ (ty.qualifier = .plain ∨ ty.qualifier = .leftHand)
    | .reference h => h.base = ty.base ∧ (ty.qualifier = .plain ∨ ty.qualifier = .reference)

/-- The base of what is yielded, as a value or behind a handle. -/
def Yield.base? : Yield → Option Base
  | .void => none
  | .value v => some v.base
  | .leftHand h => some h.base
  | .reference h => some h.base

def Yield.qualifier? : Yield → Option Qualifier
  | .void => none
  | .value _ => some .plain
  | .leftHand _ => some .leftHand
  | .reference _ => some .reference

/-- Nodes hand on what conforms to their types, and none is handed what it cannot take. -/
def Event.Sound (stray : List Base) : Event → Prop
  | .yielded n y => y.Conforms stray n.returns
  | .mismatched => stray ≠ []
  | _ => True

/-- A state of a frame that is declared to return `d`. -/
structure Run.Typed (stray : List Base) (d : Ty) (cs : List Base) (r : Run) : Prop where
  store : r.store.Typed cs
  arguments : ∀ x ∈ r.frame.arguments, x.Typed cs
  locals : ∀ x ∈ r.frame.locals, x.Typed cs
  returned : ∀ v ∈ r.frame.returned, v.Fits stray d.base
  journal : ∀ e ∈ r.journal, e.Sound stray

theorem getElem?_of_isPrefix {i : Nat} {b : Base} (hc : cs <+: cs') (h : cs[i]? = some b) : cs'[i]? = some b := by
  obtain ⟨t, rfl⟩ := hc
  rwa [List.getElem?_append_left (List.getElem?_eq_some_iff.1 h).1]

theorem Variable.Typed.mono {x : Variable} (h : x.Typed cs) (hc : cs <+: cs') : x.Typed cs' :=
  getElem?_of_isPrefix hc h

theorem Handle.Typed.mono {h : Handle} (hh : h.Typed cs) (hc : cs <+: cs') : h.Typed cs' :=
  fun x hx => (hh x hx).mono hc

theorem Yield.Typed.mono {y : Yield} (hy : y.Typed cs) (hc : cs <+: cs') : y.Typed cs' :=
  fun h hh => (hy h hh).mono hc

namespace Yield

theorem conforms_any (h : ty.base = .any) (y : Yield) : y.Conforms stray ty := fun h' => absurd h h'

theorem typed_value (v : Value) : (Yield.value v).Typed cs := by simp [Typed, handle?]

theorem conforms_value {v : Value} {b : Base} (h : v.Fits stray b) : (Yield.value v).Conforms stray (.plain b) :=
  fun _ => ⟨rfl, h⟩

theorem typed_ofType (ty : Ty) : (ofType ty).Typed cs := by
  unfold ofType
  cases ty.qualifier
  · cases Value.default? ty.base <;> simp [Typed, handle?]
  · simp [Typed, handle?, Handle.Typed, Handle.target?]
  · simp [Typed, handle?, Handle.Typed, Handle.target?]

theorem conforms_ofType (ty : Ty) : (ofType ty).Conforms stray ty := by
  intro h
  unfold ofType
  cases hq : ty.qualifier
  · simp [Value.default?_of_ne h, Value.Fits]
  · simp [Handle.base]
  · simp [Handle.base]

theorem conforms_nil {y : Yield} : y.Conforms [] ty ↔
    (ty.base ≠ .any → y.base? = some ty.base ∧ (ty.isQualified = true → y.qualifier? = some ty.qualifier)) := by
  refine imp_congr_right fun _ => ?_
  cases y <;> cases hq : ty.qualifier <;> simp [base?, qualifier?, Ty.isQualified, Value.Fits, hq]

theorem Conforms.of_accepts {slot child : Ty} {y : Yield} (h : y.Conforms stray child)
    (ha : slot.accepts child = true) : y.Conforms stray slot := by
  rcases Ty.accepts_iff.1 ha with ha | rfl | rfl
  · exact conforms_any ha y
  · exact h
  · -- a plain slot over a qualified child
    intro hs
    have := h hs
    revert this
    cases y with
    | void => exact id
    | value v => rintro ⟨_, hv⟩; exact ⟨rfl, hv⟩
    | leftHand l => rintro ⟨hl, _⟩; exact ⟨hl, .inl rfl⟩
    | reference l => rintro ⟨hl, _⟩; exact ⟨hl, .inl rfl⟩

end Yield

namespace Store

theorem Typed.write {s : Store} (h : s.Typed cs) {x : Variable} (hx : x.Typed cs) {v : Value} (hv : v.base = x.base) :
    (s.write x.cell v).Typed cs := by
  have hlt : x.cell < s.cells.size := h.size ▸ (List.getElem?_eq_some_iff.1 hx).1
  refine ⟨by simp [h.size], fun {i w} hw => ?_⟩
  by_cases hi : x.cell = i
  · subst hi
    rw [content_write_self hlt, Option.some.injEq] at hw
    rw [← hw, hv]
    exact hx
  · exact h.content (by rwa [content_write_of_ne hi] at hw)

theorem Typed.alloc {s : Store} (h : s.Typed cs) (b : Base) {c : Option Value} (hc : ∀ v ∈ c, v.base = b) :
    (s.alloc c).2.Typed (cs ++ [b]) ∧ (cs ++ [b])[(s.alloc c).1]? = some b := by
  refine ⟨⟨by simp [Store.alloc, h.size], fun {i v} hv => ?_⟩, by simp [Store.alloc, h.size]⟩
  rcases Nat.lt_trichotomy i s.cells.size with hi | rfl | hi
  · rw [content_alloc_of_lt hi] at hv
    exact getElem?_of_isPrefix (List.prefix_append _ _) (h.content hv)
  · have : c = some v := by simpa [Store.alloc, Store.content] using hv
    simp [← h.size, hc v this]
  · have : (s.cells.push c)[i]? = none := Array.getElem?_eq_none (by rw [Array.size_push]; exact hi)
    rw [Store.alloc, Store.content, this] at hv
    cases hv

end Store

namespace Variable

theorem Typed.get {x : Variable} (hx : x.Typed cs) {s : Store} (hs : s.Typed cs) :
    (x.get s).1.base = x.base ∧ (x.get s).2.Typed cs := by
  unfold Variable.get
  split
  · rename_i v hv
    have : some v.base = some x.base := (hs.content hv).symm.trans hx
    exact ⟨Option.some.inj this, hs⟩
  · exact ⟨Value.base_initial _, hs.write hx (Value.base_initial _)⟩

end Variable

theorem Handle.Typed.get {h : Handle} (hh : h.Typed cs) {s : Store} (hs : s.Typed cs) :
    (∀ v ∈ (h.get s).1, v.base = h.base) ∧ (h.get s).2.Typed cs := by
  cases h with
  | unbound b => exact ⟨by simp [Handle.get], hs⟩
  | bound x =>
    have := (hh x rfl).get hs
    exact ⟨by simpa [Handle.get, Handle.base] using this.1, this.2⟩

theorem Handle.Typed.set {h : Handle} (hh : h.Typed cs) {s : Store} (hs : s.Typed cs) (v : Value) :
    (h.set v s).2.Typed cs := by
  unfold Handle.set
  cases h with
  | unbound b => exact hs
  | bound x =>
    by_cases hv : v.base = x.base
    · simpa [hv] using hs.write (hh x rfl) hv
    · simpa [hv] using hs

end Grove
