import Grove.Proofs.Typing

/-! Aliases. Variables, handles and locations are made from one another and share cells, while each carries a base of
its own. Through any history of operations on them a cell keeps one base, and each read of it, through whichever alias,
gives what was written to it last, or the default of its base if nothing was. -/

namespace Grove

/-- What a cell is read and written through. -/
inductive Alias where
  | var (x : Variable)
  | handle (h : Handle)
  | location (l : Location)
  deriving DecidableEq

namespace Alias

/-- The base that its users expect of the values. -/
def base : Alias → Base
  | var x => x.base
  | handle h => h.base
  | location l => l.base

/-- The variable behind it; there is none behind an unbound handle. -/
def target? : Alias → Option Variable
  | var x => some x
  | handle h => h.target?
  | location l => l.handle.target?

/-- It is of the base of the variable behind it. This is asserted of a location when it is made, and holds of the other
aliases anyway. -/
def Fits (a : Alias) : Prop := ∀ x ∈ a.target?, x.base = a.base

def read : Alias → Store → Option Value × Store
  | var x, s => let (v, s) := x.get s; (some v, s)
  | handle h, s => h.get s
  | location l, s => l.get s

/-- Tells whether the value was written. -/
def write : Alias → Value → Store → Except Violation (Bool × Store)
  | var x, v, s => (x.set v s).map fun s => (true, s)
  | handle h, v, s => .ok (h.set v s)
  | location l, v, s => .ok (l.set v s)

def written (a : Alias) (v : Option Value) : Option (Nat × Value) := a.target?.bind fun x => v.map fun v => (x.cell, v)

end Alias

/-- The cells, and all that was made to use them. -/
structure Session where
  store : Store
  held : List Alias

namespace Session

def start : Session := ⟨.empty, []⟩

def hold (S : Session) (a : Alias) : Session := { S with held := a :: S.held }

/-- One operation that broke no promise, with what it wrote. An update whose function itself uses the session is a read,
the steps of the function, and a write. -/
inductive Step (S : Session) : Option (Nat × Value) → Session → Prop
  | new (v : Value) :
      Step S (some ((Variable.new v S.store).1.cell, v))
        ⟨(Variable.new v S.store).2, .var (Variable.new v S.store).1 :: S.held⟩
  | newEmpty {b : Base} {x : Variable} {s : Store} (h : Variable.newEmpty b S.store = .ok (x, s)) :
      Step S none ⟨s, .var x :: S.held⟩
  | unbound (b : Base) : Step S none (S.hold (.handle (.unbound b)))
  | copy {a : Alias} (ha : a ∈ S.held) : Step S none (S.hold a)
  | share {h : Handle} {x : Variable} (hh : .handle h ∈ S.held) (hx : h.target? = some x) :
      Step S none (S.hold (.var x))
  | handle {x : Variable} (hx : .var x ∈ S.held) : Step S none (S.hold (.handle x.handle))
  | locate {h : Handle} (b : Base) (hh : .handle h ∈ S.held) : Step S none (S.hold (.location ⟨b, h⟩))
  | release {l : Location} (hl : .location l ∈ S.held) : Step S none (S.hold (.handle l.handle))
  | read {a : Alias} (ha : a ∈ S.held) : Step S none { S with store := (a.read S.store).2 }
  | write {a : Alias} {v : Value} {done : Bool} {s : Store} (ha : a ∈ S.held) (h : a.write v S.store = .ok (done, s)) :
      Step S (a.written (if done then some v else none)) { S with store := s }
  | update {l : Location} {f : Value → Value} (hl : .location l ∈ S.held)
      (hf : ∀ v, v.base = l.base → (f v).base = l.base) :
      Step S ((Alias.location l).written (l.update f S.store).1) { S with store := (l.update f S.store).2 }

/-- Any number of operations, with all that they wrote, newest first. -/
inductive History : List (Nat × Value) → Session → Prop
  | start : History [] start
  | step {log : List (Nat × Value)} {new : Option (Nat × Value)} {S S' : Session} (h : History log S)
      (hs : S.Step new S') : History (new.toList ++ log) S'

/-- What the cell of a variable was given last, or else the default of its base. -/
def due (log : List (Nat × Value)) (x : Variable) : Value := (log.lookup x.cell).getD (.initial x.base x.concrete)

/-- A value was assigned: the cell has it, all aliases of the cell give it, and no other cell changed. -/
structure Assigned (S : Session) (x : Variable) (v : Value) (s : Store) : Prop where
  base : v.base = x.base
  content : x.content s = some v
  seen : ∀ b ∈ S.held, b.Fits → ∀ y ∈ b.target?, y.cell = x.cell → b.read s = (some v, s)
  others : ∀ c, c ≠ x.cell → s.content c = S.store.content c

/-- Each cell has one base, and its content is due to the log: it is what was written last, or else the cell is empty
or has the default. -/
structure Sound (log : List (Nat × Value)) (cs : List Base) (S : Session) : Prop where
  store : S.store.Typed cs
  held : ∀ a ∈ S.held, ∀ x ∈ a.target?, x.Typed cs
  logged : ∀ p ∈ log, p.1 < cs.length
  content : ∀ x : Variable, x.Typed cs →
    x.content S.store = none ∧ log.lookup x.cell = none ∨ x.content S.store = some (due log x)

end Session

namespace Variable

variable {x y : Variable} {s : Store} {v : Value} {cs : List Base}

theorem get_filled (h : x.content s = some v) : x.get s = (v, s) := by rw [get, h]

theorem get_empty (h : x.content s = none) :
    x.get s = (.initial x.base x.concrete, s.write x.cell (.initial x.base x.concrete)) := by rw [get, h]

theorem Typed.lt (h : x.Typed cs) : x.cell < cs.length := (List.getElem?_eq_some_iff.1 h).1

theorem Typed.base_eq (hx : x.Typed cs) (hy : y.Typed cs) (h : x.cell = y.cell) : x.base = y.base := by
  unfold Variable.Typed at hx hy
  rw [h] at hx
  exact Option.some.inj (hx.symm.trans hy)

theorem Typed.content_write (h : x.Typed cs) (hs : s.Typed cs) (hc : y.cell = x.cell) (v : Value) :
    y.content (s.write x.cell v) = some v := by
  rw [content, hc]
  exact Store.content_write_self (hs.size ▸ h.lt)

theorem Typed.base_content (h : x.Typed cs) (hs : s.Typed cs) (hv : x.content s = some v) : v.base = x.base :=
  Option.some.inj ((hs.content hv).symm.trans h)

end Variable

namespace Alias

variable {a : Alias} {x : Variable} {s : Store} {v : Value}

theorem bound_cases (h : a.target? = some x) :
    a = .var x ∨ a = .handle (.bound x) ∨ ∃ b, a = .location ⟨b, .bound x⟩ := by
  rcases a with y | (b | y) | ⟨b, b' | y⟩ <;> cases h
  · exact .inl rfl
  · exact .inr (.inl rfl)
  · exact .inr (.inr ⟨b, rfl⟩)

theorem unbound_cases (h : a.target? = none) :
    (∃ b, a = .handle (.unbound b)) ∨ ∃ b b', a = .location ⟨b, .unbound b'⟩ := by
  rcases a with y | (b | y) | ⟨b, b' | y⟩ <;> cases h
  · exact .inl ⟨b, rfl⟩
  · exact .inr ⟨b, b', rfl⟩

@[simp] theorem fits_var (x : Variable) : (Alias.var x).Fits := by
  rintro _ ⟨⟩
  rfl

@[simp] theorem fits_handle (h : Handle) : (Alias.handle h).Fits := by
  rintro x hx
  cases h <;> cases hx
  rfl

theorem read_unbound (h : a.target? = none) (s : Store) : a.read s = (none, s) := by
  obtain ⟨b, rfl⟩ | ⟨b, b', rfl⟩ := unbound_cases h <;> rfl

theorem read_store (h : a.target? = some x) (s : Store) : (a.read s).2 = (x.get s).2 := by
  obtain rfl | rfl | ⟨b, rfl⟩ := bound_cases h <;> rfl

theorem read_value (h : a.target? = some x) (hb : (x.get s).1.base = x.base) :
    (a.Fits → (a.read s).1 = some (x.get s).1) ∧ (¬ a.Fits → (a.read s).1 = none) := by
  obtain rfl | rfl | ⟨b, rfl⟩ := bound_cases h
  · exact ⟨fun _ => rfl, fun hf => absurd (fits_var x) hf⟩
  · exact ⟨fun _ => rfl, fun hf => absurd (fits_handle _) hf⟩
  · have hfits : (Alias.location ⟨b, .bound x⟩).Fits ↔ (x.get s).1.base = b := by
      simp [Fits, target?, Handle.target?, base, hb]
    have hread : ((Alias.location ⟨b, .bound x⟩).read s).1 = (some (x.get s).1).filter (·.base = b) := rfl
    rw [hread, hfits]
    exact ⟨fun hv => by simp [hv], fun hv => by simp [hv]⟩

theorem write_unbound (h : a.target? = none) (v : Value) (s : Store) : a.write v s = .ok (false, s) := by
  obtain ⟨b, rfl⟩ | ⟨b, b', rfl⟩ := unbound_cases h <;> rfl

theorem write_right (h : a.target? = some x) (hv : v.base = x.base) (s : Store) :
    a.write v s = .ok (true, s.write x.cell v) := by
  obtain rfl | rfl | ⟨b, rfl⟩ := bound_cases h <;>
    simp [write, Variable.set, Handle.set, Location.set, Except.map, hv]

theorem write_wrong (h : a.target? = some x) (hv : v.base ≠ x.base) (s : Store) :
    a.write v s = .ok (false, s) ∨ a = .var x ∧ a.write v s = .error .assignedWrongType := by
  obtain rfl | rfl | ⟨b, rfl⟩ := bound_cases h
  · exact .inr ⟨rfl, by simp [write, Variable.set, Except.map, hv]⟩
  · exact .inl (by simp [write, Handle.set, hv])
  · exact .inl (by simp [write, Location.set, Handle.set, hv])

end Alias

namespace Location

variable {l : Location} {x : Variable} {s : Store} {f : Value → Value}

theorem update_unbound (h : l.handle.target? = none) (f : Value → Value) (s : Store) : l.update f s = (none, s) := by
  obtain ⟨b, b' | y⟩ := l <;> cases h
  rfl

theorem update_bound (h : l.handle.target? = some x) (hb : (x.get s).1.base = x.base)
    (hf : ∀ v, v.base = l.base → (f v).base = l.base) :
    (x.base = l.base → l.update f s = (some (f (x.get s).1), (x.get s).2.write x.cell (f (x.get s).1))) ∧
      (x.base ≠ l.base → l.update f s = (none, (x.get s).2)) := by
  have hstore : (l.get s).2 = (x.get s).2 := Alias.read_store (a := .location l) h s
  obtain ⟨hfits, hstray⟩ := Alias.read_value (a := .location l) h hb
  have hiff : (Alias.location l).Fits ↔ x.base = l.base := by simp [Alias.Fits, Alias.target?, Alias.base, h]
  rw [hiff] at hfits hstray
  refine ⟨fun hx => ?_, fun hx => ?_⟩
  · have hget : l.get s = (some (x.get s).1, (x.get s).2) := Prod.ext (hfits hx) hstore
    have hset : l.set (f (x.get s).1) (x.get s).2 = (true, (x.get s).2.write x.cell (f (x.get s).1)) :=
      Except.ok.inj (Alias.write_right (a := .location l) h ((hf _ (hb.trans hx)).trans hx.symm) _)
    rw [update, hget]
    dsimp only
    rw [hset]
  · have hget : l.get s = (none, (x.get s).2) := Prod.ext (hstray hx) hstore
    rw [update, hget]

end Location

namespace Session

variable {log : List (Nat × Value)} {new : Option (Nat × Value)} {cs : List Base} {S S' : Session} {a : Alias}
  {x y : Variable} {v : Value}

theorem lookup_written (h : y.cell = x.cell) (v : Value) (log : List (Nat × Value)) :
    ((x.cell, v) :: log).lookup y.cell = some v := by
  rw [h, List.lookup_cons_self]

theorem lookup_unwritten (h : y.cell ≠ x.cell) (o : Option Value) (log : List (Nat × Value)) :
    ((o.map fun v => (x.cell, v)).toList ++ log).lookup y.cell = log.lookup y.cell := by
  cases o with
  | none => rfl
  | some v =>
    have hne : (y.cell == x.cell) = false := beq_false_of_ne h
    simp [List.lookup_cons, hne]

namespace Sound

/-- A new cell has the base of the variable that is made with it. -/
theorem make (h : S.Sound log cs) (hx : x.cell = S.store.cells.size) {o : Option Value}
    (ho : ∀ v ∈ o, v.base = x.base) :
    Sound ((o.map fun v => (x.cell, v)).toList ++ log) (cs ++ [x.base]) ⟨(S.store.alloc o).2, .var x :: S.held⟩ := by
  have hsize : x.cell = cs.length := hx.trans h.store.size.symm
  obtain ⟨hstore, hnew⟩ := h.store.alloc x.base ho
  have hx' : x.Typed (cs ++ [x.base]) := by
    unfold Variable.Typed
    rwa [hx]
  have hkept : ∀ y : Variable, y.Typed cs → y.Typed (cs ++ [x.base]) := fun y hy => hy.mono (List.prefix_append _ _)
  refine ⟨hstore, List.forall_mem_cons.2 ⟨?_, fun a ha y hy => hkept y (h.held a ha y hy)⟩, fun p hp => ?_,
    fun y hy => ?_⟩
  · rintro _ ⟨⟩
    exact hx'
  · rw [List.length_append, List.length_singleton]
    rcases List.mem_append.1 hp with hp | hp
    · obtain ⟨v, -, rfl⟩ := Option.map_eq_some_iff.1 (Option.mem_toList.1 hp)
      dsimp only
      omega
    · exact Nat.lt_succ_of_lt (h.logged p hp)
  · by_cases hc : y.cell = x.cell
    · -- nothing was written to the new cell before it was there
      have hfresh : log.lookup y.cell = none := List.lookup_eq_none_iff.2 fun p hp => by
        have := h.logged p hp
        exact bne_iff_ne.2 (by omega)
      have hcontent : y.content (S.store.alloc o).2 = o := by
        rw [Variable.content, hc, hx]
        simp [Store.alloc, Store.content]
      cases o with
      | none => exact .inl ⟨hcontent, hfresh⟩
      | some v => exact .inr (by rw [hcontent, due, Option.map_some, Option.toList_some, List.singleton_append,
          lookup_written hc, Option.getD_some])
    · have hlt : y.cell < cs.length := by
        have := hy.lt
        rw [List.length_append, List.length_singleton] at this
        omega
      have hold : y.Typed cs := by
        unfold Variable.Typed at hy ⊢
        rwa [List.getElem?_append_left hlt] at hy
      have hcontent : y.content (S.store.alloc o).2 = y.content S.store :=
        Store.content_alloc_of_lt (h.store.size ▸ hlt)
      rw [hcontent, due, lookup_unwritten hc]
      exact h.content y hold

theorem hold (h : S.Sound log cs) (ha : ∀ x ∈ a.target?, x.Typed cs) : Sound log cs (S.hold a) :=
  ⟨h.store, List.forall_mem_cons.2 ⟨ha, h.held⟩, h.logged, h.content⟩

/-- A value that has the base of the cell is what the cell is due from then on. -/
theorem assign (h : S.Sound log cs) (hx : x.Typed cs) (hv : v.base = x.base) :
    Sound ((x.cell, v) :: log) cs { S with store := S.store.write x.cell v } := by
  refine ⟨h.store.write hx hv, h.held, List.forall_mem_cons.2 ⟨hx.lt, h.logged⟩, fun y hy => ?_⟩
  by_cases hc : y.cell = x.cell
  · refine .inr ?_
    rw [due, lookup_written hc, Option.getD_some]
    exact hx.content_write h.store hc v
  · have hcontent : y.content (S.store.write x.cell v) = y.content S.store := Store.content_write_of_ne (Ne.symm hc)
    have hlookup := lookup_unwritten hc (some v) log
    rw [Option.map_some, Option.toList_some, List.singleton_append] at hlookup
    rw [hcontent, due, hlookup]
    exact h.content y hy

/-- What is due is read, and what was read is still due. -/
theorem get (h : S.Sound log cs) (hx : x.Typed cs) :
    (x.get S.store).1 = due log x ∧ Sound log cs { S with store := (x.get S.store).2 } := by
  rcases h.content x hx with ⟨hempty, hlookup⟩ | hfilled
  · have hdue : due log x = .initial x.base x.concrete := by rw [due, hlookup, Option.getD_none]
    rw [Variable.get_empty hempty]
    refine ⟨hdue.symm, h.store.write hx (Value.base_initial _), h.held, h.logged, fun y hy => ?_⟩
    by_cases hc : y.cell = x.cell
    · -- the default is that of the cell, whichever variable it was read through
      have hbase := hy.base_eq hx hc
      have hdue : due log y = .initial x.base x.concrete := by
        rw [due, hc, hlookup, Option.getD_none]
        congr
      rw [hdue]
      exact .inr (hx.content_write h.store hc _)
    · have hcontent : y.content (S.store.write x.cell (.initial x.base x.concrete)) = y.content S.store :=
        Store.content_write_of_ne (Ne.symm hc)
      rw [hcontent]
      exact h.content y hy
  · rw [Variable.get_filled hfilled]
    exact ⟨rfl, h⟩

end Sound

theorem Sound.read (h : S.Sound log cs) (ha : a ∈ S.held) : Sound log cs { S with store := (a.read S.store).2 } := by
  cases ht : a.target? with
  | none =>
    rw [Alias.read_unbound ht]
    exact h
  | some x =>
    rw [Alias.read_store ht]
    exact (h.get (h.held a ha x ht)).2

theorem Sound.write {done : Bool} {s : Store} (h : S.Sound log cs) (ha : a ∈ S.held)
    (hw : a.write v S.store = .ok (done, s)) :
    Sound ((a.written (if done then some v else none)).toList ++ log) cs { S with store := s } := by
  cases ht : a.target? with
  | none =>
    rw [Alias.write_unbound ht] at hw
    cases hw
    rw [Alias.written, ht]
    exact h
  | some x =>
    rw [Alias.written, ht]
    by_cases hv : v.base = x.base
    · rw [Alias.write_right ht hv] at hw
      cases hw
      exact h.assign (h.held a ha x ht) hv
    · rcases Alias.write_wrong ht hv S.store with hw' | ⟨-, hw'⟩ <;> rw [hw'] at hw <;> cases hw
      exact h

theorem Sound.update {l : Location} {f : Value → Value} (h : S.Sound log cs) (hl : .location l ∈ S.held)
    (hf : ∀ v, v.base = l.base → (f v).base = l.base) :
    Sound (((Alias.location l).written (l.update f S.store).1).toList ++ log) cs
      { S with store := (l.update f S.store).2 } := by
  rw [Alias.written, Alias.target?]
  cases ht : l.handle.target? with
  | none =>
    rw [Location.update_unbound ht]
    exact h
  | some x =>
    have hx := h.held _ hl x ht
    have hb := (hx.get h.store).1
    obtain ⟨hright, hwrong⟩ := Location.update_bound ht hb hf
    by_cases hxl : x.base = l.base
    · rw [hright hxl]
      exact (h.get hx).2.assign hx ((hf _ (hb.trans hxl)).trans hxl.symm)
    · rw [hwrong hxl]
      exact (h.get hx).2

/-- Every operation keeps the session sound, under a longer log or with more cells. -/
theorem Sound.step (h : S.Sound log cs) (hs : S.Step new S') : ∃ cs', S'.Sound (new.toList ++ log) cs' := by
  cases hs with
  | new v => exact ⟨_, h.make rfl (o := some v) (by rintro _ ⟨⟩; rfl)⟩
  | @newEmpty b x s hmade =>
    unfold Variable.newEmpty at hmade
    split at hmade
    · cases hmade
    · cases hmade
      exact ⟨_, h.make (o := none) rfl nofun⟩
  | unbound b => exact ⟨cs, h.hold nofun⟩
  | copy ha => exact ⟨cs, h.hold (h.held _ ha)⟩
  | share hh hx => exact ⟨cs, h.hold (by rintro _ ⟨⟩; exact h.held _ hh _ hx)⟩
  | handle hx => exact ⟨cs, h.hold fun y hy => h.held _ hx y hy⟩
  | locate b hh => exact ⟨cs, h.hold fun y hy => h.held _ hh y hy⟩
  | release hl => exact ⟨cs, h.hold fun y hy => h.held _ hl y hy⟩
  | read ha => exact ⟨cs, h.read ha⟩
  | write ha hw => exact ⟨cs, h.write ha hw⟩
  | update hl hf => exact ⟨cs, h.update hl hf⟩

theorem History.sound (h : History log S) : ∃ cs, S.Sound log cs := by
  induction h with
  | start => exact ⟨[], ⟨⟨rfl, nofun⟩, nofun, nofun, nofun⟩⟩
  | step _ hs ih =>
    obtain ⟨cs, hcs⟩ := ih
    exact hcs.step hs

/-- Reading stores at most a default, and that only in the cell read. -/
theorem content_get_of_ne {c : Nat} (h : c ≠ x.cell) (s : Store) : (x.get s).2.content c = s.content c := by
  cases hc : x.content s with
  | none =>
    rw [Variable.get_empty hc]
    exact Store.content_write_of_ne (Ne.symm h)
  | some v => rw [Variable.get_filled hc]

theorem Sound.assigned (h : S.Sound log cs) (hx : x.Typed cs) (hv : v.base = x.base) :
    S.Assigned x v (S.store.write x.cell v) where
  base := hv
  content := hx.content_write h.store rfl v
  seen b hb hfits y hy hc := by
    have hget := Variable.get_filled (hx.content_write h.store hc v)
    have hbase : (y.get (S.store.write x.cell v)).1.base = y.base := by
      rw [hget, hv]
      exact hx.base_eq (h.held b hb y hy) hc.symm
    have hvalue := (Alias.read_value hy hbase).1 hfits
    rw [hget] at hvalue
    refine Prod.ext hvalue ?_
    rw [Alias.read_store hy, hget]
  others c hc := Store.content_write_of_ne (Ne.symm hc)

theorem Sound.reads (h : S.Sound log cs) (ha : a ∈ S.held) (hx : x ∈ a.target?) :
    (∀ v, x.content S.store = some v → v.base = x.base) ∧
    (a.Fits → (a.read S.store).1 = some (due log x)) ∧ (¬ a.Fits → (a.read S.store).1 = none) ∧
    (x.content S.store = none →
      due log x = .initial x.base x.concrete ∧ S.Assigned x (due log x) (a.read S.store).2) ∧
    ∀ v, x.content S.store = some v → due log x = v ∧ (a.read S.store).2 = S.store := by
  have htyped := h.held a ha x hx
  have hdue := (h.get htyped).1
  have hvalue := Alias.read_value hx (htyped.get h.store).1
  rw [hdue] at hvalue
  refine ⟨fun v => htyped.base_content h.store, hvalue.1, hvalue.2, fun hempty => ?_, fun v hfilled => ?_⟩
  · have hget := Variable.get_empty hempty
    rw [hget] at hdue
    rw [Alias.read_store hx, hget, ← hdue]
    exact ⟨rfl, h.assigned htyped (Value.base_initial _)⟩
  · have hget := Variable.get_filled hfilled
    rw [hget] at hdue
    rw [Alias.read_store hx, hget]
    exact ⟨hdue.symm, rfl⟩

theorem Sound.writes (h : S.Sound log cs) (ha : a ∈ S.held) (v : Value) :
    (∃ x ∈ a.target?, v.base = x.base ∧ ∃ s, a.write v S.store = .ok (true, s) ∧ S.Assigned x v s) ∨
    (∀ x ∈ a.target?, v.base ≠ x.base) ∧ (a.write v S.store = .ok (false, S.store) ∨
      (∃ x, a = .var x) ∧ a.write v S.store = .error .assignedWrongType) := by
  cases ht : a.target? with
  | none => exact .inr ⟨nofun, .inl (Alias.write_unbound ht v _)⟩
  | some x =>
    by_cases hv : v.base = x.base
    · exact .inl ⟨x, rfl, hv, _, Alias.write_right ht hv _, h.assigned (h.held a ha x ht) hv⟩
    · refine .inr ⟨by rintro _ ⟨⟩; exact hv, ?_⟩
      exact (Alias.write_wrong ht hv S.store).imp_right fun hw => ⟨⟨x, hw.1⟩, hw.2⟩

theorem Sound.updates {l : Location} {f : Value → Value} (h : S.Sound log cs) (hl : .location l ∈ S.held)
    (hf : ∀ v, v.base = l.base → (f v).base = l.base) :
    (∃ x ∈ l.handle.target?, x.base = l.base ∧ ∃ s, l.update f S.store = (some (f (due log x)), s) ∧
      S.Assigned x (f (due log x)) s) ∨
    (∀ x ∈ l.handle.target?, x.base ≠ l.base) ∧ l.update f S.store = (none, (l.get S.store).2) := by
  cases ht : l.handle.target? with
  | none =>
    have hget : l.get S.store = (none, S.store) := Alias.read_unbound (a := .location l) ht _
    rw [Location.update_unbound ht, hget]
    exact .inr ⟨nofun, rfl⟩
  | some x =>
    have hx := h.held _ hl x ht
    have hb := (hx.get h.store).1
    obtain ⟨hright, hwrong⟩ := Location.update_bound ht hb hf
    by_cases hxl : x.base = l.base
    · have hassigned := (h.get hx).2.assigned hx ((hf _ (hb.trans hxl)).trans hxl.symm)
      rw [(h.get hx).1] at hassigned hright
      refine .inl ⟨x, rfl, hxl, _, hright hxl, hassigned.base, hassigned.content, hassigned.seen, fun c hc => ?_⟩
      rw [hassigned.others c hc]
      exact content_get_of_ne hc _
    · have hstore : (l.get S.store).2 = (x.get S.store).2 := Alias.read_store (a := .location l) ht _
      rw [hwrong hxl, hstore]
      exact .inr ⟨by rintro _ ⟨⟩; exact hxl, rfl⟩

end Session

open Session in
/-- After any history of operations. Variables of one cell have one base, which its content has too. A read gives what
the cell was given last, or else the default of its base, which it then stores; otherwise it changes nothing, and
behind an unbound handle there is nothing to read. A value of the right base is written through whatever is bound, is
then read through every alias of the cell, and changes no other cell; anything else is refused, or violates what a
variable asks for, and changes nothing. An update assigns the image of what was due. -/
theorem aliases_agree {log : List (Nat × Value)} {S : Session} (h : S.History log) :
    (∀ a ∈ S.held, ∀ b ∈ S.held, ∀ x ∈ a.target?, ∀ y ∈ b.target?, x.cell = y.cell → x.base = y.base) ∧
    (∀ a ∈ S.held, ∀ x ∈ a.target?,
      (∀ v, x.content S.store = some v → v.base = x.base) ∧
      (a.Fits → (a.read S.store).1 = some (due log x)) ∧ (¬ a.Fits → (a.read S.store).1 = none) ∧
      (x.content S.store = none →
        due log x = .initial x.base x.concrete ∧ S.Assigned x (due log x) (a.read S.store).2) ∧
      ∀ v, x.content S.store = some v → due log x = v ∧ (a.read S.store).2 = S.store) ∧
    (∀ a ∈ S.held, a.target? = none → a.read S.store = (none, S.store)) ∧
    (∀ a ∈ S.held, ∀ v,
      (∃ x ∈ a.target?, v.base = x.base ∧ ∃ s, a.write v S.store = .ok (true, s) ∧ S.Assigned x v s) ∨
      (∀ x ∈ a.target?, v.base ≠ x.base) ∧ (a.write v S.store = .ok (false, S.store) ∨
        (∃ x, a = .var x) ∧ a.write v S.store = .error .assignedWrongType)) ∧
    ∀ l f, .location l ∈ S.held → (∀ v, v.base = l.base → (f v).base = l.base) →
      (∃ x ∈ l.handle.target?, x.base = l.base ∧ ∃ s, l.update f S.store = (some (f (due log x)), s) ∧
        S.Assigned x (f (due log x)) s) ∨
      (∀ x ∈ l.handle.target?, x.base ≠ l.base) ∧ l.update f S.store = (none, (l.get S.store).2) := by
  obtain ⟨cs, hs⟩ := h.sound
  exact ⟨fun a ha b hb x hx y hy => (hs.held a ha x hx).base_eq (hs.held b hb y hy), fun a ha x hx => hs.reads ha hx,
    fun a ha hn => Alias.read_unbound hn _, fun a ha v => hs.writes ha v, fun l f hl hf => hs.updates hl hf⟩

open Session in
/-- A variable of 3 that is set to 7 through a location. -/
theorem aliases_agree_seven :
    let x : Variable := ⟨.int, 0, by decide⟩
    let S : Session := ⟨⟨#[some (.int 7)]⟩, [.location ⟨.int, .bound x⟩, .handle (.bound x), .var x]⟩
    S.History [(0, .int 7), (0, .int 3)] ∧ (Alias.handle (.bound x)).read S.store = (some (.int 7), S.store) := by
  intro x S
  have hnew : History [(0, .int 3)] ⟨⟨#[some (.int 3)]⟩, [.var x]⟩ := .step .start (.new (.int 3))
  have hhandle : History [(0, .int 3)] ⟨⟨#[some (.int 3)]⟩, [.handle (.bound x), .var x]⟩ :=
    .step hnew (.handle (List.mem_singleton_self _))
  have hlocated : History [(0, .int 3)] ⟨⟨#[some (.int 3)]⟩, S.held⟩ := .step hhandle (.locate .int List.mem_cons_self)
  have hset : History [(0, .int 7), (0, .int 3)] S :=
    .step hlocated (@Step.write _ (.location ⟨.int, .bound x⟩) (.int 7) true _ List.mem_cons_self rfl)
  obtain ⟨-, hread, -⟩ := aliases_agree hset
  obtain ⟨-, hvalue, -, -, hstore⟩ := hread (.handle (.bound x)) (by decide) x rfl
  exact ⟨hset, Prod.ext (hvalue (Alias.fits_handle _)) (hstore (.int 7) rfl).2⟩

end Grove
