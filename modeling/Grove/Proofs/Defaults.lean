import Grove.Proofs.Pairing
import Grove.Proofs.Planting
import Grove.Proofs.Soundness

/-! Empty cells. Whether the cell of an argument is still empty or holds the default of its base makes no difference
to an evaluation: every read comes to the same, through whatever alias, and the cells that are still empty at the end
are so in place of the default. -/

namespace Grove

/-- Stores that differ in the cells of the arguments only, where the one may still be empty and the other hold the
default, so that the same is read from each argument. -/
structure Store.SameButDefaults (xs : List Variable) (s s' : Store) : Prop where
  size : s'.cells.size = s.cells.size
  read : ∀ x ∈ xs, (x.get s').1 = (x.get s).1
  others : ∀ cell, (∀ x ∈ xs, x.cell ≠ cell) → s'.content cell = s.content cell

theorem Store.Supports.base_eq {s : Store} {xs : List Variable} (h : s.Supports xs) {x y : Variable} (hx : x ∈ xs)
    (hy : y ∈ xs) (hc : x.cell = y.cell) : x.base = y.base := by
  obtain ⟨cs, -, hcs⟩ := h
  have hbase := hcs x hx
  rw [Variable.Typed, hc, hcs y hy] at hbase
  exact (Option.some.inj hbase).symm

theorem Store.Supports.cell_lt {s : Store} {xs : List Variable} (h : s.Supports xs) {x : Variable} (hx : x ∈ xs) :
    x.cell < s.cells.size := by
  obtain ⟨cs, hs, hcs⟩ := h
  exact hs.size ▸ (List.getElem?_eq_some_iff.1 (hcs x hx)).1

theorem Variable.get_fst_eq {x : Variable} {s s' : Store} : (x.get s').1 = (x.get s).1 ↔
    (x.content s').or (Value.default? x.base) = (x.content s).or (Value.default? x.base) := by
  rw [← x.some_get, ← x.some_get, Option.some_inj]

/-- Every cell is paired with itself, for the base of the arguments on it, or for any if there are none. -/
def defaulting (xs : List Variable) (size : Nat) : Pairing where
  size := size
  size' := size
  old b c c' := c' = c ∧ c < size ∧ ∀ x ∈ xs, x.cell = c → x.base = b
  agree b v v' := v'.or (Value.default? b) = v.or (Value.default? b)
  inside := by
    rintro _ _ _ ⟨rfl, hc, -⟩
    exact ⟨hc, hc⟩
  oneToOne := by
    rintro _ _ _ _ _ _ ⟨rfl, -⟩ ⟨rfl, -⟩
    rfl
  agree_refl _ _ := rfl
  settled h := h

section

variable {s s' u u' : Store} {xs : List Variable} (hs : s.Supports xs)
include hs

theorem defaulting_pairs :
    List.Forall₂ ((defaulting xs s.cells.size).lockstep Eq fun _ => rfl).pair xs xs :=
  List.forall₂_same.2 fun _ hx => ⟨rfl, .old ⟨rfl, hs.cell_lt hx, fun _ hy hc => hs.base_eq hy hx hc⟩⟩

omit hs in
theorem Store.SameButDefaults.stores (h : s.SameButDefaults xs s') : (defaulting xs s.cells.size).Stores s s' where
  made := ⟨0, rfl, h.size⟩
  agree {b c c'} hc := by
    cases hc with
    | old hc =>
      obtain ⟨rfl, -, hbase⟩ := hc
      by_cases harg : ∃ x ∈ xs, x.cell = c'
      · obtain ⟨x, hx, rfl⟩ := harg
        have hread := Variable.get_fst_eq.1 (h.read x hx)
        rwa [hbase x hx rfl] at hread
      · exact Pairing.agree_of_eq (h.others c' fun x hx hc => harg ⟨x, hx, hc⟩)
    | made k =>
      have beyond : ∀ t : Store, t.cells.size = s.cells.size → t.content (s.cells.size + k) = none := fun t ht => by
        simp [Store.content, ht]
      exact Pairing.agree_of_eq ((beyond s' h.size).trans (beyond s rfl).symm)

theorem Pairing.Stores.sameButDefaults (h : (defaulting xs s.cells.size).Stores u u') : u.SameButDefaults xs u' where
  size := by
    obtain ⟨n, hn, hn'⟩ := h.made
    exact hn'.trans hn.symm
  read x hx := Variable.get_fst_eq.2 (h.agree (.old ⟨rfl, hs.cell_lt hx, fun _ hy hc => hs.base_eq hy hx hc⟩))
  others c hc := by
    have hcells : (defaulting xs s.cells.size).Cells .any c c := by
      by_cases hlt : c < s.cells.size
      · exact .old ⟨rfl, hlt, fun x hx heq => absurd heq (hc x hx)⟩
      · obtain ⟨k, rfl⟩ := Nat.exists_eq_add_of_le (Nat.le_of_not_lt hlt)
        exact .made .any k
    -- there is no default of the wildcard base
    simpa [defaulting, Value.default?] using h.agree hcells

end

/-- Whatever is evaluated, it makes no difference which cells of the arguments are still empty and which hold the
default: the outcome is the same, in as many steps, and what is left differs in such cells at most. -/
theorem evaluate_sameButDefaults (w : World) (t : Tree) {xs : List Variable} {s s' : Store} (hs : s.Supports xs)
    (h : s.SameButDefaults xs s') :
    (t.evaluate w xs s').1 = (t.evaluate w xs s).1 ∧
    (t.evaluate w xs s').2.steps = (t.evaluate w xs s).2.steps ∧
    (t.evaluate w xs s).2.store.SameButDefaults xs (t.evaluate w xs s').2.store := by
  have hagrees := Lockstep.evaluate (L := (defaulting xs s.cells.size).lockstep Eq fun _ => rfl) rfl
    (.refl (fun _ => rfl) w.registry) (.refl (fun _ => rfl) t) (defaulting_pairs hs) h.stores
  refine ⟨?_, hagrees.steps, hagrees.store.sameButDefaults hs⟩
  have hout := hagrees.outcome
  generalize (t.evaluate w xs s).1 = o at hout
  generalize (t.evaluate w xs s').1 = o' at hout
  cases hout with
  | ok a => rfl
  | error h => exact congrArg _ h.symm

namespace Counter

/-- Counts up through a handle and adds what the first argument then is. -/
def term : Term :=
  let handle := .node (.argument Ty.int.leftHand 1) Fin.elim0
  let count := .node (.increment .int) fun _ => handle
  .node (.arithmetic .add .int) fun i => [count].getD i (.node (.argument .int 0) Fin.elim0)

def tree : Tree := .planted ⟨none, .int, [.int, Ty.int.leftHand, .int], []⟩ term

def world : World := ⟨⟨100, 4⟩, .empty⟩

def arguments : List Variable := [⟨.int, 0, by decide⟩, ⟨.int, 0, by decide⟩, ⟨.int, 1, by decide⟩]

def fresh : Store := ⟨#[none, none]⟩

def filled : Store := ⟨#[some (.int 0), some (.int 0)]⟩

theorem fresh_supports : fresh.Supports arguments := by
  refine ⟨[.int, .int], ⟨rfl, fun {i v} h => ?_⟩, by simp [arguments, Variable.Typed]⟩
  obtain _ | _ | i := i <;> cases h

theorem fresh_filled : fresh.SameButDefaults arguments filled := by
  refine ⟨rfl, by decide, fun cell hc => ?_⟩
  obtain _ | _ | cell := cell
  · exact absurd rfl (hc _ List.mem_cons_self)
  · exact absurd rfl (hc ⟨.int, 1, by decide⟩ (by simp [arguments]))
  · rfl

/-- The third argument is never read, so that its cell is left empty in the one store and not in the other. -/
theorem evaluate_sameButDefaults_counter : (tree.evaluate world arguments fresh).1 = .ok (.returned (.int 2)) ∧
    (tree.evaluate world arguments fresh).2.store ≠ (tree.evaluate world arguments filled).2.store ∧
    (tree.evaluate world arguments filled).1 = (tree.evaluate world arguments fresh).1 ∧
    (tree.evaluate world arguments filled).2.steps = (tree.evaluate world arguments fresh).2.steps ∧
    (tree.evaluate world arguments fresh).2.store.SameButDefaults arguments
      (tree.evaluate world arguments filled).2.store :=
  ⟨by decide +kernel, by decide +kernel, evaluate_sameButDefaults world tree fresh_supports fresh_filled⟩

end Counter

end Grove
