import Grove.Node

/-! Results. A chain of steps succeeds just when each step does, and fails where the first one fails. -/

namespace Grove

namespace Result

variable {ε ε' α β : Type}

theorem bind_ok {x : Except ε α} {f : α → Except ε β} {b : β} : (x >>= f) = .ok b ↔ ∃ a, x = .ok a ∧ f a = .ok b := by
  cases x <;> simp [bind, Except.bind]

theorem bind_error {x : Except ε α} {f : α → Except ε β} {e : ε} :
    (x >>= f) = .error e ↔ x = .error e ∨ ∃ a, x = .ok a ∧ f a = .error e := by
  cases x <;> simp [bind, Except.bind]

theorem mapM_id_ok {l : List (Except ε α)} {as : List α} : l.mapM id = .ok as ↔ l = as.map .ok := by
  induction l generalizing as with
  | nil => cases as <;> simp [pure, Except.pure]
  | cons x l ih =>
    rw [List.mapM_cons, bind_ok]
    constructor
    · rintro ⟨a, ha, h⟩
      obtain ⟨as, has, h⟩ := bind_ok.1 h
      cases h
      rw [List.map_cons, ← ih.1 has]
      exact congrArg (· :: l) ha
    · intro h
      obtain ⟨a, as, rfl, rfl, rfl⟩ := List.map_eq_cons_iff.1 h.symm
      exact ⟨a, rfl, bind_ok.2 ⟨as, ih.2 rfl, rfl⟩⟩

variable {f : β → Except ε α} {l : List β} {as : List α}

theorem mapM_ok : l.mapM f = .ok as ↔ l.map f = as.map .ok := by
  rw [← mapM_id_ok, List.mapM_map]
  rfl

theorem mem_mapM (h : l.mapM f = .ok as) {a : α} : a ∈ as ↔ ∃ b ∈ l, f b = .ok a := by
  rw [← List.mem_map, mapM_ok.1 h, List.mem_map]
  simp

theorem exists_mem_mapM (h : l.mapM f = .ok as) {b : β} (hb : b ∈ l) : ∃ a ∈ as, f b = .ok a := by
  obtain ⟨a, ha, hf⟩ := List.mem_map.1 (mapM_ok.1 h ▸ List.mem_map_of_mem hb)
  exact ⟨a, ha, hf.symm⟩

theorem mapM_returns (h : ∀ b ∈ l, ∃ a, f b = .ok a) : ∃ as, l.mapM f = .ok as := by
  induction l with
  | nil => exact ⟨[], rfl⟩
  | cons b l ih =>
    obtain ⟨⟨a, ha⟩, hl⟩ := List.forall_mem_cons.1 h
    obtain ⟨as, has⟩ := ih hl
    rw [mapM_ok] at has
    exact ⟨a :: as, by rw [mapM_ok, List.map_cons, List.map_cons, ha, has]⟩

theorem mapError_ok {x : Except ε α} {f : ε → ε'} {a : α} : x.mapError f = .ok a ↔ x = .ok a := by
  cases x with
  | error e => exact ⟨nofun, nofun⟩
  | ok b => exact ⟨fun h => by cases h; rfl, fun h => by cases h; rfl⟩

theorem map_ok {x : Except ε α} {f : α → β} {b : β} : x.map f = .ok b ↔ ∃ a, x = .ok a ∧ f a = b := by
  cases x <;> simp [Except.map]

theorem elim_ok {x : Option α} {e : ε} {f : α → Except ε β} {b : β} :
    x.elim (Except.error e) f = .ok b ↔ ∃ a, x = some a ∧ f a = .ok b := by
  cases x <;> simp

theorem liftState_ok {σ : Type} {x : Except ε α} {a : α} {s s' : σ} :
    (liftM x : StateT σ (Except ε) α) s = .ok (a, s') ↔ x = .ok a ∧ s' = s := by
  cases x with
  | error e => exact ⟨nofun, nofun⟩
  | ok b => exact ⟨fun h => by cases h; exact ⟨rfl, rfl⟩, fun ⟨h, hs⟩ => by cases h; cases hs; rfl⟩

theorem toOption_some {x : Except ε α} {a : α} : x.toOption = some a ↔ x = .ok a := by
  cases x <;> simp [Except.toOption]

theorem liftError_ok {x : Except Error α} {a : α} : (liftM x : Except Failure α) = .ok a ↔ x = .ok a := mapError_ok

theorem liftViolation_ok {x : Except Violation α} {a : α} : (liftM x : Except Failure α) = .ok a ↔ x = .ok a :=
  mapError_ok

end Result

theorem checkSlot_ok {slot child : Ty} : checkSlot slot child = .ok () ↔ slot.accepts child = true := by
  by_cases h : slot.accepts child = true <;> simp [checkSlot, h]

theorem checkSlot_refused {slot child : Ty} (h : slot.accepts child = false) :
    checkSlot slot child = .error (.childTypeMismatch slot child) := by
  simp [checkSlot, h]

theorem Node.childType_ok {n : Node} {slot : Nat} {ty : Ty} :
    n.childType slot = .ok ty ↔ slot < n.arity ∧ n.slotType slot = ty := by
  by_cases h : slot < n.arity <;> simp [childType, h]

end Grove
