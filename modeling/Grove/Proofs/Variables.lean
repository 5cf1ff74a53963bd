import Grove.Crossover
import Grove.Proofs.Activation
import Grove.Proofs.Footprint
import Grove.Proofs.Grammar

/-! Variables. Generation, reading and evaluation agree on the variable nodes that a signature declares: a node fits it
just if a text may use the node, and just if the node finds a variable in a frame of that signature. A local variable
that moves to another tree fits there whenever something does. -/

namespace Grove

/-- The node that reads a slot of a table. -/
def VariableTable.node : VariableTable → Ty → Nat → Node
  | argument => .argument
  | localVariable => .localVariable

/-- What a signature declares in a table. -/
def Signature.table (s : Signature) : VariableTable → List Ty
  | .argument => s.arguments
  | .localVariable => s.locals

/-- What a frame has for it. -/
def Frame.table (f : Frame) : VariableTable → List Variable
  | .argument => f.arguments
  | .localVariable => f.locals

/-- The frame is one for the signature: its arguments have the bases declared, and its local variables were made for
those declared. -/
structure Frame.Serves (f : Frame) (s : Signature) : Prop where
  arguments : f.arguments.map (·.base) = s.arguments.map (·.base)
  locals : ∃ before after, freshCells s.locals before = .ok (f.locals, after)

/-- A node of type `ty` found a variable of its base: a plain one yields its value and a qualified one a handle on its
cell, and the frame goes on as it was. -/
structure Found (ty : Ty) (x : Variable) (s : Store) (f : Frame) (y : Yield) (f' : Frame) : Prop where
  base : x.base = ty.base
  frame : f' = f
  plain : ty.qualifier = .plain → y = .value (x.get s).1
  leftHand : ty.qualifier = .leftHand → y = .leftHand (.bound x)
  reference : ty.qualifier = .reference → y = .reference (.bound x)

/-- It found none: a plain one ends the frame with an invalid value, and a qualified one yields an unbound handle. -/
structure Missed (ty : Ty) (f : Frame) (y : Yield) (f' : Frame) : Prop where
  plain : ty.qualifier = .plain → f' = { f with status := .invalidValue }
  leftHand : ty.qualifier = .leftHand → y = .leftHand (.unbound ty.base) ∧ f' = f
  reference : ty.qualifier = .reference → y = .reference (.unbound ty.base) ∧ f' = f

namespace Signature

variable {tys : List Ty} {ty : Ty} {i : Nat}

theorem declares_iff : declares tys ty i = true ↔ (tys.map (·.base))[i]? = some ty.base := by
  simp [declares, Option.any_eq_true, Ty.strip, Ty.plain]

theorem exists_declares : (∃ j, declares tys ty j = true) ↔ ∃ t ∈ tys, t.base = ty.base := by
  simp only [declares_iff, ← List.mem_iff_getElem?, List.mem_map]

end Signature

@[simp] theorem VariableTable.fits_node (table : VariableTable) (ty : Ty) (i : Nat) (s : Signature) :
    (table.node ty i).fits s = Signature.declares (s.table table) ty i := by cases table <;> rfl

section Finding

variable {s : Signature} {f : Frame} {table : VariableTable} {ty : Ty} {i : Nat} {x : Variable}

theorem Frame.Serves.bases (h : f.Serves s) (table : VariableTable) :
    (f.table table).map (·.base) = (s.table table).map (·.base) := by
  cases table with
  | argument => exact h.arguments
  | localVariable =>
    obtain ⟨before, after, hcells⟩ := h.locals
    exact (freshCells_ok hcells).1

theorem Frame.Serves.declares_iff (h : f.Serves s) :
    Signature.declares (s.table table) ty i = true ↔ ∃ x, (f.table table)[i]? = some x ∧ x.base = ty.base := by
  rw [Signature.declares_iff, ← h.bases, List.getElem?_map, Option.map_eq_some_iff]

theorem Frame.exists_serves (ha : ∀ t ∈ s.arguments, t.base ≠ .any) (hl : ∀ t ∈ s.locals, t.base ≠ .any) :
    ∃ f : Frame, f.isEvaluating = true ∧ f.Serves s := by
  have hempty : Store.empty.Typed [] := ⟨rfl, nofun⟩
  obtain ⟨arguments, _, _, harguments, -⟩ := freshCells_typed ha hempty
  obtain ⟨locals, after, _, hlocals, -⟩ := freshCells_typed hl hempty
  exact ⟨.start arguments locals, rfl, (freshCells_ok harguments).1, _, after, hlocals⟩

namespace Exec

theorem access_found (hx : x.base = ty.base) (r : Run) :
    ∃ y r', (access ty (some x)).runFrom r = (.ok y, r') ∧ Found ty x r.store r.frame y r'.frame := by
  obtain ⟨b, q⟩ := ty
  have hfilter : (some x).filter (·.base = b) = some x := by simp [show x.base = b from hx]
  unfold access
  dsimp only
  rw [hfilter]
  cases q with
  | plain => exact ⟨_, _, rfl, hx, rfl, fun _ => rfl, nofun, nofun⟩
  | leftHand => exact ⟨_, _, rfl, hx, rfl, nofun, fun _ => rfl, nofun⟩
  | reference => exact ⟨_, _, rfl, hx, rfl, nofun, nofun, fun _ => rfl⟩

theorem access_missed {o : Option Variable} (ho : ∀ x ∈ o, x.base ≠ ty.base) {r : Run}
    (he : r.frame.isEvaluating = true) :
    (∃ y r', (access ty o).runFrom r = (.ok y, r') ∧ Missed ty r.frame y r'.frame) ∨
    ∃ r', (access ty o).runFrom r = (.error .stopped, r') ∧ r'.frame.isEvaluating = false ∧
      ∀ y, Missed ty r.frame y r'.frame := by
  obtain ⟨b, q⟩ := ty
  have hfilter : o.filter (·.base = b) = none := Option.filter_eq_none_iff.2 fun x hx => by simpa using ho x hx
  unfold access
  dsimp only
  rw [hfilter]
  cases q with
  | plain =>
    have hsignal : r.frame.signal .invalidValue = { r.frame with status := .invalidValue } := by simp [Frame.signal, he]
    refine .inr ⟨_, runFrom_fault .invalidValue r, by rw [hsignal]; rfl, fun y => ⟨fun _ => hsignal, ?_, ?_⟩⟩
      <;> rintro ⟨⟩
  | leftHand => exact .inl ⟨_, r, rfl, by rintro ⟨⟩, fun _ => ⟨rfl, rfl⟩, by rintro ⟨⟩⟩
  | reference => exact .inl ⟨_, r, rfl, by rintro ⟨⟩, by rintro ⟨⟩, fun _ => ⟨rfl, rfl⟩⟩

theorem runFrom_produce (call : Callee → List Variable → Exec Yield) (kids : Fin (table.node ty i).arity → Exec Yield)
    (r : Run) : (produce call (table.node ty i) kids).runFrom r = (access ty (r.frame.table table)[i]?).runFrom r := by
  cases table <;> exact runFrom_bind_ok (runFrom_get r)

theorem conclude_yields {n : Node} {x : Exec Yield} {r r' : Run} {y : Yield} (h : x.runFrom r = (.ok y, r')) :
    ∃ r'', (conclude n x).runFrom r = (.ok y, r'') ∧ r''.frame = r'.frame := by
  have ho : (orElse x (.ofType n.returns)).runFrom r = (.ok y, r') := by rw [runFrom_orElse, h]
  have hb : isEvaluating.runFrom r' = (.ok r'.frame.isEvaluating, r') := rfl
  rw [conclude, runFrom_bind_ok ho, runFrom_bind_ok hb]
  cases r'.frame.isEvaluating <;> exact ⟨_, rfl, rfl⟩

variable (w : World) (room : Nat) (id : NodeId) (kids : Fin (table.node ty i).arity → Shape) {r : Run}

theorem run_variable (he : r.frame.isEvaluating = true) (hs : r.steps < w.limits.maxSteps) :
    ∃ r₀ x, r₀.frame = r.frame ∧ r₀.store = r.store ∧
      x.runFrom r₀ = (access ty (r.frame.table table)[i]?).runFrom r₀ ∧
      (w.run room (.node id (table.node ty i) kids)).runFrom r = (conclude (table.node ty i) x).runFrom r₀ := by
  rw [World.run_eq, eval_node, runFrom_entering, if_neg (by simp [he]), if_neg (Nat.not_le.2 hs)]
  refine ⟨_, _, ?_, ?_, ?_, rfl⟩
  exacts [rfl, rfl, runFrom_produce _ _ _]

theorem run_found (he : r.frame.isEvaluating = true) (hs : r.steps < w.limits.maxSteps)
    (hx : (r.frame.table table)[i]? = some x) (hb : x.base = ty.base) :
    ∃ y r', (w.run room (.node id (table.node ty i) kids)).runFrom r = (.ok y, r') ∧
      Found ty x r.store r.frame y r'.frame := by
  obtain ⟨r₀, produced, hframe, hstore, hproduced, hrun⟩ := run_variable w room id kids he hs
  rw [hx] at hproduced
  obtain ⟨y, r', hok, hfound⟩ := access_found hb r₀
  obtain ⟨r'', hend, hsame⟩ := conclude_yields (n := table.node ty i) (hproduced.trans hok)
  rw [hframe, hstore, ← hsame] at hfound
  exact ⟨y, r'', hrun.trans hend, hfound⟩

theorem run_missed (he : r.frame.isEvaluating = true) (hs : r.steps < w.limits.maxSteps)
    (hx : ∀ x ∈ (r.frame.table table)[i]?, x.base ≠ ty.base) :
    ∃ y r', (w.run room (.node id (table.node ty i) kids)).runFrom r = (.ok y, r') ∧
      Missed ty r.frame y r'.frame := by
  obtain ⟨r₀, produced, hframe, -, hproduced, hrun⟩ := run_variable w room id kids he hs
  rw [← hframe] at he ⊢
  rcases access_missed hx he with ⟨y, r', hok, hmissed⟩ | ⟨r', hstop, hended, hmissed⟩
  · obtain ⟨r'', hend, hsame⟩ := conclude_yields (n := table.node ty i) (hproduced.trans hok)
    exact ⟨y, r'', hrun.trans hend, hsame ▸ hmissed⟩
  · exact ⟨_, r', hrun.trans (conclude_stopped (hproduced.trans hstop) hended), hmissed _⟩

end Exec

end Finding

section Moving

variable {tys : List Ty} {ty : Ty} {i : Nat}

/-- The slot that a local variable moves to where its own does not fit. -/
def firstSlot (tys : List Ty) (ty : Ty) : Nat := tys.findIdx fun declared => declared.strip = ty.strip

theorem declares_firstSlot : Signature.declares tys ty (firstSlot tys ty) = true ↔ ∃ t ∈ tys, t.base = ty.base := by
  refine ⟨fun h => Signature.exists_declares.1 ⟨_, h⟩, fun ⟨t, ht, hbase⟩ => ?_⟩
  have hstrip : decide (t.strip = ty.strip) = true := by simp [Ty.strip, hbase]
  have hlt : firstSlot tys ty < tys.length := List.findIdx_lt_length_of_exists ⟨t, ht, hstrip⟩
  rw [Signature.declares, List.getElem?_eq_getElem hlt, Option.any_some]
  exact List.findIdx_getElem (p := fun declared : Ty => decide (declared.strip = ty.strip)) (w := hlt)

theorem not_declares_of_lt {k : Nat} (hk : k < firstSlot tys ty) : Signature.declares tys ty k = false := by
  have hlt : k < tys.length := Nat.lt_of_lt_of_le hk List.findIdx_le_length
  rw [Signature.declares, List.getElem?_eq_getElem hlt, Option.any_some]
  simpa using List.not_of_lt_findIdx hk

theorem firstSlot_eq_length (h : ∀ t ∈ tys, t.base ≠ ty.base) : firstSlot tys ty = tys.length :=
  List.findIdx_eq_length_of_false fun t ht => by simpa [Ty.strip, Ty.plain] using h t ht

theorem remap_localVariable (d : Signature) (ty : Ty) (i : Nat) : Node.remap d (.localVariable ty i) =
    .localVariable ty (if Signature.declares d.locals ty i then i else firstSlot d.locals ty) := by
  rw [Node.remap, apply_ite (Node.localVariable ty)]
  rfl

end Moving

/-- A node fits a signature just if a text may use it, and in a frame for that signature, evaluating and with a step
left, it then finds the variable of that number, and else none; concrete types have such frames. Moved under the
signature, a local variable fits just if one of its base is declared; it keeps its type, and its number if that fits,
and else has the first number that does, or that of the end. -/
theorem variables_agree (s : Signature) (table : VariableTable) (ty : Ty) (i : Nat) :
    (∀ name, checkVariable (table.node ty i) name s = .ok () ↔ (table.node ty i).fits s = true) ∧
    (∀ (w : World) (room : Nat) (id : NodeId) (kids : Fin (table.node ty i).arity → Shape) (r : Run),
      r.frame.Serves s → r.frame.isEvaluating = true → r.steps < w.limits.maxSteps →
      ∃ y r', (w.run room (.node id (table.node ty i) kids)).runFrom r = (.ok y, r') ∧
        ((table.node ty i).fits s = true →
          ∃ x, (r.frame.table table)[i]? = some x ∧ Found ty x r.store r.frame y r'.frame) ∧
        ((table.node ty i).fits s = false → Missed ty r.frame y r'.frame)) ∧
    ((∀ t ∈ s.arguments, t.base ≠ .any) → (∀ t ∈ s.locals, t.base ≠ .any) →
      ∃ f : Frame, f.isEvaluating = true ∧ f.Serves s) ∧
    ∃ j, Node.remap s (.localVariable ty i) = .localVariable ty j ∧
      ((Node.localVariable ty j).fits s = true ↔ ∃ t ∈ s.locals, t.base = ty.base) ∧
      ((Node.localVariable ty i).fits s = true → j = i) ∧
      ((Node.localVariable ty i).fits s = false → (∀ k < j, (Node.localVariable ty k).fits s = false) ∧
        ((∀ t ∈ s.locals, t.base ≠ ty.base) → j = s.locals.length)) := by
  rw [table.fits_node]
  refine ⟨fun name => ?_, fun w room id kids r hserves he hs => ?_, Frame.exists_serves, _, remap_localVariable s ty i,
    ?_, fun h => if_pos h, fun h => ?_⟩
  · rw [checkVariable_ok, table.fits_node]
  · by_cases hfits : Signature.declares (s.table table) ty i = true
    · obtain ⟨x, hx, hb⟩ := hserves.declares_iff.1 hfits
      obtain ⟨y, r', hrun, hfound⟩ := Exec.run_found w room id kids he hs hx hb
      exact ⟨y, r', hrun, fun _ => ⟨x, hx, hfound⟩, fun h => absurd hfits (by simp [h])⟩
    · have hnone : ∀ x ∈ (r.frame.table table)[i]?, x.base ≠ ty.base := fun x hx hb =>
        hfits (hserves.declares_iff.2 ⟨x, hx, hb⟩)
      obtain ⟨y, r', hrun, hmissed⟩ := Exec.run_missed w room id kids he hs hnone
      exact ⟨y, r', hrun, fun h => absurd h hfits, fun _ => hmissed⟩
  · split_ifs with h
    · exact iff_of_true h (Signature.exists_declares.1 ⟨i, h⟩)
    · exact declares_firstSlot
  · rw [if_neg (by simpa [Node.fits] using h)]
    exact ⟨fun k hk => not_declares_of_lt hk, firstSlot_eq_length⟩

/-- The second of two local variables, which is an int: read before it is written. -/
theorem variables_agree_second :
    let s : Signature := ⟨none, .int, [], [.bool, .int]⟩
    let r := Run.start (.start [] [⟨.bool, 0, by decide⟩, ⟨.int, 1, by decide⟩]) ⟨#[none, none]⟩
    (Node.localVariable .int 1).fits s = true ∧ r.frame.Serves s ∧ r.frame.isEvaluating = true ∧
      r.steps < (⟨10, 10⟩ : Limits).maxSteps ∧
      ∃ r', (World.run ⟨⟨10, 10⟩, .empty⟩ 0 (.node 0 (.localVariable .int 1) nofun)).runFrom r =
        (.ok (.value (.int 0)), r') := by
  intro s r
  have hserves : r.frame.Serves s := ⟨rfl, .empty, ⟨#[none, none]⟩, rfl⟩
  obtain ⟨-, hrun, -⟩ := variables_agree s .localVariable .int 1
  obtain ⟨y, r', hend, hfits, -⟩ := hrun ⟨⟨10, 10⟩, .empty⟩ 0 0 nofun r hserves rfl (by decide)
  obtain ⟨x, hx, hfound⟩ := hfits rfl
  cases hx
  exact ⟨rfl, hserves, rfl, by decide, r', hend.trans (congrArg (fun y => (Except.ok y, r')) (hfound.plain rfl))⟩

end Grove
