import Grove.Literals
import Grove.Proofs.Result
import Grove.Selection

/-! What draws give. Nothing is assumed of the source of words, so these are properties of every value that can be
drawn. A draw breaks off only where a range or a sum of weights is too large for a float; what draws no floats never
breaks off. -/

namespace Grove

/-- Broken by a draw whose bounds are too far apart. -/
def Violation.FromDraw (v : Violation) : Prop := v = .rangeOverflow ∨ v = .weightOverflow

variable {ε σ α β : Type}

/-- From every state what is returned is of this kind, and what breaks off does so in this way. -/
structure Gives (broken : ε → Prop) (x : StateT σ (Except ε) α) (P : α → Prop) : Prop where
  returns : ∀ {s a s'}, x s = .ok (a, s') → P a
  breaks : ∀ {s e}, x s = .error e → broken e

/-- What comes of a computation that may also be refused: a value of this kind, or a refusal of that. -/
def Verdict (refused : Error → Prop) (P : α → Prop) : Except Error α → Prop
  | .ok a => P a
  | .error e => refused e

/-- From every state what comes of it is of these kinds, and what breaks off does so in this way. -/
def Settles (broken : ε → Prop) (refused : Error → Prop) (x : ExceptT Error (StateT σ (Except ε)) α) (P : α → Prop) :
    Prop :=
  Gives broken x.run (Verdict refused P)

/-- It may be refused for whatever reason. -/
abbrev Offers (broken : ε → Prop) (x : ExceptT Error (StateT σ (Except ε)) α) (P : α → Prop) : Prop :=
  Settles broken (fun _ => True) x P

/-- It is never refused. -/
abbrev Yields (broken : ε → Prop) (x : ExceptT Error (StateT σ (Except ε)) α) (P : α → Prop) : Prop :=
  Settles broken (fun _ => False) x P

section Rules

variable {broken : ε → Prop} {x : StateT σ (Except ε) α} {P : α → Prop} {Q : β → Prop}

namespace Gives

theorem pure {a : α} (h : P a) : Gives broken (pure a : StateT σ (Except ε) α) P :=
  ⟨fun hs => by cases hs; exact h, nofun⟩

theorem throw {e : ε} (h : broken e) : Gives broken (throw e : StateT σ (Except ε) α) P :=
  ⟨nofun, fun hs => by cases hs; exact h⟩

theorem ofResult {r : Except ε α} (h : ∀ a, r = .ok a → P a) (hb : ∀ e, r = .error e → broken e) :
    Gives broken (liftM r : StateT σ (Except ε) α) P := by
  cases r with
  | ok a => exact pure (h a rfl)
  | error e => exact throw (hb e rfl)

theorem bind {f : α → StateT σ (Except ε) β} (hx : Gives broken x P) (hf : ∀ a, P a → Gives broken (f a) Q) :
    Gives broken (x >>= f) Q where
  returns {s b s'} h := by
    obtain ⟨⟨a, s₁⟩, hs, h⟩ := Result.bind_ok.1 h
    exact (hf a (hx.returns hs)).returns h
  breaks {s e} h := by
    rcases Result.bind_error.1 h with hs | ⟨⟨a, s₁⟩, hs, h⟩
    · exact hx.breaks hs
    · exact (hf a (hx.returns hs)).breaks h

theorem mono {P' : α → Prop} (hx : Gives broken x P) (h : ∀ a, P a → P' a) : Gives broken x P' :=
  ⟨fun hs => h _ (hx.returns hs), hx.breaks⟩

theorem map {f : α → β} (hx : Gives broken x P) (hf : ∀ a, P a → Q (f a)) : Gives broken (f <$> x) Q := by
  have := hx.bind (Q := Q) fun a ha => pure (a := f a) (hf a ha)
  rwa [bind_pure_comp] at this

end Gives

namespace Settles

variable {refused refused' : Error → Prop} {y : ExceptT Error (StateT σ (Except ε)) α} {P' : α → Prop}

theorem pure {a : α} (h : P a) : Settles broken refused (pure a : ExceptT Error (StateT σ (Except ε)) α) P :=
  Gives.pure h

theorem refuse {e : Error} (h : refused e) :
    Settles broken refused (throw e : ExceptT Error (StateT σ (Except ε)) α) P :=
  Gives.pure h

theorem lift (hx : Gives broken x P) : Settles broken refused (ExceptT.lift x) P :=
  Gives.map hx fun _ ha => ha

theorem ofResult {r : Except Error α} (h : Verdict refused P r) :
    Settles broken refused (liftM r : ExceptT Error (StateT σ (Except ε)) α) P :=
  Gives.pure h

theorem bind {f : α → ExceptT Error (StateT σ (Except ε)) β} (hy : Settles broken refused y P)
    (hf : ∀ a, P a → Settles broken refused (f a) Q) : Settles broken refused (y >>= f) Q :=
  Gives.bind hy fun r hr =>
    match r, hr with
    | .ok a, hr => hf a hr
    | .error _, hr => Gives.pure hr

theorem map {f : α → β} (hy : Settles broken refused y P) (hf : ∀ a, P a → Q (f a)) :
    Settles broken refused (f <$> y) Q := by
  have := hy.bind (Q := Q) fun a ha => pure (a := f a) (hf a ha)
  rwa [bind_pure_comp] at this

theorem mono (hy : Settles broken refused y P) (hr : ∀ e, refused e → refused' e) (hp : ∀ a, P a → P' a) :
    Settles broken refused' y P' :=
  Gives.mono hy fun r h =>
    match r, h with
    | .ok a, h => hp a h
    | .error e, h => hr e h

end Settles
end Rules

namespace Draw

variable [WordSource σ] {broken : Violation → Prop}

theorem word_gives : Gives broken (word : Draw σ UInt32) fun _ => True :=
  ⟨fun _ => trivial, nofun⟩

theorem raw_gives (w : Width) : Gives broken (raw w : Draw σ (Fin w.values)) fun _ => True := by
  cases w with
  | single => exact word_gives.bind fun _ _ => .pure trivial
  | double => exact word_gives.bind fun _ _ => word_gives.bind fun _ _ => .pure trivial

theorem bool_gives : Gives broken (bool : Draw σ Bool) fun _ => True :=
  word_gives.bind fun _ _ => .pure trivial

theorem uniformWithin_gives (w : Width) (n tries : Nat) :
    Gives broken (uniformWithin w n tries : Draw σ (Fin (n + 1))) fun _ => True := by
  induction tries with
  | zero => exact .pure trivial
  | succ tries ih =>
    refine (raw_gives w).bind fun v _ => ?_
    split
    · exact .pure trivial
    · exact ih

theorem uniform_gives (w : Width) (n : Nat) :
    Gives broken (uniform w n : Draw σ (Fin (n + 1))) fun _ => True := by
  unfold uniform
  split
  · exact (raw_gives w).bind fun v _ => .pure trivial
  · exact uniformWithin_gives w n patience

theorem choose_gives (xs : List α) :
    Gives broken (choose xs : Draw σ (Option α)) fun o => (∀ x ∈ o, x ∈ xs) ∧ (o = none → xs = []) := by
  cases xs with
  | nil => exact .pure ⟨nofun, fun _ => rfl⟩
  | cons x xs =>
    refine (uniform_gives .single xs.length).bind fun i _ => .pure ⟨?_, nofun⟩
    rintro _ ⟨⟩
    exact List.getElem_mem _

theorem unit_gives : Gives broken (unit : Draw σ Float) fun _ => True :=
  (raw_gives .double).bind fun _ _ => .pure trivial

theorem floatWithin_gives (low high scale : Float) (tries : Nat) :
    Gives broken (floatWithin low high scale tries : Draw σ Float) fun _ => True := by
  induction tries with
  | zero => exact .pure trivial
  | succ tries ih =>
    refine unit_gives.bind fun _ _ => ?_
    dsimp only
    split
    · exact .pure trivial
    · exact ih

theorem floatIn_gives (low high : Float) :
    Gives Violation.FromDraw (floatIn low high : Draw σ Float) fun _ => True := by
  unfold floatIn
  dsimp only
  split
  · exact floatWithin_gives ..
  · exact .throw (.inl rfl)

theorem length_foldlM_sums {weights former former' : List Float} {total total' : Float}
    (h : weights.foldlM (fun (total, former) w => if w ≥ 0.0 then some (total + w, total :: former) else none)
      (total, former) = some (total', former')) : former'.length = former.length + weights.length := by
  induction weights generalizing total former with
  | nil =>
    cases h
    rfl
  | cons w weights ih =>
    rw [List.foldlM_cons] at h
    dsimp only at h
    by_cases hw : w ≥ 0.0
    · rw [if_pos hw] at h
      rw [ih h, List.length_cons, List.length_cons, Nat.add_right_comm, Nat.add_assoc]
    · rw [if_neg hw] at h
      cases h

theorem length_sums {weights former : List Float} {total : Float} (h : sums weights = some (total, former)) :
    former.length + 1 = weights.length := by
  cases weights with
  | nil => cases h
  | cons w weights =>
    rw [sums] at h
    by_cases hw : w ≥ 0.0
    · rw [if_pos hw] at h
      rw [length_foldlM_sums h, List.length_nil, Nat.zero_add, List.length_cons]
    · rw [if_neg hw] at h
      cases h

theorem weighted_gives (weights : List Float) :
    Gives Violation.FromDraw (weighted weights : Draw σ (Option Nat)) fun o => ∀ i ∈ o, i < weights.length := by
  unfold weighted
  cases hs : sums weights with
  | none => exact .pure nofun
  | some r =>
    obtain ⟨total, former⟩ := r
    dsimp only
    split
    · exact .pure nofun
    · split
      · exact Gives.bind (P := fun _ => False) (.throw (.inr rfl)) fun _ h => h.elim
      · refine unit_gives.bind fun _ _ => .pure ?_
        rintro _ ⟨⟩
        have := length_sums hs
        exact Nat.lt_of_le_of_lt (List.length_filter_le _ _) (by omega)

end Draw

namespace LiteralRanges

variable [WordSource σ] (r : LiteralRanges)

theorem int_gives : Gives Violation.FromDraw (r.int : Draw σ Int32) fun _ => True := by
  unfold int
  split
  · exact (Draw.uniform_gives ..).bind fun _ _ => .pure trivial
  · exact .pure trivial

theorem float_gives : Gives Violation.FromDraw (r.float : Draw σ Float) fun _ => True := by
  unfold float
  split
  · exact Draw.floatIn_gives ..
  · exact .pure trivial

theorem ints_gives (n : Nat) : Gives Violation.FromDraw (r.ints n : Draw σ (List Int32)) fun _ => True := by
  induction n with
  | zero => exact .pure trivial
  | succ n ih => exact r.int_gives.bind fun _ _ => ih.bind fun _ _ => .pure trivial

theorem array_gives : Gives Violation.FromDraw (r.array : Draw σ (List Int32)) fun _ => True :=
  (Draw.uniform_gives ..).bind fun n _ => r.ints_gives n.val

theorem literal_gives {b : Base} (hb : b ≠ .any) :
    Gives Violation.FromDraw (r.literal b : Draw σ Value) fun v => v.base = b := by
  cases b with
  | any => exact absurd rfl hb
  | bool => exact Draw.bool_gives.bind fun _ _ => .pure rfl
  | int => exact r.int_gives.bind fun _ _ => .pure rfl
  | float => exact r.float_gives.bind fun _ _ => .pure rfl
  | ints => exact r.array_gives.bind fun _ _ => .pure rfl

end LiteralRanges
end Grove
