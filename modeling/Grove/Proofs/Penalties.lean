import Grove.Proofs.FloatZeros
import Grove.Proofs.Result

/-! Penalties. The distance of two values is zero just if they are equal, except for infinities, which have no
difference. A penalty made from it is never below zero; and where penalties are never below zero the fitness, which is
their negated sum, is never above it. -/

namespace Grove

open FloatRounding

namespace Value

def isInfinite : Value → Bool
  | float x => x.isInf
  | _ => false

variable {v e : Value}

theorem int_distance_at_zero {a b : Int32} : ((int a).distance (int b) == 0.0) = true ↔ a = b := by
  have ha := int32Float_stands a
  have hb := int32Float_stands b
  change ((int32Float a - int32Float b).abs == 0.0) = true ↔ _
  rw [abs_sub_at_zero, beq_iff_parts, ha.beq_iff hb, and_iff_left (show (int32Float b).isInf = false from hb.isInf),
    mul_left_inj' whole_pos.ne', Int32.toInt_inj]

theorem whether_at_zero {b : Bool} : ((if b then 0.0 else 1.0 : Float) == 0.0) = true ↔ b = true := by
  cases b <;> decide

theorem distance_at_zero : (v.distance e == 0.0) = true ↔ v.same e = true ∧ e.isInfinite = false := by
  cases v <;> cases e
  case int.int a b => simp [int_distance_at_zero, same, isInfinite]
  case float.float x y => simp [distance, abs_sub_at_zero, same, isInfinite]
  all_goals
    refine whether_at_zero.trans ?_
    simp [same, isInfinite]

theorem distance_from_zero (h : (v.distance e).isFinite = true) : 0.0 ≤ v.distance e := by
  have hwhether : ∀ b : Bool, 0.0 ≤ (if b then 0.0 else 1.0 : Float) := by decide
  cases v <;> cases e
  case int.int a b => exact abs_from_zero h
  case float.float x y => exact abs_from_zero h
  all_goals exact hwhether _

end Value

section Penalties

variable {fault : Float} {o : Outcome} {e : Value}

theorem absoluteError_returned (fault : Float) (v e : Value) : absoluteError fault ⟨.valueReturned, some v⟩ e =
    if !(v.distance e).isFinite || fault < v.distance e then fault else v.distance e := rfl

theorem absoluteError_fault (h : ∀ v, o ≠ ⟨.valueReturned, some v⟩) : absoluteError fault o e = fault := by
  unfold absoluteError
  split
  · rename_i v
    exact absurd rfl (h v)
  · rfl

theorem absoluteError_cases (fault : Float) (o : Outcome) (e : Value) : absoluteError fault o e = fault ∨
    ∃ v, o = ⟨.valueReturned, some v⟩ ∧ (v.distance e).isFinite = true ∧ ¬ fault < v.distance e ∧
      absoluteError fault o e = v.distance e := by
  by_cases h : ∃ v, o = ⟨.valueReturned, some v⟩
  · obtain ⟨v, rfl⟩ := h
    rw [absoluteError_returned]
    split_ifs with hcost
    · exact .inl rfl
    · simp only [Bool.or_eq_true, Bool.not_eq_true', decide_eq_true_eq, not_or, Bool.not_eq_false] at hcost
      exact .inr ⟨v, rfl, hcost.1, hcost.2, rfl⟩
  · exact .inl (absoluteError_fault fun v hv => h ⟨v, hv⟩)

theorem absoluteError_from_zero (hfault : 0.0 ≤ fault) (o : Outcome) (e : Value) : 0.0 ≤ absoluteError fault o e := by
  rcases absoluteError_cases fault o e with h | ⟨v, -, hfinite, -, h⟩
  · rwa [h]
  · rw [h]
    exact Value.distance_from_zero hfinite

theorem absoluteError_at_zero (hfault : 0.0 ≤ fault) : (absoluteError fault o e == 0.0) = true ↔
    (fault == 0.0) = true ∨ ∃ v, o = ⟨.valueReturned, some v⟩ ∧ v.same e = true ∧ e.isInfinite = false := by
  constructor
  · intro hzero
    rcases absoluteError_cases fault o e with h | ⟨v, ho, -, -, h⟩
    · exact .inl (h ▸ hzero)
    · rw [h, Value.distance_at_zero] at hzero
      exact .inr ⟨v, ho, hzero⟩
  · rintro (hzero | ⟨v, rfl, hv⟩)
    · rcases absoluteError_cases fault o e with h | ⟨v, -, hfinite, hle, h⟩
      · rwa [h]
      · rw [h]
        exact at_zero_of_not_lt hzero (Value.distance_from_zero hfinite) hle
    · have hdistance := Value.distance_at_zero.2 hv
      have hfinite := isFinite_at_zero hdistance
      have hle := not_lt_at_zero hfault hdistance
      rw [absoluteError_returned, if_neg (by simp [hfinite, hle])]
      exact hdistance

end Penalties

namespace Tree

variable {t : Tree} {e : Environment} {f : Float}

theorem fitness_ok : t.fitness e = .ok f ↔
    ∃ ps, e.cases.mapM (t.penalty e) = .ok ps ∧ -(ps.foldl (· + ·) (-0.0)) = f :=
  Result.bind_ok.trans (by simp [pure, Except.pure])

/-- Where penalties are never below zero the fitness is never above it, and at zero only if all of them are. -/
theorem fitness_at_zero (hpenalty : ∀ o v, 0.0 ≤ e.penalty o v) (h : t.fitness e = .ok f) : f ≤ 0.0 ∧
    ((f == 0.0) = true ↔ ∀ c ∈ e.cases, ∃ o, t.outcome e.world c.arguments = .ok o ∧
      (e.penalty o c.expected == 0.0) = true) := by
  obtain ⟨ps, hps, rfl⟩ := fitness_ok.1 h
  have hfrom : ∀ p ∈ ps, 0.0 ≤ p := fun p hp => by
    obtain ⟨c, -, hc⟩ := (Result.mem_mapM hps).1 hp
    obtain ⟨o, -, rfl⟩ := Result.map_ok.1 hc
    exact hpenalty o c.expected
  obtain ⟨hsum, hzero⟩ := sum_at_zero hfrom (x := -0.0) (by decide)
  obtain ⟨hneg, hneg0⟩ := neg_at_zero hsum
  refine ⟨hneg, ?_⟩
  rw [hneg0, hzero, and_iff_right (by decide)]
  constructor
  · intro hall c hc
    obtain ⟨p, hp, hcp⟩ := Result.exists_mem_mapM hps hc
    obtain ⟨o, ho, rfl⟩ := Result.map_ok.1 hcp
    exact ⟨o, ho, hall _ hp⟩
  · intro hall p hp
    obtain ⟨c, hc, hcp⟩ := (Result.mem_mapM hps).1 hp
    obtain ⟨o, ho, rfl⟩ := Result.map_ok.1 hcp
    obtain ⟨o', ho', hzero⟩ := hall c hc
    cases ho.symm.trans ho'
    exact hzero

theorem fitness_returns_iff : (∃ f, t.fitness e = .ok f) ↔
    ∀ c ∈ e.cases, ∃ o, t.outcome e.world c.arguments = .ok o := by
  constructor
  · rintro ⟨f, hf⟩ c hc
    obtain ⟨ps, hps, -⟩ := fitness_ok.1 hf
    obtain ⟨p, -, hp⟩ := Result.exists_mem_mapM hps hc
    obtain ⟨o, ho, -⟩ := Result.map_ok.1 hp
    exact ⟨o, ho⟩
  · intro h
    have hpenalties : ∀ c ∈ e.cases, ∃ p, t.penalty e c = .ok p := fun c hc => by
      obtain ⟨o, ho⟩ := h c hc
      exact ⟨_, Result.map_ok.2 ⟨o, ho, rfl⟩⟩
    obtain ⟨ps, hps⟩ := Result.mapM_returns hpenalties
    exact ⟨_, fitness_ok.2 ⟨ps, hps, rfl⟩⟩

end Tree
end Grove
