import Grove.Proofs.Decimal
import Grove.Proofs.Text

/-! Literals parse back. No literal has a blank in it, and what is written for a value of a base is read as
that value; for floats this is asked of the number's own text. -/

namespace Grove

theorem isBlank_of_isDigit {c : Char} (h : isDigit c = true) : isBlank c = false := by
  by_cases hc : 48 ≤ c.toNat ∧ c.toNat ≤ 57
  · simp only [isBlank, blankRanges, List.any_cons, List.any_nil, Bool.or_false, Bool.or_eq_false_iff,
      Bool.and_eq_false_iff, decide_eq_false_iff_not]
    omega
  · simp [isDigit, digitValue?, hc] at h

def Solid (cs : List Char) : Prop := ∀ c ∈ cs, isBlank c = false

instance (cs : List Char) : Decidable (Solid cs) := List.decidableBAll (fun c => isBlank c = false) cs

theorem Solid.append {cs ds : List Char} (h : Solid cs) (h' : Solid ds) : Solid (cs ++ ds) := fun c hc =>
  (List.mem_append.1 hc).elim (h c) (h' c)

theorem Solid.cons {c : Char} {cs : List Char} (h : isBlank c = false) (h' : Solid cs) : Solid (c :: cs) :=
  List.forall_mem_cons.2 ⟨h, h'⟩

theorem Solid.clean {cs : List Char} (h : Solid cs) : Clean cs := clean_of_all h

theorem solid_nil : Solid [] := by simp [Solid]

theorem solid_digits (n : Nat) : Solid (digits n) := fun _ hc => isBlank_of_isDigit (isDigit_of_mem_digits n hc)

theorem solid_decimal (i : Int) : Solid (decimal i) := by
  cases i with
  | ofNat n => exact solid_digits n
  | negSucc n => exact .cons (by decide) (solid_digits _)

theorem solid_int32Text (i : Int32) : Solid (int32Text i) := solid_decimal _

theorem solid_intsText : ∀ xs : List Int32, Solid (intsText xs)
  | [] => solid_nil
  | [i] => solid_int32Text i
  | i :: j :: is => (solid_int32Text i).append (.cons (by decide) (solid_intsText (j :: is)))

namespace FloatLayout

theorem solid_zeros (n : Nat) : Solid (zeros n) := fun c hc => by
  rw [List.eq_of_mem_replicate hc]
  decide

theorem solid_positional {ds : List Char} (h : Solid ds) (k : Int) : Solid (positional ds k) := by
  unfold positional
  dsimp only
  split
  · rw [List.cons_append, List.cons_append]
    exact .cons (by decide) (.cons (by decide) ((solid_zeros _).append h))
  split
  · exact (h.append (solid_zeros _)).append (.cons (by decide) (.cons (by decide) solid_nil))
  · refine Solid.append (fun c hc => h c (List.mem_of_mem_take hc)) (.cons (by decide) ?_)
    exact fun c hc => h c (List.mem_of_mem_drop hc)

theorem solid_scientific {ds : List Char} (h : Solid ds) (k : Int) : Solid (scientific ds k) := by
  have he : Solid ('e' :: Grove.decimal (ds.length + k - 1)) := .cons (by decide) (solid_decimal _)
  unfold scientific
  split
  · exact he
  · exact .cons (h _ (by simp)) he
  · exact .cons (h _ (by simp)) (.cons (by decide) (Solid.append (fun c hc => h c (by simp [hc])) he))

theorem solid_render (x : Real2) : Solid (floatLayout.render binary64 x) := by
  have hsign : ∀ b, Solid (sign b) := by
    intro b
    cases b
    · exact solid_nil
    · exact .cons (by decide) solid_nil
  cases x with
  | nan => decide
  | infinite negative => exact (hsign negative).append (by decide)
  | finite negative m q =>
    refine (hsign negative).append ?_
    unfold unsigned
    dsimp only
    split
    · exact solid_positional (solid_digits _) _
    · exact solid_scientific (solid_digits _) _

end FloatLayout

theorem Value.solid_text (v : Value) : Solid v.text := by
  cases v with
  | bool b => cases b <;> decide
  | int i => exact solid_int32Text i
  | float x => exact FloatLayout.solid_render _
  | ints xs => exact .cons (by decide) ((solid_intsText xs).append (.cons (by decide) solid_nil))

theorem comma_not_mem_decimal (i : Int) : ',' ∉ decimal i := by
  have digits : ∀ n, ',' ∉ digits n := fun n h => absurd (isDigit_of_mem_digits n h) (by decide)
  cases i with
  | ofNat n => exact digits n
  | negSucc n => exact fun h => (List.mem_cons.1 h).elim (by decide) (digits _)

theorem splitOnChar_intsText (x : Int32) : ∀ xs : List Int32,
    splitOnChar ',' (intsText (x :: xs)) = int32Text x :: xs.map int32Text := by
  intro xs
  induction xs generalizing x with
  | nil => exact splitOnChar_front (comma_not_mem_decimal _)
  | cons y ys ih =>
    have hx : ',' ∉ int32Text x := comma_not_mem_decimal _
    change splitOnChar ',' (int32Text x ++ ',' :: intsText (y :: ys)) = _
    rw [splitOnChar_append hx, ih, List.map_cons]

theorem mapM_readInt32 (xs : List Int32) :
    (xs.map int32Text).mapM (fun part => readInt32 (trim part)) = some xs := by
  induction xs with
  | nil => rfl
  | cons x xs ih =>
    rw [List.map_cons, List.mapM_cons, (solid_int32Text x).clean.trim, readInt32_int32Text, ih]
    rfl

theorem readInts_intsText (xs : List Int32) : readInts (intsText xs) = some xs := by
  cases xs with
  | nil => rfl
  | cons x xs =>
    have hx : int32Text x ≠ [] := decimal_ne_nil _
    have hne : intsText (x :: xs) ≠ [] := by cases xs <;> simp [intsText, hx]
    rw [readInts, (solid_intsText _).clean.trim, if_neg (by simpa using hne), splitOnChar_intsText, ← List.map_cons,
      mapM_readInt32]

/-- A float has its number's text read back; a literal of another base needs no such promise. -/
def Value.Legible (v : Value) : Prop := ∀ x, v = .float x → readFloat (floatText x) = some x

theorem Value.parse_render {v : Value} (h : v.Legible) : Value.parse v.base v.render = .ok v := by
  have ht : trim v.render.toList = v.text := by
    rw [Value.render, String.toList_ofList, v.solid_text.clean.trim]
  unfold Value.parse
  rw [ht]
  cases v with
  | bool b => cases b <;> rfl
  | int i => simp [Value.base, Value.text, readInt32_int32Text]
  | float x => simp [Value.base, Value.text, h x rfl]
  | ints xs =>
    have hu : unbracket? (Value.ints xs).text = some (intsText xs) := by
      simp [Value.text, unbracket?]
    simp [Value.base, hu, readInts_intsText]

end Grove
