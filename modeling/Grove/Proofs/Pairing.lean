import Grove.Proofs.Lockstep

/-! Stores that are paired cell by cell. Some cells that were there at the start of two evaluations are paired, and
those made since are paired in the order in which they were made. If paired cells had contents that agree, they
keep such contents: what is read from them, or written to them, is the same. -/

namespace Grove

namespace Store

theorem content_write (s : Store) (i j : Nat) (v : Value) :
    (s.write i v).content j = if i = j ∧ i < s.cells.size then some v else s.content j := by
  by_cases hij : i = j
  · subst hij
    by_cases hi : i < s.cells.size
    · rw [content_write_self hi, if_pos ⟨rfl, hi⟩]
    · rw [if_neg fun h => hi h.2]
      simp [content, write, hi]
  · rw [content_write_of_ne hij, if_neg fun h => hij h.1]

theorem content_alloc (s : Store) (c : Option Value) (i : Nat) :
    (s.alloc c).2.content i = if i = s.cells.size then c else s.content i := by
  by_cases hi : i = s.cells.size
  · simp [hi, alloc, content]
  · simp [hi, alloc, content, Array.getElem?_push]

end Store

namespace Variable

theorem some_get (x : Variable) (s : Store) : some (x.get s).1 = (x.content s).or (Value.default? x.base) := by
  unfold get
  cases x.content s with
  | none => exact (Value.default?_of_ne x.concrete).symm
  | some v => rfl

theorem get_snd (x : Variable) (s : Store) : (x.get s).2 = s.write x.cell (x.get s).1 := by
  unfold get
  cases hc : x.content s with
  | none => rfl
  | some v =>
    have hv : s.cells[x.cell]? = some (some v) := Option.join_eq_some_iff.1 hc
    obtain ⟨hlt, hget⟩ := Array.getElem?_eq_some_iff.1 hv
    have : s.cells.setIfInBounds x.cell (some v) = s.cells := by
      rw [Array.setIfInBounds_def, dif_pos hlt, ← hget, Array.set_getElem_self]
    simp [Store.write, this]

end Variable

/-- Two stores at the start: their sizes, which of their cells are paired for variables of a base, and which contents
of paired cells agree. -/
structure Pairing where
  size : Nat
  size' : Nat
  old : Base → Nat → Nat → Prop
  agree : Base → Option Value → Option Value → Prop
  inside : ∀ {b c c'}, old b c c' → c < size ∧ c' < size'
  oneToOne : ∀ {b b' c c' d d'}, old b c c' → old b' d d' → (c = d ↔ c' = d')
  agree_refl : ∀ b v, agree b v v
  settled : ∀ {b v v'}, agree b v v' → v'.or (Value.default? b) = v.or (Value.default? b)

namespace Pairing

variable (p : Pairing)

inductive Cells : Base → Nat → Nat → Prop
  | old {b : Base} {c c' : Nat} (h : p.old b c c') : Cells b c c'
  | made (b : Base) (k : Nat) : Cells b (p.size + k) (p.size' + k)

/-- As many cells were made in both stores, and the contents of paired cells agree. -/
structure Stores (s s' : Store) : Prop where
  made : ∃ n, s.cells.size = p.size + n ∧ s'.cells.size = p.size' + n
  agree : ∀ {b c c'}, p.Cells b c c' → p.agree b (s.content c) (s'.content c')

variable {p} {s s' : Store} {b e : Base} {c c' d d' : Nat}

theorem agree_of_eq {v v' : Option Value} (h : v' = v) : p.agree b v v' := h ▸ p.agree_refl b v

theorem Cells.oneToOne (h : p.Cells b c c') (h' : p.Cells e d d') : c = d ↔ c' = d' := by
  cases h with
  | old h =>
    cases h' with
    | old h' => exact p.oneToOne h h'
    | made k =>
      have := p.inside h
      omega
  | made k =>
    cases h' with
    | old h' =>
      have := p.inside h'
      omega
    | made k' => omega

theorem Cells.inside (h : p.Cells b c c') (hs : p.Stores s s') : c < s.cells.size ↔ c' < s'.cells.size := by
  obtain ⟨n, hn, hn'⟩ := hs.made
  rw [hn, hn']
  cases h with
  | old h =>
    have := p.inside h
    omega
  | made k => omega

theorem Stores.write (hs : p.Stores s s') (h : p.Cells b c c') (v : Value) :
    p.Stores (s.write c v) (s'.write c' v) where
  made := by simpa using hs.made
  agree {e d d'} hd := by
    rw [Store.content_write, Store.content_write]
    by_cases hc : c = d ∧ c < s.cells.size
    · exact agree_of_eq (by rw [if_pos hc, if_pos ⟨(h.oneToOne hd).1 hc.1, (h.inside hs).1 hc.2⟩])
    · rw [if_neg hc, if_neg fun hc' => hc ⟨(h.oneToOne hd).2 hc'.1, (h.inside hs).2 hc'.2⟩]
      exact hs.agree hd

theorem Stores.alloc (hs : p.Stores s s') (v : Option Value) :
    p.Stores (s.alloc v).2 (s'.alloc v).2 ∧ ∀ b, p.Cells b (s.alloc v).1 (s'.alloc v).1 := by
  obtain ⟨n, hn, hn'⟩ := hs.made
  have hnew : ∀ b, p.Cells b s.cells.size s'.cells.size := fun b => hn ▸ hn' ▸ .made b n
  refine ⟨⟨⟨n + 1, by simp [Store.alloc, hn]; omega, by simp [Store.alloc, hn']; omega⟩, fun {e d d'} hd => ?_⟩, hnew⟩
  rw [Store.content_alloc, Store.content_alloc]
  by_cases hc : d = s.cells.size
  · exact agree_of_eq (by rw [if_pos hc, if_pos ((hd.oneToOne (hnew e)).1 hc)])
  · rw [if_neg hc, if_neg fun hc' => hc ((hd.oneToOne (hnew e)).2 hc')]
    exact hs.agree hd

theorem Stores.get (hs : p.Stores s s') {x x' : Variable} (hb : x'.base = x.base) (h : p.Cells x.base x.cell x'.cell) :
    (x'.get s').1 = (x.get s).1 ∧ p.Stores (x.get s).2 (x'.get s').2 := by
  have hv : (x'.get s').1 = (x.get s).1 := by
    rw [← Option.some_inj, Variable.some_get, Variable.some_get, hb]
    exact p.settled (hs.agree h)
  exact ⟨hv, by rw [Variable.get_snd, Variable.get_snd, hv]; exact hs.write h _⟩

variable (p)

/-- Evaluations in lockstep over paired stores. -/
def lockstep (breach : Violation → Violation → Prop) (hrefl : ∀ v, breach v v) : Lockstep where
  pair x x' := x'.base = x.base ∧ p.Cells x.base x.cell x'.cell
  store := p.Stores
  breach := breach
  base h := h.1
  reads h hs := hs.get h.1 h.2
  writes h _ hs := hs.write h.2 _
  makes hs v := ⟨(hs.alloc v).1, fun b _ => ⟨rfl, (hs.alloc v).2 b⟩⟩
  breach_refl := hrefl

end Pairing
end Grove
