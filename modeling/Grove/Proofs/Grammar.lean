import Grove.Proofs.Planting
import Grove.Proofs.Result
import Grove.Reader

/-! The grammar of tree texts. A list of names spells a term when the names stand for its nodes in pre-order
and the signature allows the term. No term's nodes begin those of another, so a list of names spells one
term at most, and the reader finds it: it accepts a text just when its names spell a term, and then with the
tree of that term. -/

namespace Grove

namespace Term

theorem ofList_ofFn (n : Node) (kids : Fin n.arity → Term) (h : (List.ofFn kids).length = n.arity) :
    ofList n (List.ofFn kids) h = .node n kids := by
  simp [ofList]

theorem nodes_node (n : Node) (kids : Fin n.arity → Term) :
    (Term.node n kids).nodes = n :: (List.ofFn kids).flatMap Term.nodes := by
  rw [Term.nodes, List.flatMap, List.map_ofFn]
  rfl

theorem ofList_eq (n : Node) (ts : List Term) (h : ts.length = n.arity) :
    ∃ kids, ofList n ts h = .node n kids ∧ List.ofFn kids = ts := by
  refine ⟨fun i => ts[i.val], by simp [ofList], ?_⟩
  apply List.ext_getElem <;> simp [h]

theorem wellTyped_node {n : Node} {kids : Fin n.arity → Term} : (Term.node n kids).WellTyped ↔
    ∀ j t, (List.ofFn kids)[j]? = some t → (n.slotType j).accepts t.returns = true ∧ t.WellTyped := by
  simp only [WellTyped]
  constructor
  · intro h j t ht
    obtain ⟨hj, rfl⟩ := List.getElem?_eq_some_iff.1 ht
    simpa using h ⟨j, by simpa using hj⟩
  · intro h i
    exact h i (kids i) (by simp)

theorem flatMap_nodes_append_inj {ts ts' : List Term} {ms ms' : List Node} (hl : ts.length = ts'.length)
    (inj : ∀ t ∈ ts, ∀ {t' : Term} {ms ms' : List Node}, t.nodes ++ ms = t'.nodes ++ ms' → t = t' ∧ ms = ms')
    (h : ts.flatMap nodes ++ ms = ts'.flatMap nodes ++ ms') : ts = ts' ∧ ms = ms' := by
  induction ts generalizing ts' with
  | nil =>
    obtain rfl : ts' = [] := List.length_eq_zero_iff.1 hl.symm
    exact ⟨rfl, by simpa using h⟩
  | cons t ts ih =>
    obtain ⟨t', ts', rfl⟩ := List.exists_cons_of_length_eq_add_one hl.symm
    simp only [List.flatMap_cons, List.append_assoc] at h
    obtain ⟨rfl, h'⟩ := inj t (by simp) h
    obtain ⟨rfl, hms⟩ := ih (by simpa using hl) (fun t ht => inj t (List.mem_cons_of_mem _ ht)) h'
    exact ⟨rfl, hms⟩

theorem nodes_append_inj (e : Term) : ∀ {e' : Term} {ms ms' : List Node},
    e.nodes ++ ms = e'.nodes ++ ms' → e = e' ∧ ms = ms' := by
  induction e with
  | node n kids ih =>
    intro e' ms ms' h
    obtain ⟨n', kids'⟩ := e'
    rw [nodes_node, nodes_node, List.cons_append, List.cons_append, List.cons.injEq] at h
    obtain ⟨rfl, h⟩ := h
    have inj : ∀ t ∈ List.ofFn kids, ∀ {t' : Term} {ms ms' : List Node},
        t.nodes ++ ms = t'.nodes ++ ms' → t = t' ∧ ms = ms' := by
      intro t ht
      obtain ⟨i, rfl⟩ := List.mem_ofFn.1 ht
      exact ih i
    obtain ⟨hk, hm⟩ := flatMap_nodes_append_inj (by simp) inj h
    refine ⟨congrArg _ (funext fun i => ?_), hm⟩
    simpa using congrArg (·[i.val]?) hk

theorem nodes_inj {e e' : Term} (h : e.nodes = e'.nodes) : e = e' :=
  (nodes_append_inj e (show e.nodes ++ [] = e'.nodes ++ [] by rw [h])).1

end Term

theorem checkDeclared_ok {name : String} {table : VariableTable} {declared : List Ty} {ty : Ty} {i : Nat} :
    checkDeclared name table declared ty i = .ok () ↔ Signature.declares declared ty i = true := by
  unfold checkDeclared Signature.declares
  cases declared[i]? with
  | none => simp
  | some found => by_cases h : found.strip = ty.strip <;> simp [h]

theorem checkVariable_ok {n : Node} {name : String} {s : Signature} :
    checkVariable n name s = .ok () ↔ n.fits s = true := by
  cases n <;> simp [checkVariable, Node.fits, checkDeclared_ok]

/-- The names stand for the nodes of a term, and the signature allows the term below a slot that accepts it. -/
structure Vocabulary.Spells (v : Vocabulary) (s : Signature) (names : List String) (e : Term) : Prop where
  names : names.map v.node = e.nodes.map .ok
  slots : e.WellTyped
  declared : ∀ n ∈ e.nodes, n.fits s = true

/-- The names stand for the nodes of terms, each allowed in its slot, from the given one on. -/
structure Vocabulary.SpellsSlots (v : Vocabulary) (s : Signature) (n : Node) (slot : Nat) (names : List String)
    (ts : List Term) : Prop where
  names : names.map v.node = (ts.flatMap Term.nodes).map .ok
  slots : ∀ j t, ts[j]? = some t → (n.slotType (slot + j)).accepts t.returns = true ∧ t.WellTyped
  declared : ∀ t ∈ ts, ∀ m ∈ t.nodes, m.fits s = true

section Reading

variable {v : Vocabulary} {s : Signature} {n : Node}

theorem Vocabulary.SpellsSlots.cons {slot : Nat} {front back : List String} {t : Term} {ts : List Term}
    (h : v.Spells s front t) (ha : (n.slotType slot).accepts t.returns = true)
    (hs : v.SpellsSlots s n (slot + 1) back ts) : v.SpellsSlots s n slot (front ++ back) (t :: ts) := by
  refine ⟨?_, ?_, List.forall_mem_cons.2 ⟨h.declared, hs.declared⟩⟩
  · rw [List.map_append, h.names, hs.names, List.flatMap_cons, List.map_append]
  · rintro (_ | j) t' ht'
    · obtain rfl : t = t' := by simpa using ht'
      exact ⟨ha, h.slots⟩
    · have := hs.slots j t' (by simpa using ht')
      rwa [Nat.add_assoc, Nat.add_comm 1] at this

theorem Vocabulary.Spells.node {name : String} {names : List String} {kids : Fin n.arity → Term}
    (hn : v.node name = .ok n) (hf : n.fits s = true) (hs : v.SpellsSlots s n 0 names (List.ofFn kids)) :
    v.Spells s (name :: names) (.node n kids) := by
  refine ⟨?_, ?_, ?_⟩
  · rw [List.map_cons, hn, hs.names, Term.nodes_node, List.map_cons]
  · exact Term.wellTyped_node.2 fun j t ht => by simpa using hs.slots j t ht
  · rw [Term.nodes_node]
    refine List.forall_mem_cons.2 ⟨hf, fun m hm => ?_⟩
    obtain ⟨t, ht, hm⟩ := List.mem_flatMap.1 hm
    exact hs.declared t ht m hm

theorem readSlots_sound {read : List String → Except Error (Term × List String)}
    (hread : ∀ {names t rest}, read names = .ok (t, rest) → ∃ front, names = front ++ rest ∧ v.Spells s front t)
    {left : Nat} {names rest : List String} {ts} (hl : left ≤ n.arity)
    (h : readSlots n read left names = .ok (ts, rest)) :
    ∃ front, names = front ++ rest ∧ v.SpellsSlots s n (n.arity - left) front ts.val := by
  induction left generalizing names rest with
  | zero =>
    cases h
    exact ⟨[], rfl, by simp, by simp, by simp⟩
  | succ left ih =>
    obtain ⟨⟨t, names'⟩, hr, h⟩ := Result.bind_ok.1 h
    obtain ⟨⟨⟩, hc, h⟩ := Result.bind_ok.1 h
    obtain ⟨⟨ts', names''⟩, hs, h⟩ := Result.bind_ok.1 h
    cases h
    obtain ⟨front, rfl, hf⟩ := hread hr
    obtain ⟨back, rfl, hb⟩ := ih (by omega) hs
    refine ⟨front ++ back, by simp, .cons hf (checkSlot_ok.1 hc) ?_⟩
    rwa [show n.arity - (left + 1) + 1 = n.arity - left by omega]

theorem readSlots_complete {read : List String → Except Error (Term × List String)} {left : Nat} {ts : List Term}
    (hl : ts.length = left) {names rest : List String} (ha : left ≤ n.arity)
    (hread : ∀ t ∈ ts, ∀ {names rest : List String}, v.Spells s names t → read (names ++ rest) = .ok (t, rest))
    (h : v.SpellsSlots s n (n.arity - left) names ts) :
    readSlots n read left (names ++ rest) = .ok (⟨ts, hl⟩, rest) := by
  induction ts generalizing left names with
  | nil =>
    subst hl
    obtain rfl : names = [] := by simpa using h.names
    rfl
  | cons t ts ih =>
    obtain ⟨left, rfl⟩ : ∃ k, left = k + 1 := ⟨ts.length, hl.symm⟩
    have hnames := h.names
    rw [List.flatMap_cons, List.map_append, List.map_eq_append_iff] at hnames
    obtain ⟨front, back, rfl, hfront, hback⟩ := hnames
    obtain ⟨hslot, hw⟩ := h.slots 0 t (by simp)
    obtain ⟨hvt, hvts⟩ := List.forall_mem_cons.1 h.declared
    have hb : v.SpellsSlots s n (n.arity - left) back ts := by
      refine ⟨hback, fun j t' ht' => ?_, hvts⟩
      have := h.slots (j + 1) t' (by simpa using ht')
      rwa [show n.arity - (left + 1) + (j + 1) = n.arity - left + j by omega] at this
    have hrest : readSlots n read left (back ++ rest) = .ok (⟨ts, Nat.succ.inj hl⟩, rest) :=
      ih _ (by omega) (fun t ht => hread t (List.mem_cons_of_mem _ ht)) hb
    have hfirst : read (front ++ (back ++ rest)) = .ok (t, back ++ rest) := hread t (by simp) ⟨hfront, hw, hvt⟩
    rw [List.append_assoc]
    exact Result.bind_ok.2 ⟨_, hfirst, Result.bind_ok.2 ⟨(), checkSlot_ok.2 hslot, Result.bind_ok.2 ⟨_, hrest, rfl⟩⟩⟩

theorem readTerm_cons {room : Nat} {parent name : String} {names : List String} :
    v.readTerm s (room + 1) parent (name :: names) = (do
      let n ← v.node name
      checkVariable n name s
      let (kids, names) ← readSlots n (v.readTerm s room name) n.arity names
      return (.ofList n kids.val kids.property, names)) := rfl

theorem readTerm_sound {room : Nat} {parent : String} {names rest : List String} {e : Term}
    (h : v.readTerm s room parent names = .ok (e, rest)) : ∃ front, names = front ++ rest ∧ v.Spells s front e := by
  induction room generalizing parent names rest e with
  | zero => cases h
  | succ room ih =>
    cases names with
    | nil => cases h
    | cons name names =>
      rw [readTerm_cons] at h
      obtain ⟨n, hn, h⟩ := Result.bind_ok.1 h
      obtain ⟨⟨⟩, hv, h⟩ := Result.bind_ok.1 h
      obtain ⟨⟨⟨ts, hl⟩, names'⟩, hs, h⟩ := Result.bind_ok.1 h
      cases h
      obtain ⟨front, rfl, hf⟩ := readSlots_sound ih (Nat.le_refl _) hs
      obtain ⟨kids, hk, rfl⟩ := Term.ofList_eq n ts hl
      refine ⟨name :: front, rfl, ?_⟩
      rw [hk]
      exact .node hn (checkVariable_ok.1 hv) (by simpa using hf)

theorem readTerm_complete (e : Term) : ∀ {room : Nat} {parent : String} {names rest : List String}, e.size ≤ room →
    v.Spells s names e → v.readTerm s room parent (names ++ rest) = .ok (e, rest) := by
  induction e with
  | node n kids ih =>
    intro room parent names rest hroom h
    obtain ⟨room, rfl⟩ : ∃ k, room = k + 1 := ⟨room - 1, by have := (Term.node n kids).size_pos; omega⟩
    have hnames := h.names
    rw [Term.nodes_node, List.map_cons, List.map_eq_cons_iff] at hnames
    obtain ⟨name, names, rfl, hn, hnames⟩ := hnames
    have hvars := h.declared
    rw [Term.nodes_node] at hvars
    have hspells : v.SpellsSlots s n (n.arity - (List.ofFn kids).length) names (List.ofFn kids) := by
      refine ⟨hnames, fun j t ht => ?_, fun t ht m hm => ?_⟩
      · simpa using Term.wellTyped_node.1 h.slots j t ht
      · exact hvars m (List.mem_cons_of_mem _ (List.mem_flatMap.2 ⟨t, ht, hm⟩))
    have hread : ∀ t ∈ List.ofFn kids, ∀ {names rest : List String}, v.Spells s names t →
        v.readTerm s room name (names ++ rest) = .ok (t, rest) := by
      intro t ht names rest ht'
      obtain ⟨i, rfl⟩ := List.mem_ofFn.1 ht
      have := Term.size_kid_lt kids i
      exact ih i (by omega) ht'
    have hs : readSlots n (v.readTerm s room name) n.arity (names ++ rest) = .ok (⟨List.ofFn kids, by simp⟩, rest) :=
      readSlots_complete (by simp) (Nat.le_refl _) hread (by simpa using hspells)
    refine Result.bind_ok.2 ⟨n, hn, Result.bind_ok.2 ⟨(), checkVariable_ok.2 (hvars n (by simp)), ?_⟩⟩
    exact Result.bind_ok.2 ⟨_, hs, by dsimp only; rw [Term.ofList_ofFn]; rfl⟩

/-- The reader finds the one term that the names spell, and plants it. -/
theorem readTree_ok {text : String} {t : Tree} : v.readTree text s = .ok t ↔
    ∃ e, (nodeNames text).map v.node = e.nodes.map .ok ∧ s.Admits e ∧ t = .planted s e := by
  unfold Vocabulary.readTree
  cases hnames : nodeNames text with
  | nil =>
    constructor
    · intro h
      cases h
    · rintro ⟨e, h, -⟩
      exact absurd (congrArg List.length h).symm (by simpa [Term.size] using Nat.ne_of_gt e.size_pos)
  | cons name names =>
    change ((v.readTerm s (name :: names).length "" (name :: names)) >>= _) = _ ↔ _
    constructor
    · intro h
      obtain ⟨⟨e, rest⟩, he, h⟩ := Result.bind_ok.1 h
      obtain ⟨t', ht, h⟩ := Result.bind_ok.1 h
      cases rest with
      | cons extra rest => cases h
      | nil =>
        cases h
        obtain ⟨front, hf, hs⟩ := readTerm_sound he
        rw [List.append_nil] at hf
        subst hf
        obtain ⟨ha, rfl⟩ := Tree.ofTerm_ok.1 ht
        exact ⟨e, hs.names, ⟨ha, hs.slots, hs.declared⟩, rfl⟩
    · rintro ⟨e, hn, ha, rfl⟩
      have hsize : e.size = (name :: names).length := by simpa [Term.size] using (congrArg List.length hn).symm
      have he : v.readTerm s (name :: names).length "" (name :: names ++ []) = .ok (e, []) :=
        readTerm_complete e (Nat.le_of_eq hsize) ⟨hn, ha.slots, ha.declared⟩
      rw [List.append_nil] at he
      exact Result.bind_ok.2 ⟨_, he, Result.bind_ok.2 ⟨_, Tree.ofTerm_ok.2 ⟨ha.root, rfl⟩, rfl⟩⟩

end Reading

/-- The nodes of a tree in pre-order, all slots being filled. -/
def Tree.Lists (t : Tree) (ns : List Node) : Prop := ∃ s, t.shape? = some s ∧ s.nodes = ns

/-- The names in a text resolve, in order, to the nodes of a tree. -/
def Vocabulary.Names (v : Vocabulary) (text : String) (t : Tree) : Prop :=
  ∃ ns, t.Lists ns ∧ (nodeNames text).map v.node = ns.map .ok

theorem Tree.Denotes.lists {t : Tree} {e : Term} (h : t.Denotes e) {ns : List Node} : t.Lists ns ↔ e.nodes = ns := by
  obtain ⟨s, hs, he⟩ := h
  simp [Tree.Lists, hs, he.nodes_eq]

theorem Vocabulary.names_iff {v : Vocabulary} {text : String} {t : Tree} {e : Term} (h : t.Denotes e) :
    v.Names text t ↔ (nodeNames text).map v.node = e.nodes.map .ok := by
  simp [Vocabulary.Names, h.lists]

/-- A text is accepted just when its names list a valid tree for the signature; what is read is such a tree,
and up to the numbers of the nodes there is no other. -/
theorem readTree_accepts_iff (v : Vocabulary) (text : String) (sig : Signature) :
    ((∃ t, v.readTree text sig = .ok t) ↔ ∃ t : Tree, t.ValidFor sig ∧ v.Names text t) ∧
      ∀ t, v.readTree text sig = .ok t →
        t.ValidFor sig ∧ v.Names text t ∧ ∀ t' : Tree, t'.ValidFor sig → v.Names text t' → t.Alike t' := by
  have sound : ∀ {t}, v.readTree text sig = .ok t → t.ValidFor sig ∧ v.Names text t := by
    intro t h
    obtain ⟨e, hn, ha, rfl⟩ := readTree_ok.1 h
    exact ⟨Tree.validFor_planted ha, (Vocabulary.names_iff (Tree.denotes_planted sig e)).2 hn⟩
  refine ⟨⟨fun ⟨t, h⟩ => ⟨t, sound h⟩, ?_⟩, fun t h => ⟨(sound h).1, (sound h).2, fun t' hv hn => ?_⟩⟩
  · rintro ⟨t, hv, hn⟩
    obtain ⟨e, he, ha⟩ := hv.term
    exact ⟨_, readTree_ok.2 ⟨e, (Vocabulary.names_iff he).1 hn, ha, rfl⟩⟩
  · obtain ⟨hv₀, hn₀⟩ := sound h
    obtain ⟨e, he, -⟩ := hv₀.term
    obtain ⟨e', he', -⟩ := hv.term
    have hnodes := ((Vocabulary.names_iff he).1 hn₀).symm.trans ((Vocabulary.names_iff he').1 hn)
    obtain rfl : e = e' := Term.nodes_inj ((List.map_inj_right fun _ _ => Except.ok.inj).1 hnodes)
    exact ⟨hv₀.signature.trans hv.signature.symm, e, he, he'⟩

theorem readTree_accepts_constant :
    ∃ t, Vocabulary.readTree ⟨.empty .standard, .empty⟩ "+--Const<int,5>" ⟨none, .int, [], []⟩ = .ok t ∧
      t.ValidFor ⟨none, .int, [], []⟩ := by
  have hread : (Vocabulary.readTree ⟨.empty .standard, .empty⟩ "+--Const<int,5>"
      ⟨none, .int, [], []⟩).toOption.isSome = true := by decide +kernel
  obtain ⟨t, ht⟩ := Option.isSome_iff_exists.1 hread
  replace ht := Result.toOption_some.1 ht
  obtain ⟨valid, -, -⟩ := (readTree_accepts_iff _ _ _).2 t ht
  exact ⟨t, ht, valid⟩

end Grove
