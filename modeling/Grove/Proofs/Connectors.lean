import Grove.Proofs.Ascent
import Grove.Proofs.Lines
import Grove.Proofs.Visiting

/-! The written layout shows the tree. Each node has a row of two lines: behind the indentation that the nodes above it
make up stands its marker, and the line below ends in a bar. That bar is at the column of the next row's marker,
wherever in the tree the next node stands. -/

namespace Grove

/-- What stands in front of a node's marker, its name, and the line below, from whose end blanks will be dropped. -/
structure Row where
  front : List Char
  name : String
  below : List Char

namespace Row

def header (r : Row) : List Char := r.front ++ marker ++ r.name.toList

def lines (r : Row) : List (List Char) := [r.header, r.below]

def trimmedLines (r : Row) : List (List Char) := [r.header, trimEnd r.below]

end Row

def keptLines (rows : List Row) : List (List Char) := ((rows.flatMap Row.lines).map trimEnd).filter (!·.isEmpty)

def Shape.rows (spell : Node → String) : Shape → (indent : List Char) → (last : Bool) → List Row
  | .node _ n kids, indent, last =>
    ⟨indent, spell n, connector indent n.isLeaf last⟩ ::
      (List.ofFn fun i => (kids i).rows spell (indent ++ indentStep last) (i.val + 1 = n.arity)).flatten
  | .torn .., _, _ => []

/-- Rows the first of which begins with `front`, while the line below the last one is `close`. Below any other stands a
bar at the column where the next row's marker begins. -/
inductive Hangs : (front close : List Char) → List Row → Prop
  | last {r : Row} {front close : List Char} (hfront : r.front = front) (hclose : trimEnd r.below = close) :
      Hangs front close [r]
  | next {r : Row} {front above front' close : List Char} {rows : List Row} (hfront : r.front = front)
      (hbar : trimEnd r.below = above ++ bar) (hcolumn : above.length = front'.length) (h : Hangs front' close rows) :
      Hangs front close (r :: rows)

/-- The nodes passed on the way down to a node, without that node. -/
inductive Forest.Trail (g : Forest) (i : NodeId) : List NodeId → NodeId → Prop
  | here : Trail g i [] i
  | down {above : List NodeId} {e : Edge} (h : Trail g i above e.parent) (he : e ∈ g.edges) :
      Trail g i (above ++ [e.parent]) e.child

/-- Three characters for each node above: a bar while it has siblings to come. The topmost one is a last child. -/
def Forest.indentation (g : Forest) (i : NodeId) (above : List NodeId) : List Char :=
  above.flatMap fun j => if j = i ∨ g.isLastChild j then [' ', ' ', ' '] else ['|', ' ', ' ']

section Blanks

theorem isBlank_bar : isBlank '|' = false := by decide

theorem isBlank_space : isBlank ' ' = true := by decide

theorem trimEnd_bar (cs : List Char) : trimEnd (cs ++ bar) = cs ++ bar := by
  simp [trimEnd, bar, isBlank_bar]

theorem trimEnd_append_blank (cs : List Char) {ds : List Char} (h : ∀ c ∈ ds, isBlank c = true) :
    trimEnd (cs ++ ds) = trimEnd cs := by
  rw [trimEnd, trimEnd, List.reverse_append, List.dropWhile_append_of_pos fun c hc => h c (List.mem_reverse.1 hc)]

/-- What is written below the last node of a subtree is its indentation for the nodes below, as far as it is seen. -/
theorem trimEnd_indentStep (indent : List Char) (last : Bool) :
    trimEnd (indent ++ indentStep last) = trimEnd (connector indent true last) := by
  cases last with
  | true => exact trimEnd_append_blank indent (by simp [indentStep, isBlank_space])
  | false =>
    have hsplit : indent ++ indentStep false = indent ++ bar ++ [' ', ' '] := by simp [indentStep, bar]
    rw [hsplit, trimEnd_append_blank _ (by simp [isBlank_space])]
    rfl

theorem getLast?_trimEnd {cs : List Char} {c : Char} (h : c ∈ (trimEnd cs).getLast?) : isBlank c = false := by
  rw [trimEnd, List.getLast?_reverse] at h
  have hhead := List.head?_dropWhile_not isBlank cs.reverse
  rw [h] at hhead
  simpa using hhead

end Blanks

section Rows

variable {front front' above close : List Char} {rows rows' : List Row} {spell : Node → String}

theorem Hangs.append (h : Hangs front (above ++ bar) rows) (hcolumn : above.length = front'.length)
    (h' : Hangs front' close rows') : Hangs front close (rows ++ rows') := by
  generalize hb : above ++ bar = b at h
  induction h with
  | last hfront hclose => exact .next hfront (hclose.trans hb.symm) hcolumn h'
  | next hfront hbar hcol _ ih => exact .next hfront hbar hcol (ih hb)

theorem hangs_siblings {m : Nat} {f : Fin m → List Row} (hm : 0 < m)
    (h : ∀ i : Fin m, Hangs front (if i.val + 1 = m then close else front ++ bar) (f i)) :
    Hangs front close (List.ofFn f).flatten := by
  obtain ⟨m, rfl⟩ := Nat.exists_eq_add_one.2 hm
  induction m with
  | zero => simpa using h 0
  | succ m ih =>
    rw [List.ofFn_succ, List.flatten_cons]
    refine Hangs.append (by simpa using h 0) rfl (ih (Nat.succ_pos m) fun i => ?_)
    simpa using h i.succ

/-- The bars of a complete shape lead from each row to the next. -/
theorem Shape.Complete.hangs {s : Shape} (h : s.Complete) (indent : List Char) (last : Bool) :
    Hangs indent (trimEnd (connector indent true last)) (s.rows spell indent last) := by
  induction s generalizing indent last with
  | torn => exact h.elim
  | node id n kids ih =>
    rw [Shape.rows]
    rcases Nat.eq_zero_or_pos n.arity with ha | ha
    · have hnone : (List.ofFn fun i => (kids i).rows spell (indent ++ indentStep last) (i.val + 1 = n.arity)) = [] := by
        simpa using ha
      have hleaf : n.isLeaf = true := by simpa [Node.isLeaf] using ha
      rw [hnone, hleaf]
      exact .last rfl rfl
    · have hleaf : n.isLeaf = false := by simpa [Node.isLeaf] using Nat.ne_of_gt ha
      have hbar : trimEnd (connector indent n.isLeaf last) = indent ++ indentStep last ++ bar := by
        rw [hleaf]
        exact trimEnd_bar _
      refine .next rfl hbar rfl (hangs_siblings ha fun i => ?_)
      have hkid := ih i (h i) (indent ++ indentStep last) (i.val + 1 = n.arity)
      by_cases hi : i.val + 1 = n.arity
      · rw [if_pos hi, ← trimEnd_indentStep]
        simpa [hi, connector] using hkid
      · rw [if_neg hi, ← trimEnd_bar]
        simpa [hi, connector] using hkid

/-- The line below the last row, of which nothing is left, is dropped. -/
theorem Hangs.keptLines_eq (h : Hangs front [] rows) (hends : ∀ r ∈ rows, trimEnd r.header = r.header) :
    keptLines rows = (rows.flatMap Row.trimmedLines).dropLast := by
  have hheader : ∀ r : Row, r.header.isEmpty = false := fun r => by simp [Row.header, marker]
  generalize hnil : ([] : List Char) = close at h
  induction h with
  | @last r _ _ _ hclose =>
    have hr := hends r List.mem_cons_self
    subst hnil
    simp [keptLines, Row.lines, Row.trimmedLines, hr, hclose, hheader]
  | @next r _ above _ _ rows _ hbar _ hnext ih =>
    obtain ⟨hr, hrows⟩ := List.forall_mem_cons.1 hends
    have hkept : (above ++ bar).isEmpty = false := by simp [bar]
    have hne : rows.flatMap Row.trimmedLines ≠ [] := by
      cases hnext <;> simp [Row.trimmedLines]
    have hrest : (r.header :: trimEnd r.below :: rows.flatMap Row.trimmedLines).dropLast =
        r.header :: trimEnd r.below :: (rows.flatMap Row.trimmedLines).dropLast := by
      rw [List.dropLast_cons_of_ne_nil (List.cons_ne_nil _ _), List.dropLast_cons_of_ne_nil hne]
    change (((r.header :: r.below :: rows.flatMap Row.lines).map trimEnd).filter (!·.isEmpty)) = _
    rw [List.map_cons, List.map_cons, hr, List.filter_cons_of_pos (by simp [hheader]),
      List.filter_cons_of_pos (by simp [hbar, hkept])]
    exact (congrArg (r.header :: trimEnd r.below :: ·) (ih hrows hnil)).trans hrest.symm

theorem getElem?_trimmedLines (rows : List Row) (k : Nat) :
    (rows.flatMap Row.trimmedLines)[2 * k]? = rows[k]?.map Row.header ∧
      (rows.flatMap Row.trimmedLines)[2 * k + 1]? = rows[k]?.map fun r => trimEnd r.below := by
  induction rows generalizing k with
  | nil => simp
  | cons r rows ih =>
    cases k with
    | zero => exact ⟨rfl, rfl⟩
    | succ k => exact ih k

theorem Hangs.column (h : Hangs front close rows) {k : Nat} {r : Row} (hr : rows[k + 1]? = some r) :
    ∃ r' above, rows[k]? = some r' ∧ trimEnd r'.below = above ++ bar ∧ above.length = r.front.length := by
  induction h generalizing k with
  | last _ _ => simp at hr
  | @next r' _ above front' _ rows _ hbar hcolumn hnext ih =>
    cases k with
    | zero =>
      have hfront : r.front = front' := by
        cases hnext with
        | last hfront _ | next hfront _ _ _ =>
          obtain rfl := Option.some.inj hr
          exact hfront
      exact ⟨r', above, rfl, hbar, hfront ▸ hcolumn⟩
    | succ k => exact ih hr

theorem length_trimmedLines (rows : List Row) : (rows.flatMap Row.trimmedLines).length = 2 * rows.length := by
  simp [List.length_flatMap, Row.trimmedLines, Nat.mul_comm]

theorem Hangs.length_keptLines (h : Hangs front [] rows) (hends : ∀ r ∈ rows, trimEnd r.header = r.header) :
    (keptLines rows).length = 2 * rows.length - 1 := by
  rw [h.keptLines_eq hends, List.length_dropLast, length_trimmedLines]

theorem Hangs.getElem?_keptLines (h : Hangs front [] rows) (hends : ∀ r ∈ rows, trimEnd r.header = r.header) {k : Nat}
    {r : Row} (hr : rows[k]? = some r) :
    (keptLines rows)[2 * k]? = some r.header ∧
      ∀ k', k = k' + 1 → ∃ above, (keptLines rows)[2 * k' + 1]? = some (above ++ bar) ∧
        above.length = r.front.length := by
  have hk : k < rows.length := (List.getElem?_eq_some_iff.1 hr).1
  have hkept : ∀ m < 2 * rows.length - 1, (keptLines rows)[m]? = (rows.flatMap Row.trimmedLines)[m]? := fun m hm => by
    rw [h.keptLines_eq hends, List.getElem?_dropLast, length_trimmedLines, if_pos hm]
  constructor
  · rw [hkept _ (by omega), (getElem?_trimmedLines rows k).1, hr]
    rfl
  · rintro k' rfl
    obtain ⟨r', above, hr', hbar, hcolumn⟩ := h.column hr
    refine ⟨above, ?_, hcolumn⟩
    rw [hkept _ (by omega), (getElem?_trimmedLines rows k').2, hr', Option.map_some, hbar]

end Rows

/-- A complete shape is written as its rows are, if its nodes are spelled as theirs. -/
theorem Shape.Complete.lines_eq {types : TypeCatalog} {spell : Node → String} {s : Shape} (h : s.Complete)
    (hspell : ∀ n ∈ s.nodes, n.name types = .ok (spell n)) (indent : List Char) (last : Bool) :
    s.lines types indent last = .ok ((s.rows spell indent last).flatMap Row.lines) := by
  induction s generalizing indent last with
  | torn => exact h.elim
  | node id n kids ih =>
    have hkids := fun i => ih i (h i) fun m hm => hspell m (mem_nodes_kid i hm)
    have hbelow : (List.finRange n.arity).mapM
          (fun i => (kids i).lines types (indent ++ indentStep last) (i.val + 1 = n.arity)) =
        .ok ((List.finRange n.arity).map fun i =>
          ((kids i).rows spell (indent ++ indentStep last) (i.val + 1 = n.arity)).flatMap Row.lines) := by
      simp only [hkids]
      exact List.mapM_pure
    rw [Shape.lines, hspell n mem_nodes_self]
    refine Result.bind_ok.2 ⟨_, rfl, Result.bind_ok.2 ⟨_, hbelow, ?_⟩⟩
    rw [Shape.rows, List.flatMap_cons, List.ofFn_eq_map, ← List.flatMap_def, ← List.flatMap_def, List.flatMap_assoc]
    rfl

namespace Forest

variable {g : Forest} {i j c : NodeId} {above : List NodeId} {room : Nat} {e : Term}

theorem Trail.steps (h : g.Trail i above j) : g.Steps i above.length j := by
  induction h with
  | here => exact .here
  | down _ he ih =>
    rw [List.length_append]
    exact .down ih he

theorem length_indentation (g : Forest) (i : NodeId) (above : List NodeId) :
    (g.indentation i above).length = 3 * above.length := by
  induction above with
  | nil => rfl
  | cons j above ih =>
    rw [indentation, List.flatMap_cons, List.length_append]
    change _ + (g.indentation i above).length = _
    rw [ih, List.length_cons]
    split <;> simp <;> omega

theorem indentation_concat (g : Forest) (i : NodeId) (above : List NodeId) (j : NodeId) :
    g.indentation i (above ++ [j]) = g.indentation i above ++ indentStep (j = i ∨ g.isLastChild j) := by
  simp [indentation, indentStep]

theorem Placed.ends_of_denotes (h : g.Placed) (hs : (g.shapeTo room i).Denotes e) : g.Ends i := by
  induction room generalizing i e with
  | zero => cases hs
  | succ room ih =>
    obtain ⟨_, n, kids, hroom, -, -, hslots, -, hkids⟩ := shapeTo_denotes hs
    obtain rfl := Nat.succ.inj hroom
    refine .node fun e he hp => ?_
    obtain ⟨c, hc, hkid⟩ := hkids ⟨e.slot, hslots e he hp⟩
    obtain rfl : c = e.child := Option.some.inj (hc.symm.trans (h.child?_eq_some.2 (hp ▸ he)))
    exact ih hkid

theorem live_of_complete (hc : (g.shape i).Complete) : i ∈ g.nodes.map (·.1) := by
  obtain ⟨e, he⟩ := hc.denotes
  obtain ⟨_, n, _, -, -, hn, -⟩ := shapeTo_denotes he
  exact mem_numbers.2 ⟨n, hn⟩

end Forest

/-- The row belongs to the node, and its name fits on a line. -/
structure Row.Shows (g : Forest) (i : NodeId) (types : TypeCatalog) (j : NodeId) (r : Row) : Prop where
  place : ∃ above, g.Trail i above j ∧ r.front = g.indentation i above
  node : ∃ n, g.node? j = some n ∧ Linear types n r.name

theorem Forest.Placed.rows_show {g : Forest} (hg : g.Placed) {i : NodeId} (hi : ¬ g.Loops i) {types : TypeCatalog}
    {spell : Node → String} {j : NodeId} {above : List NodeId} {room : Nat} {e : Term}
    (hs : (g.shapeTo room j).Denotes e) (htrail : g.Trail i above j)
    (hspell : ∀ n ∈ (g.shapeTo room j).nodes, Linear types n (spell n)) :
    List.Forall₂ (Row.Shows g i types) (g.shapeTo room j).ids
      ((g.shapeTo room j).rows spell (g.indentation i above) (j = i ∨ g.isLastChild j)) := by
  induction room generalizing j above e with
  | zero => cases hs
  | succ room ih =>
    obtain ⟨_, n, kids, hroom, -, hn, -, hshape, hkids⟩ := shapeTo_denotes hs
    obtain rfl := Nat.succ.inj hroom
    rw [hshape] at hspell ⊢
    rw [Shape.ids, Shape.rows]
    refine .cons ⟨⟨above, htrail, rfl⟩, n, hn, hspell n Shape.mem_nodes_self⟩ (List.rel_flatten ?_)
    rw [List.ofFn_eq_map, List.ofFn_eq_map, List.forall₂_map_left_iff, List.forall₂_map_right_iff, List.forall₂_same]
    intro slot _
    obtain ⟨c, hc, hkid⟩ := hkids slot
    have he : (⟨j, slot, c⟩ : Edge) ∈ g.edges := child?_mem hc
    have hbelow : c ≠ i := by
      rintro rfl
      exact hi ⟨_, htrail.steps.down he⟩
    have hlast : (c = i ∨ g.isLastChild c) ↔ slot.val + 1 = n.arity := by
      have hparent : g.parent? c = some (j, slot.val) := (parent?_eq_some hg.unshared).2 he
      simp [hbelow, isLastChild, hparent, arity, hn]
    have hgoal := ih hkid (htrail.down he) fun m hm => hspell m (Shape.mem_nodes_kid slot (by rwa [hc]))
    rw [g.indentation_concat] at hgoal
    rw [hc, Option.getD_some]
    simpa only [hlast] using hgoal

theorem keptLines_end {rows : List Row} {l : List Char} (hl : l ∈ keptLines rows) :
    ∃ c ∈ l.getLast?, isBlank c = false := by
  obtain ⟨hmem, hne⟩ := List.mem_filter.1 hl
  obtain ⟨l, -, rfl⟩ := List.mem_map.1 hmem
  obtain ⟨c, hc⟩ := List.getLast?_isSome.2 (by simpa using hne) |> Option.isSome_iff_exists.1
  exact ⟨c, hc, getLast?_trimEnd hc⟩

/-- A complete subtree whose names fit on lines is written in rows, one for each node in pre-order. -/
theorem Forest.Placed.exists_rows {g : Forest} {i : NodeId} {types : TypeCatalog} (hg : g.Placed)
    (hc : (g.shape i).Complete) (hnames : ∀ n ∈ (g.shape i).nodes, ∃ name, Linear types n name) :
    ∃ rows, (g.shape i).lines types [] true = .ok (rows.flatMap Row.lines) ∧ Hangs [] [] rows ∧
      List.Forall₂ (Row.Shows g i types) (g.preorder i) rows ∧ ∀ l ∈ rows.flatMap Row.lines, '\n' ∉ l := by
  obtain ⟨e, he⟩ := hc.denotes
  have hi : ¬ g.Loops i := (hg.ends_of_denotes he).not_loops
  let spell : Node → String := fun n => (n.name types).toOption.getD ""
  have hspell : ∀ n ∈ (g.shape i).nodes, Linear types n (spell n) := fun n hn => by
    obtain ⟨name, hname⟩ := hnames n hn
    have heq : spell n = name := by simp [spell, hname.spelled, Except.toOption]
    exact heq ▸ hname
  have hlines := hc.lines_eq (fun n hn => (hspell n hn).spelled) [] true
  refine ⟨(g.shape i).rows spell [] true, hlines, hc.hangs [] true, ?_, ?_⟩
  · have hshows := hg.rows_show hi he .here hspell
    simp only [true_or, decide_true] at hshows
    rw [Forest.preorder, hg.preorderTo_eq he]
    exact hshows
  · obtain ⟨lines, hwritten, hreads⟩ := he.lines indent_nil true fun n hn => hnames n (he.nodes_eq ▸ hn)
    obtain rfl := Except.ok.inj (hlines.symm.trans hwritten)
    exact hreads.line

/-- The written layout shows the tree. A complete subtree of `n` nodes, whose names fit on lines, is written on
`2 n - 1` lines, none of them blank or with blanks at its end. The line `2 k` is that of the `k`-th node in
pre-order: its indentation, three characters for each node above it, then the marker and the name. The line before it
ends in a bar at the column of that marker. -/
theorem written_layout {g : Forest} {i : NodeId} {types : TypeCatalog} (hg : g.Placed) (hc : (g.shape i).Complete)
    (hnames : ∀ n ∈ (g.shape i).nodes,
      ∃ name, n.name types = .ok name ∧ trimmed name = name ∧ '\n' ∉ name.toList) :
    ∃ lines : List (List Char),
      (g.shape i).text types = .ok (String.ofList (lines.flatMap (· ++ ['\n']))) ∧
      g.count i = .ok (g.preorder i).length ∧ lines.length = 2 * (g.preorder i).length - 1 ∧
      (∀ l ∈ lines, '\n' ∉ l ∧ ∃ c ∈ l.getLast?, isBlank c = false) ∧
      ∀ k j, (g.preorder i)[k]? = some j → ∃ above n name,
        g.Trail i above j ∧ (g.parent? i = none → g.depth j = above.length) ∧
        g.node? j = some n ∧ n.name types = .ok name ∧ (g.indentation i above).length = 3 * above.length ∧
        lines[2 * k]? = some (g.indentation i above ++ ['+', '-', '-'] ++ name.toList) ∧
        ∀ k', k = k' + 1 → ∃ front, lines[2 * k' + 1]? = some (front ++ ['|']) ∧ front.length = 3 * above.length := by
  have hlinear : ∀ n ∈ (g.shape i).nodes, ∃ name, Linear types n name := fun n hn => by
    obtain ⟨name, hname, htrim, hline⟩ := hnames n hn
    exact ⟨name, hname, trimmed_eq_self_iff.1 htrim, hline⟩
  obtain ⟨rows, hlines, hhangs, hshows, hbreaks⟩ := hg.exists_rows hc hlinear
  obtain ⟨hlen, hrow⟩ := List.forall₂_iff_get.1 hshows
  have hends : ∀ r ∈ rows, trimEnd r.header = r.header := fun r hr => by
    obtain ⟨k, hk, rfl⟩ := List.getElem_of_mem hr
    obtain ⟨n, -, hname⟩ := (hrow k (hlen ▸ hk) hk).node
    exact trimEnd_header _ hname.clean
  refine ⟨keptLines rows, ?_, ?_, ?_, fun l hl => ⟨?_, keptLines_end hl⟩, fun k j hj => ?_⟩
  · rw [Shape.text, hlines]
    rfl
  · obtain ⟨e, he⟩ := hc.denotes
    rw [Forest.count, Shape.count_complete hc, Forest.preorder, hg.preorderTo_eq he, Forest.shape]
  · rw [hhangs.length_keptLines hends, hlen]
  · obtain ⟨l, hmem, rfl⟩ := List.mem_map.1 (List.mem_filter.1 hl).1
    exact fun hbreak => hbreaks l hmem (mem_of_mem_trimEnd hbreak)
  · obtain ⟨hk, rfl⟩ := List.getElem?_eq_some_iff.1 hj
    obtain ⟨⟨above, htrail, hfront⟩, n, hn, hname⟩ := hrow k hk (hlen ▸ hk)
    obtain ⟨hheader, hbar⟩ := hhangs.getElem?_keptLines hends (List.getElem?_eq_getElem (hlen ▸ hk))
    have hcolumn := g.length_indentation i above
    refine ⟨above, n, _, htrail, fun htop => ?_, hn, hname.spelled, hcolumn, ?_, fun k' hk' => ?_⟩
    · exact hg.depth_eq (Forest.live_of_complete hc) (Forest.parent?_eq_none.1 htop) htrail.steps
    · rw [hheader, ← hfront]
      rfl
    · rw [← hcolumn, ← hfront]
      exact hbar k' hk'

namespace Pending

/-- A choice by a comparison, which is written while two numbers are still to come. -/
def term : Term :=
  .node (.ifElse .int) fun
    | ⟨0, _⟩ => .node (.comparison .less .int) fun
      | ⟨0, _⟩ => .node (.argument .int 0) nofun
      | _ => .node (.argument .int 1) nofun
    | ⟨1, _⟩ => .node (.const (.int 1)) nofun
    | _ => .node (.const (.int 2)) nofun

def forest : Forest := (Tree.planted ⟨none, .int, [.int, .int], []⟩ term).forest

theorem placed : forest.Placed :=
  ⟨by decide +kernel, by decide +kernel, by unfold Forest.Unshared; decide +kernel⟩

theorem denotes : (forest.shape 0).Denotes term := by
  obtain ⟨s, hs, hd⟩ := Tree.denotes_planted ⟨none, .int, [.int, .int], []⟩ term
  obtain rfl := Option.some.inj hs
  exact hd

theorem names : ∀ n ∈ (forest.shape 0).nodes,
    ∃ name, n.name .standard = .ok name ∧ trimmed name = name ∧ '\n' ∉ name.toList := by
  have hnodes : (forest.shape 0).nodes = [.ifElse .int, .comparison .less .int, .argument .int 0, .argument .int 1,
      .const (.int 1), .const (.int 2)] := by
    rw [denotes.nodes_eq]
    decide +kernel
  rw [hnodes]
  simp only [List.forall_mem_cons, List.not_mem_nil, false_imp_iff, implies_true, and_true]
  exact ⟨⟨"If<int>", by decide +kernel⟩, ⟨"Less<int>", by decide +kernel⟩, ⟨"Argument<int,0>", by decide +kernel⟩,
    ⟨"Argument<int,1>", by decide +kernel⟩, ⟨"Const<int,1>", by decide +kernel⟩, ⟨"Const<int,2>", by decide +kernel⟩⟩

end Pending

/-- The second argument is the fourth node, and its line the seventh of eleven. -/
theorem written_layout_pending : Pending.forest.Placed ∧ (Pending.forest.shape 0).Complete ∧
    (Pending.forest.shape 0).text .standard = .ok ("+--If<int>\n   |\n   +--Less<int>\n   |  |\n" ++
      "   |  +--Argument<int,0>\n   |  |\n   |  +--Argument<int,1>\n   |\n   +--Const<int,1>\n   |\n" ++
      "   +--Const<int,2>\n") ∧
    ∃ lines : List (List Char),
      (Pending.forest.shape 0).text .standard = .ok (String.ofList (lines.flatMap (· ++ ['\n']))) ∧
      lines.length = 11 ∧ (∀ l ∈ lines, '\n' ∉ l ∧ ∃ c ∈ l.getLast?, isBlank c = false) ∧
      ∃ above, Pending.forest.Trail 0 above 3 ∧ above.length = 2 ∧
        lines[6]? = some (Pending.forest.indentation 0 above ++ ['+', '-', '-'] ++ "Argument<int,1>".toList) ∧
        ∃ front, lines[5]? = some (front ++ ['|']) ∧ front.length = 6 := by
  obtain ⟨lines, htext, -, hlen, hends, hrows⟩ := written_layout Pending.placed Pending.denotes.complete Pending.names
  have hlist : Pending.forest.preorder 0 = [0, 1, 2, 3, 4, 5] := by decide +kernel
  rw [hlist] at hlen hrows
  obtain ⟨above, n, name, htrail, hdepth, hn, hname, -, hline, hbar⟩ := hrows 3 3 rfl
  obtain ⟨front, hfront, hcolumn⟩ := hbar 2 rfl
  have habove : above.length = 2 := (hdepth (by decide +kernel)).symm.trans (by decide +kernel)
  obtain rfl : .argument .int 1 = n := Option.some.inj ((by decide +kernel : _ = _).symm.trans hn)
  obtain rfl : "Argument<int,1>" = name := Except.ok.inj ((by decide +kernel : _ = _).symm.trans hname)
  rw [habove] at hcolumn
  exact ⟨Pending.placed, Pending.denotes.complete, by decide +kernel, lines, htext, hlen, hends, above, htrail, habove,
    hline, front, hfront, hcolumn⟩

end Grove
