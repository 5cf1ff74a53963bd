import Grove.Proofs.Denotation
import Grove.Proofs.Result
import Grove.Proofs.Text

/-! The lines of a written tree. Every node stands on a line of its own, from which its name is read back; the
connectors between hold no marker. So the names in a written tree are those of its nodes in pre-order. -/

namespace Grove

def lineName? (line : List Char) : Option String := (behindMarker? line).map fun name => String.ofList (trim name)

theorem nodeNames_eq (text : String) : nodeNames text = (splitOnChar '\n' text.toList).filterMap lineName? := rfl

theorem mem_of_mem_trimEnd {c : Char} {cs : List Char} (h : c ∈ trimEnd cs) : c ∈ cs := by
  simpa using (List.dropWhile_sublist isBlank).subset (List.mem_reverse.1 h)

theorem mem_of_mem_trim {c : Char} {cs : List Char} (h : c ∈ trim cs) : c ∈ cs :=
  (List.dropWhile_sublist isBlank).subset (mem_of_mem_trimEnd h)

theorem splitOnChar_lines {sep : Char} {lines : List (List Char)} (h : ∀ l ∈ lines, sep ∉ l) :
    splitOnChar sep (lines.flatMap (· ++ [sep])) = lines ++ [[]] := by
  induction lines with
  | nil => rfl
  | cons l lines ih =>
    obtain ⟨hl, hlines⟩ := List.forall_mem_cons.1 h
    rw [List.flatMap_cons, List.append_assoc, List.singleton_append, splitOnChar_append hl, ih hlines, List.cons_append]

theorem nodeNames_joinLines {lines : List (List Char)} (h : ∀ l ∈ lines, '\n' ∉ l) :
    nodeNames (String.ofList (joinLines lines)) = lines.filterMap fun l => lineName? (trimEnd l) := by
  have hkept : ∀ l ∈ (lines.map trimEnd).filter (!·.isEmpty), '\n' ∉ l := by
    intro l hl hmem
    obtain ⟨l', hl', rfl⟩ := List.mem_map.1 (List.mem_filter.1 hl).1
    exact h l' hl' (mem_of_mem_trimEnd hmem)
  have hempty : ∀ l : List Char, (if !l.isEmpty then lineName? l else none) = lineName? l := by
    intro l
    cases l <;> rfl
  rw [nodeNames_eq, String.toList_ofList, joinLines, splitOnChar_lines hkept, List.filterMap_append,
    List.filterMap_filter]
  simp only [hempty, List.filterMap_map]
  exact List.append_nil _

theorem behindMarker?_skip {front : List Char} (h : '+' ∉ front) (back : List Char) :
    behindMarker? (front ++ back) = behindMarker? back := by
  induction front with
  | nil => rfl
  | cons c cs ih =>
    obtain ⟨hc, hcs⟩ := not_or.1 (mt List.mem_cons.2 h)
    rw [List.cons_append, behindMarker?, ih hcs]
    rintro _ rfl
    exact absurd rfl hc

def Indent (cs : List Char) : Prop := ∀ c ∈ cs, c = ' ' ∨ c = '|'

theorem indent_nil : Indent [] := by simp [Indent]

theorem Indent.append {cs ds : List Char} (h : Indent cs) (h' : Indent ds) : Indent (cs ++ ds) := fun c hc =>
  (List.mem_append.1 hc).elim (h c) (h' c)

theorem indent_bar : Indent bar := by simp [Indent, bar]

theorem indent_step (last : Bool) : Indent (indentStep last) := by
  cases last <;> simp [Indent, indentStep]

theorem Indent.connector {indent : List Char} (h : Indent indent) (leaf last : Bool) :
    Indent (connector indent leaf last) := by
  unfold Grove.connector
  split
  · split
    · exact h
    · exact h.append indent_bar
  · exact (h.append (indent_step last)).append indent_bar

theorem Indent.not_mem {cs : List Char} (h : Indent cs) {c : Char} (hs : c ≠ ' ') (hb : c ≠ '|') : c ∉ cs := fun hc =>
  (h c hc).elim hs hb

theorem Indent.lineName? {cs : List Char} (h : Indent cs) : Grove.lineName? (trimEnd cs) = none := by
  have hplus : '+' ∉ trimEnd cs := fun hc => h.not_mem (by decide) (by decide) (mem_of_mem_trimEnd hc)
  rw [Grove.lineName?, ← List.append_nil (trimEnd cs), behindMarker?_skip hplus]
  rfl

theorem trimEnd_header (indent : List Char) {name : List Char} (hn : Clean name) :
    trimEnd (indent ++ marker ++ name) = indent ++ marker ++ name := by
  refine trimEnd_eq_self_iff.2 fun c hc => ?_
  rw [List.getLast?_append] at hc
  cases hlast : name.getLast? with
  | some d =>
    rw [hlast] at hc
    obtain rfl : d = c := by simpa using hc
    exact hn.last _ hlast
  | none =>
    obtain rfl : '-' = c := by simpa [hlast, marker] using hc
    decide

theorem lineName?_header {indent : List Char} (h : Indent indent) {name : String} (hn : Clean name.toList) :
    lineName? (trimEnd (indent ++ marker ++ name.toList)) = some name := by
  rw [trimEnd_header indent hn, lineName?, List.append_assoc,
    behindMarker?_skip (h.not_mem (by decide) (by decide))]
  simp [marker, behindMarker?, hn.trim]

/-- The name of a node, if it fits on a line. -/
structure Linear (types : TypeCatalog) (n : Node) (name : String) : Prop where
  spelled : n.name types = .ok name
  clean : Clean name.toList
  line : '\n' ∉ name.toList

/-- From these lines, and no others, are these names read. -/
structure Reads (lines : List (List Char)) (names : List (Except Error String)) : Prop where
  line : ∀ l ∈ lines, '\n' ∉ l
  names : (lines.filterMap fun l => lineName? (trimEnd l)).map .ok = names

theorem reads_nil : Reads [] [] := ⟨by simp, rfl⟩

theorem Reads.append {lines lines' : List (List Char)} {names names' : List (Except Error String)}
    (h : Reads lines names)
    (h' : Reads lines' names') : Reads (lines ++ lines') (names ++ names') := by
  refine ⟨fun l hl => (List.mem_append.1 hl).elim (h.line l) (h'.line l), ?_⟩
  rw [List.filterMap_append, List.map_append, h.names, h'.names]

theorem reads_header {types : TypeCatalog} {n : Node} {name : String} (h : Linear types n name) {indent : List Char}
    (hi : Indent indent) (leaf last : Bool) :
    Reads [indent ++ marker ++ name.toList, connector indent leaf last] [n.name types] := by
  have hc : Indent (connector indent leaf last) := hi.connector leaf last
  refine ⟨?_, ?_⟩
  · have hindent : '\n' ∉ indent := hi.not_mem (by decide) (by decide)
    have hconnector : '\n' ∉ connector indent leaf last := hc.not_mem (by decide) (by decide)
    simp [hindent, hconnector, h.line, marker]
  · simp only [List.filterMap_cons, lineName?_header hi h.clean, hc.lineName?, List.filterMap_nil, List.map_cons,
      List.map_nil, h.spelled]

theorem reads_mapM {α : Type} {f : α → Except Failure (List (List Char))}
    {names : α → List (Except Error String)} (is : List α)
    (h : ∀ i ∈ is, ∃ lines, f i = .ok lines ∧ Reads lines (names i)) :
    ∃ below, is.mapM f = .ok below ∧ Reads below.flatten (is.flatMap names) := by
  induction is with
  | nil => exact ⟨[], rfl, reads_nil⟩
  | cons i is ih =>
    obtain ⟨⟨lines, hf, hr⟩, his⟩ := List.forall_mem_cons.1 h
    obtain ⟨below, hbelow, hrs⟩ := ih his
    refine ⟨lines :: below, ?_, by simpa using hr.append hrs⟩
    rw [List.mapM_cons, hf, hbelow]
    rfl

/-- A shape of nodes whose names fit on lines is written, and the names are read from the lines in pre-order. -/
theorem Shape.Denotes.lines {types : TypeCatalog} {s : Shape} {e : Term} (h : s.Denotes e) :
    ∀ {indent : List Char}, Indent indent → ∀ last : Bool, (∀ n ∈ e.nodes, ∃ name, Linear types n name) →
      ∃ lines, s.lines types indent last = .ok lines ∧ Reads lines (e.nodes.map (·.name types)) := by
  induction h with
  | @node id n kids terms hk ih =>
    intro indent hi last hnames
    obtain ⟨name, hname⟩ := hnames n (Term.mem_nodes_self terms)
    obtain ⟨below, hbelow, hreads⟩ := reads_mapM (List.finRange n.arity) fun i _ =>
      ih i (hi.append (indent_step last)) (i.val + 1 = n.arity) fun m hm => hnames m (Term.mem_nodes_kid i hm)
    refine ⟨(indent ++ marker ++ name.toList) :: connector indent n.isLeaf last :: below.flatten, ?_, ?_⟩
    · rw [Shape.lines, hname.spelled]
      exact Result.bind_ok.2 ⟨name, rfl, Result.bind_ok.2 ⟨below, hbelow, rfl⟩⟩
    · have := (reads_header hname hi n.isLeaf last).append hreads
      simpa [Term.nodes, List.finRange, List.flatMap, List.map_flatten, List.map_ofFn, Function.comp_def] using this

theorem Tree.Denotes.text {types : TypeCatalog} {t : Tree} {e : Term} (h : t.Denotes e)
    (hnames : ∀ n ∈ e.nodes, ∃ name, Linear types n name) :
    ∃ text, t.text types = .ok text ∧ (nodeNames text).map .ok = e.nodes.map (·.name types) := by
  obtain ⟨s, hs, hd⟩ := h
  obtain ⟨lines, hlines, hreads⟩ := hd.lines indent_nil true hnames
  refine ⟨String.ofList (joinLines lines), ?_, ?_⟩
  · rw [Tree.text, hs, Option.elim_some, Shape.text, hlines]
    rfl
  · rw [nodeNames_joinLines hreads.line, hreads.names]

end Grove
