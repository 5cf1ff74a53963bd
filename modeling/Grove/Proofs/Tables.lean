import Grove.Proofs.Quoting

/-! Tables survive writing. A header and lines of keys with strings or lists of strings below it are read line by
line, and the lines add up to the table that was written. -/

namespace Grove.Toml

open Scan

variable {c : Char} {cs ds value text back : List Char} {t : Toml} {n : Nat} {k : String} {l : Line} {ls : List Line}

section Arrays

theorem run_comment_none (h : '#' ∉ back.head?) : StateT.run comment back = none := run_bind_none (run_char_none h)

/-- What neither a gap in an array nor the blanks in front of a value take. -/
def Opens (cs : List Char) : Prop := ∀ c ∈ cs.head?, isSpace c = false ∧ c ≠ '#' ∧ c ≠ '\n' ∧ c ≠ '\r'

theorem opens_writeString (s : String) (back : List Char) : Opens (writeString s ++ back) := by
  intro c hc
  rcases first_writeString s c hc with rfl | rfl <;> decide

theorem opens_cons (h : isSpace c = false ∧ c ≠ '#' ∧ c ≠ '\n' ∧ c ≠ '\r') : Opens (c :: cs) := forall_head_cons.2 h

theorem run_gap (hs : ∀ c ∈ ds, isSpace c = true) (hb : Opens back) :
    StateT.run gap (ds ++ back) = some ((), back) := by
  have noComment : StateT.run (attempt comment) back = some ((), back) :=
    run_attempt_none (run_comment_none fun hc => (hb _ hc).2.1 rfl)
  have noLineEnd : StateT.run newline back = none := run_newline_none fun c hc => (hb c hc).2.2
  have more : ∀ n, StateT.run (gap.more n) back = some ((), back) := by
    intro n
    cases n with
    | zero => rfl
    | succ n =>
      refine run_orElse_none ?_
      rw [run_bind noComment]
      exact run_bind_none noLineEnd
  rw [gap, run_bind (run_blanks hs fun c hc => (hb c hc).1), run_bind run_room, more]

theorem run_gap_none (hb : Opens back) : StateT.run gap back = some ((), back) := @run_gap [] back nofun hb

theorem run_arrayItems_item (depth : Nat) (s : String) (hs : ∀ c ∈ ds, isSpace c = true) (hc : c = ',' ∨ c = ']') :
    StateT.run (arrayItems (Toml.value depth) (n + 1)) (ds ++ (writeString s ++ c :: cs)) =
      StateT.run (do
        if ← accept ',' then return .string s :: (← arrayItems (Toml.value depth) n)
        char ']'
        return [.string s]) (c :: cs) := by
  have notOver : ']' ∉ (writeString s ++ c :: cs).head? := fun h => by
    rcases first_writeString s _ h with h | h <;> cases h
  have item := @run_value (c :: cs) depth s (forall_head_cons.2 (by rcases hc with rfl | rfl <;> decide))
  have noGap : StateT.run gap (c :: cs) = some ((), c :: cs) :=
    run_gap_none (opens_cons (by rcases hc with rfl | rfl <;> decide))
  rw [arrayItems, run_bind (run_gap hs (opens_writeString s _)), run_bind (run_accept_none notOver),
    if_neg Bool.false_ne_true, run_bind item, run_bind noGap]

theorem run_arrayItems (depth : Nat) {ss : List String} (hs : ∀ c ∈ ds, isSpace c = true)
    (hn : ([',', ' '].intercalate (ss.map writeString)).length < n) :
    StateT.run (arrayItems (Toml.value depth) n)
      (ds ++ ([',', ' '].intercalate (ss.map writeString) ++ ']' :: back)) = some (ss.map .string, back) := by
  induction ss generalizing ds n with
  | nil =>
    obtain ⟨n, rfl⟩ := Nat.exists_eq_add_one_of_ne_zero (Nat.ne_zero_of_lt hn)
    have closes : Opens (']' :: back) := opens_cons (by decide)
    rw [List.map_nil, List.intercalate_nil, List.nil_append, arrayItems, run_bind (run_gap hs closes),
      run_bind run_accept, if_pos rfl]
    rfl
  | cons s ss ih =>
    obtain ⟨n, rfl⟩ := Nat.exists_eq_add_one_of_ne_zero (Nat.ne_zero_of_lt hn)
    cases ss with
    | nil =>
      have noComma : ',' ∉ (']' :: back).head? := fun hc => by cases hc
      rw [List.map_singleton, List.intercalate_singleton, run_arrayItems_item depth s hs (.inr rfl),
        run_bind (run_accept_none noComma), if_neg Bool.false_ne_true, run_bind run_char]
      rfl
    | cons s' ss =>
      -- the blank behind the comma goes to the items that are left
      have split : [',', ' '].intercalate ((s :: s' :: ss).map writeString) =
          writeString s ++ ',' :: ([' '] ++ [',', ' '].intercalate ((s' :: ss).map writeString)) := by
        simp
      rw [split] at hn ⊢
      have hrest := @ih [' '] n (List.forall_mem_singleton.2 rfl) (by
        simp only [List.length_append, List.length_cons] at hn
        omega)
      rw [List.append_assoc, List.cons_append, List.append_assoc, run_arrayItems_item depth s hs (.inl rfl),
        run_bind run_accept, if_pos rfl, run_bind hrest]
      rfl

theorem run_value_strings (depth : Nat) (ss : List String) (back : List Char) :
    StateT.run (Toml.value (depth + 1)) (writeStrings ss ++ back) = some (.array (ss.map .string), back) := by
  have hwrite : writeStrings ss ++ back = '[' :: ([',', ' '].intercalate (ss.map writeString) ++ ']' :: back) := by
    simp [writeStrings]
  have items := fun n hn => @run_arrayItems [] back n depth ss nofun hn
  simp only [List.nil_append] at items
  rw [hwrite, Toml.value, run_bind run_accept, if_pos rfl, run_bind run_room,
    run_bind (items _ (by rw [List.length_append]; omega))]
  rfl

end Arrays

section Lines

/-- A key that is written without quotes. -/
def Bare (k : String) : Prop := k.toList ≠ [] ∧ k.toList.all isBareKeyChar = true

instance (k : String) : Decidable (Bare k) := inferInstanceAs (Decidable (_ ∧ _))

/-- What is written behind a key, and read as a value up to the end of the line. -/
structure Writes (value : List Char) (t : Toml) : Prop where
  opens : ∀ back, Opens (value ++ back)
  reads : ∀ back, StateT.run (Toml.value maxNesting) (value ++ '\n' :: back) = some (t, '\n' :: back)

theorem writes_string (s : String) : Writes (writeString s) (.string s) :=
  ⟨opens_writeString s, fun back => run_value _ s (forall_head_cons.2 (by decide))⟩

theorem writes_strings (ss : List String) : Writes (writeStrings ss) (.array (ss.map .string)) := by
  refine ⟨fun back => ?_, fun back => run_value_strings _ ss _⟩
  rw [writeStrings, List.cons_append, List.cons_append]
  exact opens_cons (by decide)

theorem Bare.head (hk : Bare k) (back : List Char) : ∀ c ∈ (k.toList ++ back).head?, isBareKeyChar c = true := by
  obtain ⟨d, cs, hcs⟩ := List.exists_cons_of_ne_nil hk.1
  have hd : isBareKeyChar d = true := List.all_eq_true.1 hk.2 d (by rw [hcs]; exact List.mem_cons_self)
  rw [hcs]
  exact forall_head_cons.2 hd

theorem Bare.not_head (hk : Bare k) (back : List Char) (hc : isBareKeyChar c = false) :
    c ∉ (k.toList ++ back).head? := by
  intro h
  rw [hk.head back c h] at hc
  cases hc

theorem Bare.opens (hk : Bare k) (back : List Char) : Opens (k.toList ++ back) := by
  intro c hc
  have ne : ∀ d, isBareKeyChar d = false → c ≠ d := fun d hd he => hk.not_head back hd (he ▸ hc)
  exact ⟨by simp [isSpace, ne ' ' rfl, ne '\t' rfl], ne _ rfl, ne _ rfl, ne _ rfl⟩

theorem run_simpleKey (hk : Bare k) (hback : ∀ c ∈ back.head?, isBareKeyChar c = false) :
    StateT.run simpleKey (k.toList ++ back) = some (k, back) := by
  have taken : StateT.run (takeWhile isBareKeyChar) (k.toList ++ back) = some (k.toList, back) :=
    run_takeWhile (List.all_eq_true.1 hk.2) hback
  have hne : k.toList.isEmpty = false := by simpa using hk.1
  rw [simpleKey, run_bind run_peek]
  split
  case h_1 hc => exact absurd hc (hk.not_head back (by decide))
  case h_2 hc => exact absurd hc (hk.not_head back (by decide))
  rw [run_bind taken, hne, if_neg Bool.false_ne_true, String.ofList_toList]
  rfl

def Stops (cs : List Char) : Prop := ∀ c ∈ cs.head?, isBareKeyChar c = false ∧ isSpace c = false ∧ c ≠ '.'

theorem run_key (hk : Bare k) (hs : ∀ c ∈ ds, isSpace c = true) (hback : Stops back) :
    StateT.run key (k.toList ++ (ds ++ back)) = some ([k], back) := by
  have hend : ∀ c ∈ (ds ++ back).head?, isBareKeyChar c = false := by
    intro c hc
    cases ds with
    | nil => exact (hback c hc).1
    | cons d ds =>
      obtain rfl : d = c := Option.some.inj hc
      have hd : isSpace d = true := hs d List.mem_cons_self
      simp only [isSpace, Bool.or_eq_true, decide_eq_true_eq] at hd
      rcases hd with rfl | rfl <;> rfl
  have noPoint : '.' ∉ back.head? := fun h => (hback _ h).2.2 rfl
  rw [key, maxNesting, keyParts, run_bind (run_blanks_none fun c hc => (hk.opens _ c hc).1),
    run_bind (run_simpleKey hk hend), run_bind (run_blanks hs fun c hc => (hback c hc).2.1),
    run_bind (run_accept_none noPoint), if_neg Bool.false_ne_true]
  rfl

theorem run_lineRest : StateT.run lineRest ('\n' :: back) = some ((), back) := by
  have noBlanks : StateT.run blanks ('\n' :: back) = some ((), '\n' :: back) :=
    run_blanks_none (forall_head_cons.2 (by decide))
  have noComment : StateT.run (attempt comment) ('\n' :: back) = some ((), '\n' :: back) :=
    run_attempt_none (run_comment_none (by simp))
  rw [lineRest, run_bind noBlanks, run_bind noComment, run_bind (StateT.run_get _)]
  exact run_newline

def Lined (text : List Char) (l : Line) : Prop :=
  text ≠ [] ∧ ∀ back, StateT.run line (text ++ back) = some (some l, back)

theorem lined_header (hk : Bare k) : Lined (writeHeader k) (.table [k]) := by
  refine ⟨by simp [writeHeader], fun back => ?_⟩
  have hwrite : writeHeader k ++ back = '[' :: (k.toList ++ ([] ++ ']' :: '\n' :: back)) := by simp [writeHeader]
  have stops : Stops (']' :: '\n' :: back) := forall_head_cons.2 (by decide)
  have path := @run_key [] _ k hk nofun stops
  rw [hwrite, line, run_bind (run_blanks_none (forall_head_cons.2 (by decide))), run_bind (StateT.run_get _)]
  split
  case h_1 heq =>
    refine absurd ?_ (hk.not_head ([] ++ ']' :: '\n' :: back) (by decide : isBareKeyChar '[' = false))
    rw [(List.cons.inj heq).2]
    rfl
  case h_2 =>
    rw [run_bind run_char, run_bind path, run_bind run_char, run_bind run_lineRest]
    rfl
  case h_3 hne heq => exact absurd (List.cons.inj heq).1.symm hne
  case h_4 heq => cases heq

theorem writePair_append (k : String) (value back : List Char) :
    writePair k value ++ back = k.toList ++ ([' '] ++ '=' :: ([' '] ++ (value ++ '\n' :: back))) := by
  simp [writePair]

theorem run_keyedItem (hk : Bare k) (hv : Writes value t) (back : List Char) :
    StateT.run (keyedItem (Toml.value maxNesting)) (writePair k value ++ back) = some (([k], t), '\n' :: back) := by
  have stops : Stops ('=' :: ([' '] ++ (value ++ '\n' :: back))) := forall_head_cons.2 (by decide)
  have space : ∀ c ∈ [' '], isSpace c = true := List.forall_mem_singleton.2 rfl
  have path := @run_key [' '] _ k hk space stops
  have blank := @run_blanks [' '] _ space fun c hc => (hv.opens ('\n' :: back) c hc).1
  rw [writePair_append, keyedItem, run_bind path, run_bind run_char, run_bind blank, run_bind (hv.reads back)]
  rfl

theorem lined_pair (hk : Bare k) (hv : Writes value t) : Lined (writePair k value) (.pair [k] t) := by
  refine ⟨by simp [writePair], fun back => ?_⟩
  have noBlanks : StateT.run blanks (writePair k value ++ back) = some ((), writePair k value ++ back) := by
    rw [writePair_append]
    exact run_blanks_none fun c hc => (hk.opens _ c hc).1
  have notFirst : ∀ {c cs}, writePair k value ++ back = c :: cs → ∀ d, isBareKeyChar d = false → c ≠ d := by
    intro c cs h d hd he
    rw [writePair_append] at h
    apply hk.not_head ([' '] ++ '=' :: ([' '] ++ (value ++ '\n' :: back))) hd
    rw [h, he]
    rfl
  rw [line, run_bind noBlanks, run_bind (StateT.run_get _)]
  -- the first character tells what kind of line this is
  split
  case h_1 heq => exact absurd rfl (notFirst heq '[' rfl)
  case h_2 heq => exact absurd rfl (notFirst heq '[' rfl)
  case h_3 heq =>
    have ne := notFirst heq
    simp only [ne '#' rfl, ne '\n' rfl, ne '\r' rfl, decide_false, Bool.or_self, Bool.false_eq_true, if_false]
    rw [run_bind (run_keyedItem hk hv back)]
    exact run_bind run_lineRest
  case h_4 heq => simp [writePair] at heq

/-- What is read line by line. -/
inductive Ruled : List Char → List Line → Prop
  | nil : Ruled [] []
  | cons {front text : List Char} {l : Line} {ls : List Line} (h : Lined front l) (hs : Ruled text ls) :
      Ruled (front ++ text) (l :: ls)

theorem Ruled.lines (h : Ruled text ls) (hn : text.length < n) : StateT.run (lines n) text = some (ls, []) := by
  induction h generalizing n with
  | nil =>
    obtain ⟨n, rfl⟩ := Nat.exists_eq_add_one_of_ne_zero (Nat.ne_zero_of_lt hn)
    rfl
  | @cons front text l ls h _ ih =>
    obtain ⟨n, rfl⟩ := Nat.exists_eq_add_one_of_ne_zero (Nat.ne_zero_of_lt hn)
    have hpos : 0 < front.length := List.length_pos_iff.2 h.1
    have hrest := @ih n (by rw [List.length_append] at hn; omega)
    have hne : (front ++ text).isEmpty = false := by simp [h.1]
    rw [Toml.lines, run_bind (StateT.run_get _), hne, if_neg Bool.false_ne_true, run_bind (h.2 text), run_bind hrest]
    rfl

end Lines

section Fields

theorem ruled_fields {fields : List (String × List Char × Toml)}
    (h : ∀ f ∈ fields, Bare f.1 ∧ Writes f.2.1 f.2.2) :
    Ruled (fields.flatMap fun f => writePair f.1 f.2.1) (fields.map fun f => .pair [f.1] f.2.2) := by
  induction fields with
  | nil => exact .nil
  | cons f fields ih =>
    obtain ⟨hf, hfields⟩ := List.forall_mem_cons.1 h
    exact .cons (lined_pair hf.1 hf.2) (ih hfields)

theorem store_of_new {es : Entries} (h : k ∉ es.map (·.1)) : store k t es = es ++ [(k, t)] := by
  induction es with
  | nil => rfl
  | cons e es ih =>
    obtain ⟨he, hes⟩ := not_or.1 (mt List.mem_cons.2 h)
    rw [store, if_neg (Ne.symm he), ih hes, List.cons_append]

theorem lookup_of_new {es : Entries} (h : k ∉ es.map (·.1)) : es.lookup k = none := by
  refine List.lookup_eq_none_iff.2 fun e he => ?_
  simpa using fun hk : k = e.1 => h (hk ▸ List.mem_map_of_mem he)

theorem add_pair {header : String} {es : Entries} (h : k ∉ es.map (·.1)) :
    Draft.add ⟨[(header, .table .header es)], [header]⟩ (.pair [k] t) =
      some ⟨[(header, .table .header (es ++ [(k, t)]))], [header]⟩ := by
  have hassign : assignPath [k] t .header es = some (es ++ [(k, t)]) := by
    simp [assignPath, splitLast, update, assign, lookup_of_new h, store_of_new h]
  have hupdate : update .implied (assignPath [k] t) [header] .header [(header, .table .header es)] =
      some [(header, .table .header (es ++ [(k, t)]))] := by
    simp [update, passable, hassign, store]
  rw [Draft.add, hupdate]
  rfl

theorem foldlM_fields {header : String} {fields : List (String × List Char × Toml)} {es : Entries}
    (hnew : (es.map (·.1) ++ fields.map (·.1)).Nodup) :
    (fields.map fun f => Line.pair [f.1] f.2.2).foldlM Draft.add ⟨[(header, .table .header es)], [header]⟩ =
      some ⟨[(header, .table .header (es ++ fields.map fun f => (f.1, f.2.2)))], [header]⟩ := by
  induction fields generalizing es with
  | nil => simp
  | cons f fields ih =>
    have hf : f.1 ∉ es.map (·.1) := fun h => (List.nodup_append.1 hnew).2.2 _ h _ List.mem_cons_self rfl
    have hrest : ((es ++ [(f.1, f.2.2)]).map (·.1) ++ fields.map (·.1)).Nodup := by
      rwa [List.map_append, List.append_assoc]
    rw [List.map_cons, List.foldlM_cons, add_pair hf, List.map_cons]
    simpa using ih hrest

theorem read_table {header : String} {fields : List (String × List Char × Toml)} (hh : Bare header)
    (h : ∀ f ∈ fields, Bare f.1 ∧ Writes f.2.1 f.2.2) (hnew : (fields.map (·.1)).Nodup) :
    read (String.ofList (writeHeader header ++ fields.flatMap fun f => writePair f.1 f.2.1)) =
      some (.table .header [(header, .table .header (fields.map fun f => (f.1, f.2.2)))]) := by
  have ruled := Ruled.cons (lined_header hh) (ruled_fields h)
  have noMark : '\ufeff' ∉ (writeHeader header ++ fields.flatMap fun f => writePair f.1 f.2.1).head? := by
    simp [writeHeader]
  have hdocument : document.run (writeHeader header ++ fields.flatMap fun f => writePair f.1 f.2.1) =
      some (.table [header] :: fields.map fun f => .pair [f.1] f.2.2) := by
    rw [Scan.run, document, run_bind (run_accept_none noMark), run_bind run_room, ruled.lines (Nat.lt_succ_self _)]
  have hfold : ofLines (.table [header] :: fields.map fun f => .pair [f.1] f.2.2) =
      some (.table .header [(header, .table .header (fields.map fun f => (f.1, f.2.2)))]) := by
    have hopen : Draft.add ⟨[], []⟩ (.table [header]) = some ⟨[(header, .table .header [])], [header]⟩ := rfl
    have hfields := @foldlM_fields header fields [] hnew
    rw [ofLines, List.foldlM_cons, hopen, Option.bind_eq_bind, Option.bind_some, hfields]
    rfl
  rw [read, String.toList_ofList, hdocument]
  exact hfold

end Fields

end Grove.Toml
