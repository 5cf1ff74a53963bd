import Grove.Proofs.Scanning
import Grove.Toml.Reader
import Grove.Toml.Writer

/-! Strings survive quoting. Whatever quoting a string gets, its characters stand one by one for themselves: as they
are, behind a backslash, or as quotes too few in a row to close the string. Read back that way, every string is the
one that was written. -/

namespace Grove.Toml

open Scan

variable {c : Char} {cs ds e back : List Char} {n : Nat}

theorem run_newline : StateT.run newline ('\n' :: cs) = some ((), cs) := run_orElse run_char

theorem run_newline_none (h : ∀ c ∈ cs.head?, c ≠ '\n' ∧ c ≠ '\r') : StateT.run newline cs = none := by
  rw [newline, run_orElse_none (run_char_none fun hc => (h _ hc).1 rfl)]
  exact run_word_none fun hc => (h _ hc).2 rfl

theorem run_blanks (hs : ∀ c ∈ ds, isSpace c = true) (hb : ∀ c ∈ back.head?, isSpace c = false) :
    StateT.run blanks (ds ++ back) = some ((), back) := by
  rw [blanks, discard_eq, run_bind (run_takeWhile hs hb)]
  rfl

theorem run_blanks_none (hb : ∀ c ∈ back.head?, isSpace c = false) : StateT.run blanks back = some ((), back) :=
  @run_blanks [] back nofun hb

theorem isText_lineEnd (h : isText c = true) : c ≠ '\n' ∧ c ≠ '\r' := by
  constructor <;> rintro rfl <;> revert h <;> decide

theorem isText_of_not_control (hc : isControl c = false) (hn : c ≠ '\n') : isText c = true := by
  by_cases ht : c = '\t'
  · simp [isText, ht]
  · simpa [isText, isControl, ht, hn] using hc

section Escapes

/-- What comes behind the backslash for a character. -/
structure Escapes (e : List Char) (c : Char) : Prop where
  reads : ∀ back, StateT.run escape (e ++ back) = some (c, back)
  /-- No blank and no line end, for that would join lines. -/
  first : ∀ back, ∀ d ∈ (e ++ back).head?, isSpace d = false ∧ d ≠ '\n' ∧ d ≠ '\r'

def hexDigits (n : Nat) : List Char := [n / 4096, n / 256, n / 16, n].map fun m => Quoting.hexDigit (m % 16)

theorem hexValue?_hexDigit : ∀ d < 16, hexValue? (Quoting.hexDigit d) = some d := by decide

theorem hexValue?_hexDigit_mod (m : Nat) : hexValue? (Quoting.hexDigit (m % 16)) = some (m % 16) :=
  hexValue?_hexDigit _ (Nat.mod_lt _ (by decide))

theorem foldBase_hexDigits (hn : n < 65536) : foldBase 16 (hexDigits n) = n := by
  simp only [foldBase, hexDigits, List.map_cons, List.map_nil, List.foldl_cons, List.foldl_nil, hexValue?_hexDigit_mod,
    Option.getD_some]
  omega

theorem run_codePoint (hc : c.toNat < 65536) :
    StateT.run (codePoint 4) (hexDigits c.toNat ++ back) = some (c, back) := by
  have digits : ∀ d ∈ hexDigits c.toNat, (hexValue? d).isSome = true := by
    intro d hd
    obtain ⟨m, -, rfl⟩ := List.mem_map.1 hd
    rw [hexValue?_hexDigit_mod]
    rfl
  have valid : c.toNat.isValidChar := c.valid
  rw [codePoint, show 4 = (hexDigits c.toNat).length from rfl, run_bind (run_exactly digits), foldBase_hexDigits hc]
  simp [valid]

theorem escapes_codePoint (hc : c.toNat < 65536) : ∃ e, Quoting.codePoint c = '\\' :: e ∧ Escapes e c := by
  refine ⟨'u' :: hexDigits c.toNat, rfl, fun back => ?_, fun back => forall_head_cons.2 (by decide)⟩
  rw [escape, List.cons_append, run_bind (run_one rfl)]
  exact run_codePoint hc

theorem escape_cases (c : Char) :
    (Quoting.escape c = [c] ∧ isText c = true ∧ c ≠ '"' ∧ c ≠ '\\') ∨
      ∃ e, Quoting.escape c = '\\' :: e ∧ Escapes e c := by
  have letter : ∀ {c d : Char}, (∀ back, StateT.run escape (d :: back) = some (c, back)) →
      (isSpace d = false ∧ d ≠ '\n' ∧ d ≠ '\r') → Escapes [d] c := fun hr hd =>
    ⟨hr, fun back => forall_head_cons.2 hd⟩
  unfold Quoting.escape
  split
  case h_8 hb ht hn hf hr hs hq =>
    by_cases hc : isControl c = true
    · rw [if_pos hc]
      refine .inr (escapes_codePoint ?_)
      simp only [isControl, Bool.or_eq_true, Bool.and_eq_true, decide_eq_true_eq] at hc
      rcases hc with hc | rfl
      · omega
      · decide
    · rw [if_neg hc]
      exact .inl ⟨rfl, isText_of_not_control (by simpa using hc) hn, hq, hs⟩
  all_goals exact .inr ⟨_, rfl, letter (fun _ => rfl) (by decide)⟩

end Escapes

namespace Quoting

variable {q : Quoting} {k : Nat}

/-- The most quotes in a row that do not close a string. -/
def slack (q : Quoting) : Nat := if q.block then 2 else 0

theorem quote_ne (q : Quoting) (hd : c ≠ '"') (hs : c ≠ '\x27') : c ≠ q.quote := by
  unfold quote
  split <;> assumption

theorem isText_quote (q : Quoting) : isText q.quote = true := by
  unfold quote
  split <;> decide

/-- What stands for one character in a string, if it is not a quote. -/
inductive Token (q : Quoting) : List Char → Char → Prop
  | lineEnd (hb : q.block = true) : Token q ['\n'] '\n'
  | text {c : Char} (ht : isText c = true) (hq : c ≠ q.quote) (hs : q.basic = true → c ≠ '\\') : Token q [c] c
  | escape {e : List Char} {c : Char} (hb : q.basic = true) (he : Escapes e c) : Token q ('\\' :: e) c

/-- What stands for a text: tokens, each with quotes in front of it, and quotes at the end. -/
inductive Spells (q : Quoting) : List Char → List Char → Prop
  | quotes {k : Nat} (hk : k ≤ q.slack) : Spells q (List.replicate k q.quote) (List.replicate k q.quote)
  | token {k : Nat} {e ds cs : List Char} {c : Char} (hk : k ≤ q.slack) (ht : q.Token e c) (h : Spells q ds cs) :
      Spells q (List.replicate k q.quote ++ (e ++ ds)) (List.replicate k q.quote ++ c :: cs)

theorem none_in_row (hb : q.block = false) (hk : k ≤ q.slack) : k = 0 := by simpa [slack, hb] using hk

theorem not_escaped (hs : q.basic = true → c ≠ '\\') : ¬ (q.basic && decide (c = '\\')) = true := by simpa using hs

theorem escaped_of_basic (hb : q.basic = true) : (q.basic && decide ('\\' = '\\')) = true := by simpa using hb

theorem Token.head (h : q.Token e c) (back : List Char) : ∀ d ∈ (e ++ back).head?, d ≠ q.quote := by
  cases h with
  | lineEnd hb => exact forall_head_cons.2 (q.quote_ne (by decide) (by decide))
  | text ht hq hs => exact forall_head_cons.2 hq
  | escape hb he => exact forall_head_cons.2 (q.quote_ne (by decide) (by decide))

theorem Token.length_pos (h : q.Token e c) : 0 < e.length := by
  cases h <;> exact Nat.succ_pos _

section Reading

theorem Spells.lineBody (hb : q.block = false) (h : q.Spells ds cs) (hn : ds.length < n) :
    StateT.run (Toml.lineBody q.quote q.basic n) (ds ++ q.quote :: back) = some (cs, back) := by
  induction h generalizing n with
  | quotes hk =>
    obtain rfl := none_in_row hb hk
    obtain ⟨n, rfl⟩ := Nat.exists_eq_add_one_of_ne_zero (Nat.ne_zero_of_lt hn)
    rw [Toml.lineBody, List.replicate_zero, List.nil_append, run_bind (run_one q.isText_quote), if_pos rfl]
    rfl
  | @token k e ds cs c hk ht h ih =>
    obtain rfl := none_in_row hb hk
    obtain ⟨n, rfl⟩ := Nat.exists_eq_add_one_of_ne_zero (Nat.ne_zero_of_lt hn)
    simp only [List.replicate_zero, List.nil_append, List.append_assoc, List.length_append] at hn ⊢
    rw [Toml.lineBody]
    cases ht with
    | lineEnd hblock => simp [hb] at hblock
    | text ht hq hs =>
      have hrest := @ih n (by simp only [List.length_singleton] at hn; omega)
      rw [List.singleton_append, run_bind (run_one ht), if_neg hq, if_neg (not_escaped hs), run_bind hrest]
      rfl
    | escape hbasic he =>
      have hrest := @ih n (by simp only [List.length_cons] at hn; omega)
      rw [List.cons_append, run_bind (run_one (by decide)), if_neg (q.quote_ne (by decide) (by decide)),
        if_pos (escaped_of_basic hbasic), run_bind (he.reads _), run_bind hrest]
      rfl

/-- One token is read off the front of what is left of a block. -/
theorem Token.rest (ht : q.Token e c) (hrest : StateT.run (Toml.blockBody q.quote q.basic n) ds = some (cs, back)) :
    StateT.run (Toml.blockBody.rest q.quote q.basic n) (e ++ ds) = some (c :: cs, back) := by
  rw [Toml.blockBody.rest]
  cases ht with
  | lineEnd hb =>
    refine run_orElse ?_
    rw [List.singleton_append, run_bind run_newline, run_bind hrest]
    rfl
  | text ht hq hs =>
    have noLineEnd : StateT.run newline (c :: ds) = none :=
      run_newline_none (forall_head_cons.2 (isText_lineEnd ht))
    rw [List.singleton_append, run_orElse_none (run_bind_none noLineEnd), run_bind (run_one ht),
      if_neg (not_escaped hs), run_bind hrest]
    rfl
  | @escape e c hbasic he =>
    have noLineEnd : StateT.run newline ('\\' :: (e ++ ds)) = none :=
      run_newline_none (forall_head_cons.2 (by decide))
    have noJoin : StateT.run lineJoin (e ++ ds) = none := by
      rw [lineJoin, run_bind (run_blanks_none fun d hd => (he.first ds d hd).1)]
      exact run_bind_none (run_newline_none fun d hd => (he.first ds d hd).2)
    rw [List.cons_append, run_orElse_none (run_bind_none noLineEnd), run_bind (run_one (by decide)),
      if_pos (escaped_of_basic hbasic), run_orElse_none (run_bind_none noJoin), run_bind (he.reads _), run_bind hrest]
    rfl

theorem Spells.blockBody (h : q.Spells ds cs) (hn : ds.length < n) (hback : ∀ c ∈ back.head?, c ≠ q.quote) :
    StateT.run (Toml.blockBody q.quote q.basic n) (ds ++ (List.replicate 3 q.quote ++ back)) = some (cs, back) := by
  have few : ∀ {k}, k ≤ q.slack → k ≤ 2 := fun hk => Nat.le_trans hk (by unfold slack; split <;> decide)
  have quotes : ∀ {k} {back : List Char}, (∀ c ∈ back.head?, c ≠ q.quote) →
      StateT.run (takeWhile (· = q.quote)) (List.replicate k q.quote ++ back) =
        some (List.replicate k q.quote, back) := by
    intro k back hback
    refine run_takeWhile (fun d hd => ?_) fun d hd => decide_eq_false (hback d hd)
    exact decide_eq_true (List.eq_of_mem_replicate hd)
  induction h generalizing n with
  | @quotes k hk =>
    obtain ⟨n, rfl⟩ := Nat.exists_eq_add_one_of_ne_zero (Nat.ne_zero_of_lt hn)
    have := few hk
    -- the quotes of the text and those that close it come as one run
    rw [← List.append_assoc, List.replicate_append_replicate, Toml.blockBody, run_bind (quotes hback),
      List.length_replicate, if_pos (by omega), if_pos (by omega), List.drop_replicate, Nat.add_sub_cancel]
    rfl
  | @token k e ds cs c hk ht h ih =>
    obtain ⟨n, rfl⟩ := Nat.exists_eq_add_one_of_ne_zero (Nat.ne_zero_of_lt hn)
    have := few hk
    have hpos := ht.length_pos
    have hrest := @ih n (by simp only [List.length_append] at hn; omega)
    rw [List.append_assoc, List.append_assoc, Toml.blockBody, run_bind (quotes (ht.head _)), List.length_replicate,
      if_neg (by omega), run_bind (ht.rest hrest)]
    rfl

end Reading

section Writing

/-- The body of a basic string spells it, whatever it is. -/
theorem spells_escaped (hb : q.basic = true) (cs : List Char) {run : Nat} (hr : run ≤ q.slack) :
    q.Spells (List.replicate run q.quote ++ escaped q.block run cs) (List.replicate run q.quote ++ cs) := by
  have hquote : q.quote = '"' := by rw [quote, if_pos hb]
  induction cs generalizing run with
  | nil => simpa [escaped] using Spells.quotes hr
  | cons c cs ih =>
    have hrest : q.Spells (escaped q.block 0 cs) cs := ih (Nat.zero_le _)
    rw [escaped]
    split
    case isTrue h =>
      obtain ⟨hblock, rfl⟩ := h
      exact .token hr (.lineEnd hblock) hrest
    split
    case isTrue h =>
      obtain ⟨hblock, rfl, hrun⟩ := h
      have hmore := @ih (run + 1) (by rw [slack, if_pos hblock]; omega)
      rw [List.replicate_succ', List.append_assoc, List.append_assoc] at hmore
      rwa [← hquote]
    rcases escape_cases c with ⟨he, ht, hq, hs⟩ | ⟨e, he, hread⟩
    · rw [he]
      exact .token hr (.text ht (hquote ▸ hq) fun _ => hs) hrest
    · rw [he]
      exact .token hr (.escape hb hread) hrest

/-- One character on, with the quotes counted up to here and the most of them so far. -/
def counted (quote : Char) (counts : Nat × Nat) (c : Char) : Nat × Nat :=
  if c = quote then (counts.1 + 1, max counts.2 (counts.1 + 1)) else (0, counts.2)

theorem le_counted (quote : Char) (cs : List Char) (counts : Nat × Nat) :
    counts.2 ≤ (cs.foldl (counted quote) counts).2 := by
  induction cs generalizing counts with
  | nil => exact Nat.le_refl _
  | cons c cs ih =>
    refine Nat.le_trans ?_ (ih (counted quote counts c))
    unfold counted
    split
    · exact Nat.le_max_left _ _
    · exact Nat.le_refl _

theorem longestRun_eq_zero {quote : Char} (h : quote ∉ cs) : longestRun quote cs = 0 := by
  have none_counted : cs.foldl (counted quote) (0, 0) = (0, 0) := by
    induction cs with
    | nil => rfl
    | cons c cs ih =>
      obtain ⟨hc, hcs⟩ := not_or.1 (mt List.mem_cons.2 h)
      rw [List.foldl_cons, counted, if_neg (Ne.symm hc)]
      exact ih hcs
  exact congrArg Prod.snd none_counted

/-- Characters that stand for themselves spell themselves, if there are never too many quotes in a row. -/
theorem spells_self {run most : Nat} (hc : ∀ c ∈ cs, c = q.quote ∨ q.Token [c] c) (hr : run ≤ most)
    (hmost : (cs.foldl (counted q.quote) (run, most)).2 ≤ q.slack) :
    q.Spells (List.replicate run q.quote ++ cs) (List.replicate run q.quote ++ cs) := by
  -- the quotes in front belong to the run that goes on in the rest
  induction cs generalizing run most with
  | nil => simpa using Spells.quotes (Nat.le_trans hr hmost)
  | cons c cs ih =>
    obtain ⟨hfirst, hcs⟩ := List.forall_mem_cons.1 hc
    rw [List.foldl_cons] at hmost
    by_cases hq : c = q.quote
    · rw [counted, if_pos hq] at hmost
      have hmore := ih hcs (Nat.le_max_right _ _) hmost
      rw [List.replicate_succ', List.append_assoc] at hmore
      rwa [hq]
    · rw [counted, if_neg hq] at hmost
      have few : run ≤ q.slack := Nat.le_trans hr (Nat.le_trans (le_counted q.quote cs (0, most)) hmost)
      exact .token few (hfirst.resolve_left hq) (@ih 0 most hcs (Nat.zero_le _) hmost)

/-- A literal string spells itself, if it has no control characters, no more quotes in a row than the quoting bears,
and no line ends unless it is a block. -/
theorem spells_literal (hb : q.basic = false) (h : q.fits cs = true) : q.Spells cs cs := by
  simp only [fits, hb, Bool.and_eq_true, Bool.not_eq_true', List.any_eq_false, Bool.false_and, Bool.not_false,
    and_true] at h
  obtain ⟨hcontrol, h⟩ := h
  have allowed : ('\n' ∈ cs → q.block = true) ∧ longestRun q.quote cs ≤ q.slack := by
    cases hblock : q.block
    · simp only [hblock, Bool.false_eq_true, if_false, Bool.and_eq_true, decide_eq_true_eq] at h
      exact ⟨fun hn => absurd hn h.1, Nat.le_trans (Nat.le_of_eq (longestRun_eq_zero h.2)) (Nat.zero_le _)⟩
    · simp only [hblock, if_true, decide_eq_true_eq] at h
      exact ⟨fun _ => rfl, by rwa [slack, if_pos hblock]⟩
  have token : ∀ c ∈ cs, c = q.quote ∨ q.Token [c] c := by
    intro c hc
    by_cases hq : c = q.quote
    · exact .inl hq
    by_cases hn : c = '\n'
    · subst hn
      exact .inr (.lineEnd (allowed.1 hc))
    · exact .inr (.text (isText_of_not_control (by simpa using hcontrol c hc) hn) hq (by simp [hb]))
  exact @spells_self cs q 0 0 token (Nat.le_refl 0) allowed.2

theorem spells_body (cs : List Char) : (choose cs).Spells ((choose cs).body cs) cs := by
  unfold body
  split
  case isTrue hb => exact spells_escaped hb cs (Nat.zero_le _)
  case isFalse hb =>
    refine spells_literal (by simpa using hb) ?_
    unfold choose at hb ⊢
    cases hq : all.find? (·.fits cs) with
    | none => simp [hq] at hb
    | some q =>
      have hfits := List.find?_some hq
      rwa [Option.getD_some]

end Writing

section Strings

theorem decide_quote (q : Quoting) : decide (q.quote = '"') = q.basic := by
  cases h : q.basic <;> simp [quote, h]

theorem quote_ne_lineEnd (q : Quoting) : q.quote ≠ '\n' ∧ q.quote ≠ '\r' := by
  unfold quote
  split <;> decide

theorem Spells.take_ne (hb : q.block = false) (h : q.Spells ds cs) (hback : ∀ c ∈ back.head?, c ≠ q.quote) :
    (q.quote :: (ds ++ q.quote :: back)).take 3 ≠ [q.quote, q.quote, q.quote] := by
  intro htake
  cases h with
  | quotes hk =>
    obtain rfl := none_in_row hb hk
    cases back with
    | nil => simp at htake
    | cons c back =>
      simp only [List.replicate_zero, List.nil_append, List.take_succ_cons, List.cons.injEq, true_and] at htake
      exact hback c rfl htake.1
  | @token k e ds cs c hk ht h =>
    obtain rfl := none_in_row hb hk
    have hhead := ht.head (ds ++ q.quote :: back)
    rw [List.replicate_zero, List.nil_append, List.append_assoc] at htake
    cases hrest : e ++ (ds ++ q.quote :: back) with
    | nil => simp at hrest
    | cons d rest =>
      rw [hrest] at hhead htake
      simp only [List.take_succ_cons, List.cons.injEq, true_and] at htake
      exact hhead d rfl htake.1

theorem Spells.first (h : q.Spells ds cs) (hn : '\n' ∉ cs) :
    ∀ c ∈ (ds ++ q.quote :: back).head?, c ≠ '\n' ∧ c ≠ '\r' := by
  have quotes : ∀ {k x}, (∀ c ∈ x.head?, c ≠ '\n' ∧ c ≠ '\r') →
      ∀ c ∈ (List.replicate k q.quote ++ x).head?, c ≠ '\n' ∧ c ≠ '\r' := by
    intro k x hx
    cases k with
    | zero => exact hx
    | succ k => exact forall_head_cons.2 q.quote_ne_lineEnd
  cases h with
  | quotes hk => exact quotes (forall_head_cons.2 q.quote_ne_lineEnd)
  | @token k e ds cs c hk ht h =>
    rw [List.append_assoc, List.append_assoc]
    apply quotes
    cases ht with
    | lineEnd hb => simp at hn
    | text ht hq hs => exact forall_head_cons.2 (isText_lineEnd ht)
    | escape hb he => exact forall_head_cons.2 (by decide)

theorem run_quoted_line (hb : q.block = false) (h : q.Spells (q.body cs) cs)
    (hback : ∀ c ∈ back.head?, c ≠ q.quote) :
    StateT.run (quoted q.quote) (q.write cs ++ back) = some (String.ofList cs, back) := by
  have hwrite : q.write cs ++ back = q.quote :: (q.body cs ++ q.quote :: back) := by simp [write, hb]
  have hroom : (q.body cs).length < (q.body cs ++ q.quote :: back).length + 1 := by
    rw [List.length_append]
    omega
  rw [hwrite, quoted, run_bind (StateT.run_get _), if_neg (h.take_ne hb hback), lineString, run_bind run_char,
    run_bind run_room, decide_quote, run_bind (h.lineBody hb hroom)]
  rfl

theorem run_quoted_block (hb : q.block = true) (h : q.Spells (q.body cs) cs)
    (hback : ∀ c ∈ back.head?, c ≠ q.quote) :
    StateT.run (quoted q.quote) (q.write cs ++ back) = some (String.ofList cs, back) := by
  have hroom : (q.body cs).length < (q.body cs ++ (List.replicate 3 q.quote ++ back)).length + 1 := by
    rw [List.length_append]
    omega
  have hopen : StateT.run (attempt newline)
      ((if '\n' ∈ cs then ['\n'] else []) ++ (q.body cs ++ (List.replicate 3 q.quote ++ back))) =
        some ((), q.body cs ++ (List.replicate 3 q.quote ++ back)) := by
    split
    · exact run_attempt run_newline
    · exact run_attempt_none (run_newline_none (h.first ‹_›))
  have hwrite : q.write cs ++ back = [q.quote, q.quote, q.quote] ++
      ((if '\n' ∈ cs then ['\n'] else []) ++ (q.body cs ++ (List.replicate 3 q.quote ++ back))) := by
    simp [write, hb]
  rw [hwrite, quoted, run_bind (StateT.run_get _), if_pos (by rfl), blockString, run_bind run_word, run_bind hopen,
    run_bind run_room, decide_quote, run_bind (h.blockBody hroom hback)]
  rfl

theorem head?_write (q : Quoting) (cs back : List Char) : (q.write cs ++ back).head? = some q.quote := by
  unfold write
  split <;> rfl

theorem run_quoted (cs : List Char) (hback : ∀ c ∈ back.head?, c ≠ '"' ∧ c ≠ '\x27') :
    StateT.run (quoted (choose cs).quote) ((choose cs).write cs ++ back) = some (String.ofList cs, back) := by
  have hb : ∀ c ∈ back.head?, c ≠ (choose cs).quote := fun c hc => quote_ne _ (hback c hc).1 (hback c hc).2
  cases hblock : (choose cs).block
  · exact run_quoted_line hblock (spells_body cs) hb
  · exact run_quoted_block hblock (spells_body cs) hb

end Strings

end Quoting

theorem run_scalar (s : String) (hback : ∀ c ∈ back.head?, c ≠ '"' ∧ c ≠ '\x27') :
    StateT.run scalar (writeString s ++ back) = some (.string s, back) := by
  have hread := Quoting.run_quoted s.toList hback
  rw [String.ofList_toList] at hread
  rw [scalar, writeString, run_bind run_peek, Quoting.head?_write]
  cases hb : (Quoting.choose s.toList).basic
  · have hq : (Quoting.choose s.toList).quote = '\x27' := by simp [Quoting.quote, hb]
    rw [hq] at hread ⊢
    exact run_bind hread
  · have hq : (Quoting.choose s.toList).quote = '"' := by simp [Quoting.quote, hb]
    rw [hq] at hread ⊢
    exact run_bind hread

example : writeString "Its name is 'say \"no\"'" = "\"\"\"Its name is 'say \"no\"'\"\"\"".toList := by decide

theorem first_writeString (s : String) : ∀ c ∈ (writeString s ++ back).head?, c = '"' ∨ c = '\x27' := by
  intro c hc
  rw [writeString, Quoting.head?_write] at hc
  obtain rfl := Option.some.inj hc
  unfold Quoting.quote
  split
  · exact .inl rfl
  · exact .inr rfl

theorem run_value (depth : Nat) (s : String) (hback : ∀ c ∈ back.head?, c ≠ '"' ∧ c ≠ '\x27') :
    StateT.run (value depth) (writeString s ++ back) = some (.string s, back) := by
  have other : ∀ {c}, c ≠ '"' → c ≠ '\x27' → c ∉ (writeString s ++ back).head? := fun hd hs hc =>
    (first_writeString s _ hc).elim hd hs
  cases depth with
  | zero => exact run_scalar s hback
  | succ depth =>
    have noArray := run_accept_none (other (c := '[') (by decide) (by decide))
    have noTable := run_accept_none (other (c := '\x7b') (by decide) (by decide))
    rw [value, run_bind noArray, if_neg Bool.false_ne_true, run_bind noTable, if_neg Bool.false_ne_true]
    exact run_scalar s hback

end Grove.Toml
