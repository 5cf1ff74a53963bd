import Grove.Proofs.Exchange
import Grove.Proofs.Isomorphism
import Grove.Proofs.Pairing
import Grove.Proofs.RoundTrip

/-! Structure is all that counts. Isomorphic trees have the same text, height and number of nodes, and they evaluate
to the same outcome in as many steps, whatever may be registered and wherever the run is cut off, for arguments that
hold the same and leave the same behind. What is read from the text of a tree is isomorphic to it. -/

namespace Grove

inductive Failure.Alike : Failure → Failure → Prop
  | refused (e : Error) : Alike (.refused e) (.refused e)
  | violated {v v' : Violation} (h : v.Alike v') : Alike (.violated v) (.violated v')

/-- Registries with isomorphic bodies under the same names. A body may also be left as it is. -/
def Registry.Interchangeable (g g' : Registry) : Prop :=
  ∀ name, Option.Rel (fun b b' => b' = b ∨ b.Placed ∧ b'.Placed ∧ b.Isomorphic b') (g.body? name) (g'.body? name)

/-- Arguments of the same bases with the same contents, which share cells just where the others do. -/
structure SameArguments (s s' : Store) (xs xs' : List Variable) : Prop where
  contents : List.Forall₂ (fun x x' => x'.base = x.base ∧ x'.content s' = x.content s) xs xs'
  live : (∀ x ∈ xs, x.cell < s.cells.size) ∧ ∀ x' ∈ xs', x'.cell < s'.cells.size
  shared : ∀ p ∈ xs.zip xs', ∀ q ∈ xs.zip xs', p.1.cell = q.1.cell ↔ p.2.cell = q.2.cell

namespace SameResult

variable {ε α β : Type} {alike : ε → ε → Prop} {x x' : Except ε α}

theorem refl (h : ∀ e, alike e e) (x : Except ε α) : SameResult alike x x := by
  cases x with
  | ok a => exact .ok a
  | error e => exact .error (h e)

theorem map (h : SameResult alike x x') (f : α → β) : SameResult alike (x.map f) (x'.map f) := by
  cases h with
  | ok a => exact .ok (f a)
  | error h => exact .error h

theorem bind (h : SameResult alike x x') {f f' : α → Except ε β} (hf : ∀ a, SameResult alike (f a) (f' a)) :
    SameResult alike (x >>= f) (x' >>= f') := by
  cases h with
  | ok a => exact hf a
  | error h => exact .error h

theorem foldlM {ι : Type} {f f' : α → ι → Except ε α} (h : ∀ a i, SameResult alike (f a i) (f' a i)) (l : List ι)
    (a : α) :
    SameResult alike (l.foldlM f a) (l.foldlM f' a) := by
  induction l generalizing a with
  | nil => exact .ok a
  | cons i l ih =>
    rw [List.foldlM_cons, List.foldlM_cons]
    exact (h a i).bind ih

theorem mapM {ι : Type} {f f' : ι → Except ε α} (h : ∀ i, SameResult alike (f i) (f' i)) (l : List ι) :
    SameResult alike (l.mapM f) (l.mapM f') := by
  induction l with
  | nil => exact .ok []
  | cons i l ih =>
    rw [List.mapM_cons, List.mapM_cons]
    exact (h i).bind fun a => ih.bind fun as => .ok (a :: as)

end SameResult

theorem Failure.Alike.refl (f : Failure) : f.Alike f := by
  cases f with
  | refused e => exact .refused e
  | violated v => exact .violated (.refl v)

namespace Shape

variable {breach : Violation → Violation → Prop} {s s' : Shape}

theorem Alike.height (h : s.Alike breach s') : SameResult breach s.height s'.height := by
  induction h with
  | node _ ih => exact .foldlM (fun most i => (ih i).map _) _ _
  | torn h => exact .error h

theorem Alike.count (h : s.Alike breach s') : SameResult breach s.count s'.count := by
  induction h with
  | node _ ih => exact .foldlM (fun sum i => (ih i).map _) _ _
  | torn h => exact .error h

theorem Alike.lines (h : s.Alike Violation.Alike s') (types : TypeCatalog) (indent : List Char) (last : Bool) :
    SameResult Failure.Alike (s.lines types indent last) (s'.lines types indent last) := by
  induction h generalizing indent last with
  | node _ ih =>
    unfold Shape.lines
    exact (SameResult.refl Failure.Alike.refl _).bind fun _ =>
      (SameResult.mapM (fun i => ih i _ _) _).bind fun _ => .ok _
  | torn h =>
    unfold Shape.lines
    exact (SameResult.refl Failure.Alike.refl _).bind fun _ => .error (.violated h)

end Shape

theorem Registry.Interchangeable.samePrograms {g g' : Registry} (h : g.Interchangeable g') :
    g.SamePrograms Violation.Alike g' := fun name => by
  have hbodies := h name
  rcases hb : g.body? name with _ | b <;> rcases hb' : g'.body? name with _ | b' <;> rw [hb, hb'] at hbodies <;>
    cases hbodies
  · exact .none
  · rename_i hbody
    rcases hbody with rfl | ⟨hp, hp', hiso⟩
    · exact .some (.refl .refl b')
    · exact .some (hiso.sameProgram hp hp')

namespace SameArguments

variable {s s' u u' : Store} {xs xs' : List Variable} (h : SameArguments s s' xs xs')
include h

/-- The cells of the arguments, paired by position. -/
def pairing : Pairing where
  size := s.cells.size
  size' := s'.cells.size
  old _ c c' := ∃ p ∈ xs.zip xs', p.1.cell = c ∧ p.2.cell = c'
  agree _ v v' := v' = v
  inside := by
    rintro _ _ _ ⟨p, hp, rfl, rfl⟩
    exact ⟨h.live.1 _ (List.of_mem_zip hp).1, h.live.2 _ (List.of_mem_zip hp).2⟩
  oneToOne := by
    rintro _ _ _ _ _ _ ⟨p, hp, rfl, rfl⟩ ⟨q, hq, rfl, rfl⟩
    exact h.shared p hp q hq
  agree_refl _ _ := rfl
  settled h := by rw [h]

theorem pairs : List.Forall₂ (h.pairing.lockstep Violation.Alike .refl).pair xs xs' := by
  obtain ⟨hlen, hzip⟩ := List.forall₂_iff_zip.1 h.contents
  exact List.forall₂_iff_zip.2 ⟨hlen, fun hp => ⟨(hzip hp).1, .old ⟨_, hp, rfl, rfl⟩⟩⟩

theorem stores : h.pairing.Stores s s' where
  made := ⟨0, rfl, rfl⟩
  agree hc := by
    cases hc with
    | old hc =>
      obtain ⟨p, hp, rfl, rfl⟩ := hc
      exact ((List.forall₂_iff_zip.1 h.contents).2 hp).2
    | made k =>
      have beyond : ∀ (u : Store) (k : Nat), u.content (u.cells.size + k) = none := fun u k => by simp [Store.content]
      exact (beyond s' k).trans (beyond s k).symm

theorem of_stores (hu : h.pairing.Stores u u') : SameArguments u u' xs xs' where
  contents := by
    obtain ⟨hlen, hzip⟩ := List.forall₂_iff_zip.1 h.contents
    refine List.forall₂_iff_zip.2 ⟨hlen, fun {x x'} hp => ⟨(hzip hp).1, ?_⟩⟩
    exact hu.agree (b := x.base) (.old ⟨_, hp, rfl, rfl⟩)
  live := by
    obtain ⟨n, hn, hn'⟩ := hu.made
    exact ⟨fun x hx => hn ▸ Nat.lt_add_right n (h.live.1 x hx), fun x hx => hn' ▸ Nat.lt_add_right n (h.live.2 x hx)⟩
  shared := h.shared

end SameArguments

namespace Tree.Isomorphic

variable {t t' : Tree} (h : t.Isomorphic t') (ht : t.Placed) (ht' : t'.Placed)
include h ht ht'

theorem text (types : TypeCatalog) : SameResult Failure.Alike (t.text types) (t'.text types) := by
  have hshapes := h.shape? ht ht'
  unfold Tree.text
  generalize t.shape? = s at hshapes
  generalize t'.shape? = s' at hshapes
  cases hshapes with
  | none => exact .error (.refl _)
  | some hs => exact (hs.lines types [] true).map _

theorem measured {α : Type} {f : Shape → Except Violation α}
    (hf : ∀ {s s' : Shape}, s.Alike Violation.Alike s' → SameResult Violation.Alike (f s) (f s')) {i i' : NodeId}
    (hi : t.root = some i) (hi' : t'.root = some i') :
    SameResult Violation.Alike (f (t.forest.shape i)) (f (t'.forest.shape i')) := by
  have hshapes := h.shape? ht ht'
  rw [Tree.shape?, Tree.shape?, hi, hi'] at hshapes
  cases hshapes with
  | some hs => exact hf hs

theorem evaluate (limits : Limits) {g g' : Registry} (hg : g.Interchangeable g') {s s' : Store} {xs xs' : List Variable}
    (hs : SameArguments s s' xs xs') :
    (hs.pairing.lockstep Violation.Alike .refl).Agrees (t.evaluate ⟨limits, g⟩ xs s)
      (t'.evaluate ⟨limits, g'⟩ xs' s') :=
  have hl : (World.mk limits g').limits = (World.mk limits g).limits := rfl
  Lockstep.evaluate hl hg.samePrograms (h.sameProgram ht ht') hs.pairs hs.stores

end Tree.Isomorphic

theorem Tree.Intact.placed {t : Tree} (h : t.Intact) : t.Placed := by
  obtain ⟨r, hr⟩ := Tree.intact_iff.1 h
  refine ⟨hr.whole.sound.placed, fun i hi => ?_, fun i hi => ?_⟩ <;>
    obtain rfl := Option.some.inj (hr.root.symm.trans hi)
  · exact hr.whole.root
  · exact hr.whole.top

/-- Isomorphic trees cannot be told apart: they have the same text, height, number and pre-order of nodes, and with
interchangeable registries, any limits and arguments that hold the same, they evaluate to the same outcome in as many
steps and leave the same in their arguments. A valid tree of known nodes is isomorphic to what is read from its text. -/
theorem isomorphic_indistinguishable {t t' : Tree} (h : t.Isomorphic t') (ht : t.Placed) (ht' : t'.Placed) :
    (∀ types, SameResult Failure.Alike (t.text types) (t'.text types)) ∧
    (∀ i i', t.root = some i → t'.root = some i' →
      SameResult Violation.Alike (t.forest.height i) (t'.forest.height i') ∧
      SameResult Violation.Alike (t.forest.count i) (t'.forest.count i')) ∧
    t'.nodes.map t'.forest.node? = t.nodes.map t.forest.node? ∧
    (∀ (limits : Limits) {g g' : Registry}, g.Interchangeable g' → ∀ {s s' : Store} {xs xs' : List Variable},
      SameArguments s s' xs xs' →
      let e := t.evaluate ⟨limits, g⟩ xs s
      let e' := t'.evaluate ⟨limits, g'⟩ xs' s'
      SameResult Violation.Alike e.1 e'.1 ∧ e'.2.steps = e.2.steps ∧ SameArguments e.2.store e'.2.store xs xs') ∧
    ∀ {v : Vocabulary} {ns : List Node}, v.catalog.Stocked → t.ValidFor t.signature → t.Lists ns →
      (∀ n ∈ ns, v.Knows n ∧ n.Legible) →
      ∃ text copy, t.text v.catalog.types = .ok text ∧ v.readTree text t.signature = .ok copy ∧
        t.Isomorphic copy ∧ copy.Placed := by
  refine ⟨h.text ht ht', fun i i' hi hi' => ⟨h.measured ht ht' Shape.Alike.height hi hi',
    h.measured ht ht' Shape.Alike.count hi hi'⟩, h.nodes ht ht', fun limits _ _ hg _ _ _ _ hs => ?_,
    fun {v ns} hc hvalid hns hk => ?_⟩
  · have hagrees := h.evaluate ht ht' limits hg hs
    exact ⟨hagrees.outcome, hagrees.steps, hs.of_stores hagrees.store⟩
  · obtain ⟨e, hd, ha⟩ := hvalid.term
    obtain rfl := hd.lists.1 hns
    obtain ⟨text, htext, hread⟩ := Vocabulary.readTree_planted hc.spelled hk hd ha
    have alike : t.Alike (.planted t.signature e) := ⟨rfl, e, hd, Tree.denotes_planted _ e⟩
    exact ⟨text, _, by rwa [hc.spelled.types], hread, alike.isomorphic, (Tree.intact_planted ha).placed⟩

namespace Layouts

def next : Tree where
  signature := ⟨some "next", .int, [.int], []⟩
  forest := ⟨[(2, .const (.int 1)), (1, .argument .int 0), (0, .arithmetic .add .int)], [⟨0, 1, 2⟩, ⟨0, 0, 1⟩], 3⟩
  root := some 0

/-- The tree `next` under other numbers, with its edges made in the other order and a node that hangs nowhere. -/
def moved : Tree where
  signature := ⟨some "next", .int, [.int], []⟩
  forest := ⟨[(7, .nop .int), (5, .arithmetic .add .int), (4, .argument .int 0), (1, .const (.int 1))],
    [⟨5, 0, 4⟩, ⟨5, 1, 1⟩], 8⟩
  root := some 5

theorem next_isomorphic : next.Isomorphic moved := by
  refine ⟨rfl, fun i i' => (i, i') ∈ [(0, 5), (1, 4), (2, 1)], fun i i' h => ?_, .some (by simp)⟩
  simp only [List.mem_cons, Prod.mk.injEq, List.not_mem_nil, or_false] at h
  rcases h with ⟨rfl, rfl⟩ | ⟨rfl, rfl⟩ | ⟨rfl, rfl⟩
  · refine ⟨rfl, fun slot => ?_⟩
    match slot with
    | 0 => exact .some (by simp)
    | 1 => exact .some (by simp)
    | _ + 2 => exact .none
  · exact ⟨rfl, fun _ => .none⟩
  · exact ⟨rfl, fun _ => .none⟩

theorem next_placed : next.Placed where
  forest := ⟨by decide, by decide, by unfold Forest.Unshared; decide⟩
  root := by simp [next]
  top := by simp [next]

theorem moved_placed : moved.Placed where
  forest := ⟨by decide, by decide, by unfold Forest.Unshared; decide⟩
  root := by simp [moved]
  top := by simp [moved]

def registry (body : Tree) : Registry := ⟨[("next", ⟨⟨"next", .int, [.int]⟩, some body⟩)]⟩

theorem registry_interchangeable : (registry next).Interchangeable (registry moved) := fun name => by
  by_cases hn : name = "next"
  · subst hn
    exact .some (.inr ⟨next_placed, moved_placed, next_isomorphic⟩)
  · have absent : ∀ body, (registry body).body? name = none := fun body => by
      simp [registry, Registry.body?, Registry.entry?, Table.lookup_cons_eq, hn]
    rw [absent, absent]
    exact .none

theorem sameArguments :
    SameArguments ⟨#[some (.int 41)]⟩ ⟨#[none, some (.int 41)]⟩ [⟨.int, 0, nofun⟩] [⟨.int, 1, nofun⟩] :=
  ⟨.cons ⟨rfl, rfl⟩ .nil, by simp, by simp⟩

theorem isomorphic_indistinguishable_next : next.nodes = [0, 1, 2] ∧ moved.nodes = [5, 4, 1] ∧
    moved.nodes.map moved.forest.node? = next.nodes.map next.forest.node? ∧
    SameResult Failure.Alike (next.text .standard) (moved.text .standard) ∧
    let e := next.evaluate ⟨⟨10, 2⟩, registry next⟩ [⟨.int, 0, nofun⟩] ⟨#[some (.int 41)]⟩
    let e' := moved.evaluate ⟨⟨10, 2⟩, registry moved⟩ [⟨.int, 1, nofun⟩] ⟨#[none, some (.int 41)]⟩
    e.1 = .ok (.returned (.int 42)) ∧ SameResult Violation.Alike e.1 e'.1 ∧ e'.2.steps = e.2.steps := by
  obtain ⟨htext, -, hnodes, heval, -⟩ := isomorphic_indistinguishable next_isomorphic next_placed moved_placed
  obtain ⟨hout, hsteps, -⟩ := heval ⟨10, 2⟩ registry_interchangeable sameArguments
  exact ⟨by decide, by decide, hnodes, htext .standard, by decide +kernel, hout, hsteps⟩

end Layouts

end Grove
