import Grove.Proofs.Loading
import Grove.Proofs.Sorted
import Mathlib.Data.String.Basic

/-! What a registry holds. However subroutines were loaded, registered and removed, and whichever of these requests
failed, every entry has a body, and its call is what the body declares, under the name that it is stored under. So a
node that calls a subroutine has one slot for each argument of the body that runs, and the names list all entries. -/

namespace Grove
namespace Registry

inductive Request where
  | load (catalog : NodeCatalog) (text : String)
  | register (t : Tree)
  | remove (name : String)

def serve (r : Registry) : Request → Registry
  | .load catalog text => (r.loadDocument catalog text).2
  | .register t => (r.register t).toOption.elim r (·.2)
  | .remove name => (r.remove name).2

def serveAll (r : Registry) (requests : List Request) : Registry := requests.foldl serve r

/-- Names are stored once, each for a body that declares its call. -/
structure Kept (r : Registry) : Prop where
  names : (r.entries.map (·.1)).Nodup
  bodies : ∀ {name e}, r.entry? name = some e → ∃ t, e.body = some t ∧ t.signature.callee? = some e.callee ∧
    e.callee.name = name

variable {r : Registry} {t : Tree} {c : Callee}

theorem kept_empty : empty.Kept := ⟨List.nodup_nil, nofun⟩

theorem Kept.stored (h : r.Kept) (ht : t.signature.callee? = some c) : (r.stored c (some t)).Kept := by
  refine ⟨Table.nodup_put h.names, fun {name e} he => ?_⟩
  rw [entry?_stored] at he
  split at he
  · rename_i hname
    cases he
    exact ⟨t, rfl, ht, hname.symm⟩
  · exact h.bodies he

theorem Kept.rollback (h : r.Kept) (name : String) : (r.rollback name).Kept := by
  refine ⟨Table.nodup_drop h.names, fun {other e} he => ?_⟩
  rw [Registry.rollback, entry?, Table.lookup_drop] at he
  split at he
  · cases he
  · exact h.bodies he

theorem Kept.loadDocument (h : r.Kept) (catalog : NodeCatalog) (text : String) :
    (r.loadDocument catalog text).2.Kept := by
  have hends := r.loadDocument_ends catalog text
  generalize r.loadDocument catalog text = res at hends
  cases hends with
  | refused => exact h
  | loaded hp hs hn hread => exact h.stored (signature_of_readTree hread ▸ hs)

theorem Kept.register (h : r.Kept) (t : Tree) : (r.serve (.register t)).Kept := by
  unfold Registry.serve
  dsimp only
  cases hr : r.register t with
  | error e => exact h
  | ok p =>
    obtain ⟨c, r'⟩ := p
    obtain ⟨hc, -, rfl⟩ := register_iff.1 hr
    exact h.stored hc

theorem Kept.serve (h : r.Kept) (request : Request) : (r.serve request).Kept := by
  cases request with
  | load catalog text => exact h.loadDocument catalog text
  | register t => exact h.register t
  | remove name => exact h.rollback name

theorem Kept.serveAll (h : r.Kept) (requests : List Request) : (r.serveAll requests).Kept := by
  induction requests generalizing r with
  | nil => exact h
  | cons request requests ih => exact ih (h.serve request)

theorem Kept.callee {name : String} {e : Entry} (h : r.Kept) (he : r.entry? name = some e) : ∃ t, e.body = some t ∧
    t.name = some name ∧ e.callee = ⟨name, t.signature.returns, t.signature.arguments⟩ := by
  obtain ⟨t, hbody, hcallee, rfl⟩ := h.bodies he
  obtain ⟨own, hown, hc⟩ := Option.map_eq_some_iff.1 hcallee
  rw [← hc]
  exact ⟨t, hbody, hown, rfl⟩

theorem Kept.names_ascending (h : r.Kept) : r.names.Pairwise (· < ·) ∧ r.names.Perm (r.entries.map (·.1)) := by
  have hall : r.entries.filter (fun e => e.2.body.isSome) = r.entries := by
    refine List.filter_eq_self.2 fun e he => ?_
    obtain ⟨t, hbody, -⟩ := h.bodies ((Table.lookup_eq_some h.names).2 he)
    simp [hbody]
  unfold Registry.names
  rw [hall]
  exact ⟨sortBy_ascending id (by simpa using h.names), sortBy_perm _ _⟩

/-- Whatever was requested of a registry that was empty at first, all its entries have bodies that are stored under the
names that they declare, with the calls that they declare. So a node that calls one of them has a slot of the type
declared for every argument of the body that it runs; and the names ascend and are those of all entries. -/
theorem served_entries (requests : List Request) :
    let r := empty.serveAll requests
    (∀ name e, (name, e) ∈ r.entries → r.entry? name = some e ∧ ∃ t, e.body = some t ∧ t.name = some name ∧
      e.callee = ⟨name, t.signature.returns, t.signature.arguments⟩) ∧
    (∀ name n, r.prototype? name = some n → ∃ c t, n = .call c ∧ c.name = name ∧ r.body? c.name = some t ∧
      n.arity = t.signature.arguments.length ∧
      ∀ slot (h : slot < t.signature.arguments.length), n.slotType slot = t.signature.arguments[slot]) ∧
    r.names.Pairwise (· < ·) ∧ r.names.Perm (r.entries.map (·.1)) := by
  intro r
  have h : r.Kept := kept_empty.serveAll requests
  refine ⟨fun name e he => ?_, fun name n hn => ?_, h.names_ascending⟩
  · have hentry : r.entry? name = some e := (Table.lookup_eq_some h.names).2 he
    exact ⟨hentry, h.callee hentry⟩
  · obtain ⟨c, hc, rfl⟩ := Option.map_eq_some_iff.1 hn
    obtain ⟨e, he, rfl⟩ := Option.map_eq_some_iff.1 hc
    obtain ⟨t, hbody, -, hcallee⟩ := h.callee he
    refine ⟨e.callee, t, rfl, by rw [hcallee], ?_, by rw [hcallee]; rfl, fun slot hslot => ?_⟩
    · rw [hcallee, body?, he]
      exact hbody
    · rw [hcallee]
      simp [Node.slotType, hslot]

def second : Tree := .planted ⟨some "Second", .int, [.bool, .int], []⟩ (.node (.argument .int 1) nofun)

def againText : String := "[tree]\nname = \"Again\"\nreturn_type = \"int\"\ntree_entity = \"+--Again\"\n"

/-- Some requests, of which the second, the fourth and the last one change nothing. -/
def requests : List Request := [.register second, .register second, .load (.empty .standard) againText,
  .load (.empty .standard) "[tree]\nname = \"Six\"\n", .remove "Six"]

theorem served_entries_second : (empty.serveAll requests).names = ["Again", "Second"] ∧
    ∃ t, (empty.serveAll requests).body? "Second" = some t ∧ t.signature.arguments.length = 2 := by
  have hruns : ((empty.serveAll requests).names, (empty.serveAll requests).prototype? "Second") =
      (["Again", "Second"], some (.call ⟨"Second", .int, [.bool, .int]⟩)) := by
    decide +kernel
  obtain ⟨hnames, hcall⟩ := Prod.mk.inj hruns
  obtain ⟨c, t, hc, hname, hbody, harity, -⟩ := (served_entries requests).2.1 _ _ hcall
  exact ⟨hnames, t, hname ▸ hbody, harity.symm⟩

end Registry
end Grove
